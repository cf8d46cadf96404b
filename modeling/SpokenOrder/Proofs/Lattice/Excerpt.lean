import SpokenOrder.Proofs.Lattice.Optimal
import SpokenOrder.Proofs.Lattice.Restrict

/-!
# Tokenizing a span

The tilings of a lattice are the runs that tile its words with its edges
(`Lattice.mem_tilings_iff_tiles`). Where each word has an edge that leads on, there is one
(`Lattice.exists_isPath`). A restricted lattice has such edges, for a word without a wanted filler
gets a filler of one word; its tokenizations, moved to the span, tile the span with wanted edges and
such fillers (`Lattice.tokenizations_restrict`). This takes ends below the bound of sizes: at the
bound a span is left without words, and a walk is led back to earlier words
(`Lattice.restrict_longSpan_longReading`).
-/

namespace SpokenOrder

/-! ## Runs elsewhere -/

/-- The placed token, so many words later. -/
def Placed.shift {β : Type} (n : Nat) (p : Placed β) : Placed β :=
  ⟨p.token, ⟨n + p.span.start, p.span.length⟩⟩

namespace Run

/-- The run, so many words later. -/
def shift (n : Nat) (run : Run) : Run := List.map (Placed.shift n) run

variable {n lo hi : Nat} {run : Run}

/-- A run tiles words if and only if, moved, it tiles the moved words. -/
theorem tiles_shift_iff : Tiles (n + lo) (run.shift n) (n + hi) ↔ Tiles lo run hi := by
  induction run generalizing lo with
  | nil => exact Nat.add_left_cancel_iff
  | cons p rest ih =>
    have hstop : (p.shift n).span.stop = n + p.span.stop := Nat.add_assoc _ _ _
    show _ ∧ _ ∧ Tiles (p.shift n).span.stop (shift n rest) (n + hi) ↔ _
    rw [hstop, ih]
    exact and_congr_left fun _ => Nat.add_left_cancel_iff

/-- The tokens of a tiling begin before its end. -/
theorem Tiles.start_lt (h : Tiles lo run hi) {p : Placed Token} (hp : p ∈ run) :
    p.span.start < hi := by
  have hstop : p.span.start + p.span.length ≤ hi := (h.between_words.within hp).2
  have hpos := h.pos hp
  omega

/-- A run that begins late enough comes from an earlier one. -/
theorem Tiles.exists_shift (h : Tiles lo run hi) (hle : n ≤ lo) : ∃ back, shift n back = run := by
  induction run generalizing lo with
  | nil => exact ⟨[], rfl⟩
  | cons p rest ih =>
    obtain ⟨rfl, -, hrest⟩ := h
    obtain ⟨back, rfl⟩ := ih hrest (Nat.le_trans hle p.span.start_le_stop)
    refine ⟨⟨p.token, ⟨p.span.start - n, p.span.length⟩⟩ :: back, ?_⟩
    show (⟨p.token, ⟨n + (p.span.start - n), p.span.length⟩⟩ : Placed Token) :: _ = _
    rw [Nat.add_sub_cancel' hle]
    rfl

end Run

namespace Lattice

variable {α : Type} {l : Lattice α} {start stop i : Nat} {e : Edge α} {p : Placed Token} {run : Run}

/-! ## Tilings -/

/-- An edge of the lattice reads the token where it is placed. -/
def Reads (l : Lattice α) (p : Placed Token) : Prop :=
  ∃ e, l.HasEdge p.span.start e ∧ p = ⟨e.token, ⟨p.span.start, e.length⟩⟩

/-- The placed paths are the runs that tile the words with edges of the lattice. -/
theorem exists_isPath_place_iff : (∃ path, l.IsPath start path ∧ place start path = run) ↔
    Run.Tiles start run l.size ∧ ∀ p ∈ run, l.Reads p := by
  constructor
  · rintro ⟨path, hpath, rfl⟩
    refine ⟨hpath.tiles, fun p hp => ?_⟩
    obtain ⟨i, e, he, -, rfl⟩ := hpath.exists_hasEdge hp
    exact ⟨e, he, rfl⟩
  · rintro ⟨htiles, hreads⟩
    induction run generalizing start with
    | nil =>
      obtain rfl : start = l.size := htiles
      exact ⟨[], .stop, rfl⟩
    | cons p rest ih =>
      obtain ⟨⟨e, he, hp⟩, hrest⟩ := List.forall_mem_cons.1 hreads
      obtain ⟨rfl, hpos, htiles⟩ := htiles
      have hlength : p.span.length = e.length := congrArg (·.span.length) hp
      rw [Span.stop, hlength] at htiles
      obtain ⟨path, hpath, hplace⟩ := ih htiles hrest
      refine ⟨e :: path, he.isPath (hlength ▸ hpos) hpath, ?_⟩
      rw [place, hplace, ← hp]

/-- The tokenizations of a lattice are the runs that tile its words with its edges. -/
theorem mem_tilings_iff_tiles : run ∈ l.tilings ↔
    l.positions ≠ [] ∧ Run.Tiles 0 run l.size ∧ ∀ p ∈ run, l.Reads p := by
  rw [mem_tilings_iff, exists_isPath_place_iff]

/-- Where an edge leads on from each word, there is a path from each word. -/
theorem exists_isPath (h : ∀ i < l.size, ∃ e, l.HasEdge i e ∧ e.Within (l.size - i))
    (hstart : start ≤ l.size) : ∃ path, l.IsPath start path := by
  induction start, hstart using position_induction with
  | stop => exact ⟨[], .stop⟩
  | take start edges hedges ih =>
    obtain ⟨e, he, hwithin⟩ := h start (List.getElem?_eq_some_iff.1 hedges).1
    obtain ⟨path, hpath⟩ := ih e hwithin
    exact ⟨e :: path, he.isPath hwithin.1 hpath⟩

/-! ## The edges of a restricted lattice -/

/-- Each edge covers a word or more. -/
def Advances (l : Lattice α) : Prop := ∀ start e, l.HasEdge start e → 0 < e.length

/-- A wanted edge that begins at the position and ends no later than `stop`. -/
def Offers (l : Lattice α) (wanted : Token → Bool) (stop start : Nat) (e : Edge α) : Prop :=
  l.HasEdge start e ∧ start + e.length ≤ stop ∧ wanted e.token = true

/-- A placed token that is read up to `stop`: it comes from a wanted edge, or it leaves one word
unexplained where no wanted filler begins. -/
inductive ReadsUpTo (l : Lattice α) (wanted : Token → Bool) (stop : Nat) : Placed Token → Prop
  | edge {start : Nat} {e : Edge α} : l.Offers wanted stop start e →
      ReadsUpTo l wanted stop ⟨e.token, ⟨start, e.length⟩⟩
  | filler {start : Nat} : (∀ f, l.Offers wanted stop start f → f.isFiller = false) →
      ReadsUpTo l wanted stop ⟨.unknown "_", ⟨start, 1⟩⟩

variable [Score α] {span : Span} {wanted : Token → Bool}

omit [Score α] in
/-- Where edges end below the bound, those that are taken to end in time do. -/
theorem KeepsStops.hasWanted_iff (hl : l.KeepsStops) :
    l.HasWanted wanted stop start e ↔ l.Offers wanted stop start e := by
  constructor
  · rintro ⟨he, hle, hwanted⟩
    exact ⟨he, hl.keptStop_eq he ▸ hle, hwanted⟩
  · rintro ⟨he, hle, hwanted⟩
    exact ⟨he, (hl.keptStop_eq he).symm ▸ hle, hwanted⟩

/-- What a restricted lattice reads at a word of the span. -/
theorem reads_restrict_iff (hl : l.KeepsStops)
    (hlt : span.start + p.span.start < l.clippedStop span) :
    (l.restrict span wanted).Reads p ↔
      l.ReadsUpTo wanted (l.clippedStop span) (p.shift span.start) := by
  obtain ⟨token, i, length⟩ := p
  constructor
  · rintro ⟨e, he, hp⟩
    rw [hp]
    rcases (hasEdge_restrict_iff.1 he).2 with hwanted | ⟨rfl, hnone⟩
    · exact .edge (hl.hasWanted_iff.1 hwanted)
    · exact .filler fun f hf => hnone f (hl.hasWanted_iff.2 hf)
  · intro h
    change l.ReadsUpTo wanted _ ⟨token, ⟨span.start + i, length⟩⟩ at h
    cases h with
    | edge hoffers =>
      exact ⟨_, hasEdge_restrict_iff.2 ⟨hlt, .inl (hl.hasWanted_iff.2 hoffers)⟩, rfl⟩
    | filler hnone =>
      refine ⟨_, hasEdge_restrict_iff.2 ⟨hlt, .inr ⟨rfl, fun f hf => ?_⟩⟩, rfl⟩
      exact hnone f (hl.hasWanted_iff.1 hf)

/-- At each word of the span an edge leads on, whichever edges are wanted. -/
theorem Advances.exists_within_restrict (h : l.Advances) (hl : l.KeepsStops) (span : Span)
    (wanted : Token → Bool) (hi : i < (l.restrict span wanted).size) :
    ∃ e, (l.restrict span wanted).HasEdge i e ∧
      e.Within ((l.restrict span wanted).size - i) := by
  obtain ⟨f, hf, -, hwanted | rfl⟩ := exists_filler_restrict wanted hi
  · obtain ⟨he, hle, -⟩ := hl.hasWanted_iff.1 hwanted
    refine ⟨f, hf, h _ f he, ?_⟩
    rw [size_restrict]
    omega
  · exact ⟨_, hf, Nat.one_pos, Nat.sub_pos_of_lt hi⟩

/-- Restricting loses nothing of the ends, if nothing is lost of the end of the span. -/
theorem KeepsStops.restrict (hl : l.KeepsStops) (hspan : span.stop < sizeBound)
    (wanted : Token → Bool) : (l.restrict span wanted).KeepsStops := by
  intro i e he
  obtain ⟨hlt, ⟨hedge, -⟩ | ⟨rfl, -⟩⟩ := hasEdge_restrict_iff.1 he
  · have hstop := hl _ _ hedge
    omega
  · have hle := l.clippedStop_le_stop span
    exact Nat.lt_of_le_of_lt (show i + 1 ≤ span.stop by omega) hspan

/-- The edges of a filtered lattice cover a word or more. -/
theorem advances_filter (l : Lattice α) (threshold : α) : (l.filter threshold).Advances :=
  fun _ _ => HasEdge.length_pos_of_filter

end Lattice

end SpokenOrder
