import SpokenOrder.Proofs.Lattice.Tokenization

/-!
# Reading a span

Restricted to a span, a lattice has the wanted edges that lie inside the span, and fillers where
words would be left without one. So what a tokenization of the span explains is explained by a
wanted edge inside the span (`Lattice.exists_hasEdge_of_mem_restrict`). If no filler of the lattice
covers several words, each word of the span has one of its own (`Lattice.filled_restrict`), so all
words around a wanted edge can be left unexplained (`Lattice.exists_tiling_around`).
-/

namespace SpokenOrder.Lattice

variable {α : Type} {l : Lattice α}

/-! ## Paths over fillers -/

/-- Each word has a filler of its own. -/
def Filled (l : Lattice α) : Prop :=
  ∀ i < l.size, ∃ f, l.HasEdge i f ∧ f.isFiller = true ∧ f.length = 1

/-- Where each word has a filler, a path can be continued to the left without explaining
anything. -/
theorem Filled.exists_before (h : l.Filled) {start stop : Nat} {path : List (Edge α)}
    (hle : start ≤ stop) (hpath : l.IsPath stop path) : ∃ before longer, l.IsPath start longer ∧
      place start longer = before ++ place stop path ∧
      ∀ p ∈ before, p.token.isUnknown = true := by
  obtain ⟨n, rfl⟩ := Nat.exists_eq_add_of_le hle
  clear hle
  induction n generalizing path with
  | zero => exact ⟨[], path, hpath, rfl, nofun⟩
  | succ n ih =>
    obtain ⟨f, hf, hfiller, hone⟩ := h (start + n) (Nat.lt_of_succ_le hpath.le_size)
    have hnext : l.IsPath (start + n + f.length) path := hone.symm ▸ hpath
    obtain ⟨before, longer, hlonger, hplace, hunknown⟩ :=
      ih (hf.isPath (hone.symm ▸ Nat.one_pos) hnext)
    refine ⟨before ++ [⟨f.token, ⟨start + n, f.length⟩⟩], longer, hlonger, ?_, ?_⟩
    · rw [hplace, place, hone, List.append_assoc, List.singleton_append]
      rfl
    · rw [List.forall_mem_append, List.forall_mem_singleton]
      exact ⟨hunknown, hfiller⟩

/-- Where each word has a filler, an edge can be read by itself. -/
theorem Filled.exists_around (h : l.Filled) {start : Nat} {e : Edge α} (he : l.HasEdge start e)
    (hpos : 0 < e.length) (hle : start + e.length ≤ l.size) :
    ∃ before after, before ++ ⟨e.token, ⟨start, e.length⟩⟩ :: after ∈ l.tilings ∧
      (∀ p ∈ before, p.token.isUnknown = true) ∧ ∀ p ∈ after, p.token.isUnknown = true := by
  obtain ⟨after, tail, htail, hafter, hunknownAfter⟩ := h.exists_before hle .stop
  obtain ⟨before, path, hpath, hbefore, hunknownBefore⟩ :=
    h.exists_before (Nat.zero_le start) (he.isPath hpos htail)
  refine ⟨before, after, mem_tilings_iff.2 ⟨?_, path, hpath, ?_⟩, hunknownBefore,
    hunknownAfter⟩
  · exact List.ne_nil_of_length_pos (Nat.lt_of_le_of_lt (Nat.zero_le start) he.lt_size)
  · rw [hbefore, place, hafter, place, List.append_nil]

/-! ## The edges of a restricted lattice -/

/-- A wanted edge that begins at the position and is taken to end no later than `stop`. -/
structure HasWanted (l : Lattice α) (wanted : Token → Bool) (stop start : Nat) (e : Edge α) :
    Prop where
  hasEdge : l.HasEdge start e
  keptStop_le : e.keptStop start ≤ stop
  wanted : wanted e.token = true

variable [Score α] {span : Span} {wanted : Token → Bool} {i : Nat} {e : Edge α}

/-- What is left of the edges at a position of a span. -/
theorem getElem?_restrictFrom (wanted : Token → Bool) (stop start : Nat)
    (positions : List (List (Edge α))) (i : Nat) :
    (restrictFrom wanted stop start positions)[i]? = positions[i]?.map fun edges =>
      refill (edges.filter fun e => e.keptStop (start + i) ≤ stop && wanted e.token) := by
  induction positions generalizing start i with
  | nil => rfl
  | cons edges rest ih =>
    cases i with
    | zero => rfl
    | succ i =>
      rw [restrictFrom, List.getElem?_cons_succ, ih, List.getElem?_cons_succ, Nat.add_right_comm,
        Nat.add_assoc]

/-- The edges at a word of the span. -/
theorem getElem?_restrict (l : Lattice α) (wanted : Token → Bool)
    (hi : span.start + i < l.clippedStop span) :
    (l.restrict span wanted).positions[i]? = l.positions[span.start + i]?.map fun edges =>
      refill (edges.filter fun e =>
        e.keptStop (span.start + i) ≤ l.clippedStop span && wanted e.token) := by
  rw [restrict, getElem?_restrictFrom, List.getElem?_drop, List.getElem?_take_of_lt hi]

/-- The edges of a restricted lattice begin in the span. -/
theorem HasEdge.lt_of_restrict (h : (l.restrict span wanted).HasEdge i e) :
    span.start + i < l.clippedStop span := by
  have hlt := h.lt_size
  rw [size_restrict] at hlt
  omega

/-- The edges at a word of the span: the wanted ones, and a filler if none of these is one. -/
theorem hasEdge_restrict_iff : (l.restrict span wanted).HasEdge i e ↔
    span.start + i < l.clippedStop span ∧
      (l.HasWanted wanted (l.clippedStop span) (span.start + i) e ∨
        e = Edge.filler "_" ∧ ∀ f, l.HasWanted wanted (l.clippedStop span) (span.start + i) f →
          f.isFiller = false) := by
  by_cases hi : span.start + i < l.clippedStop span
  · obtain ⟨edges, hedges⟩ : ∃ edges, l.positions[span.start + i]? = some edges :=
      ⟨_, List.getElem?_eq_getElem (Nat.lt_of_lt_of_le hi (Nat.min_le_right _ _))⟩
    have hwanted : ∀ f : Edge α, f ∈ edges.filter (fun f =>
        f.keptStop (span.start + i) ≤ l.clippedStop span && wanted f.token) ↔
        l.HasWanted wanted (l.clippedStop span) (span.start + i) f := by
      intro f
      rw [List.mem_filter, Bool.and_eq_true, decide_eq_true_iff]
      constructor
      · rintro ⟨hf, hle, hwants⟩
        exact ⟨⟨edges, hedges, hf⟩, hle, hwants⟩
      · rintro ⟨⟨all, hall, hf⟩, hle, hwants⟩
        obtain rfl := Option.some.inj (hedges.symm.trans hall)
        exact ⟨hf, hle, hwants⟩
    rw [and_iff_right hi, HasEdge, getElem?_restrict l wanted hi, hedges, Option.map_some]
    simp only [Option.some.injEq, exists_eq_left', mem_refill_iff, hwanted]
  · exact iff_of_false (fun h => hi h.lt_of_restrict) fun h => hi h.1

/-- A wanted edge that lies inside the span is there. -/
theorem HasEdge.restrict (h : l.HasEdge (span.start + i) e) (hwanted : wanted e.token = true)
    (hpos : 0 < e.length) (hstop : span.start + i + e.length ≤ l.clippedStop span) :
    (l.restrict span wanted).HasEdge i e :=
  hasEdge_restrict_iff.2
    ⟨by omega, .inl ⟨h, Nat.le_trans (Nat.mod_le _ _) hstop, hwanted⟩⟩

/-- What is there is a wanted edge, unless it is a filler. -/
theorem HasEdge.of_restrict (h : (l.restrict span wanted).HasEdge i e)
    (hknown : e.isFiller = false) :
    l.HasWanted wanted (l.clippedStop span) (span.start + i) e := by
  refine (hasEdge_restrict_iff.1 h).2.resolve_right ?_
  rintro ⟨rfl, -⟩
  cases hknown

/-- Each word of the span has a filler: a wanted one of the lattice, or one for the word alone. -/
theorem exists_filler_restrict (wanted : Token → Bool) (hi : i < (l.restrict span wanted).size) :
    ∃ f, (l.restrict span wanted).HasEdge i f ∧ f.isFiller = true ∧
      (l.HasWanted wanted (l.clippedStop span) (span.start + i) f ∨ f = Edge.filler "_") := by
  rw [size_restrict] at hi
  have hlt : span.start + i < l.clippedStop span := by omega
  by_cases hfiller : ∃ f, l.HasWanted wanted (l.clippedStop span) (span.start + i) f ∧
      f.isFiller = true
  · obtain ⟨f, hf, hfiller⟩ := hfiller
    exact ⟨f, hasEdge_restrict_iff.2 ⟨hlt, .inl hf⟩, hfiller, .inl hf⟩
  · refine ⟨_, hasEdge_restrict_iff.2 ⟨hlt, .inr ⟨rfl, fun f hf => ?_⟩⟩, rfl, .inr rfl⟩
    exact Bool.eq_false_iff.2 fun h => hfiller ⟨f, hf, h⟩

/-- If fillers cover one word each, each word of the span has one of its own. -/
theorem filled_restrict (hfillers : ∀ start e, l.HasEdge start e → e.isFiller = true → e.length = 1)
    (span : Span) (wanted : Token → Bool) : (l.restrict span wanted).Filled := by
  intro i hi
  obtain ⟨f, hf, hfiller, hwanted | rfl⟩ := exists_filler_restrict wanted hi
  · exact ⟨f, hf, hfiller, hfillers _ f hwanted.hasEdge hfiller⟩
  · exact ⟨_, hf, hfiller, rfl⟩

/-! ## The tokenizations of a span -/

/-- If fillers cover one word each, a wanted edge inside the span can be read by itself. -/
theorem exists_tiling_around
    (hfillers : ∀ start e, l.HasEdge start e → e.isFiller = true → e.length = 1) {start : Nat}
    (he : l.HasEdge start e) (hwanted : wanted e.token = true) (hpos : 0 < e.length)
    (hstart : span.start ≤ start) (hstop : start + e.length ≤ l.clippedStop span) :
    ∃ before p after, before ++ p :: after ∈ (l.restrict span wanted).tilings ∧
      p.token = e.token ∧ (∀ q ∈ before, q.token.isUnknown = true) ∧
      ∀ q ∈ after, q.token.isUnknown = true := by
  obtain ⟨i, rfl⟩ := Nat.exists_eq_add_of_le hstart
  have hle : i + e.length ≤ (l.restrict span wanted).size := by
    rw [size_restrict]
    omega
  obtain ⟨before, after, hmem, hbefore, hafter⟩ :=
    (filled_restrict hfillers span wanted).exists_around (he.restrict hwanted hpos hstop) hpos hle
  exact ⟨before, _, after, hmem, rfl, hbefore, hafter⟩

/-- What a tokenization of a span explains, a wanted edge inside the span explains. -/
theorem exists_hasEdge_of_mem_restrict {run : Run} {p : Placed Token}
    (hrun : run ∈ (l.restrict span wanted).tilings) (hp : p ∈ run)
    (hknown : p.token.isUnknown = false) : ∃ start e, l.HasEdge start e ∧ e.token = p.token ∧
      wanted e.token = true ∧ span.start ≤ start ∧ start + e.length ≤ l.clippedStop span := by
  obtain ⟨-, path, hpath, rfl⟩ := mem_tilings_iff.1 hrun
  obtain ⟨i, e, he, hle, rfl⟩ := hpath.exists_hasEdge hp
  have hwanted := he.of_restrict hknown
  have hlt := he.lt_of_restrict
  rw [size_restrict] at hle
  exact ⟨span.start + i, e, hwanted.hasEdge, rfl, hwanted.wanted, Nat.le_add_right _ _, by omega⟩

end SpokenOrder.Lattice
