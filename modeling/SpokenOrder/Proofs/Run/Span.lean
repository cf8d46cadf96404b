import Mathlib.Algebra.Order.BigOperators.Group.List
import Mathlib.Algebra.Order.Ring.Nat
import SpokenOrder.Token

/-!
# Where the tokens of a run stand

A `Tally` counts the words between two positions, by whatever measure. `Run.Between` says that tokens
stand between two positions in their order, each on words of its own that count; there may be gaps.
Then the tokens together count no more than the words between the positions
(`Run.Between.sum_size_le`), and the span of the run lies between the positions, too
(`Run.Between.span?`). `Run.Tiles` says that there are no gaps.
-/

namespace SpokenOrder

/-! ## Spans -/

namespace Span

variable {s t : Span} {lo hi : Nat}

/-- The span lies between two positions. -/
def Within (s : Span) (lo hi : Nat) : Prop := lo ≤ s.start ∧ s.stop ≤ hi

theorem start_le_stop (s : Span) : s.start ≤ s.stop := Nat.le_add_right _ _

theorem within_self (s : Span) : s.Within s.start s.stop := ⟨Nat.le_refl _, Nat.le_refl _⟩

@[simp] theorem start_cover (s t : Span) : (s.cover t).start = min s.start t.start := rfl

@[simp] theorem stop_cover (s t : Span) : (s.cover t).stop = max s.stop t.stop := by
  simp only [stop, cover]
  omega

/-- What covers two spans lies between two positions if both spans do. -/
theorem cover_within_iff : (s.cover t).Within lo hi ↔ s.Within lo hi ∧ t.Within lo hi := by
  simp only [Within, start_cover, stop_cover]
  omega

end Span

/-! ## Counting words -/

/-- A way to count the words between two positions. Stretches that follow one another count no more
than the stretch that they are in. -/
structure Tally where
  /-- What the words between two positions count. -/
  count : Nat → Nat → Nat
  /-- The spans that the tally is about. -/
  Proper : Span → Prop
  count_mono {a b a' b' : Nat} : a' ≤ a → b ≤ b' → count a b ≤ count a' b'
  count_add_le {a b c : Nat} : a ≤ b → b ≤ c → count a b + count b c ≤ count a c
  proper_cover {s t : Span} : Proper s → Proper t → Proper (s.cover t)

namespace Tally

/-- What the words of a span count. -/
def size (T : Tally) (s : Span) : Nat := T.count s.start s.stop

/-- The tally is about the span, and its words count. -/
structure Counts (T : Tally) (s : Span) : Prop where
  proper : T.Proper s
  pos : 0 < T.size s

/-- A span that lies between two positions counts no more than the words there. -/
theorem size_le_of_within {T : Tally} {s : Span} {lo hi : Nat} (h : s.Within lo hi) :
    T.size s ≤ T.count lo hi := T.count_mono h.1 h.2

/-- Each word counts one. -/
def words : Tally where
  count a b := b - a
  Proper _ := True
  count_mono ha hb := by omega
  count_add_le ha hb := by omega
  proper_cover _ _ := trivial

@[simp] theorem size_words (s : Span) : words.size s = s.length := Nat.add_sub_cancel_left _ _

/-- By words a span counts unless it is empty. -/
theorem counts_words {s : Span} (h : 0 < s.length) : words.Counts s :=
  ⟨trivial, by rwa [size_words]⟩

end Tally

namespace Run

variable {T : Tally} {run : Run} {p : Placed Token} {s : Span} {lo mid hi : Nat}

/-! ## The span of a run -/

/-- What covers a span and the tokens of a run lies between two positions if all of them do. -/
theorem foldl_cover_within_iff : (run.foldl (fun s q => s.cover q.span) s).Within lo hi ↔
    s.Within lo hi ∧ ∀ q ∈ run, q.span.Within lo hi := by
  induction run generalizing s with
  | nil => simp
  | cons p rest ih =>
    rw [List.foldl_cons, ih, Span.cover_within_iff, List.forall_mem_cons, and_assoc]

/-- The span of a run lies between two positions if and only if all its tokens do. -/
theorem within_iff_of_span? (h : run.span? = some s) :
    s.Within lo hi ↔ ∀ p ∈ run, p.span.Within lo hi := by
  cases run with
  | nil => cases h
  | cons p rest =>
    cases h
    rw [foldl_cover_within_iff, List.forall_mem_cons]

/-- A tally is about the span of a run if it is about the spans of the tokens. -/
theorem proper_of_span? (h : run.span? = some s) (hrun : ∀ p ∈ run, T.Proper p.span) :
    T.Proper s := by
  cases run with
  | nil => cases h
  | cons p rest =>
    cases h
    obtain ⟨hp, hrest⟩ := List.forall_mem_cons.1 hrun
    generalize p.span = first at hp ⊢
    clear hrun
    induction rest generalizing first with
    | nil => exact hp
    | cons q rest ih =>
      obtain ⟨hq, hrest⟩ := List.forall_mem_cons.1 hrest
      exact ih hrest _ (T.proper_cover hp hq)

/-! ## In order -/

/-- The tokens stand between two positions, in their order, and the words of each count. -/
def Between (T : Tally) : Nat → Run → Nat → Prop
  | lo, [], hi => lo ≤ hi
  | lo, p :: rest, hi => lo ≤ p.span.start ∧ T.Counts p.span ∧ Between T p.span.stop rest hi

namespace Between

theorem nil : Between T lo [] lo := Nat.le_refl lo

/-- Each token between two positions counts. -/
theorem counts (h : Between T lo run hi) (hp : p ∈ run) : T.Counts p.span := by
  induction run generalizing lo with
  | nil => cases hp
  | cons q rest ih =>
    rcases List.mem_cons.1 hp with rfl | hp
    · exact h.2.1
    · exact ih h.2.2 hp

/-- Where tokens stand between two positions, the one is not behind the other. -/
theorem le (h : Between T lo run hi) : lo ≤ hi := by
  induction run generalizing lo with
  | nil => exact h
  | cons p rest ih => exact Nat.le_trans h.1 (Nat.le_trans p.span.start_le_stop (ih h.2.2))

/-- The tokens count no more than the words between the two positions. -/
theorem sum_size_le (h : Between T lo run hi) :
    (run.map (T.size ·.span)).sum ≤ T.count lo hi := by
  induction run generalizing lo with
  | nil => exact Nat.zero_le _
  | cons p rest ih =>
    have hp : T.size p.span ≤ T.count lo p.span.stop :=
      T.size_le_of_within ⟨h.1, Nat.le_refl _⟩
    have hadd : T.count lo p.span.stop + T.count p.span.stop hi ≤ T.count lo hi :=
      T.count_add_le (Nat.le_trans h.1 p.span.start_le_stop) h.2.2.le
    have hrest := ih h.2.2
    rw [List.map_cons, List.sum_cons]
    omega

/-- Nor are there more of them than these count. -/
theorem length_le (h : Between T lo run hi) : run.length ≤ T.count lo hi := by
  have hpos : ∀ n ∈ run.map (T.size ·.span), 1 ≤ n :=
    List.forall_mem_map.2 fun p hp => (h.counts hp).pos
  calc run.length
      = (run.map (T.size ·.span)).length := (List.length_map _).symm
    _ ≤ (run.map (T.size ·.span)).sum := List.length_le_sum_of_one_le _ hpos
    _ ≤ T.count lo hi := h.sum_size_le

/-- Two runs in a row stand on either side of some position between. -/
theorem append_iff {xs ys : Run} :
    Between T lo (xs ++ ys) hi ↔ ∃ mid, Between T lo xs mid ∧ Between T mid ys hi := by
  induction xs generalizing lo with
  | nil =>
    refine ⟨fun h => ⟨lo, Nat.le_refl _, h⟩, fun ⟨mid, hle, h⟩ => ?_⟩
    cases ys with
    | nil => exact Nat.le_trans hle h
    | cons q ys => exact ⟨Nat.le_trans hle h.1, h.2⟩
  | cons p xs ih => simp only [List.cons_append, Between, ih, exists_and_left, and_assoc]

/-- There may be a gap behind the tokens. -/
theorem extend (h : Between T lo run mid) (hle : mid ≤ hi) : Between T lo run hi :=
  List.append_nil run ▸ append_iff.2 ⟨mid, h, hle⟩

/-- Each token lies between the two positions. -/
theorem within (h : Between T lo run hi) (hp : p ∈ run) : p.span.Within lo hi := by
  obtain ⟨before, after, rfl⟩ := List.append_of_mem hp
  obtain ⟨mid, hbefore, hstart, -, hafter⟩ := append_iff.1 h
  exact ⟨Nat.le_trans hbefore.le hstart, hafter.le⟩

/-- A run in order stands between any two positions between which all its tokens stand. -/
theorem narrow {lo' hi' : Nat} (h : Between T lo run hi) (hle : lo' ≤ hi')
    (hwithin : ∀ p ∈ run, p.span.Within lo' hi') : Between T lo' run hi' := by
  induction run generalizing lo lo' with
  | nil => exact hle
  | cons p rest ih =>
    have hp := hwithin p List.mem_cons_self
    refine ⟨hp.1, h.2.1, ih h.2.2 hp.2 fun q hq => ?_⟩
    exact ⟨(h.2.2.within hq).1, (hwithin q (List.mem_cons_of_mem _ hq)).2⟩

/-- The span of a run in order lies between the same positions, and the run stands between its
ends. -/
theorem span? (h : Between T lo run hi) (hs : run.span? = some s) :
    s.Within lo hi ∧ T.Counts s ∧ Between T s.start run s.stop := by
  have hinside : Between T s.start run s.stop :=
    h.narrow s.start_le_stop ((within_iff_of_span? hs).1 s.within_self)
  have hpos : 0 < run.length := by
    cases run with
    | nil => cases hs
    | cons p rest => exact Nat.succ_pos _
  exact ⟨(within_iff_of_span? hs).2 fun _ hp => h.within hp,
    ⟨proper_of_span? hs fun _ hp => (h.counts hp).proper, Nat.lt_of_lt_of_le hpos hinside.length_le⟩,
    hinside⟩

end Between

/-! ## Without gaps -/

/-- The tokens stand one right behind another, from one position to another, and each covers a word
or more. -/
def Tiles : Nat → Run → Nat → Prop
  | lo, [], hi => lo = hi
  | lo, p :: rest, hi => p.span.start = lo ∧ 0 < p.span.length ∧ Tiles p.span.stop rest hi

/-- Tokens without gaps stand in order if each of them counts. -/
theorem Tiles.between (h : Tiles lo run hi) (hcounts : ∀ p ∈ run, T.Counts p.span) :
    Between T lo run hi := by
  induction run generalizing lo with
  | nil => exact Nat.le_of_eq h
  | cons p rest ih =>
    obtain ⟨hp, hrest⟩ := List.forall_mem_cons.1 hcounts
    exact ⟨Nat.le_of_eq h.1.symm, hp, ih h.2.2 hrest⟩

/-- Each of them covers a word. -/
theorem Tiles.pos (h : Tiles lo run hi) (hp : p ∈ run) : 0 < p.span.length := by
  induction run generalizing lo with
  | nil => cases hp
  | cons q rest ih =>
    rcases List.mem_cons.1 hp with rfl | hp
    · exact h.2.1
    · exact ih h.2.2 hp

/-- By words they stand in order. -/
theorem Tiles.between_words (h : Tiles lo run hi) : Between Tally.words lo run hi :=
  h.between fun _ hp => Tally.counts_words (h.pos hp)

end Run

end SpokenOrder
