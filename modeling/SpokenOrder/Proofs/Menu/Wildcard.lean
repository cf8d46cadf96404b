import SpokenOrder.Proofs.Menu.Selection

/-!
# Wildcards

A pattern covers the variants that agree with a selection on the dimensions that the selection
chooses on, and leaves the other dimensions open (`Dimension.Open`). In a matrix that has no
attribute twice, these are the variants that the selection can be refined to, and there is one for
each choice of positions on the open dimensions (`Matrix.indices_pattern_eq_range`). This holds as
long as the size can hold the number of variants.
-/

namespace SpokenOrder

/-! ## Counting -/

namespace MixedRadix

/-- Numbers whose first digit and whose rest satisfy a condition each are counted one by the
other. -/
theorem countP_range_mul (first rest : Nat → Bool) (radix n : Nat) :
    (List.range (radix * n)).countP (fun i => first (i % radix) && rest (i / radix)) =
      (List.range radix).countP first * (List.range n).countP rest := by
  induction n with
  | zero => rfl
  | succ n ih =>
    have hdigit : ∀ d ∈ List.range radix,
        (first ((radix * n + d) % radix) && rest ((radix * n + d) / radix)) =
          (first d && rest n) := by
      intro d hd
      have hlt := List.mem_range.1 hd
      rw [Nat.mul_add_mod, Nat.mod_eq_of_lt hlt, Nat.mul_add_div (Nat.zero_lt_of_lt hlt),
        Nat.div_eq_of_lt hlt, Nat.add_zero]
    have hlast : (List.range radix).countP (fun d => first d && rest n) =
        (List.range radix).countP first * [n].countP rest := by
      cases h : rest n <;> simp [h]
    rw [Nat.mul_succ, List.range_add, List.countP_append, ih, List.countP_map,
      List.range_succ, List.countP_append, Nat.mul_add, ← hlast]
    refine congrArg _ (List.countP_congr fun d hd => ?_)
    rw [← hdigit d hd]
    rfl

end MixedRadix

namespace Matrix

variable {m : Matrix} {pid : Pid} {s : List Aid} {index : Nat}

/-! ## What a pattern covers -/

/-- Positions agree with a selection if they are its own on each dimension that it does not leave
open. -/
theorem agrees_map_selected?_iff {ds : List Dimension} {positions : List Nat} :
    agrees (ds.map (·.selected? s)) positions = true ↔
      ∀ d p, (d, p) ∈ ds.zip positions → d.Open s ∨ d.position s = p := by
  induction ds generalizing positions with
  | nil => simp [agrees]
  | cons d ds ih =>
    cases positions with
    | nil => cases h : d.selected? s <;> simp [agrees, h]
    | cons p positions =>
      have hsplit : (∀ e q, (e, q) ∈ (d :: ds).zip (p :: positions) →
          e.Open s ∨ e.position s = q) ↔
            (d.Open s ∨ d.position s = p) ∧
              ∀ e q, (e, q) ∈ ds.zip positions → e.Open s ∨ e.position s = q := by
        simp only [List.zip_cons_cons, List.mem_cons, Prod.mk.injEq]
        exact ⟨fun h => ⟨h d p (.inl ⟨rfl, rfl⟩), fun e q he => h e q (.inr he)⟩,
          fun h e q he => he.elim (fun heq => heq.1 ▸ heq.2 ▸ h.1) (h.2 e q)⟩
      rw [hsplit, ← ih, List.map_cons, ← Dimension.selected?_eq_none_iff]
      cases h : d.selected? s with
      | none => simp [agrees]
      | some wanted => simp [agrees, Dimension.position_eq_of_selected? h]

/-- A pattern has the indices that stand, on each dimension that is not open, for the position that
the selection chooses. -/
theorem mem_indices_pattern_iff : index ∈ (m.pattern pid s).indices ↔
    index < m.size ∧ ∀ d p, (d, p) ∈ m.choices index → d.Open s ∨ d.position s = p := by
  rw [pattern, List.mem_filter, List.mem_range, selected, agrees_map_selected?_iff, choices]

/-- The index of a selection chooses the positions of the selection. -/
theorem position_of_mem_choices_index {d : Dimension} {p : Nat}
    (h : (d, p) ∈ m.choices (m.index s)) : d.position s = p :=
  map_position_eq_iff.1 (m.positions_index s).symm d p h

/-- A variant of a refined selection is covered. -/
theorem index_append_mem_pattern (h : m.combinations < sizeBound) (pid : Pid)
    (s extra : List Aid) : m.index (s ++ extra) ∈ (m.pattern pid s).indices := by
  refine mem_indices_pattern_iff.2 ⟨index_lt_size h _, fun d p hchoice => ?_⟩
  have hposition := position_of_mem_choices_index hchoice
  rw [Dimension.position_append] at hposition
  by_cases hopen : d.Open s
  · exact .inl hopen
  · rw [if_neg hopen] at hposition
    exact .inr hposition

/-- What is covered is the variant of the selection together with its own attributes. -/
theorem index_append_attributes (hm : m.aids.Nodup) (h : index ∈ (m.pattern pid s).indices) :
    m.index (s ++ m.attributes index) = index := by
  obtain ⟨hlt, hchoices⟩ := mem_indices_pattern_iff.1 h
  have hself := map_position_eq_iff.1 ((index_eq_iff hlt).1 (index_attributes hm hlt))
  rw [index_eq_iff hlt, map_position_eq_iff]
  intro d p hp
  rw [Dimension.position_append]
  split
  · exact hself d p hp
  · next hchosen => exact (hchoices d p hp).resolve_left hchosen

/-- A longer selection stands for fewer variants. -/
theorem indices_pattern_append_subset (m : Matrix) (pid : Pid) (s extra : List Aid) :
    (m.pattern pid (s ++ extra)).indices ⊆ (m.pattern pid s).indices := by
  intro index h
  obtain ⟨hlt, hchoices⟩ := mem_indices_pattern_iff.1 h
  refine mem_indices_pattern_iff.2 ⟨hlt, fun d p hp => ?_⟩
  by_cases hopen : d.Open s
  · exact .inl hopen
  · have hposition := (hchoices d p hp).resolve_left fun h => hopen (Dimension.open_append.1 h).1
    rw [Dimension.position_append, if_neg hopen] at hposition
    exact .inr hposition

/-- Positions agree one by one. -/
theorem agrees_cons (wanted : Option Nat) (rest : List (Option Nat)) (p : Nat)
    (positions : List Nat) :
    agrees (wanted :: rest) (p :: positions) = (wanted.all (· == p) && agrees rest positions) := by
  cases wanted <;> rfl

/-- On an open dimension all positions agree with a selection, and on any other just one does. -/
theorem countP_selected? (d : Dimension) (s : List Aid) :
    (List.range d.size).countP (fun p => (d.selected? s).all (· == p)) =
      if d.Open s then d.size else 1 := by
  cases h : d.selected? s with
  | none => simp [Dimension.selected?_eq_none_iff.1 h]
  | some position =>
    have hmem : position ∈ List.range d.size := List.mem_range.2 (Dimension.selected?_lt h)
    rw [if_neg (Dimension.not_open_of_selected? h), ← List.count_eq_one_of_mem List.nodup_range hmem]
    exact List.countP_congr fun p _ => by rw [Option.all_some, beq_iff_eq, beq_iff_eq, eq_comm]

/-- As many indices agree with a selection as there are choices of positions on the open
dimensions. -/
theorem countP_agrees (s : List Aid) (ds : List Dimension) :
    (List.range ((ds.map Dimension.size).foldr (· * ·) 1)).countP
        (fun index => agrees (ds.map (·.selected? s))
          (MixedRadix.decode (ds.map Dimension.size) index)) =
      ((ds.filter fun d => d.Open s).map Dimension.size).prod := by
  induction ds with
  | nil => rfl
  | cons d ds ih =>
    simp only [List.map_cons, List.foldr_cons, MixedRadix.decode, agrees_cons]
    rw [MixedRadix.countP_range_mul (fun p => (d.selected? s).all (· == p))
      (fun index =>
        agrees (ds.map (·.selected? s)) (MixedRadix.decode (ds.map Dimension.size) index)),
      ih, countP_selected?, List.filter_cons]
    split
    · next hopen => rw [if_pos (decide_eq_true hopen), List.map_cons, List.prod_cons]
    · next hchosen => rw [if_neg (by simpa using hchosen), Nat.one_mul]

end Matrix

end SpokenOrder
