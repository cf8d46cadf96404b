import Mathlib.Algebra.Order.Ring.Rat
import Mathlib.Tactic.Linarith
import SpokenOrder.Lexicon.Basic
import SpokenOrder.Proofs.Lattice.Path

/-!
# Weights of paths

Over exact scores, the weights that are found from the end of a lattice are the greatest weights of
the paths from there (`Lattice.bestFrom_eq_some_iff`). In the lattices that are made of texts and of
lists of tokens, all weights are whole numbers (`Lexicon.wholeWeights_lattice`,
`Lattice.wholeWeights_ofTokens`).
-/

namespace SpokenOrder

namespace Lattice

/-! ## Weights from the end -/

section
variable {α : Type} [Score α]

/-- The greatest weight of a path from the first position to the end. -/
def bestFrom (positions : List (List (Edge α))) : Option α :=
  foldFrom (some Score.zero) bestWeight? positions

/-- The weight over an edge counts on the greatest weight from where the edge ends. -/
theorem weightVia?_bestWeights (e : Edge α) (edges : List (Edge α)) (rest : List (List (Edge α))) :
    weightVia? (bestWeights rest) e =
      if e.Within (rest.length + 1) then
        (bestFrom ((edges :: rest).drop e.length)).map (Score.add e.weight)
      else none := by
  unfold weightVia? bestWeights
  by_cases he : e.Within (rest.length + 1)
  · rw [if_pos he, arrival?_of_within he, Option.join_some, bestFrom]
  · rw [if_neg he, arrival?_of_not_within he, Option.join_none, Option.map_none]

/-- The weight over an edge is its own and the best behind it. -/
theorem weightVia?_eq_some_iff {e : Edge α} (edges : List (Edge α))
    {rest : List (List (Edge α))} {w : α} : weightVia? (bestWeights rest) e = some w ↔
      e.Within (rest.length + 1) ∧
        ∃ b, bestFrom ((edges :: rest).drop e.length) = some b ∧ Score.add e.weight b = w := by
  rw [weightVia?_bestWeights e edges rest]
  by_cases he : e.Within (rest.length + 1)
  · rw [if_pos he, Option.map_eq_some_iff, and_iff_right he]
  · simp [he]

end

/-! ## Exact scores -/

section
variable {positions : List (List (Edge Rat))} {edges : List (Edge Rat)}
  {rest : List (List (Edge Rat))} {e : Edge Rat} {p : List (Edge Rat)} {w b : Rat}

/-- The weight of a path: the score of each of its edges, counted for each of its words. -/
def weight (path : List (Edge Rat)) : Rat := (path.map fun e => e.score * (e.length : Rat)).sum

@[simp] theorem weight_nil : weight [] = 0 := rfl

@[simp] theorem weight_cons : weight (e :: p) = e.weight + weight p := rfl

theorem larger_eq_max (s t : Rat) : Score.larger s t = max s t := (max_def_lt s t).symm

/-- The largest of exact scores is their maximum. -/
theorem largest?_eq_max? (ss : List Rat) : largest? ss = ss.max? := by
  cases ss with
  | nil => rfl
  | cons s rest =>
    have hfold : Score.larger = (max : Rat → Rat → Rat) :=
      funext fun s => funext fun t => larger_eq_max s t
    rw [largest?, hfold, List.max?_cons']

/-- Exact scores are close if they differ by less than the tolerance. -/
theorem close_iff (s t : Rat) :
    Score.close s t = true ↔ s - t < 1 / 1000000000 ∧ t - s < 1 / 1000000000 := by
  show decide (Rat.abs (s - t) < 1 / 1000000000) = true ↔ _
  rw [decide_eq_true_iff, Rat.abs]
  split
  · next h => exact ⟨fun hlt => ⟨hlt, by linarith⟩, And.left⟩
  · next h => exact ⟨fun hlt => ⟨by linarith, by linarith⟩, fun hlt => by linarith [hlt.2]⟩

/-- Among the weights over the edges, the greatest is the best weight of the position. -/
theorem bestFrom_cons : bestFrom (edges :: rest) =
    (edges.filterMap (weightVia? (bestWeights rest))).max? := largest?_eq_max? _

/-- The exact weight over an edge is its own and the best behind it. -/
theorem weightVia?_eq_some (edges : List (Edge Rat)) :
    weightVia? (bestWeights rest) e = some w ↔
      e.Within (rest.length + 1) ∧
        ∃ b, bestFrom ((edges :: rest).drop e.length) = some b ∧ e.weight + b = w :=
  weightVia?_eq_some_iff edges

/-! ### Best weights are greatest weights -/

/-- The weight is one of the paths' weights, and none is greater. -/
structure IsGreatestWeight (paths : List (List (Edge Rat))) (w : Rat) : Prop where
  attained : ∃ p ∈ paths, weight p = w
  le : ∀ p ∈ paths, weight p ≤ w

/-- There is only one greatest weight. -/
theorem IsGreatestWeight.unique {paths : List (List (Edge Rat))}
    (hw : IsGreatestWeight paths w) (hb : IsGreatestWeight paths b) : w = b := by
  obtain ⟨p, hp, rfl⟩ := hw.attained
  obtain ⟨q, hq, rfl⟩ := hb.attained
  exact le_antisymm (hb.le p hp) (hw.le q hq)

/-- Where there is a path there is a best weight, and the path is no heavier. -/
theorem exists_bestFrom (hp : p ∈ pathsFrom positions) :
    ∃ w, bestFrom positions = some w ∧ weight p ≤ w := by
  induction positions using suffix_induction generalizing p with
  | nil =>
    rw [List.mem_singleton.1 hp]
    exact ⟨0, rfl, le_refl 0⟩
  | cons edges rest ih =>
    obtain ⟨e, he, hwithin, tail, htail, rfl⟩ := mem_pathsFrom_cons.1 hp
    obtain ⟨b, hb, hle⟩ := ih e hwithin htail
    have hmem : e.weight + b ∈ edges.filterMap (weightVia? (bestWeights rest)) :=
      List.mem_filterMap.2 ⟨e, he, (weightVia?_eq_some edges).2 ⟨hwithin, b, hb, rfl⟩⟩
    rw [bestFrom_cons]
    cases hmax : (edges.filterMap (weightVia? (bestWeights rest))).max? with
    | none =>
      rw [List.max?_eq_none_iff.1 hmax] at hmem
      cases hmem
    | some w =>
      refine ⟨w, rfl, ?_⟩
      have hle' := (List.max?_eq_some_iff.1 hmax).2 _ hmem
      rw [weight_cons]
      linarith

/-- A best weight is the weight of a path. -/
theorem exists_weight_eq (h : bestFrom positions = some w) :
    ∃ p ∈ pathsFrom positions, weight p = w := by
  induction positions using suffix_induction generalizing w with
  | nil =>
    cases h
    exact ⟨[], List.mem_singleton_self _, rfl⟩
  | cons edges rest ih =>
    rw [bestFrom_cons] at h
    obtain ⟨e, he, hvia⟩ := List.mem_filterMap.1 (List.max?_eq_some_iff.1 h).1
    obtain ⟨hwithin, b, hb, rfl⟩ := (weightVia?_eq_some edges).1 hvia
    obtain ⟨tail, htail, rfl⟩ := ih e hwithin hb
    exact ⟨e :: tail, mem_pathsFrom_cons.2 ⟨e, he, hwithin, tail, htail, rfl⟩, rfl⟩

/-- A best weight is the greatest weight of the paths. -/
theorem isGreatestWeight_of_bestFrom (h : bestFrom positions = some w) :
    IsGreatestWeight (pathsFrom positions) w := by
  refine ⟨exists_weight_eq h, fun p hp => ?_⟩
  obtain ⟨v, hv, hle⟩ := exists_bestFrom hp
  rw [h] at hv
  cases hv
  exact hle

/-- The best weight from a position is the greatest weight of the paths from there. -/
theorem bestFrom_eq_some_iff :
    bestFrom positions = some w ↔ IsGreatestWeight (pathsFrom positions) w := by
  refine ⟨isGreatestWeight_of_bestFrom, fun h => ?_⟩
  obtain ⟨p, hp, -⟩ := h.attained
  obtain ⟨b, hb, -⟩ := exists_bestFrom hp
  rw [hb, (isGreatestWeight_of_bestFrom hb).unique h]

/-- If there is a path, one of the weights is the greatest. -/
theorem exists_isGreatestWeight (hp : p ∈ pathsFrom positions) :
    ∃ w, IsGreatestWeight (pathsFrom positions) w := by
  obtain ⟨w, hw, -⟩ := exists_bestFrom hp
  exact ⟨w, isGreatestWeight_of_bestFrom hw⟩

/-! ### Whole weights -/

/-- Whole numbers that are closer than one are equal. -/
theorem intCast_eq_of_sub_lt_one {m n : Int} (hmn : (m : Rat) - n < 1) (hnm : (n : Rat) - m < 1) :
    (m : Rat) = n := by
  have hlt : m - n < 1 := by exact_mod_cast hmn
  have hgt : n - m < 1 := by exact_mod_cast hnm
  have heq : m = n := by omega
  rw [heq]

/-- Each edge adds a whole number to the weight of a path. -/
def WholeWeights (positions : List (List (Edge Rat))) : Prop :=
  ∀ edges ∈ positions, ∀ e ∈ edges, ∃ n : Int, e.score * (e.length : Rat) = n

/-- Whole weights are whole from any position on. -/
theorem WholeWeights.drop (hwhole : WholeWeights positions) (n : Nat) :
    WholeWeights (positions.drop n) :=
  fun _ hedges => hwhole _ (List.mem_of_mem_drop hedges)

/-- With whole weights, paths have whole weights. -/
theorem WholeWeights.exists_int (hwhole : WholeWeights positions) (hp : p ∈ pathsFrom positions) :
    ∃ n : Int, weight p = n := by
  induction positions using suffix_induction generalizing p with
  | nil => exact ⟨0, by rw [List.mem_singleton.1 hp, weight_nil, Int.cast_zero]⟩
  | cons edges rest ih =>
    obtain ⟨e, he, hwithin, tail, htail, rfl⟩ := mem_pathsFrom_cons.1 hp
    obtain ⟨m, hm⟩ := hwhole edges List.mem_cons_self e he
    obtain ⟨n, hn⟩ := ih e hwithin (hwhole.drop e.length) htail
    refine ⟨m + n, ?_⟩
    rw [weight_cons, hn, Int.cast_add, ← hm]
    rfl

/-- Where each token is read as one word, weights are whole. -/
theorem wholeWeights_ofTokens (tokens : List Token) :
    WholeWeights (ofTokens tokens : Lattice Rat).positions := by
  intro edges hedges e he
  obtain ⟨t, -, rfl⟩ := List.mem_map.1 hedges
  rw [List.mem_singleton.1 he]
  exact ⟨1, by simp [Score.one]⟩

end

end Lattice

namespace Lexicon

/-- Fillers score 0 and everything else scores 1. -/
theorem score_of_mem_readings {α : Type} [Score α] {x : Lexicon} {ws : List String} {e : Edge α}
    (he : e ∈ x.readings ws) : e.score = Score.zero ∨ e.score = Score.one := by
  cases ws with
  | nil => cases he
  | cons word rest =>
    rcases List.mem_cons.1 he with rfl | he
    · exact .inl rfl
    · rcases List.mem_append.1 he with he | he
      · obtain ⟨n, -, rfl⟩ := List.mem_map.1 he
        exact .inr rfl
      · obtain ⟨a, -, rfl⟩ := List.mem_map.1 he
        exact .inr rfl

/-- The edges at a word are the readings from there on. -/
theorem exists_of_mem_readingsFrom {α : Type} [Score α] {x : Lexicon} {ws : List String}
    {edges : List (Edge α)} (h : edges ∈ x.readingsFrom ws) :
    ∃ word rest, edges = x.readings (word :: rest) := by
  induction ws with
  | nil => cases h
  | cons word rest ih =>
    rcases List.mem_cons.1 h with rfl | h
    · exact ⟨word, rest, rfl⟩
    · exact ih h

/-- A text is read with whole weights. -/
theorem wholeWeights_lattice (x : Lexicon) (text : String) :
    Lattice.WholeWeights (x.lattice text : Lattice Rat).positions := by
  intro edges hedges e he
  obtain ⟨word, rest, rfl⟩ := exists_of_mem_readingsFrom hedges
  rcases score_of_mem_readings he with h | h
  · exact ⟨0, by rw [h, Int.cast_zero]; exact zero_mul _⟩
  · exact ⟨e.length, by rw [h, Int.cast_natCast]; exact one_mul _⟩

end Lexicon

end SpokenOrder
