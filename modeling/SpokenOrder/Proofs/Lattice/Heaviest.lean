import SpokenOrder.Proofs.Lattice.Weight

/-!
# The heaviest paths

`Lattice.heaviest` judges each edge by itself, so a path is kept if each of its edges is
(`Lattice.pathsFrom_heaviestFrom`). Over exact scores, what the judgement of an edge lets pass adds
up along the path (`Lattice.lt_weight_of_keeps`), and between whole weights it lets nothing pass
(`Lattice.weight_eq_of_keeps`). So the paths that are kept are heaviest ones
(`Lattice.lt_weight_of_mem_paths_heaviest`, `Lattice.WholeWeights.mem_paths_heaviest_iff`).
-/

namespace SpokenOrder.Lattice

/-! ## What is kept -/

section
variable {α : Type} [Score α]

/-- Does `heaviest` keep each edge of the path? -/
def keeps : List (List (Edge α)) → List (Edge α) → Bool
  | _, [] => true
  | [], _ :: _ => false
  | edges :: rest, e :: path =>
    onHeaviest (bestFrom (edges :: rest)) (bestWeights rest) e
      && keeps ((edges :: rest).drop e.length) path

/-- An edge is on a heaviest path if the weight over it is close to the best. -/
theorem onHeaviest_eq_true_iff {best : Option α} {later : List (Option α)} {e : Edge α} :
    onHeaviest best later e = true ↔
      ∃ v w, weightVia? later e = some v ∧ best = some w ∧ Score.close v w = true := by
  unfold onHeaviest
  constructor
  · intro h
    split at h
    · next v w hvia => exact ⟨v, w, hvia, rfl, h⟩
    · cases h
  · rintro ⟨v, w, hvia, rfl, hclose⟩
    rw [hvia]
    exact hclose

/-- Keeping the heaviest paths takes no words away. -/
theorem length_heaviestFrom (positions : List (List (Edge α))) :
    (heaviestFrom positions).length = positions.length := by
  induction positions with
  | nil => rfl
  | cons edges rest ih => rw [heaviestFrom, List.length_cons, List.length_cons, ih]

/-- What is kept at the later positions depends on these alone. -/
theorem drop_heaviestFrom (n : Nat) (positions : List (List (Edge α))) :
    (heaviestFrom positions).drop n = heaviestFrom (positions.drop n) := by
  induction positions generalizing n with
  | nil => rw [heaviestFrom, List.drop_nil, heaviestFrom]
  | cons edges rest ih =>
    cases n with
    | zero => rfl
    | succ n => exact ih n

/-- To drop elements is to let them contribute nothing. -/
theorem flatMap_filter {β γ : Type} (p : β → Bool) (f : β → List γ) (xs : List β) :
    (xs.filter p).flatMap f = xs.flatMap fun x => if p x then f x else [] := by
  induction xs with
  | nil => rfl
  | cons x xs ih =>
    rw [List.flatMap_cons, ← ih]
    cases hx : p x with
    | true => rw [List.filter_cons_of_pos hx, List.flatMap_cons, if_pos rfl]
    | false => simp [hx]

/-- The paths over the edges that are kept are the paths all of whose edges are kept, in the order
in which all paths are listed. -/
theorem pathsFrom_heaviestFrom (positions : List (List (Edge α))) :
    pathsFrom (heaviestFrom positions) = (pathsFrom positions).filter (keeps positions) := by
  induction positions using suffix_induction with
  | nil => rfl
  | cons edges rest ih =>
    have hcons : heaviestFrom (edges :: rest) =
        edges.filter (onHeaviest (bestFrom (edges :: rest)) (bestWeights rest))
          :: heaviestFrom rest := rfl
    rw [hcons, pathsFrom_cons, pathsFrom_cons, List.filter_flatMap, flatMap_filter, ← hcons,
      length_heaviestFrom]
    refine List.flatMap_congr fun e _ => ?_
    by_cases he : e.Within (rest.length + 1)
    · rw [if_pos he, if_pos he, drop_heaviestFrom, ih e he, List.filter_map]
      cases hon : onHeaviest (bestFrom (edges :: rest)) (bestWeights rest) e with
      | true =>
        rw [if_pos rfl]
        refine congrArg _ (List.filter_congr fun path _ => ?_)
        rw [Function.comp_apply, keeps, hon, Bool.true_and]
      | false =>
        rw [if_neg Bool.false_ne_true, eq_comm, List.map_eq_nil_iff, List.filter_eq_nil_iff]
        intro path _
        rw [Function.comp_apply, keeps, hon, Bool.false_and]
        exact Bool.false_ne_true
    · rw [if_neg he, if_neg he, ite_self, List.filter_nil]

/-- The paths over the edges that are kept. -/
theorem paths_heaviest (l : Lattice α) : l.heaviest.paths = l.paths.filter (keeps l.positions) := by
  rcases l with ⟨_ | ⟨edges, rest⟩⟩
  · rfl
  · exact pathsFrom_heaviestFrom (edges :: rest)

end

/-! ## Kept paths are heavy -/

section
variable {positions : List (List (Edge Rat))} {edges : List (Edge Rat)}
  {rest : List (List (Edge Rat))} {e : Edge Rat} {p : List (Edge Rat)} {w : Rat}

/-- An edge that stays within the lattice is kept if it is as heavy as the best, with the best
behind it. -/
theorem onHeaviest_iff :
    onHeaviest (bestFrom (edges :: rest)) (bestWeights rest) e = true ↔
      ∃ b w, e.Within (rest.length + 1) ∧ bestFrom ((edges :: rest).drop e.length) = some b ∧
        bestFrom (edges :: rest) = some w ∧ Score.close (e.weight + b) w = true := by
  rw [onHeaviest_eq_true_iff]
  constructor
  · rintro ⟨v, w, hvia, hbest, hclose⟩
    obtain ⟨hwithin, b, hb, rfl⟩ := (weightVia?_eq_some edges).1 hvia
    exact ⟨b, w, hwithin, hb, hbest, hclose⟩
  · rintro ⟨b, w, hwithin, hb, hbest, hclose⟩
    exact ⟨e.weight + b, w, (weightVia?_eq_some edges).2 ⟨hwithin, b, hb, rfl⟩, hbest, hclose⟩

/-- Over an edge that is kept, the best weight is reached up to the tolerance of the comparison. -/
theorem exists_of_onHeaviest (hw : IsGreatestWeight (pathsFrom (edges :: rest)) w)
    (hon : onHeaviest (bestFrom (edges :: rest)) (bestWeights rest) e = true) :
    ∃ b, IsGreatestWeight (pathsFrom ((edges :: rest).drop e.length)) b ∧
      e.weight + b - w < 1 / 1000000000 ∧ w - (e.weight + b) < 1 / 1000000000 := by
  obtain ⟨b, w', -, hb, hbest, hclose⟩ := onHeaviest_iff.1 hon
  obtain rfl : w' = w := (bestFrom_eq_some_iff.1 hbest).unique hw
  exact ⟨b, bestFrom_eq_some_iff.1 hb, (close_iff _ _).1 hclose⟩

/-- A kept path begins with an edge that is kept, and goes on as a kept path. -/
theorem keeps_cons_of_mem (hp : p ∈ pathsFrom (edges :: rest))
    (hk : keeps (edges :: rest) p = true) :
    ∃ e tail, p = e :: tail ∧ e ∈ edges ∧ e.Within (rest.length + 1) ∧
      onHeaviest (bestFrom (edges :: rest)) (bestWeights rest) e = true ∧
      tail ∈ pathsFrom ((edges :: rest).drop e.length) ∧
      keeps ((edges :: rest).drop e.length) tail = true := by
  obtain ⟨e, he, hwithin, tail, htail, rfl⟩ := mem_pathsFrom_cons.1 hp
  rw [keeps, Bool.and_eq_true] at hk
  exact ⟨e, tail, rfl, he, hwithin, hk.1, htail, hk.2⟩

/-- A kept path lacks no more than the tolerance for each of its edges. -/
theorem le_weight_of_keeps (hw : IsGreatestWeight (pathsFrom positions) w)
    (hp : p ∈ pathsFrom positions) (hk : keeps positions p = true) :
    w - p.length * (1 / 1000000000) ≤ weight p := by
  induction positions using suffix_induction generalizing p w with
  | nil =>
    obtain ⟨q, hq, rfl⟩ := hw.attained
    rw [List.mem_singleton.1 hp, List.mem_singleton.1 hq]
    simp
  | cons edges rest ih =>
    obtain ⟨e, tail, rfl, -, hwithin, hon, htail, hk⟩ := keeps_cons_of_mem hp hk
    obtain ⟨b, hb, -, hclose⟩ := exists_of_onHeaviest hw hon
    have hle := ih e hwithin hb htail hk
    rw [weight_cons, List.length_cons, Nat.cast_succ]
    linarith

/-- It lacks less than that, if it has any edge. -/
theorem lt_weight_of_keeps (hw : IsGreatestWeight (pathsFrom (edges :: rest)) w)
    (hp : p ∈ pathsFrom (edges :: rest)) (hk : keeps (edges :: rest) p = true) :
    w - p.length * (1 / 1000000000) < weight p := by
  obtain ⟨e, tail, rfl, -, -, hon, htail, hk⟩ := keeps_cons_of_mem hp hk
  obtain ⟨b, hb, -, hclose⟩ := exists_of_onHeaviest hw hon
  have hle := le_weight_of_keeps hb htail hk
  rw [weight_cons, List.length_cons, Nat.cast_succ]
  linarith

/-- A path that no other outweighs is kept: from each of its positions on, too, it is one that no
other outweighs. -/
theorem keeps_of_isGreatestWeight (hp : p ∈ pathsFrom positions)
    (hw : IsGreatestWeight (pathsFrom positions) (weight p)) : keeps positions p = true := by
  induction positions using suffix_induction generalizing p with
  | nil =>
    rw [List.mem_singleton.1 hp]
    rfl
  | cons edges rest ih =>
    obtain ⟨e, he, hwithin, tail, htail, rfl⟩ := mem_pathsFrom_cons.1 hp
    have hb : IsGreatestWeight (pathsFrom ((edges :: rest).drop e.length)) (weight tail) := by
      refine ⟨⟨tail, htail, rfl⟩, fun q hq => ?_⟩
      have hle := hw.le (e :: q) (mem_pathsFrom_cons.2 ⟨e, he, hwithin, q, hq, rfl⟩)
      rw [weight_cons, weight_cons] at hle
      linarith
    rw [keeps, Bool.and_eq_true]
    refine ⟨onHeaviest_iff.2 ⟨weight tail, weight (e :: tail), hwithin, bestFrom_eq_some_iff.2 hb,
      bestFrom_eq_some_iff.2 hw, ?_⟩, ih e hwithin htail hb⟩
    rw [weight_cons, close_iff, sub_self]
    norm_num

/-- With whole weights, a kept path has the greatest weight. -/
theorem weight_eq_of_keeps (hwhole : WholeWeights positions)
    (hw : IsGreatestWeight (pathsFrom positions) w) (hp : p ∈ pathsFrom positions)
    (hk : keeps positions p = true) : weight p = w := by
  induction positions using suffix_induction generalizing p w with
  | nil =>
    obtain ⟨q, hq, rfl⟩ := hw.attained
    rw [List.mem_singleton.1 hp, List.mem_singleton.1 hq]
  | cons edges rest ih =>
    obtain ⟨e, tail, rfl, he, hwithin, hon, htail, hk⟩ := keeps_cons_of_mem hp hk
    obtain ⟨b, hb, hlt, hgt⟩ := exists_of_onHeaviest hw hon
    have hdrop := hwhole.drop e.length
    rw [weight_cons, ih e hwithin hdrop hb htail hk]
    obtain ⟨q, hq, rfl⟩ := hw.attained
    obtain ⟨q', hq', rfl⟩ := hb.attained
    obtain ⟨l, hl⟩ := hwhole edges List.mem_cons_self e he
    obtain ⟨m, hm⟩ := hdrop.exists_int hq'
    obtain ⟨n, hn⟩ := hwhole.exists_int hq
    have hsum : e.weight + weight q' = ((l + m : Int) : Rat) := by
      rw [hm, Int.cast_add, ← hl]
      rfl
    rw [hsum, hn] at hlt hgt ⊢
    exact intCast_eq_of_sub_lt_one (by linarith) (by linarith)

end

/-! ## Optimality -/

/-- The path reads all words, and no path that does so outweighs it. -/
def IsHeaviest (l : Lattice Rat) (path : List (Edge Rat)) : Prop :=
  l.IsPath 0 path ∧ ∀ other, l.IsPath 0 other → weight other ≤ weight path

section
variable {l : Lattice Rat} {p q : List (Edge Rat)}

/-- The paths that are left are those all of whose edges are kept. -/
theorem mem_paths_heaviest_iff_keeps (hne : l.positions ≠ []) :
    p ∈ l.heaviest.paths ↔ p ∈ pathsFrom l.positions ∧ keeps l.positions p = true := by
  rw [paths_heaviest, List.mem_filter, paths_eq_pathsFrom hne]

/-- A heaviest path is one whose weight is the greatest. -/
theorem isHeaviest_iff (hne : l.positions ≠ []) : l.IsHeaviest p ↔
    p ∈ pathsFrom l.positions ∧ IsGreatestWeight (pathsFrom l.positions) (weight p) := by
  have hpath (q : List (Edge Rat)) : l.IsPath 0 q ↔ q ∈ pathsFrom l.positions := by
    rw [← mem_paths hne, paths_eq_pathsFrom hne]
  rw [IsHeaviest, hpath]
  refine and_congr_right fun hp => ⟨fun h => ⟨⟨p, hp, rfl⟩, fun q hq => ?_⟩, fun h q hq => ?_⟩
  · exact h q ((hpath q).2 hq)
  · exact h.le q ((hpath q).1 hq)

/-- Each path that no other outweighs is among those over the edges that are kept. -/
theorem IsHeaviest.mem_paths_heaviest (hne : l.positions ≠ []) (hp : l.IsHeaviest p) :
    p ∈ l.heaviest.paths := by
  obtain ⟨hmem, hgreatest⟩ := (isHeaviest_iff hne).1 hp
  exact (mem_paths_heaviest_iff_keeps hne).2 ⟨hmem, keeps_of_isGreatestWeight hmem hgreatest⟩

/-- Those paths fall short of any other by less than the tolerance for each edge. -/
theorem lt_weight_of_mem_paths_heaviest (hne : l.positions ≠ []) (hp : p ∈ l.heaviest.paths)
    (hq : q ∈ pathsFrom l.positions) : weight q - p.length * (1 / 1000000000) < weight p := by
  obtain ⟨hmem, hk⟩ := (mem_paths_heaviest_iff_keeps hne).1 hp
  obtain ⟨w, hw⟩ := exists_isGreatestWeight hq
  have hle := hw.le q hq
  obtain ⟨edges, rest, hpositions⟩ := List.exists_cons_of_ne_nil hne
  rw [hpositions] at hw hmem hk
  have hlt := lt_weight_of_keeps hw hmem hk
  linarith

/-- With whole weights they are exactly the paths that no other outweighs. -/
theorem WholeWeights.mem_paths_heaviest_iff (hne : l.positions ≠ [])
    (hwhole : WholeWeights l.positions) : p ∈ l.heaviest.paths ↔ l.IsHeaviest p := by
  refine ⟨fun hp => ?_, IsHeaviest.mem_paths_heaviest hne⟩
  obtain ⟨hmem, hk⟩ := (mem_paths_heaviest_iff_keeps hne).1 hp
  obtain ⟨w, hw⟩ := exists_isGreatestWeight hmem
  refine (isHeaviest_iff hne).2 ⟨hmem, ?_⟩
  rw [weight_eq_of_keeps hwhole hw hmem hk]
  exact hw

/-- If there is any path, one is left over the edges that are kept. -/
theorem exists_mem_paths_heaviest (hne : l.positions ≠ []) (hp : p ∈ pathsFrom l.positions) :
    ∃ q, q ∈ l.heaviest.paths := by
  obtain ⟨w, hw⟩ := exists_isGreatestWeight hp
  obtain ⟨q, hq, rfl⟩ := hw.attained
  exact ⟨q, (mem_paths_heaviest_iff_keeps hne).2 ⟨hq, keeps_of_isGreatestWeight hq hw⟩⟩

/-- Some of the paths are left, in their order. -/
theorem paths_heaviest_sublist (l : Lattice Rat) : l.heaviest.paths.Sublist l.paths := by
  rw [paths_heaviest]
  exact List.filter_sublist

/-- With whole weights, the paths over the edges that are kept are listed in the order of all
paths. -/
theorem WholeWeights.paths_heaviest_eq (hne : l.positions ≠ [])
    (hwhole : WholeWeights l.positions) :
    l.heaviest.paths = l.paths.filter fun p => ∀ q ∈ l.paths, weight q ≤ weight p := by
  rw [paths_heaviest]
  refine List.filter_congr fun p hp => ?_
  have hmem : p ∈ l.heaviest.paths ↔ l.IsHeaviest p := hwhole.mem_paths_heaviest_iff hne
  rw [paths_heaviest, List.mem_filter, and_iff_right hp, IsHeaviest, ← mem_paths hne,
    and_iff_right hp] at hmem
  rw [Bool.eq_iff_iff, decide_eq_true_iff, hmem]
  exact forall_congr' fun q => by rw [mem_paths hne]

/-- No path is left only where there is none. -/
theorem heaviestTilings_eq_nil_iff (hne : l.positions ≠ []) :
    l.heaviestTilings = [] ↔ ∀ p, ¬ l.IsPath 0 p := by
  rw [heaviestTilings, tilings, List.map_eq_nil_iff]
  constructor
  · intro hnil p hp
    rw [← mem_paths hne, paths_eq_pathsFrom hne] at hp
    obtain ⟨q, hq⟩ := exists_mem_paths_heaviest hne hp
    rw [hnil] at hq
    cases hq
  · intro hnone
    refine List.eq_nil_iff_forall_not_mem.2 fun p hp => ?_
    exact hnone p ((mem_paths hne).1 ((paths_heaviest_sublist l).subset hp))

end

end SpokenOrder.Lattice
