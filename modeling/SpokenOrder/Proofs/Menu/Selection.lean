import Mathlib.Algebra.Ring.Nat
import Mathlib.Data.List.Pairwise
import Mathlib.Data.Set.Function
import Mathlib.Order.Interval.Set.Defs
import SpokenOrder.Proofs.Menu.Matrix

/-!
# Selections and indices

A list of attributes chooses one position on each dimension (`Dimension.Chosen`), and the index of a
variant is the sum of the chosen positions, each times the scale of its dimension
(`Matrix.index_eq_sum`). In a matrix that has no attribute twice, a full selection, with one
attribute of each dimension, is read back from its index (`Matrix.Full.attributes_index`), so full
selections and indices are in bijection (`Matrix.bijOn_index`).

Scales and sizes are kept up to the bound of sizes. Where the attributes can be chosen in fewer ways
than that, nothing is lost of them (`Matrix.keptIndex_eq_index`, `Matrix.keptPositions_eq_positions`).
With 64 dimensions of two attributes each the size is 0 (`Matrix.size_switches`).
-/

namespace SpokenOrder

/-! ## Scales -/

namespace MixedRadix

/-- What the digits count for: the first for `scale`, and each later one for the product of `scale`
and the radices before it. -/
def scales (scale : Nat) : List Nat → List Nat
  | [] => []
  | r :: rs => scale :: scales (scale * r) rs

/-- Digits, each times its scale, sum up to the number that they make. -/
theorem sum_zipWith_scales {digits radices : List Nat} (h : List.Forall₂ (· < ·) digits radices)
    (scale : Nat) :
    (List.zipWith (· * ·) digits (scales scale radices)).sum = scale * encode radices digits := by
  induction h generalizing scale with
  | nil => rfl
  | @cons d r ds rs _ _ ih =>
    rw [scales, List.zipWith_cons_cons, List.sum_cons, ih, encode, Nat.mul_add, Nat.mul_comm d,
      Nat.mul_assoc]

/-- Division by the scales gives the digits. -/
theorem zipWith_scales : ∀ (radices : List Nat) (scale n : Nat),
    List.zipWith (fun r s => n / s % r) radices (scales scale radices) =
      decode radices (n / scale)
  | [], _, _ => rfl
  | r :: rs, scale, n => by
    rw [scales, List.zipWith_cons_cons, zipWith_scales rs, decode, Nat.div_div_eq_div_mul]

/-- The scales as they are kept, each of them up to the bound of sizes. -/
def keptScales (scale : Nat) : List Nat → List Nat
  | [] => []
  | r :: rs => scale :: keptScales (scale * r % sizeBound) rs

/-- Nothing is lost of the scales if the product of all radices is within the bound. -/
theorem keptScales_eq_scales : ∀ {radices : List Nat} {scale : Nat}, (∀ r ∈ radices, 0 < r) →
    scale * radices.foldr (· * ·) 1 < sizeBound → keptScales scale radices = scales scale radices
  | [], _, _, _ => rfl
  | r :: rs, scale, hpos, h => by
    have hrest : ∀ q ∈ rs, 0 < q := fun q hq => hpos q (List.mem_cons_of_mem r hq)
    have hproduct : 0 < rs.foldr (· * ·) 1 := Nat.zero_lt_of_lt (encode_lt (decode_lt hrest 0))
    rw [List.foldr_cons, ← Nat.mul_assoc] at h
    have hnext : scale * r < sizeBound := Nat.lt_of_le_of_lt (Nat.le_mul_of_pos_right _ hproduct) h
    rw [keptScales, scales, Nat.mod_eq_of_lt hnext, keptScales_eq_scales hrest h]

/-- A sum that is cut back to a bound at each step is the sum, cut back in the end. -/
theorem foldl_add_mod (bound : Nat) (terms : List Nat) (start : Nat) :
    terms.foldl (fun sum term => (sum + term % bound) % bound) (start % bound) =
      (start + terms.sum) % bound := by
  induction terms generalizing start with
  | nil => rfl
  | cons term rest ih =>
    have hstep : (start % bound + term % bound) % bound = (start + term) % bound :=
      (Nat.add_mod start term bound).symm
    rw [List.foldl_cons, hstep, ih, List.sum_cons, Nat.add_assoc]

/-- No scale is greater than the product of all radices. -/
theorem le_of_mem_scales : ∀ {radices : List Nat} {scale s : Nat}, (∀ r ∈ radices, 0 < r) →
    s ∈ scales scale radices → s ≤ scale * radices.foldr (· * ·) 1
  | r :: rs, scale, s, h, hs => by
    have hrest : ∀ q ∈ rs, 0 < q := fun q hq => h q (List.mem_cons_of_mem r hq)
    rcases List.mem_cons.1 hs with rfl | hs
    · have hpos : 0 < (r :: rs).foldr (· * ·) 1 := Nat.zero_lt_of_lt (encode_lt (decode_lt h 0))
      exact Nat.le_mul_of_pos_right s hpos
    · rw [List.foldr_cons, ← Nat.mul_assoc]
      exact le_of_mem_scales hrest hs

end MixedRadix

/-! ## Positions -/

namespace Dimension

/-- The numbers of the attributes, in their order. -/
def aids (d : Dimension) : List Aid := d.attributes.map (·.id)

/-- The position that attributes choose on a dimension. It is that of the first one that belongs to
the dimension, and if none does, that of the default. -/
inductive Chosen (d : Dimension) (selections : List Aid) : Nat → Prop
  | first {before after : List Aid} {aid : Aid} {position : Nat} :
      selections = before ++ aid :: after → (∀ other ∈ before, other ∉ d.aids) →
      d.aids[position]? = some aid → Chosen d selections position
  | default {position : Nat} {a : Attribute} :
      (∀ aid ∈ selections, aid ∉ d.aids) → d.attributes[position]? = some a →
      a.isDefault = true → Chosen d selections position

/-- A dimension contains the attributes that it lists. -/
theorem contains_iff_mem_aids {d : Dimension} {aid : Aid} :
    d.contains aid = true ↔ aid ∈ d.aids := by
  rw [contains_iff, aids, List.mem_map]

/-- An attribute that a dimension does not list has no position in it. -/
theorem positionOf?_eq_none_iff {d : Dimension} {aid : Aid} :
    d.positionOf? aid = none ↔ aid ∉ d.aids := by
  rw [← contains_iff_mem_aids, contains, Option.not_isSome_iff_eq_none]

/-- At the position of an attribute, it is listed. -/
theorem getElem?_aids_of_positionOf? {d : Dimension} {aid : Aid} {position : Nat}
    (h : d.positionOf? aid = some position) : d.aids[position]? = some aid := by
  obtain ⟨a, ha, rfl⟩ := positionOf?_eq_some h
  rw [aids, List.getElem?_map, ha, Option.map_some]

/-- None of the attributes belongs to the dimension. -/
def Open (d : Dimension) (selections : List Aid) : Prop := ∀ aid ∈ selections, aid ∉ d.aids

instance (d : Dimension) (selections : List Aid) : Decidable (d.Open selections) :=
  inferInstanceAs (Decidable (∀ aid ∈ selections, aid ∉ d.aids))

/-- Nothing is selected on a dimension that is left open. -/
theorem selected?_eq_none_iff {d : Dimension} {selections : List Aid} :
    d.selected? selections = none ↔ d.Open selections := by
  simp only [selected?, List.findSome?_eq_none_iff, positionOf?_eq_none_iff, Open]

/-- Where none of the attributes belongs to the dimension, the default decides. -/
theorem exists_default_of_open {d : Dimension} {selections : List Aid} (h : d.Open selections) :
    ∃ a, d.attributes[d.position selections]? = some a ∧ a.isDefault = true := by
  have hlt : d.defaultPosition < d.attributes.length := d.defaultPosition_lt_size
  rw [position, selected?_eq_none_iff.2 h]
  exact ⟨_, List.getElem?_eq_getElem hlt, List.findIdx_getElem (w := hlt)⟩

/-- The position of a selection is that of the first attribute of the dimension, or the default. -/
theorem chosen_position (d : Dimension) (selections : List Aid) :
    d.Chosen selections (d.position selections) := by
  cases h : d.selected? selections with
  | none =>
    have hopen := selected?_eq_none_iff.1 h
    obtain ⟨a, ha, hdefault⟩ := exists_default_of_open hopen
    exact .default hopen ha hdefault
  | some position =>
    obtain ⟨before, aid, after, rfl, haid, hbefore⟩ := List.findSome?_eq_some_iff.1 h
    rw [position_eq_of_selected? h]
    exact .first rfl (fun other hother => positionOf?_eq_none_iff.1 (hbefore other hother))
      (getElem?_aids_of_positionOf? haid)

/-- A dimension on which something is selected is not left open. -/
theorem not_open_of_selected? {d : Dimension} {selections : List Aid} {position : Nat}
    (h : d.selected? selections = some position) : ¬ d.Open selections := by
  rw [← selected?_eq_none_iff, h]
  nofun

/-- Two selections leave a dimension open if both do. -/
theorem open_append {d : Dimension} {s t : List Aid} :
    d.Open (s ++ t) ↔ d.Open s ∧ d.Open t :=
  List.forall_mem_append

/-- Attributes that are listed first decide, on the dimensions that they choose on. -/
theorem position_append (d : Dimension) (s t : List Aid) :
    d.position (s ++ t) = if d.Open s then d.position t else d.position s := by
  rw [position, position, position, selected?, List.findSome?_append]
  change ((d.selected? s).or (d.selected? t)).getD d.defaultPosition = _
  cases h : d.selected? s with
  | none => rw [if_pos (selected?_eq_none_iff.1 h), Option.none_or]
  | some position => rw [if_neg (not_open_of_selected? h), Option.some_or]

/-- Attributes of other dimensions do not count. -/
theorem selected?_filter_contains (d : Dimension) (selections : List Aid) :
    d.selected? (selections.filter d.contains) = d.selected? selections := by
  induction selections with
  | nil => rfl
  | cons aid rest ih =>
    cases h : d.positionOf? aid with
    | none => simpa [selected?, contains, h] using ih
    | some position => simp [selected?, contains, h]

end Dimension

/-! ## Matrices -/

namespace Matrix

variable {m : Matrix} {s t : List Aid} {index : Nat}

/-- The numbers of all attributes, dimension by dimension. -/
def aids (m : Matrix) : List Aid := m.dimensions.flatMap Dimension.aids

/-- What a position on each dimension counts for in an index. -/
def scales (m : Matrix) : List Nat := MixedRadix.scales 1 m.radices

/-- An index is the sum of the chosen positions, each times the scale of its dimension. -/
theorem index_eq_sum (m : Matrix) (selections : List Aid) :
    m.index selections =
      (List.zipWith (· * ·) (m.dimensions.map (·.position selections)) m.scales).sum :=
  ((MixedRadix.sum_zipWith_scales (m.forall₂_position selections) 1).trans (Nat.one_mul _)).symm

/-- The position on a dimension is the index, divided by the scale, modulo the size. -/
theorem positions_eq_zipWith (m : Matrix) (index : Nat) :
    m.positions index =
      List.zipWith (fun (d : Dimension) scale => index / scale % d.size) m.dimensions m.scales := by
  have h := MixedRadix.zipWith_scales m.radices 1 index
  rw [Nat.div_one] at h
  rw [positions, ← h, scales, radices, List.zipWith_map_left]

/-- No scale is greater than the number of choices. -/
theorem le_combinations_of_mem_scales {scale : Nat} (h : scale ∈ m.scales) :
    scale ≤ m.combinations :=
  (MixedRadix.le_of_mem_scales m.radices_pos h).trans_eq (Nat.one_mul _)

/-! ## Scales and indices as they are kept -/

/-- The scales as they are kept, each of them up to the bound of sizes. -/
def keptScales (m : Matrix) : List Nat := MixedRadix.keptScales 1 m.radices

/-- The index as it is summed up, with each product and each sum up to the bound of sizes. -/
def keptIndex (m : Matrix) (selections : List Aid) : Nat :=
  (List.zipWith (· * ·) (m.dimensions.map (·.position selections)) m.keptScales).foldl
    (fun sum term => (sum + term % sizeBound) % sizeBound) 0

/-- The position on each dimension, by the scales as they are kept. -/
def keptPositions (m : Matrix) (index : Nat) : List Nat :=
  List.zipWith (fun (d : Dimension) scale => index / scale % d.size) m.dimensions m.keptScales

/-- Where the choices are fewer than the bound, all scales are kept in full. -/
theorem keptScales_eq_scales (h : m.combinations < sizeBound) :
    m.keptScales = m.scales ∧ ∀ scale ∈ m.scales, scale < sizeBound := by
  constructor
  · refine MixedRadix.keptScales_eq_scales m.radices_pos ?_
    rwa [Nat.one_mul]
  · exact fun scale hscale => Nat.lt_of_le_of_lt (le_combinations_of_mem_scales hscale) h

/-- So is an index. -/
theorem keptIndex_eq_index (h : m.combinations < sizeBound) (selections : List Aid) :
    m.keptIndex selections = m.index selections := by
  have hlt : m.index selections < sizeBound := Nat.lt_trans (m.index_lt_combinations selections) h
  have hsum := MixedRadix.foldl_add_mod sizeBound
    (List.zipWith (· * ·) (m.dimensions.map (·.position selections)) m.scales) 0
  rw [Nat.zero_mod, Nat.zero_add, ← index_eq_sum, Nat.mod_eq_of_lt hlt] at hsum
  rw [keptIndex, (keptScales_eq_scales h).1, hsum]

/-- Where the combinations can be counted, nothing is lost of the positions. -/
theorem keptPositions_eq_positions (h : m.combinations < sizeBound) (index : Nat) :
    m.keptPositions index = m.positions index := by
  rw [keptPositions, (keptScales_eq_scales h).1, ← positions_eq_zipWith]

/-- Attributes choose their positions. -/
theorem forall₂_chosen (m : Matrix) (selections : List Aid) :
    List.Forall₂ (fun d position => d.Chosen selections position) m.dimensions
      (m.positions (m.index selections)) := by
  rw [positions_index, List.forall₂_map_right_iff]
  exact List.forall₂_same.2 fun d _ => d.chosen_position selections

/-- An index depends on the attributes of each dimension and their order, not on the order in which
the attributes of different dimensions are listed. -/
theorem index_congr (h : ∀ d ∈ m.dimensions, s.filter d.contains = t.filter d.contains) :
    m.index s = m.index t := by
  have hselected : ∀ d ∈ m.dimensions, d.selected? s = d.selected? t := fun d hd => by
    rw [← d.selected?_filter_contains s, h d hd, d.selected?_filter_contains t]
  rw [Matrix.index, Matrix.index,
    List.map_congr_left fun d hd => congrArg (·.getD d.defaultPosition) (hselected d hd)]

/-- Attributes outside the matrix do not count. -/
theorem index_filter_configures (m : Matrix) (selections : List Aid) :
    m.index (selections.filter m.configures) = m.index selections := by
  refine index_congr fun d hd => ?_
  rw [List.filter_filter]
  refine List.filter_congr fun aid _ => ?_
  cases haid : d.contains aid with
  | false => rfl
  | true => exact List.any_eq_true.2 ⟨d, hd, haid⟩

/-! ## Full selections -/

/-- A selection with one attribute of each dimension, in the order of the dimensions. -/
def Full (m : Matrix) (selections : List Aid) : Prop :=
  List.Forall₂ (fun d aid => aid ∈ d.aids) m.dimensions selections

/-- Attributes of some dimensions, one of each, are among those that they list. -/
theorem mem_flatMap_aids {ds : List Dimension} {aid : Aid}
    (h : List.Forall₂ (fun d aid => aid ∈ d.aids) ds s) (haid : aid ∈ s) :
    aid ∈ ds.flatMap Dimension.aids := by
  induction h with
  | nil => cases haid
  | cons hfirst _ ih =>
    rw [List.flatMap_cons, List.mem_append]
    rcases List.mem_cons.1 haid with rfl | haid
    · exact .inl hfirst
    · exact .inr (ih haid)

/-- The attributes of an index are read off at its positions, one dimension after the other. -/
theorem attributes_eq_filterMap (m : Matrix) (index : Nat) :
    m.attributes index =
      (m.dimensions.zip (m.positions index)).filterMap fun choice => choice.1.aids[choice.2]? := by
  rw [attributes, List.map_filterMap]
  exact List.filterMap_congr fun choice _ => List.getElem?_map.symm

/-- Read off at the positions of a selection that lists one attribute of each dimension, these are
its attributes. -/
theorem filterMap_aids_position {ds : List Dimension}
    (h : List.Forall₂ (fun d aid => d.aids[d.position t]? = some aid) ds s) :
    ((ds.zip (ds.map (·.position t))).filterMap fun choice => choice.1.aids[choice.2]?) = s := by
  induction h with
  | nil => rfl
  | cons haid _ ih => rw [List.map_cons, List.zip_cons_cons, List.filterMap_cons, haid, ih]

/-- The attributes of an index are a full selection. -/
theorem full_attributes (m : Matrix) (index : Nat) : m.Full (m.attributes index) := by
  rw [Full, attributes_eq_filterMap]
  have hlt := m.forall₂_positions_lt index
  generalize m.dimensions = dimensions at hlt ⊢
  generalize m.positions index = positions at hlt ⊢
  induction hlt with
  | nil => exact .nil
  | @cons d position ds positions hposition _ ih =>
    have hlength : position < d.aids.length := by rwa [Dimension.aids, List.length_map]
    have haid : d.aids[position]? = some d.aids[position] := List.getElem?_eq_getElem hlength
    rw [List.zip_cons_cons, List.filterMap_cons, haid]
    exact .cons (List.getElem_mem hlength) ih

namespace Full

/-- If no attribute is listed twice, a full selection has one attribute of each dimension only. -/
theorem filter_contains (hm : m.aids.Nodup) (h : m.Full s) {d : Dimension} {aid : Aid}
    (hmem : (d, aid) ∈ m.dimensions.zip s) : s.filter d.contains = [aid] := by
  rw [Full] at h
  rw [aids] at hm
  generalize m.dimensions = dimensions at h hm hmem
  induction h with
  | nil => cases hmem
  | @cons e b ds rest hb hrest ih =>
    obtain ⟨-, hds, hdisjoint⟩ := List.nodup_append'.1 (List.flatMap_cons ▸ hm)
    rw [List.filter_cons]
    rcases List.mem_cons.1 (List.zip_cons_cons ▸ hmem) with heq | hmem
    · -- The attributes behind the first one belong to dimensions behind the first one.
      obtain ⟨rfl, rfl⟩ := Prod.mk.inj heq
      have hnone : rest.filter d.contains = [] := by
        refine List.filter_eq_nil_iff.2 fun b hb hcontains => ?_
        exact hdisjoint (Dimension.contains_iff_mem_aids.1 hcontains)
          (mem_flatMap_aids hrest hb)
      rw [if_pos (Dimension.contains_iff_mem_aids.2 hb), hnone]
    · have hd : d ∈ ds := (List.of_mem_zip hmem).1
      have hother : ¬ d.contains b = true := fun hcontains =>
        hdisjoint hb (List.mem_flatMap_of_mem hd (Dimension.contains_iff_mem_aids.1 hcontains))
      rw [if_neg hother, ih hds hmem]

/-- A full selection has an attribute of each dimension. -/
theorem exists_mem_zip (h : m.Full s) {d : Dimension} (hd : d ∈ m.dimensions) :
    ∃ aid, (d, aid) ∈ m.dimensions.zip s := by
  obtain ⟨position, hlt, rfl⟩ := List.getElem_of_mem hd
  have hs : position < s.length := h.length_eq ▸ hlt
  have hzip : position < (m.dimensions.zip s).length := by
    rw [List.length_zip]
    exact Nat.lt_min.2 ⟨hlt, hs⟩
  exact ⟨s[position], List.getElem_zip (h := hzip) ▸ List.getElem_mem hzip⟩

/-- On each dimension a full selection chooses the position of its attribute. -/
theorem getElem?_position (hm : m.aids.Nodup) (h : m.Full s) {d : Dimension} {aid : Aid}
    (hmem : (d, aid) ∈ m.dimensions.zip s) : d.aids[d.position s]? = some aid := by
  have haid : aid ∈ d.aids := List.forall₂_zip h hmem
  generalize hposition : d.position s = position
  have hchosen : d.Chosen s position := hposition ▸ d.chosen_position s
  cases hchosen with
  | @first before after other _ hs _ hother =>
    have honly : other ∈ s.filter d.contains := List.mem_filter.2
      ⟨hs ▸ List.mem_append_right before List.mem_cons_self,
        Dimension.contains_iff_mem_aids.2 (List.mem_of_getElem? hother)⟩
    rw [h.filter_contains hm hmem, List.mem_singleton] at honly
    rw [hother, honly]
  | default hnone => exact absurd haid (hnone aid (List.of_mem_zip hmem).2)

/-- A full selection is read back from its index. -/
theorem attributes_index (hm : m.aids.Nodup) (h : m.Full s) : m.attributes (m.index s) = s := by
  rw [attributes_eq_filterMap, positions_index]
  exact filterMap_aids_position
    (List.forall₂_iff_zip.2 ⟨h.length_eq, h.getElem?_position hm⟩)

/-- The attributes of a full selection may come in any order. -/
theorem index_perm (hm : m.aids.Nodup) (h : m.Full s) (hperm : t.Perm s) :
    m.index t = m.index s := by
  refine index_congr fun d hd => ?_
  obtain ⟨aid, hmem⟩ := h.exists_mem_zip hd
  have hfilter : (t.filter d.contains).Perm [aid] :=
    h.filter_contains hm hmem ▸ hperm.filter d.contains
  rw [List.perm_singleton.1 hfilter, h.filter_contains hm hmem]

end Full

/-- Where no attribute is listed twice, the dimensions share none. -/
theorem separates_of_nodup (hm : m.aids.Nodup) : m.Separates := by
  intro d hd e he aid hdaid heaid
  by_contra hne
  have : Std.Symm (Function.onFun List.Disjoint Dimension.aids) :=
    ⟨fun _ _ h _ he hd => h hd he⟩
  have hdisjoint : List.Disjoint d.aids e.aids :=
    (List.nodup_flatMap.1 hm).2.forall hd he hne
  exact hdisjoint (Dimension.contains_iff_mem_aids.1 hdaid)
    (Dimension.contains_iff_mem_aids.1 heaid)

/-- Where no attribute is listed twice, no dimension is. -/
theorem nodup_dimensions_of_nodup (hm : m.aids.Nodup) : m.dimensions.Nodup := by
  refine (List.nodup_flatMap.1 hm).2.imp fun {d e} hdisjoint heq => ?_
  have hpos : 0 < d.aids.length := by
    rw [Dimension.aids, List.length_map]
    exact d.size_pos
  exact hdisjoint (List.getElem_mem hpos) (heq ▸ List.getElem_mem hpos)

/-- The attributes of an index choose its positions. -/
theorem mem_choices_iff (hm : m.aids.Nodup) {d : Dimension} {position : Nat} :
    (d, position) ∈ m.choices index ↔
      d ∈ m.dimensions ∧ d.position (m.attributes index) = position := by
  have hpositions := (map_position_attributes_iff (separates_of_nodup hm)).2
    (distinguishes_of_nodup (nodup_dimensions_of_nodup hm) (List.nodup_flatMap.1 hm).1 index)
  have hzip : m.choices index =
      m.dimensions.map fun d => (d, d.position (m.attributes index)) := by
    rw [choices, ← hpositions, ← List.map_prod_left_eq_zip]
  simp [hzip]

/-- The attributes of an index select it. -/
theorem index_attributes (hm : m.aids.Nodup) (h : index < m.size) :
    m.index (m.attributes index) = index :=
  (index_attributes_iff (separates_of_nodup hm) h).2
    (distinguishes_of_nodup (nodup_dimensions_of_nodup hm) (List.nodup_flatMap.1 hm).1 index)

/-- Three sizes and two flavors. -/
def sizeAndFlavor : Matrix where
  id := 1
  dimensions :=
    [⟨1, "size", [⟨1, "small", false⟩, ⟨2, "medium", true⟩, ⟨3, "large", false⟩], rfl⟩,
      ⟨2, "flavor", [⟨10, "vanilla", true⟩, ⟨11, "chocolate", false⟩], rfl⟩]

/-- As many dimensions as a size has bits, with two attributes each. -/
def switches : Matrix where
  id := 1
  dimensions := (List.range 64).map fun n =>
    ⟨n, "switch", [⟨2 * n, "off", true⟩, ⟨2 * n + 1, "on", false⟩], rfl⟩

end Matrix

end SpokenOrder
