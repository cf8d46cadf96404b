import SpokenOrder.Menu.Matrix
import Mathlib.Data.List.Forall2
import Mathlib.Data.List.Nodup

/-!
# Indices and positions

The index of a variant is a mixed-radix number whose digits are the positions of its attributes, so
positions and indices determine each other (`Matrix.positions_index`, `Matrix.index_eq_iff`). The
way back leads over the attributes and not over the positions: a variant is found again from the
attributes that its index stands for just when these attributes tell its positions
(`Matrix.index_attributes_iff`). The variant that attributes select is one of the variants that they
leave open (`Matrix.covers_pattern_key`).
-/

namespace SpokenOrder

/-! ## Mixed-radix numbers -/

namespace MixedRadix

/-- Each digit is below its radix. -/
theorem decode_lt : ∀ {radices : List Nat}, (∀ r ∈ radices, 0 < r) → ∀ n : Nat,
    List.Forall₂ (· < ·) (decode radices n) radices
  | [], _, _ => .nil
  | r :: _, h, n =>
    .cons (Nat.mod_lt n (h r List.mem_cons_self))
      (decode_lt (fun q hq => h q (List.mem_cons_of_mem r hq)) (n / r))

/-- Digits below their radices make a number below the product of the radices. -/
theorem encode_lt {digits radices : List Nat} (h : List.Forall₂ (· < ·) digits radices) :
    encode radices digits < radices.foldr (· * ·) 1 := by
  induction h with
  | nil => exact Nat.one_pos
  | @cons d r ds rs hd _ ih =>
    calc d + r * encode rs ds < r + r * encode rs ds := by omega
      _ = r * (encode rs ds + 1) := by rw [Nat.mul_succ, Nat.add_comm]
      _ ≤ r * rs.foldr (· * ·) 1 := Nat.mul_le_mul_left r ih

/-- The digits of a number make the number. -/
theorem encode_decode : ∀ {radices : List Nat} {n : Nat}, n < radices.foldr (· * ·) 1 →
    encode radices (decode radices n) = n
  | [], n, h => (Nat.lt_one_iff.1 h).symm
  | r :: rs, n, h => by
    have hrest : n / r < rs.foldr (· * ·) 1 := Nat.div_lt_of_lt_mul h
    rw [decode, encode, encode_decode hrest, Nat.mod_add_div]

/-- The digits of what digits make are these. -/
theorem decode_encode {digits radices : List Nat} (h : List.Forall₂ (· < ·) digits radices) :
    decode radices (encode radices digits) = digits := by
  induction h with
  | nil => rfl
  | @cons d r ds rs hd _ ih =>
    have hr : 0 < r := Nat.zero_lt_of_lt hd
    rw [encode, decode, Nat.add_mul_mod_self_left, Nat.mod_eq_of_lt hd,
      Nat.add_mul_div_left _ _ hr, Nat.div_eq_of_lt hd, Nat.zero_add, ih]

end MixedRadix

/-! ## Dimensions -/

namespace Dimension

/-- The position that attributes choose on the dimension: the selected one, or the default. -/
def position (d : Dimension) (selections : List Aid) : Nat :=
  (d.selected? selections).getD d.defaultPosition

/-- The default is one of the attributes. -/
theorem defaultPosition_lt_size (d : Dimension) : d.defaultPosition < d.size := by
  obtain ⟨a, ha, hdefault⟩ : ∃ a ∈ d.attributes, a.isDefault = true := by
    rw [← List.countP_pos_iff, d.countP_isDefault]
    exact Nat.one_pos
  exact List.findIdx_lt_length.2 ⟨a, ha, hdefault⟩

theorem size_pos (d : Dimension) : 0 < d.size := Nat.zero_lt_of_lt d.defaultPosition_lt_size

/-- At the position of an attribute there is this attribute. -/
theorem positionOf?_eq_some {d : Dimension} {aid : Aid} {position : Nat}
    (h : d.positionOf? aid = some position) :
    ∃ a, d.attributes[position]? = some a ∧ a.id = aid := by
  obtain ⟨hlt, hid, -⟩ := List.findIdx?_eq_some_iff_getElem.1 h
  exact ⟨d.attributes[position], List.getElem?_eq_getElem hlt, by simpa using hid⟩

/-- The position of an attribute is one of the dimension. -/
theorem positionOf?_lt {d : Dimension} {aid : Aid} {position : Nat}
    (h : d.positionOf? aid = some position) : position < d.size := by
  obtain ⟨a, ha, -⟩ := positionOf?_eq_some h
  exact (List.getElem?_eq_some_iff.1 ha).1

/-- A dimension contains the numbers of its attributes. -/
theorem contains_iff {d : Dimension} {aid : Aid} :
    d.contains aid = true ↔ ∃ a ∈ d.attributes, a.id = aid := by
  simp [contains, positionOf?]

/-- A dimension contains the attribute at a position. -/
theorem contains_of_getElem? {d : Dimension} {position : Nat} {a : Attribute}
    (h : d.attributes[position]? = some a) : d.contains a.id = true :=
  contains_iff.2 ⟨a, List.mem_of_getElem? h, rfl⟩

/-- An attribute is found at its position if no other attribute has its number. -/
theorem positionOf?_of_getElem? {d : Dimension} (hd : (d.attributes.map (·.id)).Nodup)
    {position : Nat} {a : Attribute} (h : d.attributes[position]? = some a) :
    d.positionOf? a.id = some position := by
  obtain ⟨hlt, rfl⟩ := List.getElem?_eq_some_iff.1 h
  refine List.findIdx?_eq_some_iff_getElem.2 ⟨hlt, by simp, fun j hj hid => ?_⟩
  have hne := List.pairwise_iff_getElem.1 (List.pairwise_map.1 hd) j position
    (Nat.lt_trans hj hlt) hlt hj
  exact hne (beq_iff_eq.1 hid)

/-- A selected position is one of the dimension. -/
theorem selected?_lt {d : Dimension} {selections : List Aid} {position : Nat}
    (h : d.selected? selections = some position) : position < d.size := by
  obtain ⟨aid, -, haid⟩ := List.exists_of_findSome?_eq_some h
  exact positionOf?_lt haid

/-- Whatever is selected, the position is one of the dimension. -/
theorem position_lt_size (d : Dimension) (selections : List Aid) :
    d.position selections < d.size := by
  rw [position]
  cases h : d.selected? selections with
  | none => exact d.defaultPosition_lt_size
  | some position => exact selected?_lt h

/-- The first selection that belongs to the dimension decides its position. -/
theorem position_eq_of_selected? {d : Dimension} {selections : List Aid} {position : Nat}
    (h : d.selected? selections = some position) : d.position selections = position := by
  rw [Dimension.position, h, Option.getD_some]

end Dimension

/-! ## Matrices -/

namespace Matrix

variable {m : Matrix} {index : Nat} {selections : List Aid}

/-- No dimension is empty. -/
theorem radices_pos (m : Matrix) : ∀ r ∈ m.radices, 0 < r := by
  intro r hr
  obtain ⟨d, -, rfl⟩ := List.mem_map.1 hr
  exact d.size_pos

/-- Selected positions are below the sizes of their dimensions. -/
theorem forall₂_position (m : Matrix) (selections : List Aid) :
    List.Forall₂ (· < ·) (m.dimensions.map (·.position selections)) m.radices :=
  List.forall₂_map_left_iff.2 (List.forall₂_map_right_iff.2
    (List.forall₂_same.2 fun d _ => d.position_lt_size selections))

/-- The index of a selection is below the number of combinations. -/
theorem index_lt_combinations (m : Matrix) (selections : List Aid) :
    m.index selections < m.combinations :=
  MixedRadix.encode_lt (m.forall₂_position selections)

/-- The size is the number of choices, if it can hold it. -/
theorem size_eq_combinations (h : m.combinations < sizeBound) : m.size = m.combinations :=
  Nat.mod_eq_of_lt h

theorem size_le_combinations (m : Matrix) : m.size ≤ m.combinations := Nat.mod_le _ _

/-- Where the combinations can be counted, the index of a selection is below the size. -/
theorem index_lt_size (h : m.combinations < sizeBound) (selections : List Aid) :
    m.index selections < m.size :=
  size_eq_combinations h ▸ m.index_lt_combinations selections

/-- The index that attributes select stands for the positions that they choose. -/
theorem positions_index (m : Matrix) (selections : List Aid) :
    m.positions (m.index selections) = m.dimensions.map (·.position selections) :=
  MixedRadix.decode_encode (m.forall₂_position selections)

/-- An index is the selected one if it stands for the chosen positions. -/
theorem index_eq_iff (h : index < m.size) :
    m.index selections = index ↔ m.dimensions.map (·.position selections) = m.positions index := by
  constructor
  · rintro rfl
    exact (m.positions_index selections).symm
  · intro hpositions
    have hencode : MixedRadix.encode m.radices (MixedRadix.decode m.radices index) = index :=
      MixedRadix.encode_decode (Nat.lt_of_lt_of_le h m.size_le_combinations)
    rw [← positions, ← hpositions] at hencode
    exact hencode

/-! ## The attributes of an index -/

/-- The dimensions, each with the position that an index stands for. -/
def choices (m : Matrix) (index : Nat) : List (Dimension × Nat) :=
  m.dimensions.zip (m.positions index)

/-- The positions of an index are below the sizes of their dimensions. -/
theorem forall₂_positions_lt (m : Matrix) (index : Nat) :
    List.Forall₂ (fun (d : Dimension) position => position < d.size)
      m.dimensions (m.positions index) :=
  (List.forall₂_map_right_iff.1 (MixedRadix.decode_lt m.radices_pos index)).flip

/-- The choices of an index are in the dimensions of the matrix. -/
theorem mem_dimensions_of_mem_choices {d : Dimension} {position : Nat}
    (h : (d, position) ∈ m.choices index) : d ∈ m.dimensions :=
  (List.of_mem_zip h).1

/-- At each position that an index chooses there is an attribute. -/
theorem exists_attribute_of_mem_choices {d : Dimension} {position : Nat}
    (h : (d, position) ∈ m.choices index) : ∃ a, d.attributes[position]? = some a :=
  ⟨_, List.getElem?_eq_getElem (List.forall₂_zip (m.forall₂_positions_lt index) h)⟩

/-- The attributes of an index are those at the positions that it chooses. -/
theorem mem_attributes_iff {aid : Aid} :
    aid ∈ m.attributes index ↔
      ∃ d position a, (d, position) ∈ m.choices index ∧ d.attributes[position]? = some a ∧
        a.id = aid := by
  simp only [attributes, choices, List.mem_map, List.mem_filterMap, Prod.exists]
  constructor
  · rintro ⟨a, ⟨d, position, hchoice, ha⟩, hid⟩
    exact ⟨d, position, a, hchoice, ha, hid⟩
  · rintro ⟨d, position, a, hchoice, ha, hid⟩
    exact ⟨a, ⟨d, position, hchoice, ha⟩, hid⟩

/-- A selection has the positions of an index if it has each that the index chooses. -/
theorem map_position_eq_iff :
    m.dimensions.map (·.position selections) = m.positions index ↔
      ∀ d position, (d, position) ∈ m.choices index → d.position selections = position := by
  have hlength := (m.forall₂_positions_lt index).length_eq
  rw [← List.forall₂_eq_eq_eq, List.forall₂_map_left_iff, List.forall₂_iff_zip]
  exact ⟨fun h d position => h.2, fun h => ⟨hlength, h _ _⟩⟩

/-- No attribute is in two dimensions of the matrix. -/
def Separates (m : Matrix) : Prop :=
  ∀ d ∈ m.dimensions, ∀ e ∈ m.dimensions, ∀ aid, d.contains aid = true → e.contains aid = true →
    d = e

/-- The attributes that an index stands for tell its positions: each is found where the index has
it, and a dimension that is listed more than once has one position. -/
structure Distinguishes (m : Matrix) (index : Nat) : Prop where
  positionOf? : ∀ d position a, (d, position) ∈ m.choices index →
    d.attributes[position]? = some a → d.positionOf? a.id = some position
  unique : ∀ d p q, (d, p) ∈ m.choices index → (d, q) ∈ m.choices index → p = q

/-- The attributes of an index choose on each dimension a position that the dimension finds for one
of its own attributes. -/
theorem exists_position_attributes (hm : m.Separates) {d : Dimension} {p : Nat}
    (h : (d, p) ∈ m.choices index) :
    ∃ q a, (d, q) ∈ m.choices index ∧ d.attributes[q]? = some a ∧
      d.positionOf? a.id = some (d.position (m.attributes index)) := by
  obtain ⟨a, ha⟩ := exists_attribute_of_mem_choices h
  have hselected : (d.selected? (m.attributes index)).isSome = true :=
    List.findSome?_isSome_iff.2
      ⟨a.id, mem_attributes_iff.2 ⟨d, p, a, h, ha, rfl⟩, Dimension.contains_of_getElem? ha⟩
  obtain ⟨r, hr⟩ := Option.isSome_iff_exists.1 hselected
  obtain ⟨aid, haid, hposition⟩ := List.exists_of_findSome?_eq_some hr
  obtain ⟨e, q, b, hchoice, hb, rfl⟩ := mem_attributes_iff.1 haid
  -- The attribute that decides is one of `d`, since no other dimension has it.
  obtain rfl : e = d :=
    hm e (mem_dimensions_of_mem_choices hchoice) d (mem_dimensions_of_mem_choices h) b.id
      (Dimension.contains_of_getElem? hb) (by rw [Dimension.contains, hposition]; rfl)
  exact ⟨q, b, hchoice, hb, by rw [hposition, Dimension.position_eq_of_selected? hr]⟩

/-- The attributes of an index choose its positions just when they tell them. -/
theorem map_position_attributes_iff (hm : m.Separates) :
    m.dimensions.map (·.position (m.attributes index)) = m.positions index ↔
      m.Distinguishes index := by
  rw [map_position_eq_iff]
  constructor
  · intro hpositions
    have hunique : ∀ d p q, (d, p) ∈ m.choices index → (d, q) ∈ m.choices index → p = q :=
      fun d p q hp hq => (hpositions d p hp).symm.trans (hpositions d q hq)
    refine ⟨fun d p a hp ha => ?_, hunique⟩
    obtain ⟨q, b, hq, hb, hposition⟩ := exists_position_attributes hm hp
    obtain rfl := hunique d p q hp hq
    obtain rfl : a = b := Option.some_inj.1 (ha.symm.trans hb)
    rw [hposition, hpositions d p hp]
  · intro htells d p hp
    obtain ⟨q, b, hq, hb, hposition⟩ := exists_position_attributes hm hp
    rw [htells.positionOf? d q b hq hb, Option.some_inj] at hposition
    rw [← hposition]
    exact htells.unique d q p hq hp

/-- A variant is found again from the attributes that its index stands for just when they tell its
positions. -/
theorem index_attributes_iff (hm : m.Separates) (h : index < m.size) :
    m.index (m.attributes index) = index ↔ m.Distinguishes index := by
  rw [index_eq_iff h, map_position_attributes_iff hm]

/-- The attributes of a matrix that lists no dimension twice, and whose dimensions repeat no
attribute, tell all positions. -/
theorem distinguishes_of_nodup (hm : m.dimensions.Nodup)
    (hd : ∀ d ∈ m.dimensions, (d.attributes.map (·.id)).Nodup) (index : Nat) :
    m.Distinguishes index where
  positionOf? d _ _ hp ha :=
    Dimension.positionOf?_of_getElem? (hd d (mem_dimensions_of_mem_choices hp)) ha
  unique d p q hp hq := by
    obtain ⟨i, hi, hip⟩ := List.getElem_of_mem hp
    obtain ⟨j, hj, hjq⟩ := List.getElem_of_mem hq
    simp only [choices, List.getElem_zip, Prod.mk.injEq] at hip hjq
    obtain rfl : i = j := (hm.getElem_inj_iff).1 (hip.1.trans hjq.1.symm)
    exact hip.2.symm.trans hjq.2

/-! ## Patterns -/

/-- The positions of a selection agree with what it selects. -/
theorem agrees_map_position (dimensions : List Dimension) (selections : List Aid) :
    agrees (dimensions.map (·.selected? selections)) (dimensions.map (·.position selections)) =
      true := by
  induction dimensions with
  | nil => rfl
  | cons d rest ih =>
    rw [List.map_cons, List.map_cons]
    cases h : d.selected? selections with
    | none => exact ih
    | some position =>
      rw [agrees, ih, Dimension.position_eq_of_selected? h, beq_self_eq_true, Bool.and_true]

/-- The variant with the selected attributes is one of the variants with them. -/
theorem covers_pattern_key (pid : Pid) (h : m.index selections < m.size) :
    (m.pattern pid selections).covers (m.key pid selections) = true := by
  have hagrees : agrees (m.selected selections) (m.positions (m.index selections)) = true := by
    rw [positions_index]
    exact agrees_map_position m.dimensions selections
  simp [KeyPattern.covers, pattern, key, hagrees, h]

end Matrix

end SpokenOrder
