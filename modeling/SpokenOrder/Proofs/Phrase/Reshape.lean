import SpokenOrder.CoffeeShop
import SpokenOrder.Proofs.Particulars.Attributes
import SpokenOrder.Proofs.Particulars.Quantity
import SpokenOrder.Proofs.Phrase.Build

/-!
# What words change of an item

Words that change an item, or put another product in its place, change what they name and nothing
else. On a dimension for which an attribute was accepted the attribute decides; on any other one a
changed item keeps its position, and a replacement inherits it if the old product had the dimension,
or takes the default (`Menu.Inherits`). Where no quantity is said, the old one stays
(`Menu.reshapes_of_writeEach`).
-/

namespace SpokenOrder

/-! ## Positions -/

namespace Dimension

variable {d : Dimension} {s t : List Aid} {fallback : Nat → Prop}

/-- The position is that of the accepted attribute of the dimension, or else a fallback. -/
def Given (d : Dimension) (accepted : List Aid) (fallback : Nat → Prop) (position : Nat) : Prop :=
  match accepted.find? d.contains with
  | some aid => d.aids[position]? = some aid
  | none => fallback position

/-- The position selected on a dimension is that of the first attribute that belongs to it. -/
theorem selected?_eq_bind_find? (d : Dimension) (s : List Aid) :
    d.selected? s = (s.find? d.contains).bind d.positionOf? := by
  induction s with
  | nil => rfl
  | cons aid rest ih =>
    rw [selected?, List.findSome?_cons, List.find?_cons, contains]
    cases h : d.positionOf? aid with
    | none => exact ih
    | some position => simp [h]

/-- Attributes that are listed first give the position, and the later ones are a fallback. -/
theorem given_position_append (h : fallback (d.position t)) :
    d.Given s fallback (d.position (s ++ t)) := by
  have hselected := d.selected?_eq_bind_find? s
  rw [Given, position_append]
  cases hfind : s.find? d.contains with
  | none =>
    rw [hfind, Option.bind_none] at hselected
    rwa [if_pos (selected?_eq_none_iff.1 hselected)]
  | some aid =>
    have hcontains : d.contains aid = true := List.find?_some hfind
    obtain ⟨position, hposition⟩ := Option.isSome_iff_exists.1 hcontains
    rw [hfind, Option.bind_some, hposition] at hselected
    rw [if_neg (not_open_of_selected? hselected), position_eq_of_selected? hselected]
    exact getElem?_aids_of_positionOf? hposition

end Dimension

/-- Selections in front of others decide wherever they say anything, and else the others do. -/
theorem Matrix.forall₂_given (m : Matrix) (s t : List Aid) {fallback : Dimension → Nat → Prop}
    (h : ∀ d ∈ m.dimensions, fallback d (d.position t)) :
    List.Forall₂ (fun d position => d.Given s (fallback d) position) m.dimensions
      (m.positions (m.index (s ++ t))) := by
  rw [positions_index, List.forall₂_map_right_iff]
  exact List.forall₂_same.2 fun d hd => Dimension.given_position_append (h d hd)

namespace Menu

variable {menu : Menu}

/-- The position on a dimension that a variant hands on to another product: its own, if its matrix
has the dimension, and the default if not. -/
def Inherits (menu : Menu) (key : Key) (d : Dimension) (position : Nat) : Prop :=
  (∃ m, menu.matrixFor? key.pid = some m ∧ (d, position) ∈ m.choices key.index) ∨
    (∀ m, menu.matrixFor? key.pid = some m → d ∉ m.dimensions) ∧
      ∃ a, d.attributes[position]? = some a ∧ a.isDefault = true

/-- The matrix of an item is a registered one. -/
theorem mem_matrices_of_matrixFor? {pid : Pid} {m : Matrix} (h : menu.matrixFor? pid = some m) :
    m ∈ menu.registry.matrices := by
  obtain ⟨g, -, hm⟩ := Option.bind_eq_some_iff.1 h
  exact Registry.mem_matrices_of_matrix? hm

/-- The attributes of a variant choose what it hands on. -/
theorem inherits_position (hr : menu.registry.WellFormed)
    (hmatrices : ∀ m ∈ menu.registry.matrices, m.aids.Nodup) (key : Key) {d : Dimension}
    (hd : d ∈ menu.registry.dimensions) :
    menu.Inherits key d (d.position (menu.attributesOf key)) := by
  rw [attributesOf]
  cases h : menu.matrixFor? key.pid with
  | none =>
    refine .inr ⟨fun m hm => ?_, Dimension.exists_default_of_open fun _ haid => ?_⟩
    · rw [h] at hm
      cases hm
    · cases haid
  | some m =>
    have hm := mem_matrices_of_matrixFor? h
    rw [Option.map_some, Option.getD_some]
    by_cases hmem : d ∈ m.dimensions
    · exact .inl ⟨m, h, (Matrix.mem_choices_iff (hmatrices m hm)).2 ⟨hmem, rfl⟩⟩
    · -- The attributes belong to other dimensions, so they leave this one open.
      have hopen : d.Open (m.attributes key.index) := by
        intro aid haid hdaid
        obtain ⟨e, position, a, hchoice, ha, rfl⟩ := Matrix.mem_attributes_iff.1 haid
        have he := Matrix.mem_dimensions_of_mem_choices hchoice
        have heq := hr.unique d hd e (hr.mem_dimensions m hm e he) a.id
          (Dimension.contains_iff_mem_aids.2 hdaid) (Dimension.contains_of_getElem? ha)
        exact hmem (heq ▸ he)
      refine .inr ⟨fun m' hm' => ?_, Dimension.exists_default_of_open hopen⟩
      obtain rfl : m = m' := Option.some_inj.1 (h.symm.trans hm')
      exact hmem

end Menu

/-! ## Items -/

/-- An item of the product `pid` in the place of `old`. Of the attributes that were read, the first
on each dimension of the matrix is accepted and gives the position there; on the other dimensions
there is a fallback. The quantity that was said replaces the old one. -/
structure Item.Reshapes (m : Matrix) (pid : Pid) (read accepted : List Aid)
    (quantity? : Option Nat) (fallback : Dimension → Nat → Prop) (old new : Item) : Prop where
  uid_eq : new.uid = old.uid
  pid_eq : new.key.pid = pid
  firstOfEach : m.FirstOfEach read accepted
  positions : List.Forall₂ (fun d position => d.Given accepted (fallback d) position) m.dimensions
    (m.positions new.key.index)
  quantity_eq : new.quantity = quantity?.getD old.quantity

namespace Menu

/-- Two large coffees. -/
def largeCoffees : Item := ⟨4, ⟨CoffeeShop.coffee, 2⟩, 2, []⟩

/-- "Decaf", and then "regular". -/
def decafRegular : Run := [⟨.attribute 21 "decaf", ⟨0, 1⟩⟩, ⟨.attribute 20 "regular", ⟨1, 1⟩⟩]

/-- "A chocolate cone". -/
def chocolateCone : Segment where
  left := [⟨.quantity 1, ⟨0, 1⟩⟩, ⟨.attribute 11 "chocolate", ⟨1, 1⟩⟩]
  entity := ⟨.entity CoffeeShop.cone "cone", ⟨2, 1⟩⟩
  right := []

end Menu

end SpokenOrder
