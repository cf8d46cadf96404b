import SpokenOrder.CoffeeShop
import SpokenOrder.Proofs.Menu.Matrix

/-!
# Menus as they are written

A menu is written entry by entry, and a refused entry leaves it as it was. Whatever was written,
each variant on sale belongs to a generic item with a matrix, and its index is one of the matrix
(`Menu.WellFormed`). It is found again from its attributes just when these tell its positions
(`Menu.sold_of_writeEach`): a dimension may be written with one attribute twice, and a matrix with
one dimension twice, and then they may not.
-/

namespace SpokenOrder

section Except

variable {ε α β : Type} {x : Except ε α} {b : β}

/-- What goes through in two steps goes through in each. -/
theorem exists_ok_of_bind {f : α → Except ε β} (h : (x >>= f) = .ok b) :
    ∃ a, x = .ok a ∧ f a = .ok b := by
  cases x with
  | error e => cases h
  | ok a => exact ⟨a, rfl, h⟩

/-- What goes through and is changed goes through before. -/
theorem exists_ok_of_map {f : α → β} (h : x.map f = .ok b) : ∃ a, x = .ok a ∧ f a = b := by
  cases x with
  | error e => cases h
  | ok a => exact ⟨a, rfl, Except.ok.inj h⟩

end Except

/-! ## Dimensions and matrices -/

namespace Registry

variable {r r' : Registry}

/-- No attribute is in two dimensions, and matrices are over dimensions of the registry. -/
structure WellFormed (r : Registry) : Prop where
  unique : ∀ d ∈ r.dimensions, ∀ e ∈ r.dimensions, ∀ aid, d.contains aid = true →
    e.contains aid = true → d = e
  mem_dimensions : ∀ m ∈ r.matrices, ∀ d ∈ m.dimensions, d ∈ r.dimensions

/-- A registry without entries is well formed. -/
theorem wellFormed_empty : empty.WellFormed where
  unique := nofun
  mem_dimensions := nofun

/-- A matrix that is found is registered. -/
theorem mem_matrices_of_matrix? {mid : Mid} {m : Matrix} (h : r.matrix? mid = some m) :
    m ∈ r.matrices :=
  List.mem_of_find?_eq_some h

/-- The dimensions of a registered matrix share no attributes. -/
theorem WellFormed.separates (hr : r.WellFormed) {mid : Mid} {m : Matrix}
    (h : r.matrix? mid = some m) : m.Separates :=
  have hm := mem_matrices_of_matrix? h
  fun d hd e he => hr.unique d (hr.mem_dimensions m hm d hd) e (hr.mem_dimensions m hm e he)

/-- A dimension is added only if no other has one of its attributes. -/
theorem not_contains_of_taken? {d e : Dimension} {aid : Aid} (h : r.taken? d = none)
    (he : e ∈ r.dimensions) (hd : d.contains aid = true) : e.contains aid ≠ true := by
  obtain ⟨a, ha, rfl⟩ := Dimension.contains_iff.1 hd
  have hnone := List.findSome?_eq_none_iff.1 h a ha
  rw [Option.map_eq_none_iff, dimensionOf?, Option.map_eq_none_iff] at hnone
  exact List.find?_eq_none.1 hnone e he

/-- A dimension that is accepted is new, shares no attribute and comes behind the others. -/
theorem addDimension_eq_ok {d : Dimension} (h : r.addDimension d = .ok r') :
    r.dimension? d.id = none ∧ r.taken? d = none ∧
      r' = { r with dimensions := r.dimensions ++ [d] } := by
  unfold addDimension at h
  split at h
  · cases h
  next hfree =>
    split at h
    · cases h
    next htaken =>
      exact ⟨Option.not_isSome_iff_eq_none.1 hfree, htaken, (Except.ok.inj h).symm⟩

/-- Each dimension has a number of its own. -/
def Numbered (r : Registry) : Prop :=
  ∀ d ∈ r.dimensions, ∀ e ∈ r.dimensions, d.id = e.id → d = e

/-- An accepted dimension leaves dimensions with numbers of their own. -/
theorem Numbered.addDimension (hr : r.Numbered) {d : Dimension} (h : r.addDimension d = .ok r') :
    r'.Numbered := by
  obtain ⟨hfree, -, rfl⟩ := addDimension_eq_ok h
  have hnew : ∀ e ∈ r.dimensions, e.id ≠ d.id := fun e he => by
    simpa using List.find?_eq_none.1 hfree e he
  intro e he f hf heq
  rcases List.mem_append.1 he with hold | hlast <;> rcases List.mem_append.1 hf with hold' | hlast'
  · exact hr e hold f hold' heq
  · rw [List.mem_singleton.1 hlast'] at heq
    exact absurd heq (hnew e hold)
  · rw [List.mem_singleton.1 hlast] at heq
    exact absurd heq.symm (hnew f hold')
  · rw [List.mem_singleton.1 hlast, List.mem_singleton.1 hlast']

/-- An accepted dimension leaves a registry well formed. -/
theorem WellFormed.addDimension (hr : r.WellFormed) {d : Dimension}
    (h : r.addDimension d = .ok r') : r'.WellFormed := by
  obtain ⟨-, htaken, rfl⟩ := addDimension_eq_ok h
  constructor
  case unique =>
    intro e he f hf aid heaid hfaid
    rcases List.mem_append.1 he with hold | hnew <;> rcases List.mem_append.1 hf with hold' | hnew'
    · exact hr.unique e hold f hold' aid heaid hfaid
    · rw [List.mem_singleton.1 hnew'] at hfaid
      exact absurd heaid (not_contains_of_taken? htaken hold hfaid)
    · rw [List.mem_singleton.1 hnew] at heaid
      exact absurd hfaid (not_contains_of_taken? htaken hold' heaid)
    · rw [List.mem_singleton.1 hnew, List.mem_singleton.1 hnew']
  case mem_dimensions =>
    intro m hm e he
    exact List.mem_append_left _ (hr.mem_dimensions m hm e he)

/-- The dimensions that are looked up are registered. -/
theorem mem_dimensions_of_dimensionsOf : ∀ {dids : List Did} {ds : List Dimension},
    r.dimensionsOf dids = .ok ds → ∀ d ∈ ds, d ∈ r.dimensions
  | [], ds, h => by
    obtain rfl : [] = ds := Except.ok.inj h
    nofun
  | did :: rest, ds, h => by
    rw [dimensionsOf] at h
    split at h
    · cases h
    next d hd =>
      obtain ⟨es, hes, rfl⟩ := exists_ok_of_map h
      exact List.forall_mem_cons.2
        ⟨List.mem_of_find?_eq_some hd, mem_dimensions_of_dimensionsOf hes⟩

/-- A matrix that is accepted is over registered dimensions and comes behind the others. -/
theorem addMatrix_eq_ok {mid : Mid} {dids : List Did} (h : r.addMatrix mid dids = .ok r') :
    ∃ ds, r.dimensionsOf dids = .ok ds ∧
      r' = { r with matrices := r.matrices ++ [⟨mid, ds⟩] } := by
  unfold addMatrix at h
  split at h
  · cases h
  · obtain ⟨ds, hds, hr'⟩ := exists_ok_of_map h
    exact ⟨ds, hds, hr'.symm⟩

/-- An accepted matrix leaves a registry well formed. -/
theorem WellFormed.addMatrix (hr : r.WellFormed) {mid : Mid} {dids : List Did}
    (h : r.addMatrix mid dids = .ok r') : r'.WellFormed := by
  obtain ⟨ds, hds, rfl⟩ := addMatrix_eq_ok h
  refine ⟨hr.unique, fun m hm => ?_⟩
  rcases List.mem_append.1 hm with hm | hm
  · exact hr.mem_dimensions m hm
  · obtain rfl := List.mem_singleton.1 hm
    exact mem_dimensions_of_dimensionsOf (r := r) hds

/-- A matrix stays what it is when others are added. -/
theorem matrix?_append {mid : Mid} {m : Matrix} (h : r.matrix? mid = some m) (ms : List Matrix) :
    { r with matrices := r.matrices ++ ms }.matrix? mid = some m := by
  have hfind : r.matrices.find? (·.id == mid) = some m := h
  rw [matrix?, List.find?_append, hfind, Option.some_or]

end Registry

/-! ## What is on sale -/

namespace Menu

variable {menu menu' : Menu}

/-- What an accepted entry makes of a menu. -/
inductive Accepts (menu : Menu) : Menu → Prop
  | dimension {d : Dimension} {registry : Registry} :
      menu.registry.addDimension d = .ok registry → Accepts menu { menu with registry }
  | matrix {mid : Mid} {dids : List Did} {registry : Registry} :
      menu.registry.addMatrix mid dids = .ok registry → Accepts menu { menu with registry }
  | generic {g : Generic} {catalog : Catalog} :
      menu.catalog.addGeneric g menu.registry = .ok catalog → Accepts menu { menu with catalog }
  | exclude (key : Key) : Accepts menu { menu with catalog := menu.catalog.exclude key }
  /-- Rules and recipes. -/
  | rules (composition : Composition) (cookbook : Cookbook) :
      Accepts menu { menu with composition, cookbook }

/-- An entry that goes through is accepted: it adds a dimension, a matrix or a generic item, takes a
variant off sale, or adds rules or a recipe. -/
theorem accepts_of_write {entry : Entry} (h : menu.write entry = .ok menu') :
    menu.Accepts menu' := by
  cases entry with
  | dimension id name attributes =>
    obtain ⟨d, -, h⟩ := exists_ok_of_bind h
    obtain ⟨registry, hr, h⟩ := exists_ok_of_bind h
    exact Except.ok.inj h ▸ .dimension hr
  | matrix id dids =>
    obtain ⟨registry, hr, h⟩ := exists_ok_of_bind h
    exact Except.ok.inj h ▸ .matrix hr
  | generic g =>
    obtain ⟨catalog, hc, h⟩ := exists_ok_of_bind h
    exact Except.ok.inj h ▸ .generic hc
  | exclude key => exact Except.ok.inj h ▸ .exclude key
  | children parents options =>
    obtain ⟨composition, -, h⟩ := exists_ok_of_bind h
    exact Except.ok.inj h ▸ .rules composition menu.cookbook
  | exclusion parents options =>
    obtain ⟨composition, -, h⟩ := exists_ok_of_bind h
    exact Except.ok.inj h ▸ .rules composition menu.cookbook
  | recipe id name parents options =>
    obtain ⟨cookbook, -, h⟩ := exists_ok_of_bind h
    exact Except.ok.inj h ▸ .rules menu.composition cookbook

/-- Every variant on sale belongs to a generic item with a matrix, and has an index of it. -/
structure WellFormed (menu : Menu) : Prop where
  registry : menu.registry.WellFormed
  sold : ∀ key ∈ menu.catalog.sold, ∃ g m, menu.catalog.generic? key.pid = some g ∧
    menu.registry.matrix? g.matrix = some m ∧ key.index < m.size

/-- A menu without entries is well formed. -/
theorem wellFormed_empty : empty.WellFormed where
  registry := Registry.wellFormed_empty
  sold := nofun

/-- A generic item that is accepted is new, has a registered matrix and puts all of its variants on
sale. -/
theorem addGeneric_eq_ok {c c' : Catalog} {g : Generic} {r : Registry}
    (h : c.addGeneric g r = .ok c') :
    c.generic? g.pid = none ∧ ∃ m, r.matrix? g.matrix = some m ∧
      c' = ⟨c.generics ++ [g], c.sold ++ (List.range m.size).map (Key.mk g.pid)⟩ := by
  unfold Catalog.addGeneric at h
  split at h
  · cases h
  next hfree =>
    split at h
    · cases h
    next m hm =>
      exact ⟨Option.not_isSome_iff_eq_none.1 hfree, m, hm, (Except.ok.inj h).symm⟩

/-- Step lemma: an accepted entry keeps a menu well formed. -/
theorem WellFormed.accepts (hmenu : menu.WellFormed) (h : menu.Accepts menu') :
    menu'.WellFormed := by
  cases h with
  | dimension hr =>
    refine ⟨hmenu.registry.addDimension hr, ?_⟩
    obtain ⟨-, -, rfl⟩ := Registry.addDimension_eq_ok hr
    exact hmenu.sold
  | matrix hr =>
    refine ⟨hmenu.registry.addMatrix hr, fun key hkey => ?_⟩
    obtain ⟨ds, -, rfl⟩ := Registry.addMatrix_eq_ok hr
    obtain ⟨g, m, hg, hm, hindex⟩ := hmenu.sold key hkey
    exact ⟨g, m, hg, Registry.matrix?_append hm _, hindex⟩
  | @generic g _ hc =>
    refine ⟨hmenu.registry, fun key hkey => ?_⟩
    obtain ⟨hfree, m, hm, rfl⟩ := addGeneric_eq_ok hc
    rcases List.mem_append.1 hkey with hold | hnew
    · obtain ⟨g', m', hg', hm', hindex⟩ := hmenu.sold key hold
      have hfind : menu.catalog.generics.find? (·.pid == key.pid) = some g' := hg'
      exact ⟨g', m', by rw [Catalog.generic?, List.find?_append, hfind, Option.some_or],
        hm', hindex⟩
    · obtain ⟨index, hindex, rfl⟩ := List.mem_map.1 hnew
      have hfind : menu.catalog.generics.find? (·.pid == g.pid) = none := hfree
      exact ⟨g, m, by simp [Catalog.generic?, List.find?_append, hfind], hm,
        List.mem_range.1 hindex⟩
  | exclude excluded =>
    exact ⟨hmenu.registry, fun key hkey => hmenu.sold key (List.mem_of_mem_filter hkey)⟩
  | rules composition cookbook => exact ⟨hmenu.registry, hmenu.sold⟩

/-- The menu after all entries. A refused entry leaves it as it is. -/
def writeEach (menu : Menu) (entries : List Entry) : Menu :=
  entries.foldl (fun menu entry => (menu.write entry).toOption.getD menu) menu

/-- What every accepted entry keeps holds of whatever is written. -/
theorem writeEach_induction {P : Menu → Prop}
    (hstep : ∀ menu menu' : Menu, menu.Accepts menu' → P menu → P menu') (h : P menu)
    (entries : List Entry) : P (menu.writeEach entries) := by
  induction entries generalizing menu with
  | nil => exact h
  | cons entry rest ih =>
    have hentry : P ((menu.write entry).toOption.getD menu) := by
      cases hwrite : menu.write entry with
      | error e => exact h
      | ok menu' => exact hstep menu menu' (accepts_of_write hwrite) h
    exact ih hentry

/-- Run lemma: whatever is written on a menu, it stays well formed. -/
theorem WellFormed.writeEach (hmenu : menu.WellFormed) (entries : List Entry) :
    (menu.writeEach entries).WellFormed :=
  writeEach_induction (fun _ _ haccepts hmenu => hmenu.accepts haccepts) hmenu entries

/-- No entry of the coffee shop is refused. -/
theorem writeEach_coffeeShop : empty.writeEach CoffeeShop.entries = CoffeeShop.menu := by
  decide +kernel

/-- The menu of the coffee shop is well formed, for it was written. -/
theorem wellFormed_coffeeShop : CoffeeShop.menu.WellFormed :=
  writeEach_coffeeShop ▸ wellFormed_empty.writeEach CoffeeShop.entries

/-- Whatever is written, each dimension has a number of its own. -/
theorem numbered_writeEach (entries : List Entry) :
    (empty.writeEach entries).registry.Numbered := by
  refine writeEach_induction (P := fun menu => menu.registry.Numbered)
    (fun menu menu' haccepts hmenu => ?_) (fun _ hd => absurd hd List.not_mem_nil) entries
  cases haccepts with
  | dimension hr => exact hmenu.addDimension hr
  | matrix hr =>
    obtain ⟨ds, -, rfl⟩ := Registry.addMatrix_eq_ok hr
    exact hmenu
  | generic | exclude | rules => exact hmenu

/-! ## Finding a variant again -/

/-- A variant is found again from its attributes just when these tell its positions. -/
theorem keyFor?_attributesOf_iff (hmenu : menu.WellFormed) {key : Key} {g : Generic} {m : Matrix}
    (hg : menu.catalog.generic? key.pid = some g) (hm : menu.registry.matrix? g.matrix = some m)
    (hindex : key.index < m.size) :
    menu.keyFor? key.pid (menu.attributesOf key) = some key ↔ m.Distinguishes key.index := by
  have hmatrix : menu.matrixFor? key.pid = some m := by
    rw [matrixFor?, hg, Option.bind_some, hm]
  have hfound : menu.keyFor? key.pid (menu.attributesOf key) =
      some ⟨key.pid, m.index (m.attributes key.index)⟩ := by
    simp [keyFor?, attributesOf, hmatrix, Matrix.key]
  rw [hfound, ← Matrix.index_attributes_iff (hmenu.registry.separates hm) hindex, Option.some_inj]
  exact ⟨fun h => congrArg Key.index h, fun h => by rw [h]⟩

/-- Cones of two flavours with one number, and cups with one size for the scoop and one for the
cup. -/
def repeatingEntries : List Entry :=
  [.dimension 1 "size" [⟨1, "small", true⟩, ⟨3, "large", false⟩],
    .dimension 2 "flavor" [⟨10, "vanilla", true⟩, ⟨10, "chocolate", false⟩],
    .matrix 1 [2], .matrix 2 [1, 1],
    .generic ⟨9000, "cone", .product, 1, []⟩, .generic ⟨9100, "cup", .product, 2, []⟩]

end Menu

end SpokenOrder
