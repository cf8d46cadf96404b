import SpokenOrder.CoffeeShop
import SpokenOrder.Proofs.Cart.Items

/-!
# The cart as a store

A cart whose numbers identify its items is a store of trees: the number of an item, wherever the
item stands, is its key. To drop a number, or to put an item in the place of the one with its
number, exchanges what is found under that number (`Cart.Exchanges`), and to look up any other
number finds what it found before, up to the exchange itself. Adding an item can be taken back by
dropping its number (`Cart.store_laws`).
-/

namespace SpokenOrder

namespace Cart

variable {c d : Cart} {old item : Item} {new : Forest}

/-- The cart `d` has the items `new` where `c` has the item `old`. Outside that place the same items
are found in both, and those that `old` was a part of differ in that place only. -/
structure Exchanges (c : Cart) (old : Item) (new : Forest) (d : Cart) : Prop where
  splices : Forest.Splices old new c.items d.items
  gone : ∀ v ∈ old.uids, v ∉ Forest.uids new → d.find? v = none
  unchanged : ∀ v item, c.find? v = some item → v ∉ old.uids → old.uid ∉ item.uids →
    d.find? v = some item
  above : ∀ v item, c.find? v = some item → v ∉ old.uids → old.uid ∈ item.uids →
    ∃ children, Forest.Splices old new item.children children ∧
      d.find? v = some { item with children }

/-- A splice of the items is an exchange, unless it brings in a number that is in use elsewhere. -/
theorem Identified.exchanges (h : c.Identified) (hsplices : Forest.Splices old new c.items d.items)
    (hnew : ∀ v ∈ Forest.uids new, v ∈ c.uids → v ∈ old.uids) : c.Exchanges old new d := by
  have hfound : ∀ v item, c.find? v = some item → v ∉ old.uids →
      ∃ left, d.find? v = some left ∧ item.Follows old new left := by
    intro v item hfind hold
    have hmem : v ∈ c.uids := by
      have hsub := Forest.uids_sublist_of_find? hfind
      exact hsub.subset (Forest.uid_of_find? hfind ▸ item.uid_mem_uids)
    exact hsplices.exists_found h.nodup hold (fun hv => hold (hnew v hv hmem)) hfind
  refine ⟨hsplices, fun v hv hnot => ?_, fun v item hfind hv hnot => ?_,
    fun v item hfind hv hmem => ?_⟩
  · exact Forest.find?_eq_none_iff.2 (hsplices.notMem_uids h.nodup hv hnot)
  · obtain ⟨left, hleft, hfollows⟩ := hfound v item hfind hv
    cases hfollows with
    | same => exact hleft
    | above hbelow => exact absurd hbelow.uid_mem_uids_parent hnot
  · obtain ⟨left, hleft, hfollows⟩ := hfound v item hfind hv
    cases hfollows with
    | same hnot => exact absurd hmem hnot
    | above hbelow => exact ⟨_, hbelow, hleft⟩

/-! ## Dropping -/

/-- Dropping a number takes out what is found under it. -/
theorem Identified.exchanges_remove (h : c.Identified) {u : Uid} (hfind : c.find? u = some old) :
    c.Exchanges old [] (c.remove u) :=
  h.exchanges (Forest.splices_without h.nodup hfind) fun _ hv => nomatch hv

/-- Dropping a number under which nothing is found changes nothing. -/
theorem remove_of_find?_eq_none {u : Uid} (hfind : c.find? u = none) : c.remove u = c := by
  rw [remove, Forest.without_of_notMem (Forest.find?_eq_none_iff.1 hfind)]

/-- Nothing is found under a number that was dropped. -/
theorem Identified.find?_remove (h : c.Identified) (u : Uid) : (c.remove u).find? u = none := by
  cases hfind : c.find? u with
  | none => rw [remove_of_find?_eq_none hfind, hfind]
  | some old =>
    have hmem : u ∈ old.uids := Forest.uid_of_find? hfind ▸ old.uid_mem_uids
    exact (h.exchanges_remove hfind).gone u hmem (List.not_mem_nil)

/-! ## Exchanging -/

/-- What is put in the place of an item is found under its number, and takes the place of what was
found there. -/
theorem Identified.exchanges_replace {new : Item} (h : c.Identified)
    (hfind : c.find? new.uid = some old) (hrev : new.Revises old) :
    (c.replace new).find? new.uid = some (new.numbered c.nextUid).1 ∧
      c.Exchanges old [(new.numbered c.nextUid).1] (c.replace new) := by
  have hmem : new.uid ∈ c.uids := by
    have hsub := Forest.uids_sublist_of_find? hfind
    exact hsub.subset (Forest.uid_of_find? hfind ▸ old.uid_mem_uids)
  have hplaced : (new.numbered c.nextUid).1.uid = new.uid :=
    Item.uid_numbered c.nextUid (h.ne_zero _ hmem)
  have hfind' : Forest.find? (new.numbered c.nextUid).1.uid c.items = some old := hplaced ▸ hfind
  constructor
  · have hreplaced := Forest.find?_replacing (new.numbered c.nextUid).1 c.items
    rw [hfind', hplaced] at hreplaced
    exact hreplaced
  · refine h.exchanges (Forest.splices_replacing h.nodup hfind') fun v hv hc => ?_
    rw [Forest.uids_cons, Forest.uids_nil, List.append_nil, (Item.uids_numbered _ _).1] at hv
    rcases mem_fillZeros hv with ⟨hnew, h0⟩ | ⟨hle, -⟩
    · exact hrev.mem_uids v hnew h0
    · exact absurd (h.lt_nextUid v hc) (Nat.not_lt.2 hle)

/-! ## Adding -/

/-- To drop the number of an item that was just added takes the addition back. -/
theorem Identified.items_remove_add (h : c.Identified) (hitem : item.uid = 0) :
    ((c.add item).remove (item.numbered c.nextUid).1.uid).items = c.items := by
  rw [Item.uid_numbered_of_eq_zero c.nextUid hitem]
  have hnot : c.nextUid ∉ Forest.uids c.items :=
    fun hmem => Nat.lt_irrefl _ (h.lt_nextUid _ hmem)
  show Forest.without c.nextUid (c.items ++ [(item.numbered c.nextUid).1]) = c.items
  rw [Forest.without_append, Forest.without_of_notMem hnot, Forest.without,
    if_pos (Item.uid_numbered_of_eq_zero c.nextUid hitem), Forest.without, List.append_nil]

/-! ## The laws of the store -/

/-- In a cart whose numbers identify the items and their descendants, a number that is dropped is
found no more, and all that goes with it is what was found under it; a number that is not in use
changes nothing. An edited copy of an item is found in the place of the item, with consecutive
numbers from the next one on in the places of its zeros. And to drop the number of an item that was
just added gives back the items from before. -/
theorem store_laws (c : Cart) (h : c.Identified) :
    (∀ u, (c.remove u).find? u = none ∧ (c.find? u = none → c.remove u = c) ∧
      ∀ old, c.find? u = some old → c.Exchanges old [] (c.remove u)) ∧
    (∀ old new, c.find? new.uid = some old → new.Revises old →
      ∃ placed, placed.detached = new.detached ∧ placed.uids = fillZeros c.nextUid new.uids ∧
        (c.replace new).nextUid = c.nextUid + new.uids.count 0 ∧
        (c.replace new).find? new.uid = some placed ∧ c.Exchanges old [placed] (c.replace new)) ∧
    ∀ item, (∀ u ∈ item.uids, u = 0) →
      ∃ placed, placed.detached = item.detached ∧ placed.uids = fillZeros c.nextUid item.uids ∧
        (c.add item).items = c.items ++ [placed] ∧
        ((c.add item).remove placed.uid).items = c.items := by
  refine ⟨fun u => ⟨h.find?_remove u, remove_of_find?_eq_none, fun _ => h.exchanges_remove⟩,
    fun old new hfind hrev => ?_, fun item hitem => ?_⟩
  · obtain ⟨hfound, hexchanges⟩ := h.exchanges_replace hfind hrev
    exact ⟨_, Item.detached_numbered _ _, (Item.uids_numbered _ _).1, nextUid_replace c new, hfound,
      hexchanges⟩
  · exact ⟨_, Item.detached_numbered _ _, (Item.uids_numbered _ _).1, rfl,
      h.items_remove_add (hitem _ item.uid_mem_uids)⟩

/-- Vanilla syrup with half and half in it. -/
def syrupWithCream : Item :=
  ⟨2, ⟨CoffeeShop.vanillaSyrup, 0⟩, 1, [⟨3, ⟨CoffeeShop.halfAndHalf, 0⟩, 1, []⟩]⟩

/-- The syrup once more, with milk in front of the half and half. -/
def syrupWithMilk : Item :=
  ⟨2, ⟨CoffeeShop.vanillaSyrup, 0⟩, 2,
    [⟨0, ⟨CoffeeShop.milk, 0⟩, 1, []⟩, ⟨3, ⟨CoffeeShop.halfAndHalf, 0⟩, 1, []⟩]⟩

/-- A latte with that syrup and with whipped cream, and a cone. -/
def latteAndCone : Cart :=
  ⟨[⟨1, ⟨CoffeeShop.latte, 1⟩, 1,
      [syrupWithCream, ⟨4, ⟨CoffeeShop.whippedCream, 0⟩, 1, []⟩]⟩,
    ⟨5, ⟨CoffeeShop.cone, 0⟩, 1, []⟩], 6⟩

/-- The syrup is dropped with what is in it, and 9 is no number of the cart. Where the syrup is
revised, the milk gets the number 6. A second cone comes and goes. -/
theorem store_laws_latteAndCone :
    latteAndCone.Identified ∧ latteAndCone.find? 2 = some syrupWithCream ∧
      syrupWithMilk.Revises syrupWithCream ∧
      (latteAndCone.remove 2).find? 2 = none ∧
      latteAndCone.Exchanges syrupWithCream [] (latteAndCone.remove 2) ∧
      latteAndCone.remove 9 = latteAndCone ∧
      (∃ placed, placed.detached = syrupWithMilk.detached ∧ placed.uids = [2, 6, 3] ∧
        (latteAndCone.replace syrupWithMilk).nextUid = 7 ∧
        (latteAndCone.replace syrupWithMilk).find? 2 = some placed ∧
        latteAndCone.Exchanges syrupWithCream [placed] (latteAndCone.replace syrupWithMilk)) ∧
      ∃ placed : Item, placed.detached = .ofKey ⟨CoffeeShop.cone, 1⟩ 1 ∧ placed.uids = [6] ∧
        ((latteAndCone.add (.ofKey ⟨CoffeeShop.cone, 1⟩ 1)).remove placed.uid).items =
          latteAndCone.items := by
  have h : latteAndCone.Identified := ⟨by decide, by decide, by decide⟩
  have hfind : latteAndCone.find? 2 = some syrupWithCream := rfl
  have hrev : syrupWithMilk.Revises syrupWithCream := ⟨rfl, by decide, by decide⟩
  obtain ⟨hremove, hreplace, hadd⟩ := store_laws latteAndCone h
  obtain ⟨placed, hdetached, huids, -, hitems⟩ := hadd (.ofKey ⟨CoffeeShop.cone, 1⟩ 1) (by decide)
  exact ⟨h, hfind, hrev, (hremove 2).1, (hremove 2).2.2 _ hfind, (hremove 9).2.1 rfl,
    hreplace _ _ hfind hrev, placed, hdetached, huids, hitems⟩

end Cart

end SpokenOrder
