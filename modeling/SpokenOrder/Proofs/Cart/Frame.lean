import Mathlib.Data.List.Perm.Subperm
import SpokenOrder.Proofs.Cart.Invariant
import SpokenOrder.Proofs.Grammar.Captures
import SpokenOrder.Proofs.Run.Segment

/-!
# What an edit leaves alone

A rule that fires puts new items behind the others, drops some items, or puts an item in the place
of one with the same number; all other items stay what they are, in their order (`Cart.Frame`,
`Intent.frame_of_step`). So after an utterance the items that are left of those before it come
first, in their order, and the items that it has added come behind them (`Cart.Extends`,
`Menu.extends_of_hears`).
-/

namespace SpokenOrder

/-! ## One edit -/

/-- What the tokens that a rule has read do to the items of a cart. -/
inductive Cart.Frame (taken : Run) (c d : Cart) : Prop
  /-- New items stand behind the others, in the order of their entities in a group. -/
  | appended {p : Placed Token} {words : Run} {placed : List Item} : p ∈ taken →
      p.token.run? = some words → placed ≠ [] → (placed.map (·.key.pid)).Sublist words.entityPids →
      (∀ item ∈ placed, c.nextUid ≤ item.uid) → d.items = c.items ++ placed → Frame taken c d
  /-- One item or more is gone, at most one for each entity of a group. -/
  | dropped {p : Placed Token} {words : Run} : p ∈ taken → p.token.run? = some words →
      d.items.Sublist c.items → d.items.length < c.items.length →
      c.items.length ≤ d.items.length + words.entityCount → Frame taken c d
  /-- Another item with the same number stands in the place of one. -/
  | exchanged {before after : List Item} {old new : Item} : c.items = before ++ old :: after →
      d.items = before ++ new :: after → new.uid = old.uid → Frame taken c d

namespace Cart

variable {c : Cart}

/-- Where numbers tell items apart, at most one item is gone for each number that is dropped. -/
theorem Identified.length_items_removeAll (h : c.Identified) {uids : List Uid}
    (huids : ∀ u ∈ uids, ∃ item ∈ c.items, item.uid = u) :
    c.items.length ≤ (c.removeAll uids).items.length + uids.length := by
  have hgone : (c.items.filter (·.uid ∈ uids)).length ≤ uids.length := by
    have hnodup : ((c.items.filter (·.uid ∈ uids)).map Item.uid).Nodup :=
      h.nodup_map_uid.sublist (List.filter_sublist.map _)
    have hsubset : (c.items.filter (·.uid ∈ uids)).map Item.uid ⊆ uids := by
      intro u hu
      obtain ⟨item, hitem, rfl⟩ := List.mem_map.1 hu
      simpa using (List.mem_filter.1 hitem).2
    simpa using (hnodup.subperm hsubset).length_le
  rw [h.items_removeAll huids]
  have hsplit := List.length_eq_length_filter_add (l := c.items) (·.uid ∈ uids)
  simp only [decide_not] at *
  omega

/-- Dropping the number of an item drops an item. -/
theorem Identified.length_items_removeAll_lt (h : c.Identified) {uids : List Uid}
    (huids : ∀ u ∈ uids, ∃ item ∈ c.items, item.uid = u) (hne : uids ≠ []) :
    (c.removeAll uids).items.length < c.items.length := by
  obtain ⟨u, rest, rfl⟩ := List.exists_cons_of_ne_nil hne
  obtain ⟨item, hitem, huid⟩ := huids u List.mem_cons_self
  rw [h.items_removeAll huids]
  refine List.length_filter_lt_length_iff_exists.2 ⟨item, hitem, ?_⟩
  simp [huid]

/-- An item that comes in the place of another stands where that one stood, between the same
items. -/
theorem Identified.exists_items_replace (h : c.Identified) {old new : Item} (hold : old ∈ c.items)
    (huid : new.uid = old.uid) : ∃ before after, c.items = before ++ old :: after ∧
      (c.replace new).items = before ++ (new.numbered c.nextUid).1 :: after := by
  obtain ⟨before, after, hitems⟩ := List.append_of_mem hold
  have hnodup := h.nodup_map_uid
  rw [hitems, List.map_append, List.map_cons, List.nodup_middle, List.nodup_cons,
    List.mem_append, not_or] at hnodup
  obtain ⟨⟨hbefore, hafter⟩, -⟩ := hnodup
  have hkept : ∀ items : List Item, old.uid ∉ items.map Item.uid →
      (items.map fun item => if item.uid = new.uid then (new.numbered c.nextUid).1 else item) =
        items := by
    intro items hnot
    refine (List.map_congr_left fun item hitem => ?_).trans (List.map_id items)
    refine if_neg fun hsame => hnot ?_
    rw [← huid, ← hsame]
    exact List.mem_map_of_mem hitem
  refine ⟨before, after, hitems, ?_⟩
  rw [h.items_replace hold huid, hitems, List.map_append, List.map_cons, if_pos huid.symm,
    hkept before hbefore, hkept after hafter]

end Cart

/-! ## The products of new items -/

namespace Menu

variable {menu : Menu}

/-- A new item is of the product that its words name. -/
theorem pid?_of_newItem? {segment : Segment} {built : Scored Item}
    (h : menu.newItem? segment = some built) : segment.pid? = some built.value.key.pid := by
  obtain ⟨pid, matrix, said, key, hpid, -, -, rfl, -, rfl⟩ := newItem?_eq_some h
  exact hpid

/-- The new items come in the order of the segments. -/
theorem pids_newItem?_sublist (menu : Menu) (segments : List Segment) :
    ((segments.filterMap menu.newItem?).map (·.value.key.pid)).Sublist
      (segments.filterMap Segment.pid?) := by
  induction segments with
  | nil => exact .slnil
  | cons segment rest ih =>
    cases hnew : menu.newItem? segment with
    | none =>
      rw [List.filterMap_cons_none hnew]
      exact ih.trans ((List.sublist_cons_self segment rest).filterMap _)
    | some built =>
      rw [List.filterMap_cons_some hnew, List.filterMap_cons_some (pid?_of_newItem? hnew),
        List.map_cons]
      exact ih.cons_cons _

/-- An item that is written anew keeps its number. -/
theorem Rewrites.uid_eq {old new : Item} (h : menu.Rewrites old new) : new.uid = old.uid := by
  cases h with
  | changed hnew => exact uid_of_modified? hnew
  | replaced hnew => exact uid_of_replacement? hnew
  | optionRemoved => exact uid_withoutOption _ _

end Menu

/-! ## Productions and steps -/

namespace Intent

variable {c next : Context} {captures : Captures}

/-- The run of a captured group is the run of a captured token. -/
theorem exists_of_groupIn? {slot : Nat} {words : Run} (h : groupIn? captures slot = some words) :
    ∃ p ∈ captures.filled, p.token.run? = some words := by
  obtain ⟨p, hp, hrun⟩ := Option.bind_eq_some_iff.1 h
  exact ⟨p, Captures.mem_filled_of_get? hp, hrun⟩

/-- What a production does to the items, in terms of the captured tokens. -/
theorem Outcome.frame {menu : Menu} (hc : c.cart.Identified) (h : Outcome menu c captures next) :
    c.cart.Frame captures.filled next.cart := by
  cases h with
  | @adds words segments score hwords hsegments hne =>
    obtain ⟨p, hp, hrun⟩ := exists_of_groupIn? hwords
    obtain ⟨placed, hitems, hdetached, hnew⟩ :=
      c.cart.items_addAll ((segments.filterMap menu.newItem?).map (·.value))
    refine .appended hp hrun ?_ ?_ ?_ hitems
    · rintro rfl
      simp only [List.map_nil, List.nil_eq, List.map_eq_nil_iff] at hdetached
      exact hne hdetached
    · have hpids : placed.map (·.key.pid) =
          (segments.filterMap menu.newItem?).map (·.value.key.pid) := by
        simpa [Function.comp_def] using
          congrArg (List.map fun item : Item => item.key.pid) hdetached
      rw [hpids, ← Run.filterMap_pid?_of_mem_segmentations hsegments]
      exact menu.pids_newItem?_sublist segments
    · refine hnew (Menu.forall_built fun hbuilt => ?_)
      exact Menu.uids_of_newItem? hbuilt _ (Item.uid_mem_uids _)
  | @removes words segments uids score hwords hsegments hne hnodup hlen huids =>
    obtain ⟨p, hp, hrun⟩ := exists_of_groupIn? hwords
    have hle := hc.length_items_removeAll huids
    rw [Run.length_of_mem_segmentations hsegments] at hlen
    refine .dropped hp hrun ?_ (hc.length_items_removeAll_lt huids hne) ?_
    · show (c.cart.removeAll uids).items.Sublist c.cart.items
      rw [hc.items_removeAll huids]
      exact List.filter_sublist
    · exact Nat.le_trans hle (Nat.add_le_add_left hlen _)
  | @exchanges old new score hold hnew =>
    obtain ⟨before, after, hitems, hreplaced⟩ := hc.exists_items_replace hold hnew.uid_eq
    have hne : new.uid ≠ 0 := hnew.uid_eq ▸ hc.uid_ne_zero hold
    exact .exchanged hitems hreplaced ((Item.uid_numbered _ hne).trans hnew.uid_eq)

/-- A rule that declines leaves the context as it is, and a rule that fires has one of the three
effects on the items. -/
theorem frame_of_step {α : Type} [Score α] {scene : Scene α} {input run : Run} {s : Step Context}
    (hc : c.cart.Identified)
    (h : Grammar.step? (grammar scene).accepts ((grammar scene).active input) c run = some s) :
    (s.fired = none → s.context = c) ∧
      (s.fired ≠ none → c.cart.Frame (run.take s.used) s.context.cart) := by
  obtain ⟨rule, captures, taken, rest, htakes⟩ := Grammar.exists_takes h
  have hrule : rule ∈ (grammar scene).rules := (List.mem_filter.1 htakes.mem).1
  have htaken : run.take taken.length = captures.filled := by
    rw [htakes.fits.split, List.take_left, htakes.fits.taken_eq]
  obtain rfl : Grammar.stepOf rule c captures taken.length = s :=
    Option.some.inj (htakes.step?_eq_some.symm.trans h)
  unfold Grammar.stepOf
  cases hprod : rule.production c captures taken.length with
  | none => exact ⟨fun _ => rfl, fun hfired => absurd rfl hfired⟩
  | some next =>
    refine ⟨nofun, fun _ => ?_⟩
    simp only [htaken]
    exact (outcome_of_production hrule hprod).frame hc

end Intent

/-! ## Whole utterances -/

/-- What is left in `d` of the items of `c` comes first, in the same order, and what else is in `d`
has got its number since. -/
structure Cart.Extends (c d : Cart) : Prop where
  nextUid_le : c.nextUid ≤ d.nextUid
  exists_append : ∃ kept added, d.items = kept ++ added ∧
    (kept.map Item.uid).Sublist (c.items.map Item.uid) ∧ ∀ item ∈ added, c.nextUid ≤ item.uid

namespace Cart

variable {c d e : Cart}

theorem Extends.refl (c : Cart) : c.Extends c :=
  ⟨Nat.le_refl _, c.items, [], (List.append_nil _).symm, .refl _, nofun⟩

/-- What extends an extension extends the cart. -/
theorem Extends.trans (h₁ : c.Extends d) (h₂ : d.Extends e) : c.Extends e where
  nextUid_le := Nat.le_trans h₁.nextUid_le h₂.nextUid_le
  exists_append := by
    obtain ⟨kept, added, hd, hkept, hadded⟩ := h₁.exists_append
    obtain ⟨kept', added', he, hkept', hadded'⟩ := h₂.exists_append
    rw [hd, List.map_append] at hkept'
    obtain ⟨old, new, hsplit, hold, hnew⟩ := List.sublist_append_iff.1 hkept'
    obtain ⟨keptOld, keptNew, rfl, rfl, rfl⟩ := List.map_eq_append_iff.1 hsplit
    refine ⟨keptOld, keptNew ++ added', ?_, hold.trans hkept, ?_⟩
    · rw [he, List.append_assoc]
    · intro item hitem
      rcases List.mem_append.1 hitem with hitem | hitem
      · obtain ⟨other, hother, hsame⟩ := List.mem_map.1 (hnew.subset (List.mem_map_of_mem hitem))
        exact hsame ▸ hadded other hother
      · exact Nat.le_trans h₁.nextUid_le (hadded' item hitem)

/-- Adding items never takes back a number. -/
theorem nextUid_le_addAll (c : Cart) (items : List Item) :
    c.nextUid ≤ (c.addAll items).nextUid := by
  induction items generalizing c with
  | nil => exact Nat.le_refl _
  | cons item rest ih => exact Nat.le_trans (nextUid_le_add c item) (ih (c.add item))

/-- Adding new items extends a cart. -/
theorem extends_addAll (c : Cart) {items : List Item} (hitems : ∀ item ∈ items, item.uid = 0) :
    c.Extends (c.addAll items) := by
  obtain ⟨placed, heq, -, hnew⟩ := c.items_addAll items
  exact ⟨nextUid_le_addAll c items, c.items, placed, heq, .refl _, hnew hitems⟩

/-- To remove an item extends a cart by nothing. -/
theorem extends_remove (c : Cart) (u : Uid) : c.Extends (c.remove u) :=
  ⟨Nat.le_refl _, (c.remove u).items, [], (List.append_nil _).symm,
    Forest.map_uid_without u c.items, nofun⟩

/-- To remove several items extends a cart by nothing. -/
theorem extends_removeAll (c : Cart) (us : List Uid) : c.Extends (c.removeAll us) := by
  induction us generalizing c with
  | nil => exact .refl c
  | cons u us ih => exact (c.extends_remove u).trans (ih (c.remove u))

/-- Putting an item in the place of another of the same number extends a cart by nothing. -/
theorem extends_replace (c : Cart) (new : Item) : c.Extends (c.replace new) where
  nextUid_le := nextUid_replace c new ▸ Nat.le_add_right _ _
  exists_append := by
    refine ⟨(c.replace new).items, [], (List.append_nil _).symm, ?_, nofun⟩
    rw [show (c.replace new).items = Forest.replacing (new.numbered c.nextUid).1 c.items from rfl,
      Forest.map_uid_replacing]

/-- An edit keeps the order of the items. -/
theorem extends_of_edit {menu : Menu} (h : menu.Edit c d) : c.Extends d := by
  cases h with
  | added =>
    refine c.extends_addAll (Menu.forall_built fun hbuilt => ?_)
    exact Menu.uids_of_newItem? hbuilt _ (Item.uid_mem_uids _)
  | removed => exact c.extends_removeAll _
  | changed | replaced | optionRemoved => exact c.extends_replace _

end Cart

/-- An utterance keeps the order of the items. -/
theorem Menu.extends_of_hears {menu : Menu} {c d : Cart} (h : menu.Hears c d) : c.Extends d := by
  have hedits := h.edits
  clear h
  induction hedits with
  | refl => exact .refl c
  | tail _ hedit ih => exact ih.trans (Cart.extends_of_edit hedit)

/-- Where numbers tell the items of a cart and their descendants apart, a rule that declines leaves
the context as it is, and a rule that fires adds items behind the others, drops some items, or puts
an item in the place of one with the same number. So after an utterance the items that are left come
first, in their order, and those that it has added come behind them. -/
theorem Scene.frame_and_order {α : Type} [Score α] (scene : Scene α) (c : Intent.Context)
    (hc : c.cart.Identified) :
    (∀ (input run : Run) (s : Step Intent.Context),
      Grammar.step? (Intent.grammar scene).accepts ((Intent.grammar scene).active input) c run =
          some s →
        (s.fired = none → s.context = c) ∧
          (s.fired ≠ none → c.cart.Frame (run.take s.used) s.context.cart)) ∧
      ∀ d, scene.menu.Hears c.cart d → ∃ kept added, d.items = kept ++ added ∧
        (kept.map Item.uid).Sublist (c.cart.items.map Item.uid) ∧
        ∀ item ∈ added, c.cart.nextUid ≤ item.uid :=
  ⟨fun _ _ _ hstep => Intent.frame_of_step hc hstep,
    fun _ hhears => (Menu.extends_of_hears hhears).exists_append⟩

/-- The words that remove a cone. -/
def coneRemoved : Run :=
  [⟨.removeItem, ⟨0, 1⟩⟩, ⟨.parts .one [⟨.entity CoffeeShop.cone "cone", ⟨1, 1⟩⟩], ⟨1, 1⟩⟩]

/-- Somebody removes the cone from the cart and orders one more coffee. -/
def coneForCoffee : List Token :=
  [.removeItem, .entity CoffeeShop.cone "cone", .addToOrder, .entity CoffeeShop.coffee "coffee"]

/-- A coffee, a cone and another coffee have the numbers 1, 4 and 5. Then the cone goes, and a
coffee with the number 7 comes behind the others. -/
theorem frame_of_coneForCoffee :
    let scene := Scene.ofLattice CoffeeShop.menu (.ofTokens coneForCoffee) defaultThreshold
    let c := Cart.coffeeReordered
    let d := (CoffeeShop.menu.interpretTokens coneForCoffee c).cart
    c.Identified ∧ c.items.map Item.uid = [1, 4, 5] ∧ d.items.map Item.uid = [1, 5, 7] ∧
      (∃ s, Grammar.step? (Intent.grammar scene).accepts ((Intent.grammar scene).active coneRemoved)
          (.ofCart c) coneRemoved = some s ∧ s.fired = some "remove: items" ∧
          c.Frame (coneRemoved.take s.used) s.context.cart) ∧
      ∃ kept added, d.items = kept ++ added ∧
        (kept.map Item.uid).Sublist (c.items.map Item.uid) ∧
        ∀ item ∈ added, c.nextUid ≤ item.uid := by
  intro scene c d
  have hc : c.Identified :=
    ⟨by decide +kernel, by decide +kernel, by decide +kernel⟩
  have hframe := scene.frame_and_order (.ofCart c) hc
  have hfired : (Grammar.step? (Intent.grammar scene).accepts
      ((Intent.grammar scene).active coneRemoved) (.ofCart c) coneRemoved).map (·.fired) =
        some (some "remove: items") := by decide +kernel
  obtain ⟨s, hstep, hname⟩ := Option.map_eq_some_iff.1 hfired
  refine ⟨hc, by decide +kernel, by decide +kernel, ⟨s, hstep, hname, ?_⟩, ?_⟩
  · exact (hframe.1 coneRemoved coneRemoved s hstep).2 (by simp [hname])
  · exact hframe.2 d (.tokens coneForCoffee c)

end SpokenOrder
