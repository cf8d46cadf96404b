import SpokenOrder.CoffeeShop
import SpokenOrder.Proofs.Cart.Invariant

/-!
# What items carry

An option is put on an item only if it may go on its variant. A change of attributes keeps the
options that are there, so an item can end up with options that may go on other variants of the
product only. This is all that can go wrong (`Menu.isValidChild_of_hears`): each option may go on
some variant of its product, on the item itself if the rules do not tell the variants apart, and no
other edit leaves an option where it may not go.
-/

namespace SpokenOrder

/-! ## Options of a forest -/

/-- The variants of the options satisfy a condition, and options have no children of their own. A
record of a removed default counts as no option. -/
def Forest.AllOptions (S : Key → Prop) (children : Forest) : Prop :=
  ∀ child ∈ children, child.children = [] ∧ (0 < child.quantity → S child.key)

namespace Forest.AllOptions

variable {S : Key → Prop} {children : Forest}

/-- Detaching children does not change which options they are. -/
theorem detached_iff : AllOptions S (children.map Item.detached) ↔ AllOptions S children := by
  simp [AllOptions]

variable {menu : Menu}

/-- A merge keeps a condition that the options satisfy if all that are legal and sold do. -/
theorem mergeParts {parent : Key} {parts : List Part}
    (hS : ∀ key, menu.composition.isValidChild parent key = true →
      menu.catalog.hasKey key = true → S key)
    (h : AllOptions S children) : AllOptions S (menu.mergeParts parent children parts).1 := by
  refine Menu.mergeParts_induction (P := AllOptions S)
    (fun merged child ⟨part, _, hchild⟩ hvalid hmerged c hc => ?_) h
  obtain ⟨hofKey, hsold⟩ := Menu.eq_ofKey_of_mem_candidates hchild
  rcases (menu.put_putChild parent merged child).mem hc with hold | rfl | ⟨same, hsame, hkey, rfl⟩
  · exact hmerged c hold
  · exact ⟨hofKey ▸ rfl, fun _ => hS _ hvalid hsold⟩
  · exact ⟨(hmerged same hsame).1, fun _ => hS _ (hkey ▸ hvalid) (hkey ▸ hsold)⟩

/-- Taking an option off an item keeps a condition that the options satisfy. -/
theorem withoutOption {parent option : Item} (hplaced : ∀ child ∈ parent.children, child.uid ≠ 0)
    (hoption : menu.HasOption parent option) (h : AllOptions S parent.children) :
    AllOptions S (menu.withoutOption parent option).children := by
  obtain ⟨children, htakes, heq⟩ := Menu.exists_takesOff hplaced hoption
  rw [heq]
  intro c hc
  rcases htakes.mem hc with hold | ⟨hzero, hleaf⟩
  · exact h c hold
  · refine ⟨?_, fun hpos => absurd hzero (Nat.ne_of_gt hpos)⟩
    rcases hleaf with hleaf | ⟨child, hchild, hleaf⟩
    · exact hleaf
    · rw [hleaf, (h child hchild).1]

end Forest.AllOptions

namespace Menu

variable {menu : Menu}

/-! ## What builders put on items -/

section
variable {S : Key → Key → Prop}
  (hS : ∀ parent child, menu.composition.isValidChild parent child = true →
    menu.catalog.hasKey child = true → S parent child)
include hS

/-- The options of a new item suit the variant that is ordered. -/
theorem allOptions_newItem? {segment : Segment} {built : Scored Item}
    (h : menu.newItem? segment = some built) :
    Forest.AllOptions (S built.value.key) built.value.children := by
  obtain ⟨pid, matrix, said, key, -, -, -, -, -, rfl⟩ := newItem?_eq_some h
  exact Forest.AllOptions.mergeParts (fun _ => hS _ _) fun _ hc => nomatch hc

/-- The options of a changed item suit its new variant if the old ones did. -/
theorem allOptions_modified? {item : Item} {words : Run} {new : Scored Item}
    (h : menu.modified? item words = some new)
    (hitem : Forest.AllOptions (S new.value.key) item.children) :
    Forest.AllOptions (S new.value.key) new.value.children := by
  obtain ⟨matrix, said, key, -, -, -, -, -, rfl⟩ := modified?_eq_some h
  exact hitem.mergeParts fun _ => hS _ _

/-- Of the old options, only those stay that may go on the replacement. -/
theorem allOptions_replacement? {target : Item} {segment : Segment} {new : Scored Item}
    (h : menu.replacement? target segment = some new)
    (htarget : Forest.AllOptions (fun child =>
      menu.composition.isValidChild new.value.key child = true → S new.value.key child)
      target.children) :
    Forest.AllOptions (S new.value.key) new.value.children := by
  obtain ⟨pid, matrix, said, key, -, -, -, -, -, rfl⟩ := replacement?_eq_some h
  dsimp only [replacementChildren]
  split
  · intro child hchild
    obtain ⟨hmem, hvalid⟩ := List.mem_filter.1 hchild
    obtain ⟨hleaf, hold⟩ := htarget child hmem
    exact ⟨hleaf, fun hpos => hold hpos hvalid⟩
  · exact Forest.AllOptions.mergeParts (fun _ => hS _ _) fun _ hc => nomatch hc

end

/-- A changed item is of the same product. -/
theorem pid_of_modified? {item : Item} {words : Run} {new : Scored Item}
    (h : menu.modified? item words = some new) : new.value.key.pid = item.key.pid := by
  obtain ⟨matrix, said, key, -, -, rfl, -, -, rfl⟩ := modified?_eq_some h
  rfl

end Menu

/-! ## The item's own variant -/

/-- Each option of each item may go on the item. -/
def Cart.Legal (menu : Menu) (c : Cart) : Prop :=
  ∀ item ∈ c.items, Forest.AllOptions (menu.composition.isValidChild item.key · = true) item.children

namespace Menu

variable {menu : Menu} {c d : Cart}

/-- Detaching an item does not change which options it has. -/
theorem allOptions_detached_iff (S : Key → Key → Prop) (item : Item) :
    Forest.AllOptions (S item.detached.key) item.detached.children ↔
      Forest.AllOptions (S item.key) item.children := by
  rw [Item.children_detached, Item.key_detached, Forest.AllOptions.detached_iff]

/-- If each option may go on its item, this stays so after an edit, unless the edit changes the
variant of an item. -/
theorem legal_or_changed (h : c.Identified) (hlegal : c.Legal menu) (hedit : menu.Edit c d) :
    d.Legal menu ∨ ∃ item ∈ c.items, ∃ words new, menu.modified? item words = some new ∧
      new.value.key ≠ item.key ∧ d = c.replace new.value := by
  have hdetached := allOptions_detached_iff (menu.composition.isValidChild · · = true)
  cases hedit with
  | added hsegments hne =>
    exact .inl (Cart.forall_items_addAll hdetached hlegal
      (forall_built fun hnew => allOptions_newItem? (fun _ _ hvalid _ => hvalid) hnew))
  | removed hsegments hne hnd hlen huids => exact .inl (h.forall_items_removeAll huids hlegal)
  | @changed item words new hitem hnew =>
    by_cases hkey : new.value.key = item.key
    · refine .inl (h.forall_items_replace hdetached hitem (uid_of_modified? hnew) hlegal ?_)
      exact allOptions_modified? (fun _ _ hvalid _ => hvalid) hnew (hkey ▸ hlegal item hitem)
    · exact .inr ⟨item, hitem, words, new, hnew, hkey, rfl⟩
  | @replaced target segment new htarget hnew =>
    refine .inl (h.forall_items_replace hdetached htarget (uid_of_replacement? hnew) hlegal ?_)
    exact allOptions_replacement? (fun _ _ hvalid _ => hvalid) hnew
      fun child hchild => ⟨(hlegal target htarget child hchild).1, fun _ hvalid => hvalid⟩
  | @optionRemoved parent option hparent hoption =>
    refine .inl (h.forall_items_replace hdetached hparent (uid_withoutOption _ _) hlegal ?_)
    rw [key_withoutOption]
    exact (hlegal parent hparent).withoutOption (h.uid_children_ne_zero hparent) hoption

/-! ## Some variant of the product -/

/-- The option may go on some variant of the product. -/
def AllowsOnSome (menu : Menu) (pid : Pid) (child : Key) : Prop :=
  ∃ parent : Key, parent.pid = pid ∧ menu.composition.isValidChild parent child = true

/-- Each option of an item may go on some variant of the item's product. -/
theorem itemInvariant_allowsOnSome (menu : Menu) : menu.ItemInvariant fun item =>
    Forest.AllOptions (menu.AllowsOnSome item.key.pid) item.children where
  detached item := allOptions_detached_iff (fun parent => menu.AllowsOnSome parent.pid) item
  newItem h := allOptions_newItem? (S := fun parent => menu.AllowsOnSome parent.pid)
    (fun parent _ hvalid _ => ⟨parent, rfl, hvalid⟩) h
  modified hitem h := allOptions_modified? (S := fun parent => menu.AllowsOnSome parent.pid)
    (fun parent _ hvalid _ => ⟨parent, rfl, hvalid⟩) h (by rwa [pid_of_modified? h])
  replacement htarget h := allOptions_replacement?
    (S := fun parent => menu.AllowsOnSome parent.pid)
    (fun parent _ hvalid _ => ⟨parent, rfl, hvalid⟩) h
    fun child hchild => ⟨(htarget child hchild).1, fun _ hvalid => ⟨_, rfl, hvalid⟩⟩
  withoutOption hparent hplaced hoption := by
    rw [key_withoutOption]
    exact hparent.withoutOption hplaced hoption

end Menu

/-- What may go on the product may go on all of its variants. -/
def Composition.IgnoresVariants (composition : Composition) (pid : Pid) : Prop :=
  ∀ p q child : Key, p.pid = pid → q.pid = pid → composition.isValidChild p child = true →
    composition.isValidChild q child = true

/-- Rules that name no single variant do not tell variants apart. -/
theorem Composition.ignoresVariants_of_forall_ne {composition : Composition} {pid : Pid}
    (h : ∀ rule ∈ composition.allowed, ∀ key, rule.parents = .exact key → key.pid ≠ pid) :
    composition.IgnoresVariants pid := by
  intro p q child hp hq hvalid
  rw [isValidChild, List.any_eq_true] at hvalid ⊢
  obtain ⟨rule, hrule, hboth⟩ := hvalid
  refine ⟨rule, hrule, ?_⟩
  rw [Bool.and_eq_true] at hboth ⊢
  refine ⟨?_, hboth.2⟩
  cases hparents : rule.parents with
  | any => rfl
  | generic wanted =>
    have hcovers := hboth.1
    rw [hparents] at hcovers
    simpa [KeyMatcher.covers, hp, hq] using hcovers
  | exact key =>
    have hcovers := hboth.1
    rw [hparents, KeyMatcher.covers, beq_iff_eq] at hcovers
    exact absurd (hcovers ▸ hp) (h rule hrule key hparents)

namespace Menu

/-- In every cart that utterances lead to, each option of an item, apart from the records of removed
defaults, may go on some variant of the item's product. So it may go on the item itself, if the
rules do not tell the variants of the product apart. Where each option may go on its item, only a
change to another variant of an item can end this. -/
theorem isValidChild_of_hears (menu : Menu) {c : Cart}
    (hc : Relation.ReflTransGen menu.Hears Cart.empty c) :
    (∀ item ∈ c.items, ∀ child ∈ item.children, child.children = [] ∧ (0 < child.quantity →
      (∃ parent : Key, parent.pid = item.key.pid ∧
        menu.composition.isValidChild parent child.key = true) ∧
      (menu.composition.IgnoresVariants item.key.pid →
        menu.composition.isValidChild item.key child.key = true))) ∧
      ∀ d, menu.Edit c d → c.Legal menu → d.Legal menu ∨
        ∃ item ∈ c.items, ∃ words new, menu.modified? item words = some new ∧
          new.value.key ≠ item.key ∧ d = c.replace new.value := by
  refine ⟨fun item hitem child hchild => ?_, fun d hedit hlegal => ?_⟩
  · obtain ⟨hleaf, hsome⟩ := menu.itemInvariant_allowsOnSome.of_hears hc item hitem child hchild
    refine ⟨hleaf, fun hpos => ⟨hsome hpos, fun hignores => ?_⟩⟩
    obtain ⟨parent, hpid, hvalid⟩ := hsome hpos
    exact hignores parent item.key child.key hpid rfl hvalid
  · exact legal_or_changed (wellNumbered_of_hears hc).toIdentified hlegal hedit

/-! ## A large cone with sprinkles -/

/-- The cart after a cone with sprinkles was ordered, and then made large. -/
def largeCone (menu : Menu) : Cart :=
  (menu.interpretTokens [.modifyItem, .attribute 3 "large"]
    (menu.interpretTokens [.addToOrder, .entity CoffeeShop.cone "cone",
      .option CoffeeShop.sprinkles "sprinkles"] Cart.empty).cart).cart

/-- The cart with the large cone comes about by what is heard. -/
theorem hears_largeCone (menu : Menu) :
    Relation.ReflTransGen menu.Hears Cart.empty menu.largeCone :=
  (Relation.ReflTransGen.single (.tokens _ _)).tail (.tokens _ _)

/-- In the coffee shop, sprinkles may go on cones of all variants. -/
theorem isValidChild_largeCone :
    (CoffeeShop.menu.largeCone.items.map fun item =>
      (item.key, item.children.map fun child => (child.key, child.quantity))) =
        [(⟨CoffeeShop.cone, 2⟩, [(⟨CoffeeShop.sprinkles, 0⟩, 1)])] ∧
      Relation.ReflTransGen CoffeeShop.menu.Hears Cart.empty CoffeeShop.menu.largeCone ∧
      CoffeeShop.menu.composition.IgnoresVariants CoffeeShop.cone ∧
      ∀ item ∈ CoffeeShop.menu.largeCone.items, ∀ child ∈ item.children, child.children = [] ∧
        (0 < child.quantity →
          (∃ parent : Key, parent.pid = item.key.pid ∧
            CoffeeShop.menu.composition.isValidChild parent child.key = true) ∧
          (CoffeeShop.menu.composition.IgnoresVariants item.key.pid →
            CoffeeShop.menu.composition.isValidChild item.key child.key = true)) := by
  have hignores : CoffeeShop.menu.composition.IgnoresVariants CoffeeShop.cone := by
    refine Composition.ignoresVariants_of_forall_ne fun rule hrule key hparents => ?_
    have hall : CoffeeShop.menu.composition.allowed.all (fun rule => match rule.parents with
      | .exact _ => false
      | _ => true) = true := by decide +kernel
    have hno := List.all_eq_true.1 hall rule hrule
    rw [hparents] at hno
    cases hno
  have hc := CoffeeShop.menu.hears_largeCone
  exact ⟨by decide +kernel, hc, hignores, (CoffeeShop.menu.isValidChild_of_hears hc).1⟩

/-- Cones in two sizes. Only a small one may have sprinkles. -/
def twoCones : List Entry :=
  [.dimension 1 "size" [⟨1, "small", true⟩, ⟨3, "large", false⟩], .matrix 1 [1], .matrix 4 [],
    .generic ⟨CoffeeShop.cone, "cone", .product, 1, []⟩,
    .generic ⟨CoffeeShop.sprinkles, "sprinkles", .option, 4, []⟩,
    .children "9000:0" [CoffeeShop.sprinkles]]

/-- The menu of the two cones. None of the entries is refused. -/
def twoConesMenu : Menu :=
  match Menu.empty.writeAll twoCones with
  | .ok menu => menu
  | .error _ => .empty

/-- Sprinkles that were put on a small cone stay on it when it is made large. -/
theorem sprinkles_kept_on_largeCone :
    (Menu.empty.writeAll twoCones).toOption = some twoConesMenu ∧
      Relation.ReflTransGen twoConesMenu.Hears Cart.empty twoConesMenu.largeCone ∧
      ∃ item ∈ twoConesMenu.largeCone.items, ∃ child ∈ item.children, 0 < child.quantity ∧
        twoConesMenu.composition.isValidChild item.key child.key = false := by
  have hkept : (twoConesMenu.largeCone.items.any fun item => item.children.any fun child =>
      0 < child.quantity && !twoConesMenu.composition.isValidChild item.key child.key) = true := by
    decide +kernel
  refine ⟨by decide +kernel, twoConesMenu.hears_largeCone, ?_⟩
  simpa only [List.any_eq_true, Bool.and_eq_true, decide_eq_true_eq, Bool.not_eq_true'] using hkept

end Menu

end SpokenOrder
