import SpokenOrder.CoffeeShop
import SpokenOrder.Proofs.Cart.Invariant

/-!
# Options that exclude each other

A merge lets a new option displace one that excludes it. This keeps the options of an item apart
under rules that are coherent (`Composition.Coherent`), with one exception: a default option is
recorded as removed without regard to the other options, and is made more of later without regard
to them. So of two options on an item that exclude each other, the later is a default option that
excludes other options (`Menu.pairwise_conflicts_of_hears`).
-/

namespace SpokenOrder

/-! ## Rivals -/

namespace Composition

variable {composition : Composition} {parent a b : Key}

/-- A child is valid if some rule for its parent allows its option. -/
theorem isValidChild_iff : composition.isValidChild parent a = true ↔
    ∃ rule ∈ composition.allowed, rule.parents.covers parent = true ∧ a.pid ∈ rule.options := by
  simp [isValidChild]

/-- Children conflict if they are variants of one option or some rule for the parent excludes them
both. -/
theorem conflicts_iff : composition.conflicts parent a b = true ↔ a.pid = b.pid ∨
    ∃ rule ∈ composition.exclusive,
      rule.parents.covers parent = true ∧ a.pid ∈ rule.options ∧ b.pid ∈ rule.options := by
  simp [conflicts, exclusionSets]

/-- Conflicts are mutual. -/
theorem conflicts_comm (parent a b : Key) :
    composition.conflicts parent a b = composition.conflicts parent b a := by
  rw [Bool.eq_iff_iff, conflicts_iff, conflicts_iff]
  simp only [eq_comm, and_comm (a := a.pid ∈ _)]

/-- On some parent, it is impossible to have both. -/
def Rivals (composition : Composition) (a b : Key) : Prop :=
  ∃ parent, composition.conflicts parent a b = true

theorem Rivals.symm (h : composition.Rivals a b) : composition.Rivals b a :=
  h.imp fun parent hconflict => conflicts_comm parent a b ▸ hconflict

/-- The options that exclude one another on a parent fall into groups, and an option that may go on
a parent excludes there all that it excludes anywhere. -/
structure Coherent (composition : Composition) : Prop where
  conflicts_trans {parent a b c : Key} : composition.conflicts parent a b = true →
    composition.conflicts parent b c = true → composition.conflicts parent a c = true
  conflicts_of_rivals {parent a b : Key} : composition.isValidChild parent b = true →
    composition.Rivals a b → composition.conflicts parent a b = true

/-- Rules are coherent if exclusion sets that share an option are the same, and each exclusion set
is declared for all parents that some of its options may go on. -/
theorem coherent_of_forall
    (hsame : ∀ rule ∈ composition.exclusive, ∀ other ∈ composition.exclusive,
      ∀ pid ∈ rule.options, pid ∈ other.options → rule.options = other.options)
    (hspread : ∀ rule ∈ composition.exclusive, ∀ allowance ∈ composition.allowed,
      ∀ pid ∈ allowance.options, pid ∈ rule.options → ∃ other ∈ composition.exclusive,
        other.options = rule.options ∧
          (other.parents = .any ∨ other.parents = allowance.parents)) :
    composition.Coherent where
  conflicts_trans {parent a b c} hab hbc := by
    rw [conflicts_iff] at hab hbc ⊢
    rcases hab with heq | ⟨rule, hrule, hcovers, ha, hb⟩
    · rwa [heq]
    · rcases hbc with heq | ⟨other, hother, -, hb', hc⟩
      · exact .inr ⟨rule, hrule, hcovers, ha, heq ▸ hb⟩
      · exact .inr ⟨rule, hrule, hcovers, ha, hsame rule hrule other hother _ hb hb' ▸ hc⟩
  conflicts_of_rivals {parent a b} hvalid hrivals := by
    obtain ⟨allowance, hallowance, hcovers, hb⟩ := isValidChild_iff.1 hvalid
    obtain ⟨elsewhere, hconflict⟩ := hrivals
    rw [conflicts_iff] at hconflict ⊢
    rcases hconflict with heq | ⟨rule, hrule, -, ha, hb'⟩
    · exact .inl heq
    · obtain ⟨other, hother, hoptions, hparents⟩ := hspread rule hrule allowance hallowance _ hb hb'
      refine .inr ⟨other, hother, ?_, hoptions ▸ ha, hoptions ▸ hb'⟩
      rcases hparents with hany | hsame
      · rw [hany]; rfl
      · rw [hsame]; exact hcovers

end Composition

/-! ## Children side by side -/

namespace Menu

variable {menu : Menu} {parent : Key}

/-- A default option of some product that excludes another option. -/
def Contested (menu : Menu) (pid : Pid) : Prop :=
  (∃ product, menu.catalog.isDefaultOption product pid = true) ∧
    ∃ a b : Key, menu.composition.Rivals a b ∧ b.pid = pid ∧ a.pid ≠ pid

/-- No option excludes another on any parent, unless the later one is contested. -/
def Settled (menu : Menu) (keys : List Key) : Prop :=
  keys.Pairwise fun a b => menu.composition.Rivals a b → menu.Contested b.pid

/-- Putting a legal option among others keeps them settled. -/
theorem Settled.put (hrules : menu.composition.Coherent) {child : Item} {children result : Forest}
    (hvalid : menu.composition.isValidChild parent child.key = true)
    (hput : menu.Put parent child children result) (h : menu.Settled (children.map (·.key))) :
    menu.Settled (result.map (·.key)) := by
  refine hput.pairwise (fun c hclear hrivals => ?_) (fun rival c hrival hsettled hchild => ?_) h
  · rw [hrules.conflicts_of_rivals hvalid hrivals] at hclear
    cases hclear
  · -- What the new option excludes, the one that it displaces has excluded.
    have hconflict := hrules.conflicts_of_rivals hvalid hchild.symm
    rw [Composition.conflicts_comm] at hconflict
    exact hsettled ⟨parent, hrules.conflicts_trans hrival hconflict⟩

/-- A merge keeps the options settled. -/
theorem Settled.mergeParts (hrules : menu.composition.Coherent) {children : Forest}
    {parts : List Part} (h : menu.Settled (children.map (·.key))) :
    menu.Settled ((menu.mergeParts parent children parts).1.map (·.key)) :=
  mergeParts_induction (P := fun merged => menu.Settled (merged.map (·.key)))
    (fun merged child _ hvalid hmerged =>
      hmerged.put hrules hvalid (put_putChild parent merged child)) h

/-- Taking an option off an item keeps the others settled. -/
theorem Settled.takesOff {parent option : Item} {children : Forest}
    (htakes : menu.TakesOff parent option children)
    (h : menu.Settled (parent.children.map (·.key))) : menu.Settled (children.map (·.key)) := by
  cases htakes with
  | recorded hchildren _ => rw [hchildren] at h; simpa using h
  | untouched huntouched =>
    rw [List.map_append]
    refine List.pairwise_append.2 ⟨h, List.pairwise_singleton _ _, fun key hkey new hnew => ?_⟩
    obtain ⟨c, hc, rfl⟩ := List.mem_map.1 hkey
    rw [List.map_singleton, List.mem_singleton] at hnew
    subst hnew
    exact fun hrivals => ⟨⟨_, huntouched.isDefault⟩, _, _, hrivals, rfl, huntouched.untouched c hc⟩
  | dropped _ => exact h.sublist (List.filter_sublist.map _)

/-! ## Every cart -/

/-- Under coherent rules, the options of an item are settled. -/
theorem itemInvariant_settled (hrules : menu.composition.Coherent) :
    menu.ItemInvariant fun item => menu.Settled (item.children.map (·.key)) where
  detached item := by simp [Function.comp_def]
  newItem h := by
    obtain ⟨pid, matrix, said, key, -, -, -, -, -, rfl⟩ := newItem?_eq_some h
    exact Settled.mergeParts hrules .nil
  modified hitem h := by
    obtain ⟨matrix, said, key, -, -, -, -, -, rfl⟩ := modified?_eq_some h
    exact hitem.mergeParts hrules
  replacement htarget h := by
    obtain ⟨pid, matrix, said, key, -, -, -, -, -, rfl⟩ := replacement?_eq_some h
    dsimp only [replacementChildren]
    split
    · exact htarget.sublist (List.filter_sublist.map _)
    · exact Settled.mergeParts hrules .nil
  withoutOption hparent hplaced hoption := by
    obtain ⟨children, htakes, heq⟩ := exists_takesOff hplaced hoption
    rw [heq]
    exact hparent.takesOff htakes

/-- Under coherent rules, in every cart that utterances lead to, of two options of an item that
conflict the later is a default option that excludes another option. So no two options of an item
conflict if no default option excludes others. -/
theorem pairwise_conflicts_of_hears (menu : Menu) (hrules : menu.composition.Coherent) {c : Cart}
    (hc : Relation.ReflTransGen menu.Hears Cart.empty c) :
    ∀ item ∈ c.items, item.children.Pairwise fun a b =>
      menu.composition.conflicts item.key a.key b.key = true → menu.Contested b.key.pid := by
  intro item hitem
  have hsettled := (itemInvariant_settled hrules).of_hears hc item hitem
  exact (List.pairwise_map.1 hsettled).imp fun h hconflict => h ⟨item.key, hconflict⟩

/-! ## A latte with half and half and milk -/

/-- The cart after a latte with half and half was ordered, without milk, and milk was added. -/
def richLatte (menu : Menu) : Cart :=
  let ordered := menu.interpretTokens [.addToOrder, .entity CoffeeShop.latte "latte",
    .option CoffeeShop.halfAndHalf "half and half"] Cart.empty
  let milkless := menu.interpretTokens [.removeItem, .option CoffeeShop.milk "milk"] ordered.cart
  (menu.interpretTokens [.addToOrder, .option CoffeeShop.milk "milk"] milkless.cart).cart

/-- The cart with the rich latte comes about by what is heard. -/
theorem hears_richLatte (menu : Menu) :
    Relation.ReflTransGen menu.Hears Cart.empty menu.richLatte :=
  ((Relation.ReflTransGen.single (.tokens _ _)).tail (.tokens _ _)).tail (.tokens _ _)

/-- The rules of the coffee shop are coherent. -/
theorem pairwise_conflicts_richLatte :
    CoffeeShop.menu.composition.Coherent ∧
      Relation.ReflTransGen CoffeeShop.menu.Hears Cart.empty CoffeeShop.menu.richLatte ∧
      (CoffeeShop.menu.richLatte.items.map fun item =>
        (item.key, item.children.map fun child => (child.key, child.quantity))) =
          [(⟨CoffeeShop.latte, 1⟩,
            [(⟨CoffeeShop.halfAndHalf, 0⟩, 1), (⟨CoffeeShop.milk, 0⟩, 1)])] ∧
      ∀ item ∈ CoffeeShop.menu.richLatte.items, item.children.Pairwise fun a b =>
        CoffeeShop.menu.composition.conflicts item.key a.key b.key = true →
          CoffeeShop.menu.Contested b.key.pid := by
  have hrules : CoffeeShop.menu.composition.Coherent :=
    Composition.coherent_of_forall (by decide +kernel) (by decide +kernel)
  have hc := CoffeeShop.menu.hears_richLatte
  exact ⟨hrules, hc, by decide +kernel,
    CoffeeShop.menu.pairwise_conflicts_of_hears hrules hc⟩

/-- Half and half and milk exclude each other, and this latte has both. -/
theorem conflict_on_richLatte :
    Relation.ReflTransGen CoffeeShop.menu.Hears Cart.empty CoffeeShop.menu.richLatte ∧
      ∃ item ∈ CoffeeShop.menu.richLatte.items, ¬ item.children.Pairwise fun a b =>
        0 < a.quantity → 0 < b.quantity →
          CoffeeShop.menu.composition.conflicts item.key a.key b.key = false :=
  ⟨CoffeeShop.menu.hears_richLatte, by decide +kernel⟩

end Menu

end SpokenOrder
