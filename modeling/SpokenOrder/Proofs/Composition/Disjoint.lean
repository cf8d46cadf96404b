import Mathlib.Data.List.Pairwise
import SpokenOrder.Proofs.Composition.Exclusive

/-!
# Disjoint exclusion sets

Where no option is in two of the exclusion sets of a parent, options that conflict there fall into
groups (`Composition.conflicts_trans_of_disjoint`). Of options that do not conflict, at most one is
then in the group of a new option, and it makes room for it. So a merge into options that do not
conflict leaves options that do not conflict (`Menu.pairwise_mergeParts_of_disjoint`).
-/

namespace SpokenOrder

namespace Composition

variable {composition : Composition} {parent a b c : Key}

/-- Two children conflict if they are variants of one option or share an exclusion set of the
parent. -/
theorem conflicts_iff_exclusionSets : composition.conflicts parent a b = true ↔ a.pid = b.pid ∨
    ∃ set ∈ composition.exclusionSets parent, a.pid ∈ set ∧ b.pid ∈ set := by
  simp [conflicts]

/-- Disjoint sets that share an option are one set. -/
theorem eq_of_mem_exclusionSets
    (hsets : (composition.exclusionSets parent).Pairwise List.Disjoint) {set other : List Pid}
    (hset : set ∈ composition.exclusionSets parent)
    (hother : other ∈ composition.exclusionSets parent) {pid : Pid} (hmem : pid ∈ set)
    (hmem' : pid ∈ other) : set = other := by
  by_contra hne
  have : Std.Symm (List.Disjoint (α := Pid)) := ⟨fun _ _ h _ hb ha => h ha hb⟩
  exact hsets.forall hset hother hne hmem hmem'

/-- Under disjoint exclusion sets, conflicts are passed on. -/
theorem conflicts_trans_of_disjoint
    (hsets : (composition.exclusionSets parent).Pairwise List.Disjoint)
    (hab : composition.conflicts parent a b = true)
    (hbc : composition.conflicts parent b c = true) :
    composition.conflicts parent a c = true := by
  rw [conflicts_iff_exclusionSets] at hab hbc ⊢
  rcases hab with heq | ⟨set, hset, ha, hb⟩
  · rwa [heq]
  · rcases hbc with heq | ⟨other, hother, hb', hc⟩
    · exact .inr ⟨set, hset, ha, heq ▸ hb⟩
    · exact .inr ⟨set, hset, ha, eq_of_mem_exclusionSets hsets hset hother hb hb' ▸ hc⟩

end Composition

namespace Menu

variable {menu : Menu} {parent : Key}

/-- Putting a child among others that do not conflict leaves no two that do. -/
theorem Put.pairwise_conflicts
    (hsets : (menu.composition.exclusionSets parent).Pairwise List.Disjoint) {child : Item}
    {children result : List Item} (h : menu.Put parent child children result)
    (hchildren : children.Pairwise fun a b =>
      menu.composition.conflicts parent a.key b.key = false) :
    result.Pairwise fun a b => menu.composition.conflicts parent a.key b.key = false := by
  refine List.pairwise_map.1 (h.pairwise (R := fun a b =>
    menu.composition.conflicts parent a b = false) (fun _ hclear => hclear)
    (fun rival c hrival hapart => ?_) (List.pairwise_map.2 hchildren))
  -- What conflicts with the child would conflict with the rival that it displaces.
  refine Bool.eq_false_iff.2 fun hconflict => ?_
  rw [Composition.conflicts_trans_of_disjoint hsets hrival hconflict] at hapart
  cases hapart

/-- If no two exclusion sets of a parent share an option, a merge into children that do not conflict
on the parent leaves children that do not conflict on it, whatever parts are merged. -/
theorem pairwise_mergeParts_of_disjoint
    (hsets : (menu.composition.exclusionSets parent).Pairwise List.Disjoint)
    {children : List Item} (hchildren : children.Pairwise fun a b =>
      menu.composition.conflicts parent a.key b.key = false) (parts : List Part) :
    (menu.mergeParts parent children parts).1.Pairwise fun a b =>
      menu.composition.conflicts parent a.key b.key = false :=
  mergeParts_induction (P := fun merged => merged.Pairwise fun a b =>
      menu.composition.conflicts parent a.key b.key = false)
    (fun merged child _ _ hmerged =>
      (put_putChild parent merged child).pairwise_conflicts hsets hmerged) hchildren

/-- Into a coffee with milk and syrup, half and half is put, oat milk, and more syrup. -/
theorem pairwise_mergeParts_coffee :
    (CoffeeShop.menu.composition.exclusionSets ⟨CoffeeShop.coffee, 1⟩).Pairwise List.Disjoint ∧
      (let merged := (CoffeeShop.menu.mergeParts ⟨CoffeeShop.coffee, 1⟩
        [.ofKey ⟨CoffeeShop.milk, 0⟩ 1, .ofKey ⟨CoffeeShop.vanillaSyrup, 0⟩ 1]
        [.option CoffeeShop.halfAndHalf [] 1 1, .option CoffeeShop.milk [32] 1 2,
          .option CoffeeShop.vanillaSyrup [] 2 2]).1
      merged.map (fun child => (child.key, child.quantity)) =
          [(⟨CoffeeShop.halfAndHalf, 0⟩, 1), (⟨CoffeeShop.vanillaSyrup, 0⟩, 3)] ∧
        merged.Pairwise fun a b =>
          CoffeeShop.menu.composition.conflicts ⟨CoffeeShop.coffee, 1⟩ a.key b.key = false) := by
  have hsets : (CoffeeShop.menu.composition.exclusionSets
      ⟨CoffeeShop.coffee, 1⟩).Pairwise List.Disjoint := by
    rw [show CoffeeShop.menu.composition.exclusionSets ⟨CoffeeShop.coffee, 1⟩ =
      [[CoffeeShop.milk, CoffeeShop.halfAndHalf]] by decide +kernel]
    exact List.pairwise_singleton _ _
  exact ⟨hsets, by decide +kernel, pairwise_mergeParts_of_disjoint hsets (by decide +kernel) _⟩

end Menu

end SpokenOrder
