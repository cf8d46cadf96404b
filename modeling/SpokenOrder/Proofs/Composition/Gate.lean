import Mathlib.Data.List.Induction
import SpokenOrder.Menu.Composition

/-!
# What a gate lets through

Options are offered to a gate one after another. Of the exclusion sets that hold an option, the
first rules on it: the option is turned away if this set rules on another that was let through
before (`Admission.turnsAway_iff`). So an option that is turned away shares an exclusion
set with one that was let through. The converse holds just where options that share a set are ruled
on by one set (`Composition.turned_away_iff_ruledTogether`): where exclusion sets overlap, both of
two options that share a set may be let through.
-/

namespace SpokenOrder

/-! ## Sets that rule on options -/

namespace Composition

variable {sets : List (List Pid)} {a b : Pid}

/-- The exclusion set that rules on an option: the first that holds it. -/
def ruling? (sets : List (List Pid)) (pid : Pid) : Option (List Pid) := sets.find? (·.contains pid)

/-- One set rules on both options. -/
def RuledTogether (sets : List (List Pid)) (a b : Pid) : Prop :=
  ∃ set, ruling? sets a = some set ∧ ruling? sets b = some set

/-- Some set holds both options. -/
def HeldTogether (sets : List (List Pid)) (a b : Pid) : Prop := ∃ set ∈ sets, a ∈ set ∧ b ∈ set

instance (sets : List (List Pid)) (a b : Pid) : Decidable (HeldTogether sets a b) :=
  inferInstanceAs (Decidable (∃ set ∈ sets, a ∈ set ∧ b ∈ set))

/-- The set that rules an option is one of the sets and has the option. -/
theorem mem_of_ruling? {set : List Pid} (h : ruling? sets a = some set) : set ∈ sets ∧ a ∈ set := by
  rw [ruling?, List.find?_eq_some_iff_append] at h
  obtain ⟨hholds, before, after, rfl, -⟩ := h
  exact ⟨List.mem_append_right _ List.mem_cons_self, List.contains_iff_mem.1 hholds⟩

/-- Options that one set rules are in a set together. -/
theorem RuledTogether.heldTogether (h : RuledTogether sets a b) : HeldTogether sets a b := by
  obtain ⟨set, ha, hb⟩ := h
  exact ⟨set, (mem_of_ruling? ha).1, (mem_of_ruling? ha).2, (mem_of_ruling? hb).2⟩

/-- The first set rules on both, or it holds neither and a later one rules on both. -/
theorem ruledTogether_cons {set : List Pid} :
    RuledTogether (set :: sets) a b ↔
      a ∈ set ∧ b ∈ set ∨ a ∉ set ∧ b ∉ set ∧ RuledTogether sets a b := by
  have hrules : ∀ {pid : Pid}, pid ∈ set → ruling? (set :: sets) pid = some set := fun h =>
    List.find?_cons_of_pos (List.contains_iff_mem.2 h)
  have hlater : ∀ {pid : Pid}, pid ∉ set → ruling? (set :: sets) pid = ruling? sets pid := fun h =>
    List.find?_cons_of_neg (by simpa using h)
  by_cases ha : a ∈ set <;> by_cases hb : b ∈ set
  · simp [RuledTogether, hrules ha, hrules hb, ha, hb]
  · simp only [RuledTogether, hrules ha, hlater hb, ha, hb]
    simpa using fun h => hb (mem_of_ruling? h).2
  · simp only [RuledTogether, hlater ha, hrules hb, ha, hb]
    simpa using fun h => ha (mem_of_ruling? h).2
  · simp [RuledTogether, hlater ha, hlater hb, ha, hb]

end Composition

open SpokenOrder.Composition

/-! ## Offers in turn -/

namespace Admission

variable {β : Type}

/-- An offer changes the marks of a gate, not its sets. -/
@[simp] theorem map_fst_offer (gate : Admission) (pid : Pid) :
    (gate.offer pid).2.map Prod.fst = gate.map Prod.fst := by
  induction gate with
  | nil => rfl
  | cons entry rest ih =>
    rw [offer]
    split
    · rfl
    · rw [List.map_cons, List.map_cons, ih]

/-- The gate after options were offered to it in turn. -/
def after (pid : β → Pid) (gate : Admission) (offered : List β) : Admission :=
  offered.foldl (fun gate x => (gate.offer (pid x)).2) gate

/-- The gate turns an option away that is offered behind others. -/
def TurnsAway (gate : Admission) (earlier : List Key) (key : Key) : Prop :=
  ((gate.after Key.pid earlier).offer key.pid).1 = false

instance (gate : Admission) (earlier : List Key) (key : Key) :
    Decidable (gate.TurnsAway earlier key) :=
  inferInstanceAs (Decidable (_ = false))

/-- What the gate lets through of options that are offered to it in turn. -/
def letThrough (pid : β → Pid) : Admission → List β → List β
  | _, [] => []
  | gate, x :: rest =>
    let later := letThrough pid (gate.offer (pid x)).2 rest
    if (gate.offer (pid x)).1 then x :: later else later

/-- What comes later is let through by the gate as the earlier offers left it. -/
theorem letThrough_append (pid : β → Pid) (gate : Admission) (xs ys : List β) :
    gate.letThrough pid (xs ++ ys) =
      gate.letThrough pid xs ++ (gate.after pid xs).letThrough pid ys := by
  induction xs generalizing gate with
  | nil => rfl
  | cons x xs ih =>
    rw [List.cons_append, letThrough, letThrough, after, List.foldl_cons, ← after, ih]
    split <;> rfl

/-- What is let through keeps its order. -/
theorem letThrough_sublist (pid : β → Pid) (gate : Admission) (offered : List β) :
    (gate.letThrough pid offered).Sublist offered := by
  induction offered generalizing gate with
  | nil => exact .slnil
  | cons x rest ih =>
    rw [letThrough]
    split
    · exact (ih _).cons_cons x
    · exact (ih _).cons x

/-- Step lemma: after an offer, the gate turns away what it turned away before and, if the option
was let through, all that the same set rules on. -/
theorem offer_offer_eq_false_iff (gate : Admission) (first second : Pid) :
    ((gate.offer first).2.offer second).1 = false ↔ (gate.offer second).1 = false ∨
      (gate.offer first).1 = true ∧ RuledTogether (gate.map Prod.fst) first second := by
  induction gate with
  | nil => simp [offer, RuledTogether, ruling?]
  | cons entry rest ih =>
    obtain ⟨set, taken⟩ := entry
    rw [List.map_cons, ruledTogether_cons]
    by_cases hfirst : first ∈ set <;> by_cases hsecond : second ∈ set
    · cases taken <;> simp [offer, hfirst, hsecond]
    · simp [offer, hfirst, hsecond]
    · simp [offer, hfirst, hsecond]
    · simpa [offer, hfirst, hsecond] using ih

/-- Run lemma: behind other options, the gate turns away what it turned away at first, and all that
a set rules on which rules on one that was let through. -/
theorem offer_after_iff (pid : β → Pid) (gate : Admission) (earlier : List β) (last : Pid) :
    ((gate.after pid earlier).offer last).1 = false ↔ (gate.offer last).1 = false ∨
      ∃ x ∈ gate.letThrough pid earlier, RuledTogether (gate.map Prod.fst) (pid x) last := by
  induction earlier generalizing gate with
  | nil => simp [after, letThrough]
  | cons x rest ih =>
    have hrest := ih (gate.offer (pid x)).2
    rw [map_fst_offer, offer_offer_eq_false_iff] at hrest
    rw [after, List.foldl_cons, ← after, hrest, letThrough]
    cases hpasses : (gate.offer (pid x)).1 with
    | false => simp
    | true => simp [or_assoc]

/-- No set rules on two options that the gate lets through. -/
theorem pairwise_letThrough (pid : β → Pid) (gate : Admission) (offered : List β) :
    (gate.letThrough pid offered).Pairwise fun x y =>
      ¬ RuledTogether (gate.map Prod.fst) (pid x) (pid y) := by
  induction offered using List.reverseRecOn with
  | nil => exact .nil
  | append_singleton earlier last ih =>
    rw [letThrough_append, letThrough, letThrough]
    split
    · next hpasses =>
      refine List.pairwise_append.2 ⟨ih, List.pairwise_singleton _ _, fun x hx y hy htogether => ?_⟩
      obtain rfl := List.mem_singleton.1 hy
      rw [(offer_after_iff pid gate earlier (pid y)).2 (.inr ⟨x, hx, htogether⟩)] at hpasses
      cases hpasses
    · rwa [List.append_nil]

/-! ## The gate of a parent -/

/-- A gate has the exclusion sets of its parent. -/
theorem map_fst_admission (composition : Composition) (parent : Key) :
    (composition.admission parent).map Prod.fst = composition.exclusionSets parent := by
  simp [admission, Function.comp_def]

/-- At first the gate of a parent turns nothing away. -/
theorem offer_admission (composition : Composition) (parent : Key) (pid : Pid) :
    ((composition.admission parent).offer pid).1 = true := by
  rw [admission]
  induction composition.exclusionSets parent with
  | nil => rfl
  | cons set rest ih =>
    rw [List.map_cons, offer]
    split
    · rfl
    · exact ih

/-- The gate of a parent turns away the options that a set rules on which rules on an option that
was let through before. -/
theorem turnsAway_iff {composition : Composition} {parent : Key} {earlier : List Key} {key : Key} :
    (composition.admission parent).TurnsAway earlier key ↔
      ∃ other ∈ (composition.admission parent).letThrough Key.pid earlier,
        RuledTogether (composition.exclusionSets parent) other.pid key.pid := by
  rw [TurnsAway, offer_after_iff, offer_admission, map_fst_admission]
  simp

/-- What is offered first is let through. -/
theorem letThrough_singleton (pid : β → Pid) (composition : Composition) (parent : Key) (x : β) :
    (composition.admission parent).letThrough pid [x] = [x] := by
  rw [letThrough, if_pos (offer_admission composition parent _), letThrough]

/-- So is the second option, unless a set rules on both. -/
theorem letThrough_pair {composition : Composition} {parent a b : Key}
    (h : ¬ RuledTogether (composition.exclusionSets parent) a.pid b.pid) :
    (composition.admission parent).letThrough Key.pid [a, b] = [a, b] := by
  have hpasses : (((composition.admission parent).after Key.pid [a]).offer b.pid).1 = true := by
    refine Bool.of_not_eq_false fun hdenied => ?_
    obtain ⟨other, hother, htogether⟩ := turnsAway_iff.1 hdenied
    rw [letThrough_singleton, List.mem_singleton] at hother
    exact h (hother ▸ htogether)
  rw [show [a, b] = [a] ++ [b] from rfl, letThrough_append, letThrough_singleton, letThrough,
    if_pos hpasses, letThrough]

end Admission

/-! ## One option of each set -/

namespace Composition

open Admission

variable {composition : Composition} {parent : Key}

/-- A gate turns away all options that share a set with one that was let through just where one set
rules on any two options that share a set. -/
theorem turnsAway_iff_heldTogether_iff :
    (∀ earlier key, (composition.admission parent).TurnsAway earlier key ↔
        ∃ other ∈ (composition.admission parent).letThrough Key.pid earlier,
          HeldTogether (composition.exclusionSets parent) other.pid key.pid) ↔
      ∀ a b, HeldTogether (composition.exclusionSets parent) a b →
        RuledTogether (composition.exclusionSets parent) a b := by
  constructor
  · intro hclaim a b hheld
    have hfirst := letThrough_singleton Key.pid composition parent ⟨a, 0⟩
    have hdenied : (composition.admission parent).TurnsAway [⟨a, 0⟩] ⟨b, 0⟩ :=
      (hclaim _ _).2 ⟨⟨a, 0⟩, hfirst.symm ▸ List.mem_cons_self, hheld⟩
    obtain ⟨other, hother, htogether⟩ := turnsAway_iff.1 hdenied
    rw [hfirst] at hother
    obtain rfl := List.mem_singleton.1 hother
    exact htogether
  · intro hruled earlier key
    rw [turnsAway_iff]
    exact exists_congr fun other => and_congr_right fun _ =>
      ⟨RuledTogether.heldTogether, hruled _ _⟩

/-- Nor does it let through two options that share a set, just where the same holds. -/
theorem pairwise_not_heldTogether_iff :
    (∀ offered, ((composition.admission parent).letThrough Key.pid offered).Pairwise fun a b =>
        ¬ HeldTogether (composition.exclusionSets parent) a.pid b.pid) ↔
      ∀ a b, HeldTogether (composition.exclusionSets parent) a b →
        RuledTogether (composition.exclusionSets parent) a b := by
  constructor
  · intro hclaim a b hheld
    by_contra hapart
    have hpair := hclaim [⟨a, 0⟩, ⟨b, 0⟩]
    rw [letThrough_pair hapart] at hpair
    exact List.rel_of_pairwise_cons hpair List.mem_cons_self hheld
  · intro hruled offered
    refine (pairwise_letThrough Key.pid _ offered).imp fun {a b} hapart hheld => hapart ?_
    rw [map_fst_admission]
    exact hruled _ _ hheld

/-- Among options offered in turn, one is turned away if and only if a set rules on it that rules on
an option which was let through before. So it shares an exclusion set with such an option. That all
that shares a set with an option let through before is turned away, and that no two options which
are let through share a set, holds for whatever options if and only if one set rules on any two
options that share a set. -/
theorem turned_away_iff_ruledTogether (composition : Composition) (parent : Key) :
    let sets := composition.exclusionSets parent
    let gate := composition.admission parent
    (∀ earlier key, gate.TurnsAway earlier key ↔
      ∃ other ∈ gate.letThrough Key.pid earlier, RuledTogether sets other.pid key.pid) ∧
    (∀ earlier key, gate.TurnsAway earlier key →
      ∃ other ∈ gate.letThrough Key.pid earlier, HeldTogether sets other.pid key.pid) ∧
    ((∀ earlier key, gate.TurnsAway earlier key ↔
        ∃ other ∈ gate.letThrough Key.pid earlier, HeldTogether sets other.pid key.pid) ↔
      ∀ a b, HeldTogether sets a b → RuledTogether sets a b) ∧
    ((∀ offered, (gate.letThrough Key.pid offered).Pairwise fun a b =>
        ¬ HeldTogether sets a.pid b.pid) ↔
      ∀ a b, HeldTogether sets a b → RuledTogether sets a b) := by
  refine ⟨fun earlier key => turnsAway_iff, fun earlier key hdenied => ?_,
    turnsAway_iff_heldTogether_iff, pairwise_not_heldTogether_iff⟩
  obtain ⟨other, hother, htogether⟩ := turnsAway_iff.1 hdenied
  exact ⟨other, hother, htogether.heldTogether⟩

/-- Rules under which half and half excludes milk on a coffee, and cream on anything. -/
def overlapping : Composition where
  allowed := []
  exclusive := [⟨.generic 9100, [5000, 5010]⟩, ⟨.any, [5010, 5020]⟩]

/-- Offered half and half and then cream, the gate of a coffee lets both through. -/
theorem bothLetThrough_overlapping :
    (do (← empty.addExclusion "9100" [5000, 5010]).addExclusion "*" [5010, 5020]) =
        .ok overlapping ∧
      overlapping.conflicts ⟨9100, 0⟩ ⟨5010, 0⟩ ⟨5020, 0⟩ = true ∧
      (overlapping.admission ⟨9100, 0⟩).letThrough Key.pid [⟨5010, 0⟩, ⟨5020, 0⟩] =
        [⟨5010, 0⟩, ⟨5020, 0⟩] ∧
      ¬ ((overlapping.admission ⟨9100, 0⟩).TurnsAway [⟨5010, 0⟩] ⟨5020, 0⟩ ↔
        ∃ other ∈ (overlapping.admission ⟨9100, 0⟩).letThrough Key.pid [⟨5010, 0⟩],
          HeldTogether (overlapping.exclusionSets ⟨9100, 0⟩) other.pid 5020) := by
  decide

end Composition

end SpokenOrder
