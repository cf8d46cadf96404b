import Mathlib.Data.List.Forall2
import SpokenOrder.Interpretation
import SpokenOrder.Particulars.Reader
import SpokenOrder.Proofs.Grammar.Cursor

/-!
# Slots by position

Guards and productions address slots by fixed positions. `Rule.Addresses` lists the positions that a
rule looks at, all of them positions of its own slots; `Intent.addresses_grammar` gives them for the
rules of utterances, and `Particulars.addresses_grammar` for those of particulars. A rule is only
asked with as many slots as it has, which `Cursor.keeps_discipline` shows together with the rest of
what reading with a cursor keeps: no attempt faults or leaves a mark behind, however patterns are
nested.
-/

namespace SpokenOrder

/-- The same tokens, and the same ones in the slots with the given positions. -/
structure Captures.AgreeAt (positions : List Nat) (xs ys : Captures) : Prop where
  get? : ∀ i ∈ positions, xs.get? i = ys.get? i
  filled : xs.filled = ys.filled

/-- The rule has slots with the given positions, and of single slots it looks at no others. -/
structure Rule.Addresses {C : Type} (rule : Rule C) (positions : List Nat) : Prop where
  guard : ∀ c {xs ys}, Captures.AgreeAt positions xs ys → rule.guard c xs = rule.guard c ys
  production : ∀ c used {xs ys}, Captures.AgreeAt positions xs ys →
    rule.production c xs used = rule.production c ys used
  lt_slots : ∀ i ∈ positions, i < rule.slots

/-- A rule without a guard addresses the slots that its production looks at. -/
theorem Rule.Addresses.plain {C : Type} {name : String} {pattern : List Pattern}
    {production : C → Captures → Nat → Option C} {positions : List Nat}
    (hproduction : ∀ c used {xs ys}, Captures.AgreeAt positions xs ys →
      production c xs used = production c ys used)
    (hlt : ∀ i ∈ positions, i < Pattern.slotsInRow pattern) :
    (Rule.plain name pattern production).Addresses positions where
  guard _ _ _ _ := rfl
  production := hproduction
  lt_slots := hlt

section
variable {positions : List Nat} {xs ys : Captures} {i : Nat}

namespace Intent

/-- The group of a slot that is addressed is the same. -/
theorem groupIn?_congr (h : Captures.AgreeAt positions xs ys) (hi : i ∈ positions) :
    groupIn? xs i = groupIn? ys i := by
  rw [groupIn?, groupIn?, h.get? i hi]

/-- So is its span. -/
theorem spanIn?_congr (h : Captures.AgreeAt positions xs ys) (hi : i ∈ positions) :
    spanIn? xs i = spanIn? ys i := by
  rw [spanIn?, spanIn?, h.get? i hi]

/-- An edit is the same, as it counts the marks of intent only. -/
theorem edit_congr (h : Captures.AgreeAt positions xs ys) (c : Context) :
    c.edit xs = c.edit ys := by
  funext cart score
  rw [Context.edit, Context.edit, Context.markers, Context.markers, h.filled]

variable {α : Type} [Score α]

/-- The targets of a slot that is addressed are the same. -/
theorem targetsIn_congr (h : Captures.AgreeAt positions xs ys) (hi : i ∈ positions)
    (scene : Scene α) (c : Context) : targetsIn scene c xs i = targetsIn scene c ys i := by
  rw [targetsIn, targetsIn, spanIn?_congr h hi]

/-- The exchange of an item is the same. -/
theorem replaced_congr (h : Captures.AgreeAt positions xs ys) (c : Context) :
    replaced c xs = replaced c ys := by
  funext new score
  rw [replaced, replaced, edit_congr h]

/-- The slots of the rules that add. -/
theorem addresses_addRules (scene : Scene α) :
    List.Forall₂ Rule.Addresses (addRules scene) [[2, 4], [2], [2], [2]] := by
  refine .cons (.plain (fun c _ xs ys h => ?_) (by decide))
    (.cons (.plain (fun c _ xs ys h => ?_) (by decide))
    (.cons (.plain (fun c _ xs ys h => ?_) (by decide))
    (.cons (.plain (fun c _ xs ys h => ?_) (by decide)) .nil)))
  · simp only [addOntoTarget, groupIn?_congr h (i := 2) (by decide),
      targetsIn_congr h (i := 4) (by decide), replaced_congr h]
  · simp only [addOntoLast, groupIn?_congr h (i := 2) (by decide), replaced_congr h]
  · simp only [addNewItems, groupIn?_congr h (i := 2) (by decide), edit_congr h]
  · simp only [addOntoLast, groupIn?_congr h (i := 2) (by decide), replaced_congr h]

/-- The slots of the rules that remove. -/
theorem addresses_removeRules (scene : Scene α) :
    List.Forall₂ Rule.Addresses (removeRules scene) [[2], [2, 4], [2]] := by
  have hoption {positions : List Nat} {xs ys : Captures} (h : Captures.AgreeAt positions xs ys)
      (c : Context) : removeOption scene c xs = removeOption scene c ys := by
    funext span score parent
    rw [removeOption, removeOption, edit_congr h]
  refine .cons (.plain (fun c _ xs ys h => ?_) (by decide))
    (.cons (.plain (fun c _ xs ys h => ?_) (by decide))
    (.cons (.plain (fun c _ xs ys h => ?_) (by decide)) .nil))
  · simp only [removeItems, groupIn?_congr h (i := 2) (by decide), edit_congr h]
  · simp only [removeOptionFromTarget, spanIn?_congr h (i := 2) (by decide),
      targetsIn_congr h (i := 4) (by decide), hoption h]
  · simp only [removeOptionFromLatest, spanIn?_congr h (i := 2) (by decide), hoption h]

/-- The slots of the rules that change. -/
theorem addresses_modifyRules (scene : Scene α) :
    List.Forall₂ Rule.Addresses (modifyRules scene) [[3, 5], [3], [3, 5], [3], [3]] := by
  have hfirst {positions : List Nat} {xs ys : Captures} (h : Captures.AgreeAt positions xs ys)
      (c : Context) : modifyFirst scene c xs = modifyFirst scene c ys := by
    funext targets changes
    simp only [modifyFirst, replaced_congr h]
  refine .cons (.plain (fun c _ xs ys h => ?_) (by decide))
    (.cons (.plain (fun c _ xs ys h => ?_) (by decide))
    (.cons (.plain (fun c _ xs ys h => ?_) (by decide))
    (.cons (.plain (fun c _ xs ys h => ?_) (by decide))
    (.cons (.plain (fun c _ xs ys h => ?_) (by decide)) .nil))))
  · simp only [modifyTarget, groupIn?_congr h (i := 5) (by decide),
      targetsIn_congr h (i := 3) (by decide), hfirst h]
  · simp only [modifyLast, groupIn?_congr h (i := 3) (by decide), replaced_congr h]
  · simp only [replaceTarget, groupIn?_congr h (i := 5) (by decide),
      targetsIn_congr h (i := 3) (by decide), edit_congr h]
  · simp only [replaceInGroup, groupIn?_congr h (i := 3) (by decide), edit_congr h]
  · simp only [modifyInPlace, groupIn?_congr h (i := 3) (by decide), hfirst h]

/-- The slots that the rules of utterances look at, rule by rule. -/
theorem addresses_grammar (scene : Scene α) :
    List.Forall₂ Rule.Addresses (grammar scene).rules
      ([[2, 4], [2], [2], [2]] ++ [[2], [2, 4], [2]] ++ [[3, 5], [3], [3, 5], [3], [3]]) :=
  List.rel_append (List.rel_append (addresses_addRules scene) (addresses_removeRules scene))
    (addresses_modifyRules scene)

end Intent

end

namespace Particulars

/-- The slots that the rules of particulars look at, rule by rule. -/
theorem addresses_grammar (menu : Menu) (matrix : Option Matrix) :
    List.Forall₂ Rule.Addresses (grammar menu matrix).rules [[], [0], [0, 2, 3], [0, 2], [0]] := by
  have hslots : ∀ i ∈ [0, 2, 3], i < (attributeOptionRule menu).slots := by
    change ∀ i ∈ [0, 2, 3], i < 4
    decide
  refine .cons (.plain (fun _ _ _ _ _ => rfl) (by decide))
    (.cons (.plain (fun s used xs ys h => ?_) (by decide))
    (.cons ⟨fun s xs ys h => ?_, fun s used xs ys h => ?_, hslots⟩
    (.cons (.plain (fun s used xs ys h => ?_) (by decide))
    (.cons (.plain (fun s used xs ys h => ?_) (by decide)) .nil))))
  · simp only [recipeIn?, h.get? 0 (by decide)]
  · simp only [attributeOptionRule, attributeIn?, optionIn?, h.get? 2 (by decide),
      h.get? 3 (by decide)]
  · simp only [attributeOptionRule, attributeIn?, optionIn?, numberIn?, h.get? 0 (by decide),
      h.get? 2 (by decide), h.get? 3 (by decide)]
  · simp only [optionIn?, numberIn?, h.get? 0 (by decide), h.get? 2 (by decide)]
  · simp only [attributeIn?, h.get? 0 (by decide)]

end Particulars

/-! ## The discipline of the cursor -/

/-- Whatever the patterns, the tokens, the position and the slots filled before, an attempt by a
pattern does not fault and drops all its marks; if it fits, it appends as many slots as the pattern
has, and what these hold are the tokens that it has passed over. An attempt by a rule does not fault
and drops all its marks either; it finds that the rule fits, with as many slots as the rule has and
behind at least one token, or the cursor is where it was. So a run of any grammar does not fault,
and it does what `Grammar.process` does. The rules of utterances and of particulars look at no slots
other than their own. -/
theorem Cursor.keeps_discipline :
    (∀ (accepts : Kind → Token → Bool) (p : Pattern) (c : Cursor) (captures : Captures),
      ∃ a, p.attempt accepts c captures = .ok a ∧ a.fits = (p.read accepts c.rest).isSome ∧
        a.cursor.items = c.items ∧ a.cursor.checkpoints = c.checkpoints ∧
        (a.fits = true → ∃ more, a.captures = captures ++ more ∧ more.length = p.slots ∧
          a.cursor.position = c.position + more.filled.length ∧
          more.filled = c.rest.take (a.cursor.position - c.position))) ∧
      (∀ {C : Type} (accepts : Kind → Token → Bool) (rule : Rule C) (context : C) (c : Cursor),
        ∃ found next, rule.attempt accepts context c = .ok (found, next) ∧
          found = rule.fit? accepts context c.rest ∧
          next.items = c.items ∧ next.checkpoints = c.checkpoints ∧
          (∀ captures used, found = some (captures, used) →
            captures.length = rule.slots ∧ captures.filled = c.rest.take used ∧
            1 ≤ used ∧ next.position = c.position + used) ∧
          (found = none → next.position = c.position)) ∧
      (∀ {C : Type} (g : Grammar C) (context : C) (run : Run),
        g.run context run = .ok (g.process context run)) ∧
      (∀ {α : Type} [Score α] (scene : Scene α),
        List.Forall₂ Rule.Addresses (Intent.grammar scene).rules
          ([[2, 4], [2], [2], [2]] ++ [[2], [2, 4], [2]] ++ [[3, 5], [3], [3, 5], [3], [3]])) ∧
      ∀ (menu : Menu) (matrix : Option Matrix),
        List.Forall₂ Rule.Addresses (Particulars.grammar menu matrix).rules
          [[], [0], [0, 2, 3], [0, 2], [0]] := by
  refine ⟨fun accepts p c captures => ⟨_, p.attempt_eq c captures, ?_⟩,
    fun accepts rule context c => ⟨_, _, rule.attempt_eq context c, rfl, rfl, rfl, ?_, ?_⟩,
    Grammar.run_eq_process, Intent.addresses_grammar, Particulars.addresses_grammar⟩
  · cases hread : p.read accepts c.rest with
    | none => exact ⟨rfl, rfl, rfl, nofun⟩
    | some out =>
      obtain ⟨more, behind⟩ := out
      have htakes := Pattern.takes_of_read hread
      have hpassed : more.filled = c.rest.take more.filled.length := by
        rw [← htakes.filled, List.take_left]
      refine ⟨rfl, rfl, rfl, fun _ => ⟨more, rfl, htakes.length, rfl, ?_⟩⟩
      change more.filled = c.rest.take (c.position + more.filled.length - c.position)
      rwa [Nat.add_sub_cancel_left]
  · intro captures used hfound
    obtain ⟨taken, rest, hfits, rfl⟩ := Rule.exists_fits hfound
    have htakes := Pattern.takes_of_readInRow hfits.reads.eq_readInRow
    refine ⟨htakes.length, ?_, List.length_pos_iff.2 hfits.progress, ?_⟩
    · rw [hfits.split, List.take_left, hfits.taken_eq]
    · rw [hfound]
      rfl
  · intro hfound
    rw [hfound]
    rfl

end SpokenOrder
