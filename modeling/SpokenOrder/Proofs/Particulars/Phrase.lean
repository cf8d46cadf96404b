import SpokenOrder.Particulars.Reader
import SpokenOrder.Proofs.Grammar.Derivation

/-!
# Phrases

What some words say about an item is a sequence of phrases: words that join others, options and
recipes, attributes of the item, and words that are passed over. Where a phrase ends depends on the
words and on the menu, not on what was said before. So reading particulars is splitting the words
into phrases and taking in one after another (`Particulars.read_eq_foldl_phrases`).
-/

namespace SpokenOrder

/-- What the words at one place are read as. -/
inductive Phrase where
  /-- A word that only joins others. -/
  | conjunction
  /-- An option or a recipe. -/
  | part (part : Part)
  /-- An attribute that is not part of an option. -/
  | attribute (aid : Aid)
  /-- A word that is passed over. -/
  | other
deriving DecidableEq, Repr

/-! ## Phrases of a run -/

namespace Run

/-- The number at the front, if there is one, and the words behind it. -/
def takeNumber : Run → Option Nat × Run
  | ⟨.number value, _⟩ :: rest => (some value, rest)
  | run => (none, run)

/-- The words behind a unit at the front, if there is one. -/
def dropUnit : Run → Run
  | ⟨.unit _ _, _⟩ :: rest => rest
  | run => run

/-- Only a number is taken from the front. -/
theorem exists_append_takeNumber (run : Run) :
    ∃ number, run = number ++ run.takeNumber.2 ∧ ∀ p ∈ number, p.token.kind = .number := by
  unfold takeNumber
  split
  · exact ⟨[_], rfl, List.forall_mem_singleton.2 rfl⟩
  · exact ⟨[], rfl, nofun⟩

/-- Only a unit is dropped from the front. -/
theorem exists_append_dropUnit (run : Run) :
    ∃ unit, run = unit ++ run.dropUnit ∧ ∀ p ∈ unit, p.token.kind = .unit := by
  unfold dropUnit
  split
  · exact ⟨[_], rfl, List.forall_mem_singleton.2 rfl⟩
  · exact ⟨[], rfl, nofun⟩

end Run

namespace Menu

variable (menu : Menu)

/-- The option whose name some words begin with, with an attribute that configures it if one stands
in front of the name, and the words behind it. -/
def optionName? : Run → Option (Pid × List Aid × Run)
  | ⟨.attribute aid _, _⟩ :: ⟨.option pid _, _⟩ :: rest =>
    if (menu.matrixFor? pid).any (·.configures aid) then some (pid, [aid], rest) else none
  | ⟨.option pid _, _⟩ :: rest => some (pid, [], rest)
  | _ => none

/-- The option that some words begin with. In front of its name there may be a number and a unit. -/
def optionAt? (run : Run) : Option Part :=
  (menu.optionName? run.takeNumber.2.dropUnit).map fun (pid, attributes, rest) =>
    .option pid attributes (run.takeNumber.1.getD 1) (run.length - rest.length)

/-- The phrase that some words begin with, and the number of its tokens. -/
def phraseAt : Run → Phrase × Nat
  | [] => (.other, 1)
  | p :: rest =>
    match p.token with
    | .conjunction => (.conjunction, 1)
    | .optionRecipe rid _ => (.part (.recipe rid 1), 1)
    | token =>
      match menu.optionAt? (p :: rest) with
      | some part => (.part part, part.tokens)
      | none =>
        match token with
        | .attribute aid _ => (.attribute aid, 1)
        | _ => (.other, 1)

/-- The phrases of some words, the first `pending` of which are read already. -/
def phrasesFrom : Nat → Run → List Phrase
  | _, [] => []
  | pending + 1, _ :: rest => phrasesFrom pending rest
  | 0, p :: rest =>
    let (phrase, tokens) := menu.phraseAt (p :: rest)
    phrase :: phrasesFrom (tokens - 1) rest

/-- The phrases of some words, from left to right. -/
def phrases (run : Run) : List Phrase := menu.phrasesFrom 0 run

/-- Tokens that are still pending are passed over. -/
theorem phrasesFrom_eq_phrases_drop (pending : Nat) (run : Run) :
    menu.phrasesFrom pending run = menu.phrases (run.drop pending) := by
  induction run generalizing pending with
  | nil => rw [List.drop_nil]; rfl
  | cons p rest ih =>
    cases pending with
    | zero => rfl
    | succ pending => exact ih pending

/-- The phrases of a run are the one at its front and those behind it. -/
theorem phrases_cons (p : Placed Token) (rest : Run) :
    menu.phrases (p :: rest) = (menu.phraseAt (p :: rest)).1 ::
      menu.phrases (rest.drop ((menu.phraseAt (p :: rest)).2 - 1)) :=
  congrArg _ (menu.phrasesFrom_eq_phrases_drop _ rest)

variable {menu} {run : Run} {part : Part}

/-- The name of an option is at least one word, of attributes and the option. -/
theorem exists_words_of_optionName? {words rest : Run} {pid : Pid} {attributes : List Aid}
    (h : menu.optionName? words = some (pid, attributes, rest)) :
    ∃ name, words = name ++ rest ∧ name ≠ [] ∧
      ∀ p ∈ name, p.token.kind ∈ [Kind.attribute, .option] := by
  unfold optionName? at h
  split at h
  · split at h
    · cases h
      exact ⟨[_, _], rfl, nofun, by simp [Token.kind]⟩
    · cases h
  · cases h
    exact ⟨[_], rfl, nofun, by simp [Token.kind]⟩
  · cases h

/-- The words of an option are the first ones, and each is of a kind that names or measures one. -/
theorem exists_words_of_optionAt? (h : menu.optionAt? run = some part) :
    ∃ words rest, run = words ++ rest ∧ words.length = part.tokens ∧ 0 < part.tokens ∧
      ∀ p ∈ words, p.token.kind ∈ [Kind.number, .unit, .attribute, .option] := by
  obtain ⟨⟨pid, attributes, rest⟩, hname, rfl⟩ := Option.map_eq_some_iff.1 h
  obtain ⟨number, hnumber, hnumberKind⟩ := run.exists_append_takeNumber
  obtain ⟨unit, hunit, hunitKind⟩ := run.takeNumber.2.exists_append_dropUnit
  obtain ⟨name, hwords, hne, hnameKind⟩ := exists_words_of_optionName? hname
  have hrun : run = (number ++ unit ++ name) ++ rest := by
    rw [List.append_assoc, List.append_assoc, ← hwords, ← hunit, ← hnumber]
  have hlength := congrArg List.length hrun
  have hpos : 0 < name.length := List.length_pos_iff.2 hne
  simp only [List.length_append] at hlength
  refine ⟨number ++ unit ++ name, rest, hrun, ?_, ?_, fun p hp => ?_⟩
  · simp only [List.length_append, Part.tokens]
    omega
  · rw [Part.tokens]
    omega
  · simp only [List.mem_append] at hp
    rcases hp with (hp | hp) | hp
    · simp [hnumberKind p hp]
    · simp [hunitKind p hp]
    · have hkind := hnameKind p hp
      simp only [List.mem_cons] at hkind ⊢
      exact .inr (.inr hkind)

/-- Words that begin with an option begin with the phrase of it. -/
theorem phraseAt_of_optionAt? (h : menu.optionAt? run = some part) :
    menu.phraseAt run = (.part part, part.tokens) := by
  obtain ⟨words, rest, rfl, hlength, hpos, hkinds⟩ := exists_words_of_optionAt? h
  rcases words with _ | ⟨p, words⟩
  · rw [← hlength] at hpos
    cases hpos
  have hkind := hkinds p List.mem_cons_self
  rw [List.cons_append] at h ⊢
  rw [phraseAt]
  split
  · next htoken => simp [htoken, Token.kind] at hkind
  · next htoken => simp [htoken, Token.kind] at hkind
  · rw [h]

/-- Where an option is named, the phrase is its part. -/
theorem phrases_of_optionAt? (h : menu.optionAt? run = some part) :
    menu.phrases run = .part part :: menu.phrases (run.drop part.tokens) := by
  have hphrase := phraseAt_of_optionAt? h
  obtain ⟨-, -, -, -, hpos, -⟩ := exists_words_of_optionAt? h
  rcases run with _ | ⟨p, rest⟩
  · cases h
  obtain ⟨tokens, htokens⟩ := Nat.exists_eq_add_of_lt hpos
  rw [phrases_cons, hphrase, htokens]
  simp

end Menu

namespace Particulars

/-- Takes in what a phrase says. An attribute counts if its dimension is open. -/
def take (menu : Menu) (matrix : Option Matrix) (s : Particulars) : Phrase → Particulars
  | .conjunction => { s with used := s.used + 1 }
  | .part part => s.withPart part
  | .attribute aid =>
    match openDimension? menu matrix s aid with
    | some did =>
      { s with
        attributes := s.attributes ++ [aid]
        dimensions := s.dimensions ++ [did]
        used := s.used + 1 }
    | none => s
  | .other => s

/-! ## Rules and phrases -/

/-- When a token counts as one of a kind. -/
abbrev ofKind (kind : Kind) (token : Token) : Bool := token.kind == kind

/-- What a rule makes of the particulars at the front of some words, and the number of tokens that it
takes. -/
def effect? (s : Particulars) (run : Run) (rule : Rule Particulars) : Option (Particulars × Nat) :=
  (rule.fit? ofKind s run).map fun out =>
    ((rule.production s out.1 out.2).getD s, out.2)

variable {menu : Menu} {matrix : Option Matrix} {s : Particulars}

/-- A rule that asks for one token looks at the first one only. -/
theorem effect?_token {name : String} {kind : Kind}
    {production : Particulars → Captures → Nat → Option Particulars} (p : Placed Token)
    (rest : Run) :
    effect? s (p :: rest) (.plain name [.token kind] production) =
      if p.token.kind == kind then some ((production s [some p] 1).getD s, 1) else none := by
  cases h : p.token.kind == kind <;>
    simp [effect?, Rule.fit?, Rule.plain, Pattern.readInRow, Pattern.read, h]

/-- An optional number is read off the front. -/
theorem exists_readInRow_number (patterns : List Pattern) (run : Run) :
    ∃ slot, (∀ more, numberIn? (slot :: more) 0 = run.takeNumber.1) ∧
      Pattern.readInRow ofKind (.optional [.token .number] :: patterns) run =
        (Pattern.readInRow ofKind patterns run.takeNumber.2).map fun out =>
          (slot :: out.1, out.2) := by
  rcases run with _ | ⟨⟨token, span⟩, rest⟩
  · exact ⟨none, fun _ => rfl, by
      simp [Pattern.readInRow, Pattern.read, Pattern.slotsInRow, Pattern.slots, Run.takeNumber]⟩
  · cases token
    case number value =>
      exact ⟨some ⟨.number value, span⟩, fun _ => rfl, by
        simp [Pattern.readInRow, Pattern.read, Run.takeNumber, Token.kind]⟩
    all_goals
      exact ⟨none, fun _ => rfl, by
        simp [Pattern.readInRow, Pattern.read, Pattern.slotsInRow, Pattern.slots, Run.takeNumber,
          Token.kind]⟩

/-- An optional unit is read off the front. -/
theorem exists_readInRow_unit (patterns : List Pattern) (run : Run) :
    ∃ slot, Pattern.readInRow ofKind (.optional [.token .unit] :: patterns) run =
      (Pattern.readInRow ofKind patterns run.dropUnit).map fun out => (slot :: out.1, out.2) := by
  rcases run with _ | ⟨⟨token, span⟩, rest⟩
  · exact ⟨none, by
      simp [Pattern.readInRow, Pattern.read, Pattern.slotsInRow, Pattern.slots, Run.dropUnit]⟩
  · cases token
    case unit id name =>
      exact ⟨some ⟨.unit id name, span⟩, by
        simp [Pattern.readInRow, Pattern.read, Run.dropUnit, Token.kind]⟩
    all_goals
      exact ⟨none, by
        simp [Pattern.readInRow, Pattern.read, Pattern.slotsInRow, Pattern.slots, Run.dropUnit,
          Token.kind]⟩

/-- Taking a number and dropping a unit leaves no more tokens. -/
theorem length_dropUnit_takeNumber_le (run : Run) :
    run.takeNumber.2.dropUnit.length ≤ run.length := by
  obtain ⟨number, hnumber, -⟩ := run.exists_append_takeNumber
  obtain ⟨unit, hunit, -⟩ := run.takeNumber.2.exists_append_dropUnit
  have hlength := congrArg List.length hnumber
  have hlength' := congrArg List.length hunit
  rw [List.length_append] at hlength hlength'
  omega

/-- The two rules for options read the option that the words begin with. -/
theorem effect?_option (menu : Menu) (s : Particulars) (run : Run) :
    (effect? s run (attributeOptionRule menu)).or (effect? s run optionRule) =
      (menu.optionAt? run).map fun part => (s.withPart part, part.tokens) := by
  obtain ⟨number, hnumber, hread⟩ :=
    exists_readInRow_number [.optional [.token .unit], .token .attribute, .token .option] run
  obtain ⟨number', hnumber', hread'⟩ :=
    exists_readInRow_number [.optional [.token .unit], .token .option] run
  obtain ⟨unit, hunit⟩ :=
    exists_readInRow_unit [.token .attribute, .token .option] run.takeNumber.2
  obtain ⟨unit', hunit'⟩ := exists_readInRow_unit [.token .option] run.takeNumber.2
  have hle := length_dropUnit_takeNumber_le run
  simp only [effect?, Rule.fit?, attributeOptionRule, optionRule, Rule.plain, hread, hread', hunit,
    hunit', Menu.optionAt?]
  generalize run.takeNumber.2.dropUnit = words at hle ⊢
  clear hread hread' hunit hunit'
  rcases words with _ | ⟨⟨token, span⟩, rest⟩
  · simp [Pattern.readInRow, Pattern.read, Menu.optionName?]
  cases token
  case option pid name =>
    have hpos : 0 < run.length - rest.length := by
      rw [List.length_cons] at hle
      omega
    simp [Pattern.readInRow, Pattern.read, Token.kind, hpos, optionIn?, Captures.get?, hnumber',
      Menu.optionName?, Part.tokens]
  case «attribute» aid name =>
    rcases rest with _ | ⟨⟨token, span'⟩, rest⟩
    · simp [Pattern.readInRow, Pattern.read, Token.kind, Menu.optionName?]
    cases token
    case option pid name' =>
      have hpos : 0 < run.length - rest.length := by
        rw [List.length_cons, List.length_cons] at hle
        omega
      cases hconfigures : (menu.matrixFor? pid).any (·.configures aid) <;>
        simp [Pattern.readInRow, Pattern.read, Token.kind, hpos, optionIn?, attributeIn?,
          Captures.get?, hnumber, hconfigures, Menu.optionName?, Part.tokens]
    all_goals simp [Pattern.readInRow, Pattern.read, Token.kind, Menu.optionName?]
  all_goals simp [Pattern.readInRow, Pattern.read, Token.kind, Menu.optionName?]

/-- The first rule that fits takes in the phrase that the words begin with. -/
theorem findSome?_effect? (menu : Menu) (matrix : Option Matrix) (s : Particulars)
    (p : Placed Token) (rest : Run) :
    ((grammar menu matrix).rules.findSome? (effect? s (p :: rest))).getD (s, 1) =
      (s.take menu matrix (menu.phraseAt (p :: rest)).1, (menu.phraseAt (p :: rest)).2) := by
  have hrules : (grammar menu matrix).rules = [conjunctionRule] ++ ([recipeRule] ++
      (([attributeOptionRule menu] ++ [optionRule]) ++ [attributeRule menu matrix])) := rfl
  rw [hrules]
  simp only [List.findSome?_append, List.findSome?_singleton, effect?_option]
  rw [conjunctionRule, effect?_token, recipeRule, effect?_token, attributeRule, effect?_token]
  rcases p with ⟨token, span⟩
  cases token
  case conjunction => simp [Token.kind, Menu.phraseAt, take]
  case optionRecipe rid name => simp [Token.kind, Menu.phraseAt, take, recipeIn?, Captures.get?]
  case «attribute» aid name =>
    cases hoption : menu.optionAt? (⟨.attribute aid name, span⟩ :: rest) with
    | some part => simp [Token.kind, Menu.phraseAt, take, hoption]
    | none =>
      cases hopen : openDimension? menu matrix s aid <;>
        simp [Token.kind, Menu.phraseAt, take, hoption, attributeIn?, Captures.get?, hopen]
  all_goals
    cases hoption : menu.optionAt? (⟨_, span⟩ :: rest) <;>
      simp [Token.kind, Menu.phraseAt, take, hoption]

/-! ## Reading phrase by phrase -/

/-- The first effect of the rules is their step. -/
theorem findSome?_effect?_eq_step? (rules : List (Rule Particulars)) (s : Particulars) (run : Run) :
    rules.findSome? (effect? s run) =
      (Grammar.step? ofKind rules s run).map fun step => (step.context, step.used) := by
  rw [Grammar.step?_eq, List.map_findSome?]
  refine congrArg (List.findSome? · rules) (funext fun rule => ?_)
  rw [effect?, Function.comp, Option.map_map]
  refine congrArg (Option.map · _) (funext fun out => ?_)
  simp only [Function.comp, Grammar.stepOf]
  split
  · next h => rw [h]; rfl
  · next h => rw [h]; rfl

/-- The grammar takes the phrases of a run, one after the other. -/
theorem walk_eq_foldl_phrasesFrom (menu : Menu) (matrix : Option Matrix) (run : Run)
    (s : Particulars) (pending : Nat) :
    (Grammar.walk (Grammar.step? ofKind (grammar menu matrix).rules) s pending run).1 =
      (menu.phrasesFrom pending run).foldl (take menu matrix) s := by
  induction run generalizing s pending with
  | nil => rfl
  | cons p rest ih =>
    cases pending with
    | succ pending => exact ih s pending
    | zero =>
      have hstep := findSome?_effect? menu matrix s p rest
      rw [findSome?_effect?_eq_step?] at hstep
      rw [Grammar.walk, Menu.phrasesFrom, List.foldl_cons]
      cases h : Grammar.step? ofKind (grammar menu matrix).rules s (p :: rest) with
      | none =>
        rw [h, Option.map_none, Option.getD_none, Prod.mk.injEq] at hstep
        rw [← hstep.1, ← hstep.2]
        exact ih s 0
      | some step =>
        rw [h, Option.map_some, Option.getD_some, Prod.mk.injEq] at hstep
        rw [← hstep.1, ← hstep.2]
        exact ih step.context (step.used - 1)

/-- Reading particulars is taking in the phrases of the words one after another. -/
theorem read_eq_foldl_phrases (menu : Menu) (matrix : Option Matrix) (s : Particulars) (run : Run) :
    s.read menu matrix run = (menu.phrases run).foldl (take menu matrix) s := by
  rw [read, Grammar.process_eq_walk]
  exact walk_eq_foldl_phrasesFrom menu matrix run s 0

/-- Run lemma: what holds at the start, and is kept when a phrase is taken in, holds when all phrases
of the words are read. -/
theorem read_induction (menu : Menu) (matrix : Option Matrix) {s : Particulars}
    {P : List Phrase → Particulars → Prop} (hstart : P [] s)
    (htake : ∀ before s phrase, P before s → P (before ++ [phrase]) (s.take menu matrix phrase))
    (run : Run) : P (menu.phrases run) (s.read menu matrix run) := by
  suffices hfold : ∀ phrases before s, P before s →
      P (before ++ phrases) (phrases.foldl (take menu matrix) s) by
    rw [read_eq_foldl_phrases]
    exact hfold (menu.phrases run) [] s hstart
  intro phrases
  induction phrases with
  | nil => exact fun before s h => (List.append_nil before).symm ▸ h
  | cons phrase rest ih =>
    intro before s h
    have hrest := ih (before ++ [phrase]) (s.take menu matrix phrase) (htake before s phrase h)
    rwa [List.append_assoc, List.singleton_append] at hrest

end Particulars

end SpokenOrder
