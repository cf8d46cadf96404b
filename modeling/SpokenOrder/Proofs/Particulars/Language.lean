import Mathlib.Algebra.Ring.Nat
import SpokenOrder.Proofs.Particulars.Attributes

/-!
# The language of particulars

What may stand at the front of some words is a short table (`Particulars.front?`), and reading is
going through the words with it: what stands at the front is taken in, and where nothing fits one
word is left out (`Particulars.direct`). This direct reader knows no patterns, no slots and no rules
that are left out beforehand. Over a registry in which no attribute is in two dimensions, it takes in
at each place the phrase that stands there (`Particulars.getD_front?`), so it reads what the grammar
reads (`Particulars.read_eq_direct`). What it puts to use are exactly the words that were taken in
(`Particulars.used_directFrom`), pieces of the words that lie one behind another
(`Particulars.sublist_directFrom`).
-/

namespace SpokenOrder.Particulars

/-! ## What stands at the front -/

/-- A word that only joins others. -/
def conjunctionFront? (s : Particulars) : Run → Option (Particulars × Nat)
  | ⟨.conjunction, _⟩ :: _ => some ({ s with used := s.used + 1 }, 1)
  | _ => none

/-- The name of a recipe. -/
def recipeFront? (s : Particulars) : Run → Option (Particulars × Nat)
  | ⟨.optionRecipe rid _, _⟩ :: _ => some (s.withPart (.recipe rid 1), 1)
  | _ => none

/-- The name of an option behind an attribute that configures it. In front of both there may be a
number and a unit. -/
def attributeOptionFront? (menu : Menu) (s : Particulars) (run : Run) :
    Option (Particulars × Nat) :=
  match run.takeNumber.2.dropUnit with
  | ⟨.attribute aid _, _⟩ :: ⟨.option pid _, _⟩ :: rest =>
    if (menu.matrixFor? pid).any (·.configures aid) then
      let tokens := run.length - rest.length
      some (s.withPart (.option pid [aid] (run.takeNumber.1.getD 1) tokens), tokens)
    else none
  | _ => none

/-- The name of an option. In front of it there may be a number and a unit. -/
def optionFront? (s : Particulars) (run : Run) : Option (Particulars × Nat) :=
  match run.takeNumber.2.dropUnit with
  | ⟨.option pid _, _⟩ :: rest =>
    let tokens := run.length - rest.length
    some (s.withPart (.option pid [] (run.takeNumber.1.getD 1) tokens), tokens)
  | _ => none

/-- An attribute on a dimension of the matrix that none has been taken on. -/
def attributeFront? (matrix : Option Matrix) (s : Particulars) : Run → Option (Particulars × Nat)
  | ⟨.attribute aid _, _⟩ :: _ =>
    (matrix.bind fun m =>
      m.dimensions.find? fun d => d.contains aid && !s.dimensions.contains d.id).map fun d =>
        ({ s with
          attributes := s.attributes ++ [aid]
          dimensions := s.dimensions ++ [d.id]
          used := s.used + 1 }, 1)
  | _ => none

/-- What the words at the front make of the particulars, and how many of them that takes. -/
def front? (menu : Menu) (matrix : Option Matrix) (s : Particulars) (run : Run) :
    Option (Particulars × Nat) :=
  (s.conjunctionFront? run).or <| (s.recipeFront? run).or <| (s.attributeOptionFront? menu run).or <|
    (s.optionFront? run).or <| s.attributeFront? matrix run

/-- Reads words from left to right, the first `pending` of which are taken already: the particulars,
and the pieces of the words that were taken in. Where nothing fits, one word is left out. -/
def directFrom (menu : Menu) (matrix : Option Matrix) : Nat → Particulars → Run →
    Particulars × List Run
  | _, s, [] => (s, [])
  | pending + 1, s, _ :: rest => directFrom menu matrix pending s rest
  | 0, s, p :: rest =>
    match front? menu matrix s (p :: rest) with
    | some (next, tokens) =>
      let (last, pieces) := directFrom menu matrix (tokens - 1) next rest
      (last, (p :: rest).take tokens :: pieces)
    | none => directFrom menu matrix 0 s rest

/-- The direct reader. -/
def direct (menu : Menu) (matrix : Option Matrix) (s : Particulars) (run : Run) :
    Particulars × List Run :=
  directFrom menu matrix 0 s run

variable {menu : Menu} {matrix : Option Matrix} {s next : Particulars} {run : Run} {tokens : Nat}

/-! ## The front and the phrases -/

/-- An option at the front is the option that the words begin with. -/
theorem attributeOptionFront?_or_optionFront? (menu : Menu) (s : Particulars) (run : Run) :
    (s.attributeOptionFront? menu run).or (s.optionFront? run) =
      (menu.optionAt? run).map fun part => (s.withPart part, part.tokens) := by
  rw [attributeOptionFront?, optionFront?, Menu.optionAt?]
  generalize run.takeNumber.2.dropUnit = words
  rcases words with _ | ⟨⟨token, span⟩, rest⟩
  · rfl
  cases token
  case option pid name => rfl
  case «attribute» aid name =>
    rcases rest with _ | ⟨⟨token, span'⟩, rest⟩
    · rfl
    cases token
    case option pid name' =>
      cases hconfigures : (menu.matrixFor? pid).any (·.configures aid) <;>
        simp [Menu.optionName?, hconfigures, Part.tokens]
    all_goals rfl
  all_goals rfl

/-- What can stand in front is tried in this order: a conjunction, a recipe, an option, an
attribute. -/
theorem front?_eq (menu : Menu) (matrix : Option Matrix) (s : Particulars) (run : Run) :
    front? menu matrix s run = (s.conjunctionFront? run).or ((s.recipeFront? run).or
      (((menu.optionAt? run).map fun part => (s.withPart part, part.tokens)).or
        (s.attributeFront? matrix run))) := by
  rw [← attributeOptionFront?_or_optionFront?, Option.or_assoc]
  rfl

/-- An attribute counts at the front if its dimension is open. -/
theorem attributeFront?_eq (hr : menu.registry.WellFormed)
    (hmatrix : ∀ m ∈ matrix, m ∈ menu.registry.matrices) (s : Particulars) (aid : Aid)
    (name : String) (span : Span) (rest : Run) :
    s.attributeFront? matrix (⟨.attribute aid name, span⟩ :: rest) =
      (openDimension? menu matrix s aid).map fun did =>
        ({ s with
          attributes := s.attributes ++ [aid]
          dimensions := s.dimensions ++ [did]
          used := s.used + 1 }, 1) := by
  cases matrix with
  | none => rfl
  | some m =>
    have hdimensions := hr.mem_dimensions m (hmatrix m rfl)
    rw [attributeFront?, openDimension?, Option.bind_some, Option.any_some]
    cases hconfigures : m.configures aid with
    | false =>
      rw [Matrix.configures, List.any_eq_false] at hconfigures
      rw [List.find?_eq_none.2 fun d hd => by simp [hconfigures d hd]]
      rfl
    | true =>
      obtain ⟨d, hd, haid⟩ := List.any_eq_true.1 hconfigures
      have hother : ∀ e ∈ m.dimensions, e.contains aid = true → e = d := fun e he heaid =>
        hr.unique e (hdimensions e he) d (hdimensions d hd) aid heaid haid
      rw [hr.dimensionOf? (hdimensions d hd) haid]
      by_cases htaken : d.id ∈ s.dimensions
      · rw [List.find?_eq_none.2 fun e he => ?_]
        · simp [htaken]
        · rw [Bool.and_eq_true, not_and]
          intro heaid
          simp [hother e he heaid, htaken]
      · have hopen : (d.contains aid && !s.dimensions.contains d.id) = true := by
          simp [haid, htaken]
        cases hfind : m.dimensions.find? fun e => e.contains aid && !s.dimensions.contains e.id with
        | none => exact absurd hopen (List.find?_eq_none.1 hfind d hd)
        | some e =>
          have hfound := List.find?_some hfind
          rw [Bool.and_eq_true] at hfound
          rw [hother e (List.mem_of_find?_eq_some hfind) hfound.1]
          simp [htaken]

/-- Step lemma: what stands at the front is the phrase that the words begin with, and nothing stands
there if that phrase is left out. -/
theorem getD_front? (hr : menu.registry.WellFormed)
    (hmatrix : ∀ m ∈ matrix, m ∈ menu.registry.matrices) (s : Particulars) (p : Placed Token)
    (rest : Run) :
    (front? menu matrix s (p :: rest)).getD (s, 1) =
      (s.take menu matrix (menu.phraseAt (p :: rest)).1, (menu.phraseAt (p :: rest)).2) := by
  rw [front?_eq]
  rcases p with ⟨token, span⟩
  cases token
  case conjunction => rfl
  case optionRecipe rid name => rfl
  case «attribute» aid name =>
    cases hoption : menu.optionAt? (⟨.attribute aid name, span⟩ :: rest) with
    | some part => simp [conjunctionFront?, recipeFront?, Menu.phraseAt, take, hoption]
    | none =>
      rw [attributeFront?_eq hr hmatrix]
      cases hopen : openDimension? menu matrix s aid <;>
        simp [conjunctionFront?, recipeFront?, Menu.phraseAt, take, hoption, hopen]
  all_goals
    cases hoption : menu.optionAt? (⟨_, span⟩ :: rest) <;>
      simp [conjunctionFront?, recipeFront?, attributeFront?, Menu.phraseAt, take, hoption]

/-! ## Going through the words -/

/-- The direct reader takes the phrases of a run, one after the other. -/
theorem directFrom_eq (hr : menu.registry.WellFormed)
    (hmatrix : ∀ m ∈ matrix, m ∈ menu.registry.matrices) (run : Run) (s : Particulars)
    (pending : Nat) :
    (directFrom menu matrix pending s run).1 =
      (menu.phrasesFrom pending run).foldl (take menu matrix) s := by
  induction run generalizing s pending with
  | nil => rfl
  | cons p rest ih =>
    cases pending with
    | succ pending => exact ih s pending
    | zero =>
      have hstep := getD_front? hr hmatrix s p rest
      rw [directFrom, Menu.phrasesFrom, List.foldl_cons]
      cases hfront : front? menu matrix s (p :: rest) with
      | none =>
        rw [hfront, Option.getD_none, Prod.mk.injEq] at hstep
        rw [← hstep.1, ← hstep.2]
        exact ih s 0
      | some out =>
        rw [hfront, Option.getD_some] at hstep
        rw [hstep]
        exact ih _ _

/-- What is taken in at the front is the first tokens, and they are put to use. -/
theorem used_front? (h : front? menu matrix s run = some (next, tokens)) :
    next.used = s.used + tokens ∧ 0 < tokens ∧ tokens ≤ run.length := by
  simp only [front?_eq, Option.or_eq_some_iff] at h
  rcases h with hconjunction | ⟨-, hrecipe | ⟨-, hoption | ⟨-, hattribute⟩⟩⟩
  · unfold conjunctionFront? at hconjunction
    split at hconjunction <;> cases hconjunction
    exact ⟨rfl, Nat.one_pos, Nat.succ_pos _⟩
  · unfold recipeFront? at hrecipe
    split at hrecipe <;> cases hrecipe
    exact ⟨rfl, Nat.one_pos, Nat.succ_pos _⟩
  · obtain ⟨part, hpart, hout⟩ := Option.map_eq_some_iff.1 hoption
    cases hout
    obtain ⟨words, rest, rfl, hlength, hpos, -⟩ := Menu.exists_words_of_optionAt? hpart
    exact ⟨rfl, hpos, hlength ▸ List.length_append ▸ Nat.le_add_right _ _⟩
  · unfold attributeFront? at hattribute
    split at hattribute
    · obtain ⟨d, -, hout⟩ := Option.map_eq_some_iff.1 hattribute
      cases hout
      exact ⟨rfl, Nat.one_pos, Nat.succ_pos _⟩
    · cases hattribute

/-- What the direct reader puts to use is what it takes in. -/
theorem used_directFrom (menu : Menu) (matrix : Option Matrix) (run : Run) (s : Particulars)
    (pending : Nat) :
    (directFrom menu matrix pending s run).1.used =
      s.used + ((directFrom menu matrix pending s run).2.map List.length).sum := by
  induction run generalizing s pending with
  | nil => rfl
  | cons p rest ih =>
    cases pending with
    | succ pending => exact ih s pending
    | zero =>
      rw [directFrom]
      cases hfront : front? menu matrix s (p :: rest) with
      | none => exact ih s 0
      | some out =>
        obtain ⟨next, tokens⟩ := out
        obtain ⟨hused, -, hle⟩ := used_front? hfront
        dsimp only
        rw [ih next, hused, List.map_cons, List.sum_cons, List.length_take, Nat.min_eq_left hle,
          Nat.add_assoc]

/-- What is taken in are pieces of the words that lie one behind another. -/
theorem sublist_directFrom (menu : Menu) (matrix : Option Matrix) (run : Run) (s : Particulars)
    (pending : Nat) :
    (directFrom menu matrix pending s run).2.flatten.Sublist (run.drop pending) := by
  induction run generalizing s pending with
  | nil => rw [List.drop_nil]; exact .slnil
  | cons p rest ih =>
    cases pending with
    | succ pending => exact ih s pending
    | zero =>
      rw [directFrom, List.drop_zero]
      cases hfront : front? menu matrix s (p :: rest) with
      | none => exact (ih s 0).cons p
      | some out =>
        obtain ⟨next, tokens⟩ := out
        obtain ⟨-, hpos, -⟩ := used_front? hfront
        have hrest : rest.drop (tokens - 1) = (p :: rest).drop tokens := by
          rw [← List.drop_succ_cons, Nat.sub_add_cancel hpos]
        dsimp only
        rw [List.flatten_cons]
        conv_rhs => rw [← List.take_append_drop tokens (p :: rest)]
        exact (List.Sublist.refl _).append (hrest ▸ ih next (tokens - 1))

/-- Whatever is written on a menu, and whatever matrix of it configures the item, the grammar reads
what the direct reader does: the particulars are the same, and what is put to use besides what was
before is what the direct reader takes in, from pieces of the words that lie one behind another. -/
theorem read_eq_direct (entries : List Entry) {matrix : Option Matrix}
    (hmatrix : ∀ m ∈ matrix, ∃ mid,
      (Menu.empty.writeEach entries).registry.matrix? mid = some m) (s : Particulars) (run : Run) :
    let menu := Menu.empty.writeEach entries
    s.read menu matrix run = (s.direct menu matrix run).1 ∧
      (s.read menu matrix run).used =
        s.used + ((s.direct menu matrix run).2.map List.length).sum ∧
      (s.direct menu matrix run).2.flatten.Sublist run := by
  intro menu
  have hr : menu.registry.WellFormed := (Menu.wellFormed_empty.writeEach entries).registry
  have hregistered : ∀ m ∈ matrix, m ∈ menu.registry.matrices := fun m hm => by
    obtain ⟨mid, hmid⟩ := hmatrix m hm
    exact Registry.mem_matrices_of_matrix? hmid
  have hread : s.read menu matrix run = (s.direct menu matrix run).1 := by
    rw [read_eq_foldl_phrases]
    exact (directFrom_eq hr hregistered run s 0).symm
  exact ⟨hread, hread ▸ used_directFrom menu matrix run s 0,
    sublist_directFrom menu matrix run s 0⟩

/-- The words "and two pumps of vanilla syrup, large, with skim milk, decaf, small, skim, and three of
the works". -/
def coffeeWords : Run :=
  [.conjunction, .number 2, .unit 1 "pump", .option CoffeeShop.vanillaSyrup "vanilla syrup",
    .attribute 3 "large", .attribute 31 "skim", .option CoffeeShop.milk "milk",
    .attribute 21 "decaf", .attribute 1 "small", .attribute 31 "skim", .number 3,
    .optionRecipe 1 "the works"].zipIdx.map fun (token, i) => ⟨token, ⟨i, 1⟩⟩

/-- Around a coffee, a second size is left out, and so are the kind of milk without the milk and the
number that measures no option. -/
theorem read_eq_direct_coffee :
    let menu := Menu.empty.writeEach CoffeeShop.entries
    let matrix := menu.registry.matrix? 2
    (matrix.isSome = true ∧ ∀ m ∈ matrix, ∃ mid, menu.registry.matrix? mid = some m) ∧
      empty.read menu matrix coffeeWords =
        ⟨none, [3, 21], [1, 3],
          [.option CoffeeShop.vanillaSyrup [] 2 3, .option CoffeeShop.milk [31] 1 2, .recipe 1 1],
          9⟩ ∧
      (empty.direct menu matrix coffeeWords).2.map List.length = [1, 3, 1, 2, 1, 1] ∧
      empty.read menu matrix coffeeWords = (empty.direct menu matrix coffeeWords).1 := by
  intro menu matrix
  have hmatrix : ∀ m ∈ matrix, ∃ mid, menu.registry.matrix? mid = some m := fun m hm => ⟨2, hm⟩
  exact ⟨⟨by decide +kernel, hmatrix⟩, by decide +kernel, by decide +kernel,
    (read_eq_direct CoffeeShop.entries hmatrix empty coffeeWords).1⟩

end SpokenOrder.Particulars
