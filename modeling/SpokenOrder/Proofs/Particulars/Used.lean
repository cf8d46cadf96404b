import SpokenOrder.Particulars.Reader
import SpokenOrder.Proofs.Grammar.Captures

/-!
# How many tokens are put to use

Each token around an item is put to use once at most: by the rule that takes it, as a quantity, or
as a conjunction at the front. Only tokens that describe items are put to use
(`Particulars.used_readLeft_le_describing`, `Particulars.used_readAround_le_describing`), and so no
more than are explained (`Particulars.used_readLeft_le`, `Particulars.used_readAround_le`). Where all
words are unknown, nothing is said (`Particulars.readAround_of_isUnknown`).
-/

namespace SpokenOrder

/-! ## Explained tokens -/

namespace Run

/-- The number of tokens that explain their words. -/
def explained (run : Run) : Nat := run.countP fun p => !p.token.isUnknown

variable {run : Run} {p : Placed Token}

theorem explained_le_length (run : Run) : run.explained ≤ run.length := List.countP_le_length

@[simp] theorem explained_append (xs ys : Run) :
    explained (xs ++ ys) = explained xs + explained ys := List.countP_append

/-- A token that is known is explained. -/
theorem explained_cons (h : p.token.isUnknown = false) (rest : Run) :
    explained (p :: rest) = explained rest + 1 :=
  List.countP_cons_of_pos (by rw [h]; rfl)

/-- The number of tokens that can describe an item. -/
def describing (run : Run) : Nat := run.countP (·.token.kind.describesItem)

/-- The describing tokens of two runs add up. -/
theorem describing_append (xs ys : Run) :
    describing (xs ++ ys) = describing xs + describing ys := List.countP_append

/-- A token that describes an item counts. -/
theorem describing_cons (h : p.token.kind.describesItem = true) (rest : Run) :
    describing (p :: rest) = describing rest + 1 := List.countP_cons_of_pos h

/-- Where all tokens describe an item, each counts. -/
theorem describing_eq_length (h : ∀ p ∈ run, p.token.kind.describesItem = true) :
    run.describing = run.length := List.countP_eq_length.2 h

/-- The describing tokens are counted one by one. -/
theorem sum_map_describing (run : Run) :
    (run.map fun p => describing [p]).sum = run.describing := by
  induction run with
  | nil => rfl
  | cons p rest ih =>
    rw [List.map_cons, List.sum_cons, ih, ← describing_append, List.singleton_append]

end Run

/-- What describes an item is known. -/
theorem Token.isUnknown_of_describesItem {t : Token} (h : t.kind.describesItem = true) :
    t.isUnknown = false := by
  cases t <;> first | rfl | cases h

/-- What describes an item explains its words. -/
theorem Run.describing_le_explained (run : Run) : run.describing ≤ run.explained :=
  List.countP_mono_left fun p _ hp => by rw [Token.isUnknown_of_describesItem hp]; rfl

namespace Particulars

variable {menu : Menu} {matrix : Option Matrix} {s next : Particulars} {used : Nat}

/-! ## The front of the words -/

/-- A conjunction at the front is put to use and says nothing. -/
theorem skipConjunction_eq_or (s : Particulars) (run : Run) :
    (s.skipConjunction run).1 = s ∨
      (s.skipConjunction run).1 = { s with used := s.used + 1 } := by
  cases run with
  | nil => exact .inl rfl
  | cons p rest =>
    rw [skipConjunction]
    split
    · exact .inr rfl
    · exact .inl rfl

/-- A quantity at the front is one of the words. -/
theorem readQuantity_eq_or (s : Particulars) (run : Run) :
    (s.readQuantity run).1 = s ∨ ∃ p ∈ run, ∃ value, quantityOf? p.token = some value ∧
      (s.readQuantity run).1 = { s with quantity := some value, used := s.used + 1 } := by
  cases run with
  | nil => exact .inl rfl
  | cons p rest =>
    rw [readQuantity]
    split
    · next value hvalue =>
      split
      · exact .inl rfl
      · exact .inr ⟨p, List.mem_cons_self, value, hvalue, rfl⟩
    · exact .inl rfl

/-! ## Rules -/

/-- What a rule adds to the particulars: all tokens that it takes are put to use, and they may name a
part. -/
structure Gains (s next : Particulars) (used : Nat) : Prop where
  used_eq : next.used = s.used + used
  parts : next.parts = s.parts ∨ ∃ part : Part, part.tokens = used ∧ next.parts = s.parts ++ [part]

/-- A rule adds no more than the tokens that it uses, and one part at most. -/
theorem gains_of_production {rule : Rule Particulars} {captures : Captures}
    (hrule : rule ∈ (grammar menu matrix).rules)
    (h : rule.production s captures used = some next) : s.Gains next used := by
  simp only [grammar, Grammar.ofRules, List.mem_cons, List.not_mem_nil, or_false] at hrule
  rcases hrule with rfl | rfl | rfl | rfl | rfl
  case inl =>
    cases h
    exact ⟨rfl, .inl rfl⟩
  case inr.inl =>
    obtain ⟨rid, -, rfl⟩ := Option.map_eq_some_iff.1 h
    exact ⟨rfl, .inr ⟨_, rfl, rfl⟩⟩
  case inr.inr.inl =>
    unfold attributeOptionRule at h
    dsimp only at h
    split at h
    · cases h
      exact ⟨rfl, .inr ⟨_, rfl, rfl⟩⟩
    · cases h
  case inr.inr.inr.inl =>
    obtain ⟨pid, -, rfl⟩ := Option.map_eq_some_iff.1 h
    exact ⟨rfl, .inr ⟨_, rfl, rfl⟩⟩
  case inr.inr.inr.inr =>
    unfold attributeRule Rule.plain at h
    dsimp only at h
    split at h
    · cases h
    · obtain ⟨did, -, rfl⟩ := Option.map_eq_some_iff.1 h
      exact ⟨rfl, .inl rfl⟩

/-- The rules ask only for what describes an item. -/
theorem describesItem_of_mem_kinds {rule : Rule Particulars} {kind : Kind}
    (hrule : rule ∈ (grammar menu matrix).rules) (hkind : kind ∈ Pattern.kindsInRow rule.pattern) :
    kind.describesItem = true := by
  simp only [grammar, Grammar.ofRules, List.mem_cons, List.not_mem_nil, or_false] at hrule
  rcases hrule with rfl | rfl | rfl | rfl | rfl <;>
    simp only [conjunctionRule, recipeRule, attributeOptionRule, optionRule, attributeRule,
      Rule.plain, Pattern.kindsInRow, Pattern.kinds, List.append_nil, List.cons_append,
      List.nil_append, List.mem_cons, List.not_mem_nil, or_false] at hkind <;>
    rcases hkind with rfl | rfl | rfl | rfl <;> rfl

/-- So a rule that fits takes only tokens that describe items. -/
theorem describesItem_of_mem_taken {rule : Rule Particulars} {run taken rest : Run}
    {captures : Captures} (hrule : rule ∈ (grammar menu matrix).rules)
    (hfits : rule.Fits (grammar menu matrix).accepts s run captures taken rest) :
    ∀ p ∈ taken, p.token.kind.describesItem = true := by
  intro p hp
  rw [hfits.taken_eq] at hp
  obtain ⟨kind, hkind, hacc⟩ :=
    (Pattern.takes_of_readInRow hfits.reads.eq_readInRow).exists_kind p hp
  have hkind' : p.token.kind = kind := eq_of_beq hacc
  rw [hkind']
  exact describesItem_of_mem_kinds hrule hkind

/-! ## Tokens put to use -/

/-- Reading puts no more tokens to use than describe an item. -/
theorem used_read_le_describing (menu : Menu) (matrix : Option Matrix) (s : Particulars)
    (run : Run) : (s.read menu matrix run).used ≤ s.used + run.describing := by
  rw [← Run.sum_map_describing]
  refine ((grammar menu matrix).runs_process s run).measure_le (P := fun _ => True)
    (fun rule hrule _ c run captures taken rest next hfits _ hprod => ?_) fun _ _ => trivial
  rw [Run.sum_map_describing, Run.describing_eq_length (describesItem_of_mem_taken hrule hfits)]
  exact Nat.le_of_eq (gains_of_production hrule hprod).used_eq

/-- A skipped conjunction is one token that is put to use. -/
theorem used_skipConjunction (s : Particulars) (run : Run) :
    (s.skipConjunction run).1.used + (s.skipConjunction run).2.describing =
      s.used + run.describing := by
  cases run with
  | nil => rfl
  | cons p rest =>
    rw [skipConjunction]
    split
    · next hkind =>
      have hdescribes : p.token.kind.describesItem = true := by
        rw [eq_of_beq hkind]
        rfl
      rw [Run.describing_cons hdescribes, Nat.add_assoc, Nat.add_comm 1]
    · rfl

/-- What has a quantity describes an item. -/
theorem describesItem_of_quantityOf? {t : Token} {value : Nat} (h : quantityOf? t = some value) :
    t.kind.describesItem = true := by
  cases t <;> first | rfl | cases h

/-- A quantity that is read is one token that is put to use. -/
theorem used_readQuantity (s : Particulars) (run : Run) :
    (s.readQuantity run).1.used + (s.readQuantity run).2.describing =
      s.used + run.describing := by
  cases run with
  | nil => rfl
  | cons p rest =>
    rw [readQuantity]
    split
    · next hvalue =>
      split
      · rfl
      · rw [Run.describing_cons (describesItem_of_quantityOf? hvalue), Nat.add_assoc,
          Nat.add_comm 1]
    · rfl

/-- Of the words to the left of an item, each that describes one is put to use once at most. -/
theorem used_readLeft_le_describing (menu : Menu) (matrix : Option Matrix) (s : Particulars)
    (run : Run) : (s.readLeft menu matrix run).used ≤ s.used + run.describing := by
  rw [← used_skipConjunction, ← used_readQuantity]
  exact used_read_le_describing menu matrix _ _

/-- Of the words around an item, each that describes one is put to use once at most. -/
theorem used_readAround_le_describing (menu : Menu) (matrix : Option Matrix) (left right : Run) :
    (readAround menu matrix left right).used ≤ left.describing + right.describing := by
  have hleft : (empty.readLeft menu matrix left).used ≤ 0 + left.describing :=
    used_readLeft_le_describing menu matrix empty left
  have hright := used_read_le_describing menu matrix (empty.readLeft menu matrix left) right
  rw [readAround]
  omega

/-- Reading puts no more tokens to use than are explained. -/
theorem used_read_le (menu : Menu) (matrix : Option Matrix) (s : Particulars) (run : Run) :
    (s.read menu matrix run).used ≤ s.used + run.explained :=
  Nat.le_trans (used_read_le_describing menu matrix s run)
    (Nat.add_le_add_left run.describing_le_explained _)

/-- No more of the words to the left of an item are put to use than are explained. -/
theorem used_readLeft_le (menu : Menu) (matrix : Option Matrix) (s : Particulars) (run : Run) :
    (s.readLeft menu matrix run).used ≤ s.used + run.explained :=
  Nat.le_trans (used_readLeft_le_describing menu matrix s run)
    (Nat.add_le_add_left run.describing_le_explained _)

/-- No more of the words around an item are put to use than are explained. -/
theorem used_readAround_le (menu : Menu) (matrix : Option Matrix) (left right : Run) :
    (readAround menu matrix left right).used ≤ left.explained + right.explained :=
  Nat.le_trans (used_readAround_le_describing menu matrix left right)
    (Nat.add_le_add left.describing_le_explained right.describing_le_explained)

/-! ## Unknown words -/

/-- Unknown words say nothing. -/
theorem read_of_isUnknown {run : Run} (h : ∀ p ∈ run, p.token.isUnknown = true) :
    s.read menu matrix run = s := by
  have hruns : (grammar menu matrix).Runs s run s [] := by
    refine Grammar.runs_of_no_fit fun rule hrule part hpart captures taken rest hfits => ?_
    obtain ⟨p, taken', rfl⟩ := List.exists_cons_of_ne_nil hfits.progress
    have hknown := Token.isUnknown_of_describesItem
      (describesItem_of_mem_taken hrule hfits p List.mem_cons_self)
    have hmem : p ∈ run := hpart.subset (hfits.split ▸ List.mem_cons_self)
    rw [h p hmem] at hknown
    cases hknown
  rw [read, (Grammar.runs_iff_process _ _ _ _ _).1 hruns]

/-- Words that nothing explains say nothing to the left. -/
theorem readLeft_of_isUnknown {run : Run} (h : ∀ p ∈ run, p.token.isUnknown = true) :
    s.readLeft menu matrix run = s := by
  have hskip : s.skipConjunction run = (s, run) := by
    cases run with
    | nil => rfl
    | cons p rest =>
      have hkind : p.token.kind = .unknown := eq_of_beq (h p List.mem_cons_self)
      simp [skipConjunction, hkind]
  have hquantity : s.readQuantity run = (s, run) := by
    cases run with
    | nil => rfl
    | cons p rest =>
      have hunknown := h p List.mem_cons_self
      rw [readQuantity]
      split
      · next hvalue =>
        rw [Token.isUnknown_of_describesItem (describesItem_of_quantityOf? hvalue)] at hunknown
        cases hunknown
      · rfl
  rw [readLeft, hskip]
  simp only [hquantity]
  exact read_of_isUnknown h

/-- Words that nothing explains say nothing around an entity. -/
theorem readAround_of_isUnknown {left right : Run} (hleft : ∀ p ∈ left, p.token.isUnknown = true)
    (hright : ∀ p ∈ right, p.token.isUnknown = true) :
    readAround menu matrix left right = empty := by
  rw [readAround, readLeft_of_isUnknown hleft, read_of_isUnknown hright]

end Particulars

end SpokenOrder
