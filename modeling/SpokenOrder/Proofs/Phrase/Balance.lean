import SpokenOrder.Proofs.Particulars.Acceptance
import SpokenOrder.Proofs.Phrase.Agreement
import SpokenOrder.Proofs.Phrase.Score
import SpokenOrder.Proofs.Run.Group

/-!
# Balanced scores

What is put to use around an item is no more than the words stand for, the parts that were named
have no more tokens than were put to use, and so whatever a merge rejects of them was put to use
before (`Particulars.Balanced`). Nothing is lost, then, where rejected tokens are taken off a score:
what is built or referred to scores what it gained, less the tokens of the parts that are rejected,
and that is one or more and no more than the tokens that were looked at (`Scored.Balances`). What is
not built scores nothing. This holds of all that phrases can build or refer to
(`Menu.scores_balance`).
-/

namespace SpokenOrder

/-! ## Tokens put to use -/

/-- What describes an item stands for one token. -/
theorem Run.describing_le_tokenCount (run : Run) : run.describing ≤ run.tokenCount := by
  induction run with
  | nil => exact Nat.le_refl 0
  | cons p rest ih =>
    rw [tokenCount_cons]
    cases hkind : p.token.kind.describesItem with
    | true =>
      have hone : p.tokenCount = 1 := by
        rw [Placed.tokenCount, Token.run?_of_describesItem hkind]
        rfl
      rw [describing_cons hkind]
      omega
    | false =>
      rw [describing, List.countP_cons_of_neg (by rw [hkind]; exact Bool.false_ne_true)]
      exact Nat.le_trans ih (Nat.le_add_left _ _)

namespace Menu

variable {menu : Menu}

/-- The tokens of the parts of which no candidate is accepted, when parts are offered to a parent in
turn. -/
def rejectedTokens (menu : Menu) (parent : Key) (parts : List Part) : Nat :=
  let shares := menu.acceptances parent (menu.composition.admission parent) parts
  ((shares.filter (·.2.isEmpty)).map (·.1.tokens)).sum

/-- A merge rejects these, whatever the children. -/
theorem snd_mergeParts (menu : Menu) (parent : Key) (children : List Item) (parts : List Part) :
    (menu.mergeParts parent children parts).2 = menu.rejectedTokens parent parts := by
  have hmerge := (menu.foldl_offerPart_eq parent
    ⟨children, menu.composition.admission parent, 0⟩ parts).2
  rw [Nat.zero_add] at hmerge
  exact hmerge

/-- So does a replacement, which has nothing to reject where no part was named. -/
theorem snd_replacementChildren (menu : Menu) (key : Key) (old : List Item) (parts : List Part) :
    (menu.replacementChildren key old parts).2 = menu.rejectedTokens key parts := by
  unfold replacementChildren
  split
  · next hnone => rw [List.isEmpty_iff.1 hnone]; rfl
  · exact menu.snd_mergeParts key [] parts

end Menu

/-- The parts that were named have no more tokens than were put to use, these are no more than the
words stand for, and no parent rejects more than was put to use. -/
structure Particulars.Balanced (menu : Menu) (s : Particulars) (available : Nat) : Prop where
  sum_tokens_le : (s.parts.map Part.tokens).sum ≤ s.used
  used_le : s.used ≤ available
  rejected_le (parent : Key) (children : List Item) :
    (menu.mergeParts parent children s.parts).2 ≤ s.used

namespace Particulars

variable (menu : Menu) (matrix : Option Matrix)

/-- Where the parts are accounted for, all is balanced as soon as no more was used than was
available. -/
theorem Accounted.balanced {s : Particulars} {available : Nat} (h : s.Accounted)
    (hused : s.used ≤ available) : s.Balanced menu available where
  sum_tokens_le := h.sum_tokens_le
  used_le := hused
  rejected_le parent children :=
    Nat.le_trans (menu.rejected_mergeParts_le parent children s.parts) h.sum_tokens_le

/-- What is read from some words is balanced by them. -/
theorem balanced_read (words : Run) :
    (empty.read menu matrix words).Balanced menu words.tokenCount := by
  have hused : (empty.read menu matrix words).used ≤ 0 + words.describing :=
    used_read_le_describing menu matrix empty words
  have hcount := words.describing_le_tokenCount
  exact (accounted_empty.read menu matrix words).balanced menu (by omega)

/-- So is what is read from the left of an item. -/
theorem balanced_readLeft (words : Run) :
    (empty.readLeft menu matrix words).Balanced menu words.tokenCount := by
  have hused : (empty.readLeft menu matrix words).used ≤ 0 + words.describing :=
    used_readLeft_le_describing menu matrix empty words
  have hcount := words.describing_le_tokenCount
  exact (accounted_empty.readLeft menu matrix words).balanced menu (by omega)

/-- What is read around an item is balanced by the words on both sides. -/
theorem balanced_readAround (left right : Run) :
    (readAround menu matrix left right).Balanced menu (left.tokenCount + right.tokenCount) := by
  have hused := used_readAround_le_describing menu matrix left right
  have hleft := left.describing_le_tokenCount
  have hright := right.describing_le_tokenCount
  exact (accounted_readAround menu matrix left right).balanced menu (by omega)

end Particulars

/-! ## Scores -/

namespace Scored

variable {β : Type}

/-- The score of what was built, if anything was. -/
def scoreOf (built : Option (Scored β)) : Nat := (built.map (·.score)).getD 0

/-- Nothing was built and scores nothing, or what was built was read from so many tokens and scores
one or more and no more than these: what was gained, less what was rejected. Nothing is rejected that
was not gained. -/
structure Balances (built : Option (Scored β)) (tokens gained : Nat) (rejected : β → Nat) :
    Prop where
  absent_iff : built = none ↔ scoreOf built = 0
  tokenCount : ∀ s ∈ built, s.tokenCount = tokens
  pos : ∀ s ∈ built, 1 ≤ s.score
  le : ∀ s ∈ built, s.score ≤ s.tokenCount
  rejected_le : ∀ s ∈ built, rejected s.value ≤ gained
  score : ∀ s ∈ built, s.score = gained - rejected s.value

/-- It is enough that the score is one or more, and that what was gained is there to be taken off and
is no more than the tokens. -/
theorem balances_of_forall {built : Option (Scored β)} {tokens gained : Nat} {rejected : β → Nat}
    (hgained : gained ≤ tokens) (h : ∀ s ∈ built, s.tokenCount = tokens ∧ 1 ≤ s.score ∧
      rejected s.value ≤ gained ∧ s.score = gained - rejected s.value) :
    Balances built tokens gained rejected where
  absent_iff := by
    cases built with
    | none => exact ⟨fun _ => rfl, fun _ => rfl⟩
    | some s =>
      obtain ⟨-, hpos, -⟩ := h s rfl
      exact ⟨nofun, fun hzero => absurd hpos (by rw [show s.score = 0 from hzero]; omega)⟩
  tokenCount s hs := (h s hs).1
  pos s hs := (h s hs).2.1
  le s hs := by
    obtain ⟨htokens, -, -, hscore⟩ := h s hs
    omega
  rejected_le s hs := (h s hs).2.2.1
  score s hs := (h s hs).2.2.2

end Scored

namespace Menu

variable (menu : Menu)

/-- What a segment says is balanced by the words around its entity. -/
theorem balanced_said (segment : Segment) :
    (menu.said segment).Balanced menu (segment.left.tokenCount + segment.right.tokenCount) :=
  Particulars.balanced_readAround menu _ segment.left segment.right

/-- The entity of a segment and what is put to use around it are no more tokens than the segment
has. -/
theorem one_add_used_said_le (segment : Segment) :
    1 + (menu.said segment).used ≤ segment.tokenCount := by
  have hused := (menu.balanced_said segment).used_le
  rw [Segment.tokenCount]
  omega

/-- No product rejects more than was put to use. -/
theorem rejectedTokens_said_le (segment : Segment) (key : Key) :
    menu.rejectedTokens key (menu.said segment).parts ≤ (menu.said segment).used :=
  menu.snd_mergeParts key [] _ ▸ (menu.balanced_said segment).rejected_le key []

/-- A new item balances the tokens of its segment. -/
theorem balances_newItem? (segment : Segment) :
    Scored.Balances (menu.newItem? segment) segment.tokenCount (1 + (menu.said segment).used)
      fun item => menu.rejectedTokens item.key (menu.said segment).parts := by
  refine Scored.balances_of_forall (menu.one_add_used_said_le segment) fun built hbuilt => ?_
  have hpos := score_newItem?_pos hbuilt
  obtain ⟨pid, matrix, said, key, hpid, hmatrix, hsaid, -, -, rfl⟩ := newItem?_eq_some hbuilt
  obtain rfl := hsaid.trans (said_eq hpid hmatrix).symm
  exact ⟨rfl, hpos, Nat.le_add_left_of_le (menu.rejectedTokens_said_le segment key),
    by rw [← menu.snd_mergeParts key []]⟩

/-- So does a replacement. -/
theorem balances_replacement? (target : Item) (segment : Segment) :
    Scored.Balances (menu.replacement? target segment) segment.tokenCount
      (1 + (menu.said segment).used)
      fun item => menu.rejectedTokens item.key (menu.said segment).parts := by
  refine Scored.balances_of_forall (menu.one_add_used_said_le segment) fun new hnew => ?_
  have hpos := score_replacement?_pos hnew
  obtain ⟨pid, matrix, said, key, hpid, hmatrix, hsaid, -, -, rfl⟩ := replacement?_eq_some hnew
  obtain rfl := hsaid.trans (said_eq hpid hmatrix).symm
  exact ⟨rfl, hpos, Nat.le_add_left_of_le (menu.rejectedTokens_said_le segment key),
    by rw [← menu.snd_replacementChildren key target.children]⟩

/-- So does a reference, which has nothing to reject. -/
theorem balances_target? (segment : Segment) :
    Scored.Balances (menu.target? segment) segment.tokenCount (1 + (menu.said segment).used)
      fun _ => 0 := by
  refine Scored.balances_of_forall (menu.one_add_used_said_le segment) fun target htarget => ?_
  have hpos := score_target?_pos htarget
  obtain ⟨pid, matrix, said, hpid, hmatrix, hsaid, rfl⟩ := target?_eq_some htarget
  obtain rfl := hsaid.trans (said_eq hpid hmatrix).symm
  exact ⟨rfl, hpos, Nat.zero_le _, rfl⟩

/-- A changed item balances the words that change it. -/
theorem balances_modified? (item : Item) (words : Run) :
    let said := Particulars.empty.readLeft menu (menu.matrixFor? item.key.pid) words
    Scored.Balances (menu.modified? item words) words.tokenCount said.used
      fun new => menu.rejectedTokens new.key said.parts := by
  intro said
  have hbalanced := Particulars.balanced_readLeft menu (menu.matrixFor? item.key.pid) words
  refine Scored.balances_of_forall hbalanced.used_le fun new hnew => ?_
  have hpos := score_modified?_pos hnew
  obtain ⟨matrix, read, key, hmatrix, hread, -, -, -, rfl⟩ := modified?_eq_some hnew
  obtain rfl : read = said := by rw [hread, ← hmatrix]
  exact ⟨rfl, hpos, menu.snd_mergeParts key [] said.parts ▸ hbalanced.rejected_le key [],
    by rw [← menu.snd_mergeParts key item.children]⟩

/-- A reference to an option balances its words. -/
theorem balances_optionTarget? (words : Run) :
    Scored.Balances (menu.optionTarget? words) words.tokenCount
      (Particulars.empty.read menu none words).used fun _ => 0 := by
  refine Scored.balances_of_forall (Particulars.balanced_read menu none words).used_le
    fun target htarget => ?_
  have hpos := score_optionTarget?_pos htarget
  obtain ⟨pid, attributes, quantity, tokens, pattern, said, rfl, -, -, rfl⟩ :=
    optionTarget?_eq_some htarget
  exact ⟨rfl, hpos, Nat.zero_le _, rfl⟩

/-- Whatever is read around an item or by itself is balanced. What phrases build or refer to, if
anything, scores what is put to use, with one for the entity where there is one, less the tokens of
the parts that are rejected in every way. So it scores one or more, and no more than the tokens that
were looked at. What is absent scores nothing. -/
theorem scores_balance (segment : Segment) (words : Run) (item : Item) :
    let said := menu.said segment
    let changes := Particulars.empty.readLeft menu (menu.matrixFor? item.key.pid) words
    (∀ matrix left right, (Particulars.readAround menu matrix left right).Balanced menu
        (left.tokenCount + right.tokenCount)) ∧
      (∀ matrix, (Particulars.empty.readLeft menu matrix words).Balanced menu words.tokenCount) ∧
      (∀ matrix, (Particulars.empty.read menu matrix words).Balanced menu words.tokenCount) ∧
      Scored.Balances (menu.newItem? segment) segment.tokenCount (1 + said.used)
        (fun new => menu.rejectedTokens new.key said.parts) ∧
      Scored.Balances (menu.replacement? item segment) segment.tokenCount (1 + said.used)
        (fun new => menu.rejectedTokens new.key said.parts) ∧
      Scored.Balances (menu.target? segment) segment.tokenCount (1 + said.used) (fun _ => 0) ∧
      Scored.Balances (menu.modified? item words) words.tokenCount changes.used
        (fun new => menu.rejectedTokens new.key changes.parts) ∧
      Scored.Balances (menu.optionTarget? words) words.tokenCount
        (Particulars.empty.read menu none words).used (fun _ => 0) :=
  ⟨Particulars.balanced_readAround menu,
    fun matrix => Particulars.balanced_readLeft menu matrix words,
    fun matrix => Particulars.balanced_read menu matrix words,
    menu.balances_newItem? segment, menu.balances_replacement? item segment,
    menu.balances_target? segment, menu.balances_modified? item words,
    menu.balances_optionTarget? words⟩

/-- Of "coffee milk and half and half" four tokens are put to use, and the last is taken off again:
one of the two excludes the other. -/
example : ((CoffeeShop.menu.newItem?
    ⟨[], ⟨.entity CoffeeShop.coffee "coffee", ⟨0, 1⟩⟩,
      [⟨.option CoffeeShop.milk "milk", ⟨1, 1⟩⟩, ⟨.conjunction, ⟨2, 1⟩⟩,
        ⟨.option CoffeeShop.halfAndHalf "half and half", ⟨3, 3⟩⟩]⟩).map fun s =>
      (s.score, s.tokenCount)) = some (3, 4) := by decide +kernel

end Menu

end SpokenOrder
