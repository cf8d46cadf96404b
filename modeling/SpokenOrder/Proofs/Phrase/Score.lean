import SpokenOrder.Proofs.Particulars.Accounting
import SpokenOrder.Proofs.Phrase.Build
import SpokenOrder.Proofs.Phrase.Target
import SpokenOrder.Proofs.Run.Segment

/-!
# The scores of phrases

A phrase scores the tokens that it puts to use: the entity, and words around it. Unknown words are
not put to use, so it scores no more than it has explained tokens. What is rejected was put to use
before, and an entity is never rejected, so whatever is built or referred to scores one or more.
-/

namespace SpokenOrder

/-- A segment explains its entity and what is explained on either side. -/
theorem Segment.explained_words {segment : Segment} {pid : Pid} (h : segment.pid? = some pid) :
    segment.words.explained = segment.left.explained + 1 + segment.right.explained := by
  have hentity : segment.entity.token.isUnknown = false := by
    obtain ⟨name, hname⟩ := Segment.exists_entity_of_pid? h
    rw [hname]
    rfl
  rw [Segment.words, Run.explained_append, Run.explained_cons hentity]
  omega

namespace Menu

variable {menu : Menu}

/-! ## What is built -/

/-- A new item scores no more than its segment explains. -/
theorem score_newItem?_le {segment : Segment} {built : Scored Item}
    (h : menu.newItem? segment = some built) : built.score ≤ segment.words.explained := by
  obtain ⟨pid, matrix, said, key, hpid, -, rfl, -, -, rfl⟩ := newItem?_eq_some h
  have hused := Particulars.used_readAround_le menu (some matrix) segment.left segment.right
  rw [Segment.explained_words hpid]
  dsimp only
  omega

/-- A changed item scores no more than the words explain. -/
theorem score_modified?_le {item : Item} {words : Run} {new : Scored Item}
    (h : menu.modified? item words = some new) : new.score ≤ words.explained := by
  obtain ⟨matrix, said, key, -, rfl, -, -, -, rfl⟩ := modified?_eq_some h
  have hused := Particulars.used_readLeft_le menu (some matrix) .empty words
  have hempty : Particulars.empty.used = 0 := rfl
  dsimp only
  omega

/-- A replacement scores no more than its segment explains. -/
theorem score_replacement?_le {target : Item} {segment : Segment} {new : Scored Item}
    (h : menu.replacement? target segment = some new) :
    new.score ≤ segment.words.explained := by
  obtain ⟨pid, matrix, said, key, hpid, -, rfl, -, -, rfl⟩ := replacement?_eq_some h
  have hused := Particulars.used_readAround_le menu (some matrix) segment.left segment.right
  rw [Segment.explained_words hpid]
  dsimp only
  omega

/-- A replacement, too, rejects no more than the tokens of its parts. -/
theorem rejected_replacementChildren_le (menu : Menu) (key : Key) (old : List Item) (parts : List Part) :
    (menu.replacementChildren key old parts).2 ≤ (parts.map Part.tokens).sum := by
  unfold replacementChildren
  split
  · exact Nat.zero_le _
  · exact menu.rejected_mergeParts_le key [] parts

/-- A new item scores. -/
theorem score_newItem?_pos {segment : Segment} {built : Scored Item}
    (h : menu.newItem? segment = some built) : 0 < built.score := by
  obtain ⟨pid, matrix, said, key, -, -, hsaid, -, -, rfl⟩ := newItem?_eq_some h
  have hsaid : said.Accounted := hsaid ▸ Particulars.accounted_readAround menu _ _ _
  have hsum := hsaid.sum_tokens_le
  have hrejected := menu.rejected_mergeParts_le key [] said.parts
  dsimp only
  omega

/-- A changed item scores. -/
theorem score_modified?_pos {item : Item} {words : Run} {new : Scored Item}
    (h : menu.modified? item words = some new) : 0 < new.score := by
  obtain ⟨matrix, said, key, -, -, -, -, hscore, rfl⟩ := modified?_eq_some h
  exact Nat.pos_of_ne_zero hscore

/-- A replacement scores. -/
theorem score_replacement?_pos {target : Item} {segment : Segment} {new : Scored Item}
    (h : menu.replacement? target segment = some new) : 0 < new.score := by
  obtain ⟨pid, matrix, said, key, -, -, hsaid, -, -, rfl⟩ := replacement?_eq_some h
  have hsaid : said.Accounted := hsaid ▸ Particulars.accounted_readAround menu _ _ _
  have hsum := hsaid.sum_tokens_le
  have hrejected := menu.rejected_replacementChildren_le key target.children said.parts
  dsimp only
  omega

/-! ## What is referred to -/

/-- A reference scores. -/
theorem score_target?_pos {segment : Segment} {target : Scored Target}
    (h : menu.target? segment = some target) : 0 < target.score := by
  obtain ⟨pid, matrix, said, -, -, -, rfl⟩ := target?_eq_some h
  exact Nat.add_pos_left Nat.one_pos _

/-- The one part that words name has a token, and it was put to use. -/
theorem score_optionTarget?_pos {words : Run} {target : Scored OptionTarget}
    (h : menu.optionTarget? words = some target) : 0 < target.score := by
  obtain ⟨pid, attributes, quantity, tokens, pattern, said, hsaid, hparts, -, rfl⟩ :=
    optionTarget?_eq_some h
  have haccounted : said.Accounted := hsaid ▸ Particulars.accounted_empty.read menu none words
  have hpart : Part.option pid attributes quantity tokens ∈ said.parts :=
    hparts ▸ List.mem_singleton_self _
  have hle := List.single_le_sum (fun _ _ => Nat.zero_le _) _
    (List.mem_map_of_mem (f := Part.tokens) hpart)
  exact Nat.lt_of_lt_of_le (haccounted.tokens_pos _ hpart)
    (Nat.le_trans hle haccounted.sum_tokens_le)

/-- A reference scores no more than its segment explains. -/
theorem score_target?_le {segment : Segment} {target : Scored Target}
    (h : menu.target? segment = some target) : target.score ≤ segment.words.explained := by
  obtain ⟨pid, matrix, said, hpid, -, rfl, rfl⟩ := target?_eq_some h
  have hused := Particulars.used_readAround_le menu (some matrix) segment.left segment.right
  rw [Segment.explained_words hpid]
  dsimp only
  omega

/-- A reference to an option scores no more than its words explain. -/
theorem score_optionTarget?_le {words : Run} {target : Scored OptionTarget}
    (h : menu.optionTarget? words = some target) : target.score ≤ words.explained := by
  obtain ⟨pid, attributes, quantity, tokens, pattern, said, rfl, -, -, rfl⟩ :=
    optionTarget?_eq_some h
  have hused : (Particulars.empty.read menu none words).used ≤ 0 + words.explained :=
    Particulars.used_read_le menu none .empty words
  dsimp only
  omega

end Menu

end SpokenOrder
