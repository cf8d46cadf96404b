import SpokenOrder.Proofs.Run.Group

/-!
# Grouping as a partition

Grouping drops the words that nothing explains and loses nothing else. What stands at a place of a
grouped run is a group, a conjunction among conjunctions, or a token that describes no item
(`Run.StandsIn`), and a group has all the tokens that describe items between two that do not
(`Run.Stretch`). With each group replaced by its run, the tokens are back (`Run.Partitions`). A token
that describes no item joins what was grouped before it and what is grouped behind it
(`Run.Partitions.join`), so a run without groups is partitioned (`Run.partitions_group`). It follows
that no two groups stand side by side (`Run.Partitions.apart`), that a grouped run stands for as many
tokens as there are explained ones (`Run.Partitions.tokenCount_eq`), and that its tokens stand in
order if those of the run do (`Run.Partitions.inOrder`).
-/

namespace SpokenOrder

/-! ## What a grouped run stands for -/

/-- The tokens that a placed token stands for: the run of a group, or the token itself. -/
def Placed.members (p : Placed Token) : Run := p.token.run?.getD [p]

/-- A group stands for the words of its run. -/
theorem Placed.members_of_run? {p : Placed Token} {words : Run} (h : p.token.run? = some words) :
    p.members = words := by rw [members, h]; rfl

/-- A token that is no group stands for itself. -/
theorem Placed.members_of_plain {p : Placed Token} (h : p.token.run? = none) : p.members = [p] := by
  rw [members, h]; rfl

/-- A token stands for as many tokens as it counts. -/
theorem Placed.length_members (p : Placed Token) : p.members.length = p.tokenCount := by
  unfold members tokenCount
  cases p.token.run? <;> rfl

namespace Run

/-- Replaces each group by its run. -/
def ungroup (run : Run) : Run := run.flatMap Placed.members

/-- The tokens that explain something. -/
def known (run : Run) : Run := run.filter (!·.token.isUnknown)

variable {run rest words before after known₁ known₂ grouped₁ grouped₂ : Run} {p q : Placed Token}

@[simp] theorem ungroup_nil : ungroup [] = [] := rfl

@[simp] theorem ungroup_cons (p : Placed Token) (rest : Run) :
    ungroup (p :: rest) = p.members ++ ungroup rest := List.flatMap_cons

@[simp] theorem ungroup_append (xs ys : Run) : ungroup (xs ++ ys) = ungroup xs ++ ungroup ys :=
  List.flatMap_append

/-- Where there is no group, there is nothing to take apart. -/
theorem ungroup_of_plain (hplain : ∀ p ∈ run, p.token.run? = none) : run.ungroup = run := by
  induction run with
  | nil => rfl
  | cons p rest ih =>
    obtain ⟨hp, hrest⟩ := List.forall_mem_cons.1 hplain
    rw [ungroup_cons, Placed.members_of_plain hp, ih hrest]
    rfl

/-- A run stands for as many tokens as it has with each group replaced by its run. -/
theorem length_ungroup (run : Run) : run.ungroup.length = run.tokenCount := by
  induction run with
  | nil => rfl
  | cons p rest ih =>
    rw [ungroup_cons, List.length_append, Placed.length_members, ih, tokenCount_cons]

@[simp] theorem known_nil : known [] = [] := rfl

/-- A token without an explanation is not among the known ones. -/
theorem known_cons_of_isUnknown (h : p.token.isUnknown = true) : known (p :: rest) = known rest :=
  List.filter_cons_of_neg (by simp [h])

/-- A token with an explanation is. -/
theorem known_cons (h : p.token.isUnknown = false) : known (p :: rest) = p :: known rest :=
  List.filter_cons_of_pos (by simp [h])

/-! ## Places in a grouped run -/

/-- Some tokens of a run describe items and stand between tokens that do not: no longer stretch of
such tokens holds them. -/
structure Stretch (run before words after : Run) : Prop where
  split : run = before ++ (words ++ after)
  describe : ∀ p ∈ words, p.token.kind.describesItem = true
  starts : ∀ p, before.getLast? = some p → p.token.kind.describesItem = false
  ends : ∀ p, after.head? = some p → p.token.kind.describesItem = false

/-- What stands behind some tokens of a grouped run and before others. `known` are the tokens that
were grouped. -/
inductive StandsIn (known before : Run) (q : Placed Token) (after : Run) : Prop
  /-- The group of a whole stretch of tokens that describe items. They are not conjunctions only, and
  the kind of the group tells how many products they name. -/
  | group {words : Run} : q.token = .parts (.of words.entityCount) words →
      words.span? = some q.span → words.isJoining = false →
      Stretch known before.ungroup words after.ungroup → StandsIn known before q after
  /-- A conjunction of a whole stretch that has nothing else. -/
  | joining {outer xs ys outer' : Run} : before = outer ++ xs → after = ys ++ outer' →
      (xs ++ q :: ys).isJoining = true →
      Stretch known outer.ungroup (xs ++ q :: ys) outer'.ungroup → StandsIn known before q after
  /-- A token that describes no item. -/
  | other : q.token.run? = none → q.token.kind.describesItem = false → StandsIn known before q after

/-- The tokens of a run, with each stretch of them that describes items folded into a group, unless
it is made of conjunctions only. -/
structure Partitions (known grouped : Run) : Prop where
  /-- With each group replaced by its run, the tokens are back. -/
  ungroup_eq : grouped.ungroup = known
  stands {before : Run} {q : Placed Token} {after : Run} :
    grouped = before ++ q :: after → StandsIn known before q after

/-- There is no group among conjunctions. -/
theorem plain_of_isJoining (h : run.isJoining = true) : ∀ p ∈ run, p.token.run? = none := by
  intro p hp
  have hkind : p.token.kind = .conjunction := eq_of_beq (List.all_eq_true.1 h p hp)
  exact Token.run?_of_describesItem (by rw [hkind]; rfl)

/-- A run that has more than conjunctions has a span. -/
theorem exists_span?_of_not_isJoining (h : run.isJoining = false) : ∃ s, run.span? = some s := by
  cases run with
  | nil => cases h
  | cons p rest => exact ⟨_, rfl⟩

/-! ## Closing a stretch -/

/-- Where a token stands in two runs with a token between them. -/
theorem exists_of_append_cons_eq
    (h : grouped₁ ++ p :: grouped₂ = before ++ q :: after) :
    (∃ ys, grouped₁ = before ++ q :: ys ∧ after = ys ++ p :: grouped₂) ∨
      (before = grouped₁ ∧ q = p ∧ after = grouped₂) ∨
      ∃ xs, before = grouped₁ ++ p :: xs ∧ grouped₂ = xs ++ q :: after := by
  rcases List.append_eq_append_iff.1 h with ⟨more, rfl, hrest⟩ | ⟨more, rfl, hrest⟩
  · rcases List.cons_eq_append_iff.1 hrest with ⟨rfl, hcons⟩ | ⟨xs, rfl, hcons⟩
    · cases hcons
      exact .inr (.inl ⟨List.append_nil _, rfl, rfl⟩)
    · exact .inr (.inr ⟨xs, rfl, hcons⟩)
  · rcases List.cons_eq_append_iff.1 hrest with ⟨rfl, hcons⟩ | ⟨ys, rfl, hcons⟩
    · cases hcons
      exact .inr (.inl ⟨(List.append_nil _).symm, rfl, rfl⟩)
    · exact .inl ⟨ys, rfl, hcons⟩

/-- A stretch ends before a token that describes no item, whatever stands behind that. -/
theorem Stretch.extend_right (h : Stretch known₁ before words after)
    (hp : p.token.kind.describesItem = false) :
    Stretch (known₁ ++ p :: known₂) before words (after ++ p :: known₂) where
  split := by rw [h.split]; simp only [List.append_assoc]
  describe := h.describe
  starts := h.starts
  ends q hq := by
    cases after with
    | nil => cases hq; exact hp
    | cons first rest => exact h.ends q hq

/-- A stretch begins behind a token that describes no item, whatever stands before that. -/
theorem Stretch.extend_left (h : Stretch known₂ before words after)
    (hp : p.token.kind.describesItem = false) :
    Stretch (known₁ ++ p :: known₂) (known₁ ++ p :: before) words after where
  split := by rw [h.split, List.append_assoc, List.cons_append]
  describe := h.describe
  starts q hq := by
    rw [List.getLast?_append_of_ne_nil _ (List.cons_ne_nil _ _), List.getLast?_cons] at hq
    cases hlast : before.getLast? with
    | none => rw [hlast] at hq; cases hq; exact hp
    | some r => rw [hlast] at hq; cases hq; exact h.starts _ hlast
  ends := h.ends

/-- A token stands where it stood if a token that describes no item is put behind the run, and
others behind that. -/
theorem StandsIn.extend_right (h : StandsIn known₁ before q after)
    (hp : p.token.kind.describesItem = false) (hplain : p.token.run? = none)
    (hungroup : grouped₂.ungroup = known₂) :
    StandsIn (known₁ ++ p :: known₂) before q (after ++ p :: grouped₂) := by
  have hbehind : ungroup (p :: grouped₂) = p :: known₂ := by
    rw [ungroup_cons, Placed.members_of_plain hplain, hungroup]
    rfl
  cases h with
  | group htoken hspan hjoining hstretch =>
    refine .group htoken hspan hjoining ?_
    rw [ungroup_append, hbehind]
    exact hstretch.extend_right hp
  | @joining outer xs ys outer' hbefore hafter hjoining hstretch =>
    have hsplit : after ++ p :: grouped₂ = ys ++ (outer' ++ p :: grouped₂) := by
      rw [hafter, List.append_assoc]
    refine .joining hbefore hsplit hjoining ?_
    rw [ungroup_append, hbehind]
    exact hstretch.extend_right hp
  | other hplain hkind => exact .other hplain hkind

/-- The same with tokens that are put before the run. -/
theorem StandsIn.extend_left (h : StandsIn known₂ before q after)
    (hp : p.token.kind.describesItem = false) (hplain : p.token.run? = none)
    (hungroup : grouped₁.ungroup = known₁) :
    StandsIn (known₁ ++ p :: known₂) (grouped₁ ++ p :: before) q after := by
  have hfront (xs : Run) : (grouped₁ ++ p :: xs).ungroup = known₁ ++ p :: xs.ungroup := by
    rw [ungroup_append, ungroup_cons, Placed.members_of_plain hplain, hungroup]
    rfl
  cases h with
  | group htoken hspan hjoining hstretch =>
    refine .group htoken hspan hjoining ?_
    rw [hfront]
    exact hstretch.extend_left hp
  | @joining outer xs ys outer' hbefore hafter hjoining hstretch =>
    have hsplit : grouped₁ ++ p :: before = (grouped₁ ++ p :: outer) ++ xs := by
      rw [hbefore, List.append_assoc, List.cons_append]
    refine .joining hsplit hafter hjoining ?_
    rw [hfront]
    exact hstretch.extend_left hp
  | other hplain hkind => exact .other hplain hkind

/-- Step lemma: a token that describes no item stands between what was grouped before it and what is
grouped behind it. -/
theorem Partitions.join (h₁ : Partitions known₁ grouped₁)
    (hp : p.token.kind.describesItem = false) (hplain : p.token.run? = none)
    (h₂ : Partitions known₂ grouped₂) :
    Partitions (known₁ ++ p :: known₂) (grouped₁ ++ p :: grouped₂) where
  ungroup_eq := by
    rw [ungroup_append, ungroup_cons, Placed.members_of_plain hplain, h₁.ungroup_eq, h₂.ungroup_eq]
    rfl
  stands hsplit := by
    rcases exists_of_append_cons_eq hsplit with ⟨ys, hleft, rfl⟩ | ⟨rfl, rfl, rfl⟩ |
      ⟨xs, rfl, hright⟩
    · exact (h₁.stands hleft).extend_right hp hplain h₂.ungroup_eq
    · exact .other hplain hp
    · exact (h₂.stands hright).extend_left hp hplain h₁.ungroup_eq

/-- A stretch without anything around it is folded. -/
theorem partitions_fold (hdescribe : ∀ p ∈ words, p.token.kind.describesItem = true) :
    Partitions words words.fold := by
  have hstretch : Stretch words [] words [] :=
    ⟨(List.append_nil _).symm, hdescribe, nofun, nofun⟩
  unfold fold
  split
  · next hjoining =>
    refine ⟨ungroup_of_plain (plain_of_isJoining hjoining), fun hsplit => ?_⟩
    exact .joining (List.nil_append _).symm (List.append_nil _).symm (hsplit ▸ hjoining)
      (hsplit ▸ hstretch)
  · next hjoining =>
    rw [Bool.not_eq_true] at hjoining
    obtain ⟨s, hs⟩ := exists_span?_of_not_isJoining hjoining
    rw [hs]
    refine ⟨List.append_nil _, fun hsplit => ?_⟩
    rcases List.singleton_eq_append_iff.1 hsplit with ⟨rfl, h⟩ | ⟨-, h⟩
    · cases h
      exact .group rfl hs hjoining hstretch
    · cases h

/-- Run lemma: whatever was collected and is left, it is partitioned. -/
theorem partitions_groupFrom {collected : Run}
    (hcollected : ∀ p ∈ collected, p.token.kind.describesItem = true)
    (hplain : ∀ p ∈ rest, p.token.run? = none) :
    Partitions (collected ++ rest.known) (groupFrom collected rest) := by
  induction rest generalizing collected with
  | nil =>
    rw [known_nil, List.append_nil]
    exact partitions_fold hcollected
  | cons p rest ih =>
    obtain ⟨hp, hrest⟩ := List.forall_mem_cons.1 hplain
    rw [groupFrom]
    split
    · next hunknown =>
      rw [known_cons_of_isUnknown hunknown]
      exact ih hcollected hrest
    · next hknown =>
      rw [known_cons (Bool.eq_false_iff.2 hknown)]
      split
      · next hdescribes =>
        rw [← List.singleton_append, ← List.append_assoc]
        exact ih (List.forall_mem_append.2 ⟨hcollected, List.forall_mem_singleton.2 hdescribes⟩)
          hrest
      · next hother =>
        exact (partitions_fold hcollected).join (Bool.eq_false_iff.2 hother) hp
          (ih (List.forall_mem_nil _) hrest)

/-- Grouping partitions the tokens that explain something. -/
theorem partitions_group (hplain : ∀ p ∈ run, p.token.run? = none) :
    Partitions run.known run.group :=
  partitions_groupFrom (List.forall_mem_nil _) hplain

/-! ## What follows for a grouped run -/

namespace Partitions

variable {known grouped : Run}

/-- What a group stands for is not nothing and describes items. -/
theorem exists_cons_of_group (h : Partitions known grouped) (hsplit : grouped = before ++ q :: after)
    (hgroup : q.token.run? = some words) :
    ∃ first more, words = first :: more ∧ first.token.kind.describesItem = true := by
  cases h.stands hsplit with
  | group htoken _ hjoining hstretch =>
    rw [htoken] at hgroup
    cases hgroup
    cases words with
    | nil => cases hjoining
    | cons first more => exact ⟨first, more, rfl, hstretch.describe first List.mem_cons_self⟩
  | joining _ _ hjoining _ =>
    have hplain := plain_of_isJoining hjoining q (List.mem_append_right _ List.mem_cons_self)
    rw [hplain] at hgroup
    cases hgroup
  | other hplain _ => rw [hplain] at hgroup; cases hgroup

/-- No two groups stand side by side: the first would have had the tokens of the second. -/
theorem apart (h : Partitions known grouped) (hsplit : grouped = before ++ p :: q :: after) :
    p.token.run? = none ∨ q.token.run? = none := by
  cases hq : q.token.run? with
  | none => exact .inr rfl
  | some words =>
    have hsecond : grouped = (before ++ [p]) ++ q :: after := by
      rw [hsplit, List.append_assoc]
      rfl
    obtain ⟨first, more, rfl, hfirst⟩ := h.exists_cons_of_group hsecond hq
    cases h.stands hsplit with
    | group _ _ _ hstretch =>
      have hends := hstretch.ends first
        (by rw [ungroup_cons, Placed.members_of_run? hq]; rfl)
      rw [hfirst] at hends
      cases hends
    | joining _ _ hjoining _ =>
      exact .inl (plain_of_isJoining hjoining p (List.mem_append_right _ List.mem_cons_self))
    | other hplain _ => exact .inl hplain

/-- A partition stands for the tokens that were grouped, each of them once. -/
theorem tokenCount_eq (h : Partitions known grouped) : grouped.tokenCount = known.length := by
  rw [← length_ungroup, h.ungroup_eq]

/-- A token of a partition has the span of what it stands for. -/
theorem span?_members (h : Partitions known grouped) (hq : q ∈ grouped) :
    q.members.span? = some q.span := by
  obtain ⟨before, after, hsplit⟩ := List.append_of_mem hq
  cases h.stands hsplit with
  | group htoken hspan _ _ =>
    rw [Placed.members, htoken]
    exact hspan
  | joining _ _ hjoining _ =>
    rw [Placed.members_of_plain
      (plain_of_isJoining hjoining q (List.mem_append_right _ List.mem_cons_self))]
    rfl
  | other hplain _ =>
    rw [Placed.members_of_plain hplain]
    rfl

end Partitions

/-! ### In order -/

/-- Each token ends before all those behind it begin. -/
def InOrder (run : Run) : Prop := run.Pairwise fun p q => p.span.stop ≤ q.span.start

instance (run : Run) : Decidable run.InOrder := inferInstanceAs (Decidable (List.Pairwise _ _))

theorem InOrder.known (h : run.InOrder) : run.known.InOrder := List.Pairwise.filter _ h

/-- One span ends before another begins if all that they cover does. -/
theorem stop_le_start_of_span? {xs ys : Run} {s t : Span} (hs : xs.span? = some s)
    (ht : ys.span? = some t) (h : ∀ x ∈ xs, ∀ y ∈ ys, x.span.stop ≤ y.span.start) :
    s.stop ≤ t.start := by
  have hxs := (within_iff_of_span? hs).1 s.within_self
  have hys := (within_iff_of_span? ht).1 t.within_self
  have hbound : ∀ y ∈ ys, y.span.Within s.stop t.stop := fun y hy =>
    ⟨((within_iff_of_span? hs).2 fun x hx => ⟨(hxs x hx).1, h x hx y hy⟩).2, (hys y hy).2⟩
  exact ((within_iff_of_span? ht).2 hbound).1

/-- The tokens of a partition are in order if those that were grouped are. -/
theorem Partitions.inOrder {known grouped : Run} (h : Partitions known grouped)
    (horder : known.InOrder) : grouped.InOrder := by
  rw [← h.ungroup_eq] at horder
  obtain ⟨-, hpairwise⟩ := List.pairwise_flatMap.1 horder
  exact hpairwise.imp_of_mem fun hp hq => stop_le_start_of_span? (h.span?_members hp)
    (h.span?_members hq)

end Run

end SpokenOrder
