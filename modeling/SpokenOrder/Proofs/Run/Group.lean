import SpokenOrder.Grouping
import SpokenOrder.Proofs.Run.Span

/-!
# What grouping does to the count of words

A mark of intent counts one, however many words it is read from; any other token counts its words
(`Placed.reach`). A group covers the words of its tokens and the unexplained words between them. So a
grouped run stands where the run stood (`Run.between_group`), its tokens are sound (`Placed.Sound`),
and it counts no word that the run did not count (`Run.reach_group_le`).
-/

namespace SpokenOrder

/-- The kinds that say what to do with an item. -/
def Kind.marksIntent : Kind → Bool
  | .addToOrder | .removeItem | .modifyItem | .prologue | .preposition => true
  | _ => false

namespace Token

variable {t : Token}

/-- What describes an item is no mark of intent. -/
theorem marksIntent_of_describesItem (h : t.kind.describesItem = true) :
    t.kind.marksIntent = false := by
  cases t <;> first | rfl | cases h

/-- What describes an item is no group. -/
theorem run?_of_describesItem (h : t.kind.describesItem = true) : t.run? = none := by
  cases t <;> first | rfl | cases h

/-- What is unexplained is no mark of intent. -/
theorem marksIntent_of_isUnknown (h : t.isUnknown = true) : t.kind.marksIntent = false := by
  cases t <;> first | rfl | cases h

/-- A group is no mark of intent. -/
theorem marksIntent_of_run? (h : t.run?.isSome = true) : t.kind.marksIntent = false := by
  cases t <;> first | rfl | cases h

end Token

namespace Placed

variable {T : Tally} {p : Placed Token}

/-- What a token counts: one for a mark of intent, its words for any other. -/
def reach (T : Tally) (p : Placed Token) : Nat :=
  if p.token.kind.marksIntent then 1 else T.size p.span

/-- A token that is no mark of intent counts its words. -/
theorem reach_of_not_marksIntent (h : p.token.kind.marksIntent = false) :
    p.reach T = T.size p.span := by
  rw [reach, h]
  rfl

/-- No token counts more than its words. -/
theorem reach_le (h : T.Counts p.span) : p.reach T ≤ T.size p.span := by
  unfold reach
  split
  · exact h.pos
  · exact Nat.le_refl _

/-- Each token counts. -/
theorem reach_pos (h : T.Counts p.span) : 0 < p.reach T := by
  unfold reach
  split
  · exact Nat.one_pos
  · exact h.pos

/-- The words of the token count, and the tokens of a group stand in order inside its span. -/
structure Sound (T : Tally) (p : Placed Token) : Prop where
  counts : T.Counts p.span
  between {run : Run} : p.token.run? = some run → Run.Between T p.span.start run p.span.stop

/-- What is no group is sound if its words count. -/
theorem sound_of_counts (hcounts : T.Counts p.span) (hplain : p.token.run? = none) : p.Sound T :=
  ⟨hcounts, fun hrun => by rw [hplain] at hrun; cases hrun⟩

end Placed

namespace Run

variable {T : Tally} {run collected rest : Run} {lo mid hi : Nat}

/-! ## What a run counts -/

/-- What the tokens of a run count together. -/
def reach (T : Tally) (run : Run) : Nat := (run.map (Placed.reach T)).sum

@[simp] theorem reach_nil : reach T [] = 0 := rfl

@[simp] theorem reach_cons (p : Placed Token) (rest : Run) :
    reach T (p :: rest) = p.reach T + reach T rest := by simp [reach]

@[simp] theorem reach_append (xs ys : Run) : reach T (xs ++ ys) = reach T xs + reach T ys := by
  simp [reach]

/-- Tokens between two positions count no more than the words there. -/
theorem Between.reach_le (h : Between T lo run hi) : run.reach T ≤ T.count lo hi :=
  Nat.le_trans (List.sum_le_sum fun _ hp => Placed.reach_le (h.counts hp)) h.sum_size_le

@[simp] theorem tokenCount_nil : tokenCount [] = 0 := rfl

@[simp] theorem tokenCount_cons (p : Placed Token) (rest : Run) :
    tokenCount (p :: rest) = p.tokenCount + tokenCount rest := rfl

/-- The tokens of a run add up. -/
theorem sum_map_tokenCount (run : Run) : (run.map Placed.tokenCount).sum = run.tokenCount := by
  induction run with
  | nil => rfl
  | cons p rest ih => rw [List.map_cons, List.sum_cons, ih, tokenCount_cons]

/-- Two runs in a row have the tokens of both. -/
theorem tokenCount_append (xs ys : Run) : tokenCount (xs ++ ys) = tokenCount xs + tokenCount ys := by
  rw [← sum_map_tokenCount, List.map_append, List.sum_append, sum_map_tokenCount,
    sum_map_tokenCount]

/-! ## One group -/

/-- The tokens that are folded into a group stand where they stood. -/
theorem between_fold (h : Between T lo run hi) : Between T lo run.fold hi := by
  unfold fold
  split
  · exact h
  · split
    · exact h.le
    · next span hspan =>
      obtain ⟨hwithin, hcounts, -⟩ := h.span? hspan
      exact ⟨hwithin.1, hcounts, hwithin.2⟩

/-- A group that is folded from plain tokens is sound. -/
theorem sound_of_mem_fold (h : Between T lo run hi) (hplain : ∀ p ∈ run, p.token.run? = none)
    {p : Placed Token} (hp : p ∈ run.fold) : p.Sound T := by
  unfold fold at hp
  split at hp
  · exact Placed.sound_of_counts (h.counts hp) (hplain p hp)
  · split at hp
    · cases hp
    · next span hspan =>
      rw [List.mem_singleton.1 hp]
      obtain ⟨-, hcounts, hbetween⟩ := h.span? hspan
      exact ⟨hcounts, fun hrun => by cases hrun; exact hbetween⟩

/-! ## Grouping from left to right -/

/-- Each step of grouping leaves the tokens between the same positions. -/
theorem between_groupFrom (hcollected : Between T lo collected mid) (hrest : Between T mid rest hi) :
    Between T lo (groupFrom collected rest) hi := by
  induction rest generalizing collected lo mid with
  | nil => exact (between_fold hcollected).extend hrest
  | cons p rest ih =>
    obtain ⟨hstart, hcounts, hlater⟩ := hrest
    have hpasses := hcollected.extend (Nat.le_trans hstart p.span.start_le_stop)
    rw [groupFrom]
    split
    · exact ih hpasses hlater
    · split
      · exact ih (Between.append_iff.2 ⟨mid, hcollected, hstart, hcounts, Nat.le_refl _⟩) hlater
      · exact Between.append_iff.2 ⟨mid, between_fold hcollected, hstart, hcounts,
          ih Between.nil hlater⟩

/-- A grouped run stands in order where the run stood. -/
theorem between_group (h : Between T lo run hi) : Between T lo run.group hi :=
  between_groupFrom Between.nil h

/-- Each step of grouping leaves the tokens sound. -/
theorem sound_of_mem_groupFrom (hcollected : Between T lo collected mid)
    (hrest : Between T mid rest hi) (hplain : ∀ p ∈ collected ++ rest, p.token.run? = none)
    {q : Placed Token} (hq : q ∈ groupFrom collected rest) : q.Sound T := by
  induction rest generalizing collected lo mid with
  | nil => exact sound_of_mem_fold hcollected (by simpa using hplain) hq
  | cons p rest ih =>
    obtain ⟨hstart, hcounts, hlater⟩ := hrest
    simp only [List.forall_mem_append, List.forall_mem_cons] at hplain
    obtain ⟨hplainCollected, hplainP, hplainRest⟩ := hplain
    have hpasses := hcollected.extend (Nat.le_trans hstart p.span.start_le_stop)
    rw [groupFrom] at hq
    split at hq
    · exact ih hpasses hlater (List.forall_mem_append.2 ⟨hplainCollected, hplainRest⟩) hq
    · split at hq
      · have hjoins : Between T lo (collected ++ [p]) p.span.stop :=
          Between.append_iff.2 ⟨mid, hcollected, hstart, hcounts, Nat.le_refl _⟩
        refine ih hjoins hlater ?_ hq
        simpa [or_imp, forall_and] using ⟨hplainCollected, hplainP, hplainRest⟩
      · rcases List.mem_append.1 hq with hq | hq
        · exact sound_of_mem_fold hcollected hplainCollected hq
        · rcases List.mem_cons.1 hq with rfl | hq
          · exact Placed.sound_of_counts hcounts hplainP
          · exact ih Between.nil hlater hplainRest hq

/-- The tokens of a grouped run are sound. -/
theorem sound_of_mem_group (h : Between T lo run hi) (hplain : ∀ p ∈ run, p.token.run? = none)
    {q : Placed Token} (hq : q ∈ run.group) : q.Sound T :=
  sound_of_mem_groupFrom Between.nil h hplain hq

/-! ### In words -/

/-- A group counts no word that its tokens did not stand among. -/
theorem reach_fold_le (h : Between .words lo run hi) : run.fold.reach .words + lo ≤ hi := by
  have hle := h.le
  have hreach : run.fold.reach .words ≤ hi - lo := (between_fold h).reach_le
  omega

/-- Besides what the rest counts, grouping counts the words from the first collected token on. -/
theorem reach_groupFrom_le (hcollected : Between .words lo collected mid)
    (hrest : Tiles mid rest hi) :
    (groupFrom collected rest).reach .words + lo ≤ mid + rest.reach .words := by
  induction rest generalizing collected lo mid with
  | nil => exact reach_fold_le hcollected
  | cons p rest ih =>
    obtain ⟨rfl, hpos, hlater⟩ := hrest
    have hstop : p.span.stop = p.span.start + p.span.length := rfl
    rw [groupFrom, reach_cons]
    split
    · next hunknown =>
      have hle := ih (hcollected.extend p.span.start_le_stop) hlater
      rw [Placed.reach_of_not_marksIntent (Token.marksIntent_of_isUnknown hunknown),
        Tally.size_words]
      omega
    · split
      · next hdescribes =>
        have hjoins : Between .words lo (collected ++ [p]) p.span.stop :=
          Between.append_iff.2
            ⟨p.span.start, hcollected, Nat.le_refl _, Tally.counts_words hpos, Nat.le_refl _⟩
        have hle := ih hjoins hlater
        rw [Placed.reach_of_not_marksIntent (Token.marksIntent_of_describesItem hdescribes),
          Tally.size_words]
        omega
      · have hfold := reach_fold_le hcollected
        have hle := ih Between.nil hlater
        rw [reach_append, reach_cons]
        omega

/-- Grouping counts no word that was not counted before. -/
theorem reach_group_le (h : Tiles 0 run hi) : run.group.reach .words ≤ run.reach .words := by
  simpa [group] using reach_groupFrom_le Between.nil h

end Run

end SpokenOrder
