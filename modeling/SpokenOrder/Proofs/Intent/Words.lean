import SpokenOrder.Proofs.Cart.Invariant
import SpokenOrder.Proofs.Grammar.Captures
import SpokenOrder.Proofs.Lattice.Tokenization
import SpokenOrder.Proofs.Run.Segment

/-!
# The words behind an edit

What an edit puts into the cart is read from words, and the words are tokens of the lattice: a
production reads the groups in its slots, a group has tokens of the tokenization
(`Run.exists_mem_of_mem_group`), and these come from edges. So if all tokens of the lattice have some
property, each edit of the interpretation is made by words that have it (`Menu.EditBy`,
`Menu.editsBy_of_interpretLattice`).
-/

namespace SpokenOrder

/-! ## Tokens of groups -/

/-- The tokens that a token stands for: those of its group, or itself. -/
def Token.members : Token → List Token
  | .parts _ run => run.map (·.token)
  | t => [t]

/-- A group stands for the tokens of its run. -/
theorem Token.members_of_run? {t : Token} {run : Run} (h : t.run? = some run) :
    t.members = run.map (·.token) := by
  cases t <;> cases h
  rfl

/-- A token that describes an item stands for itself. -/
theorem Token.members_of_describesItem {t : Token} (h : t.kind.describesItem = true) :
    t.members = [t] := by
  cases t <;> first | rfl | cases h

namespace Run

variable {collected rest run : Run} {t : Token}

/-- What is folded into a group stands for tokens that were collected. -/
theorem exists_mem_of_mem_fold (hplain : ∀ p ∈ run, p.token.members = [p.token]) {q : Placed Token}
    (hq : q ∈ run.fold) (ht : t ∈ q.token.members) : ∃ p ∈ run, t ∈ p.token.members := by
  unfold fold at hq
  split at hq
  · exact ⟨q, hq, ht⟩
  · split at hq
    · cases hq
    · rw [List.mem_singleton.1 hq] at ht
      obtain ⟨p, hp, rfl⟩ := List.mem_map.1 ht
      exact ⟨p, hp, hplain p hp ▸ List.mem_singleton_self p.token⟩

/-- So it is at each step of grouping, where some tokens are collected and the rest are to come. -/
theorem exists_mem_of_mem_groupFrom (hplain : ∀ p ∈ collected, p.token.members = [p.token])
    {q : Placed Token} (hq : q ∈ groupFrom collected rest) (ht : t ∈ q.token.members) :
    ∃ p ∈ collected ++ rest, t ∈ p.token.members := by
  induction rest generalizing collected with
  | nil => simpa using exists_mem_of_mem_fold hplain hq ht
  | cons p rest ih =>
    rw [groupFrom] at hq
    split at hq
    · obtain ⟨r, hr, htr⟩ := ih hplain hq
      refine ⟨r, ?_, htr⟩
      rcases List.mem_append.1 hr with hr | hr
      · exact List.mem_append_left _ hr
      · exact List.mem_append_right _ (List.mem_cons_of_mem _ hr)
    · split at hq
      · next hdescribes =>
        have hjoined : ∀ r ∈ collected ++ [p], r.token.members = [r.token] :=
          List.forall_mem_append.2 ⟨hplain, List.forall_mem_singleton.2
            (Token.members_of_describesItem hdescribes)⟩
        simpa using ih hjoined hq
      · rcases List.mem_append.1 hq with hq | hq
        · obtain ⟨r, hr, htr⟩ := exists_mem_of_mem_fold hplain hq ht
          exact ⟨r, List.mem_append_left _ hr, htr⟩
        · rcases List.mem_cons.1 hq with rfl | hq
          · exact ⟨q, List.mem_append_right _ List.mem_cons_self, ht⟩
          · obtain ⟨r, hr, htr⟩ := ih (List.forall_mem_nil _) hq
            exact ⟨r, List.mem_append_right _ (List.mem_cons_of_mem _ hr), htr⟩

/-- Grouping brings in no tokens: what the tokens of a grouped run stand for, those of the run stood
for. -/
theorem exists_mem_of_mem_group {q : Placed Token} (hq : q ∈ run.group)
    (ht : t ∈ q.token.members) : ∃ p ∈ run, t ∈ p.token.members :=
  exists_mem_of_mem_groupFrom (List.forall_mem_nil _) hq ht

end Run

/-! ## Edits -/

/-- An edit of a cart by words whose tokens have the property `Q`. -/
inductive Menu.EditBy (menu : Menu) (Q : Token → Prop) (cart : Cart) : Cart → Prop
  | added {words : Run} {segments : List Segment} : (∀ p ∈ words, Q p.token) →
      segments ∈ words.segmentations → segments.filterMap menu.newItem? ≠ [] →
      EditBy menu Q cart (cart.addAll ((segments.filterMap menu.newItem?).map (·.value)))
  | removed {words : Run} {segments : List Segment} {uids : List Uid} :
      segments ∈ words.segmentations → uids ≠ [] → uids.Nodup → uids.length ≤ segments.length →
      (∀ u ∈ uids, ∃ item ∈ cart.items, item.uid = u) →
      EditBy menu Q cart (cart.removeAll uids)
  | changed {item : Item} {words : Run} {new : Scored Item} : item ∈ cart.items →
      (∀ p ∈ words, Q p.token) → menu.modified? item words = some new →
      EditBy menu Q cart (cart.replace new.value)
  | replaced {target : Item} {segment : Segment} {new : Scored Item} : target ∈ cart.items →
      (∀ p ∈ segment.words, Q p.token) → menu.replacement? target segment = some new →
      EditBy menu Q cart (cart.replace new.value)
  | optionRemoved {parent option : Item} : parent ∈ cart.items → menu.HasOption parent option →
      EditBy menu Q cart (cart.replace (menu.withoutOption parent option))

/-- An edit by certain words is an edit. -/
theorem Menu.EditBy.edit {menu : Menu} {Q : Token → Prop} {c d : Cart} (h : menu.EditBy Q c d) :
    menu.Edit c d := by
  cases h with
  | added _ hsegments hne => exact .added hsegments hne
  | removed hsegments hne hnd hlen hitems => exact .removed hsegments hne hnd hlen hitems
  | changed hitem _ hnew => exact .changed hitem hnew
  | replaced htarget _ hnew => exact .replaced htarget hnew
  | optionRemoved hparent hoption => exact .optionRemoved hparent hoption

namespace Intent

variable {α : Type} {scene : Scene α} {c next : Context} {captures : Captures} {Q : Token → Prop}

/-- The tokens that the slots hold have the property, and so do those of their groups. -/
def SlotsSay (Q : Token → Prop) (captures : Captures) : Prop :=
  ∀ p ∈ captures.filled, ∀ t ∈ p.token.members, Q t

/-- The tokens of a captured group have the property. -/
theorem SlotsSay.groupIn? (h : SlotsSay Q captures) {slot : Nat} {words : Run}
    (hwords : groupIn? captures slot = some words) : ∀ p ∈ words, Q p.token := by
  obtain ⟨group, hgroup, hrun⟩ := Option.bind_eq_some_iff.1 hwords
  intro p hp
  refine h group (Captures.mem_filled_of_get? hgroup) p.token ?_
  rw [Token.members_of_run? hrun]
  exact List.mem_map_of_mem hp

/-- The segments of some words have only those words. -/
theorem forall_of_mem_segmentations {words : Run} {segments : List Segment}
    (hwords : ∀ p ∈ words, Q p.token) (h : segments ∈ words.segmentations) :
    ∀ segment ∈ segments, ∀ p ∈ segment.words, Q p.token := by
  intro segment hsegment p hp
  rw [← Run.flatMap_words_of_mem_segmentations h] at hwords
  exact hwords p (List.mem_flatMap.2 ⟨segment, hsegment, hp⟩)

/-- A change to the first of some targets that can be changed is an edit by the words that change
it. -/
theorem editBy_of_modifyFirst {targets : List (Scored Item)} {words : Run}
    (htargets : ∀ target ∈ targets, target.value ∈ c.cart.items) (hwords : ∀ p ∈ words, Q p.token)
    (h : modifyFirst scene c captures targets words = some next) :
    scene.menu.EditBy Q c.cart next.cart := by
  obtain ⟨target, htarget, h⟩ := List.exists_of_findSome?_eq_some h
  obtain ⟨new, hnew, rfl⟩ := Option.map_eq_some_iff.1 h
  exact .changed (htargets target htarget) hwords hnew

/-- So is a change to the last item. -/
theorem editBy_of_changeLast (hslots : SlotsSay Q captures) {slot : Nat}
    (h : (do
      let words ← groupIn? captures slot
      let last ← c.cart.last?
      let new ← scene.menu.modified? last words
      return replaced c captures new 0) = some next) : scene.menu.EditBy Q c.cart next.cart := by
  obtain ⟨words, hwords, h⟩ := Option.bind_eq_some_iff.1 h
  obtain ⟨last, hlast, h⟩ := Option.bind_eq_some_iff.1 h
  obtain ⟨new, hnew, h⟩ := Option.bind_eq_some_iff.1 h
  cases h
  exact .changed (List.mem_of_getLast? hlast) (hslots.groupIn? hwords) hnew

/-- The replacement of the first target that can be replaced is an edit by the words of the segment.
-/
theorem editBy_of_replaceFirst? {targets : List (Scored Item)} {segment : Segment} {new : Item}
    {score : Nat} (htargets : ∀ target ∈ targets, target.value ∈ c.cart.items)
    (hwords : ∀ p ∈ segment.words, Q p.token)
    (h : replaceFirst? scene.menu targets segment = some (new, score)) :
    scene.menu.EditBy Q c.cart (c.cart.replace new) := by
  obtain ⟨target, htarget, h⟩ := List.exists_of_findSome?_eq_some h
  obtain ⟨built, hbuilt, h⟩ := Option.map_eq_some_iff.1 h
  cases h
  exact .replaced (htargets target htarget) hwords hbuilt

/-- The words of a group add items. -/
theorem editBy_of_addNewItems (hslots : SlotsSay Q captures)
    (h : addNewItems scene c captures = some next) : scene.menu.EditBy Q c.cart next.cart := by
  obtain ⟨words, hwords, h⟩ := Option.bind_eq_some_iff.1 h
  obtain ⟨⟨items, score⟩, hbest, h⟩ := Option.bind_eq_some_iff.1 h
  obtain ⟨segments, hsegments, hread⟩ := exists_of_bestSegmentation? hbest
  obtain ⟨hne, rfl, rfl⟩ := newItems?_eq_some hread
  cases h
  exact .added (hslots.groupIn? hwords) hsegments hne

/-- To take an option off an item of the cart is an edit by any words. -/
theorem editBy_of_removeOption {span : Span} {score : Nat} {parent : Item}
    (hparent : parent ∈ c.cart.items) [Score α]
    (h : removeOption scene c captures span score parent = some next) :
    scene.menu.EditBy Q c.cart next.cart := by
  obtain ⟨option, hoption, rfl⟩ := Option.map_eq_some_iff.1 h
  exact .optionRemoved hparent (Scene.hasOption_of_mem_optionTargets (List.mem_of_head? hoption))

variable [Score α]

/-- The words of a group add onto a target. -/
theorem editBy_of_addOntoTarget (hslots : SlotsSay Q captures)
    (h : addOntoTarget scene c captures = some next) : scene.menu.EditBy Q c.cart next.cart := by
  obtain ⟨options, hoptions, h⟩ := Option.bind_eq_some_iff.1 h
  exact editBy_of_modifyFirst (fun _ => mem_items_of_mem_targetsIn) (hslots.groupIn? hoptions) h

/-- The words of a group change a target. -/
theorem editBy_of_modifyTarget (hslots : SlotsSay Q captures)
    (h : modifyTarget scene c captures = some next) : scene.menu.EditBy Q c.cart next.cart := by
  obtain ⟨changes, hchanges, h⟩ := Option.bind_eq_some_iff.1 h
  exact editBy_of_modifyFirst (fun _ => mem_items_of_mem_targetsIn) (hslots.groupIn? hchanges) h

/-- The words of a group change what it refers to. -/
theorem editBy_of_modifyInPlace (hslots : SlotsSay Q captures)
    (h : modifyInPlace scene c captures = some next) : scene.menu.EditBy Q c.cart next.cart := by
  obtain ⟨segment, hsegment, h⟩ := Option.bind_eq_some_iff.1 h
  obtain ⟨words, hwords, hsegment⟩ := Option.bind_eq_some_iff.1 hsegment
  have hsaid := hslots.groupIn? hwords
  rw [← Run.words_of_segment? hsegment, Segment.words, List.forall_mem_append,
    List.forall_mem_cons] at hsaid
  exact editBy_of_modifyFirst (fun _ => Scene.mem_items_of_mem_targets)
    (List.forall_mem_append.2 ⟨hsaid.1, hsaid.2.2⟩) h

/-- The words of a group replace a target. -/
theorem editBy_of_replaceTarget (hslots : SlotsSay Q captures)
    (h : replaceTarget scene c captures = some next) : scene.menu.EditBy Q c.cart next.cart := by
  obtain ⟨segment, hsegment, h⟩ := Option.bind_eq_some_iff.1 h
  obtain ⟨words, hwords, hsegment⟩ := Option.bind_eq_some_iff.1 hsegment
  obtain ⟨⟨new, score⟩, hnew, h⟩ := Option.bind_eq_some_iff.1 h
  cases h
  exact editBy_of_replaceFirst? (fun _ => mem_items_of_mem_targetsIn)
    (Run.words_of_segment? hsegment ▸ hslots.groupIn? hwords) hnew

/-- The words of one segment of a group replace what the other refers to. -/
theorem editBy_of_replaceInGroup (hslots : SlotsSay Q captures)
    (h : replaceInGroup scene c captures = some next) : scene.menu.EditBy Q c.cart next.cart := by
  obtain ⟨words, hwords, h⟩ := Option.bind_eq_some_iff.1 h
  obtain ⟨⟨new, score⟩, hbest, h⟩ := Option.bind_eq_some_iff.1 h
  obtain ⟨segments, hsegments, hread⟩ := exists_of_bestSegmentation? hbest
  cases h
  have hsaid := forall_of_mem_segmentations (hslots.groupIn? hwords) hsegments
  unfold replaceWithin? at hread
  split at hread
  · exact editBy_of_replaceFirst? (fun _ => Scene.mem_items_of_mem_targets)
      (hsaid _ (List.mem_cons_of_mem _ List.mem_cons_self)) hread
  · cases hread

/-- The words of a group remove items. -/
theorem editBy_of_removeItems (h : removeItems scene c captures = some next) :
    scene.menu.EditBy Q c.cart next.cart := by
  obtain ⟨words, -, h⟩ := Option.bind_eq_some_iff.1 h
  obtain ⟨⟨uids, score⟩, hbest, h⟩ := Option.bind_eq_some_iff.1 h
  obtain ⟨segments, hsegments, hread⟩ := exists_of_bestSegmentation? hbest
  cases h
  obtain ⟨huids, hfound⟩ := found_of_removals? hread
  exact .removed hsegments huids hfound.nodup hfound.length_le hfound.exists_item

/-- To take an option off a target is an edit by any words. -/
theorem editBy_of_removeOptionFromTarget
    (h : removeOptionFromTarget scene c captures = some next) :
    scene.menu.EditBy Q c.cart next.cart := by
  obtain ⟨span, -, h⟩ := Option.bind_eq_some_iff.1 h
  obtain ⟨target, htarget, h⟩ := List.exists_of_findSome?_eq_some h
  exact editBy_of_removeOption (mem_items_of_mem_targetsIn htarget) h

/-- So it is with the latest item that has the option. -/
theorem editBy_of_removeOptionFromLatest
    (h : removeOptionFromLatest scene c captures = some next) :
    scene.menu.EditBy Q c.cart next.cart := by
  obtain ⟨span, -, h⟩ := Option.bind_eq_some_iff.1 h
  obtain ⟨parent, hparent, h⟩ := List.exists_of_findSome?_eq_some h
  exact editBy_of_removeOption (List.mem_reverse.1 hparent) h

/-- A production that fires edits the cart by the words in its slots. -/
theorem editBy_of_production {rule : Rule Context} {used : Nat}
    (hrule : rule ∈ (grammar scene).rules) (hslots : SlotsSay Q captures)
    (h : rule.production c captures used = some next) :
    scene.menu.EditBy Q c.cart next.cart := by
  simp only [grammar, Grammar.ofRules, addRules, removeRules, modifyRules, Rule.plain,
    List.cons_append, List.nil_append, List.mem_cons, List.not_mem_nil, or_false] at hrule
  rcases hrule with rfl | rfl | rfl | rfl | rfl | rfl | rfl | rfl | rfl | rfl | rfl | rfl
  · exact editBy_of_addOntoTarget hslots h
  · exact editBy_of_changeLast hslots h
  · exact editBy_of_addNewItems hslots h
  · exact editBy_of_changeLast hslots h
  · exact editBy_of_removeItems h
  · exact editBy_of_removeOptionFromTarget h
  · exact editBy_of_removeOptionFromLatest h
  · exact editBy_of_modifyTarget hslots h
  · exact editBy_of_changeLast hslots h
  · exact editBy_of_replaceTarget hslots h
  · exact editBy_of_replaceInGroup hslots h
  · exact editBy_of_modifyInPlace hslots h

/-- A run of the grammar over tokens with the property is a sequence of edits by such tokens. -/
theorem editsBy_of_process (scene : Scene α) (c : Context) {run : Run}
    (hrun : ∀ p ∈ run, ∀ t ∈ p.token.members, Q t) :
    Relation.ReflTransGen (scene.menu.EditBy Q) c.cart ((grammar scene).process c run).1.cart :=
  ((grammar scene).runs_process c run).invariant_of_forall
    (P := fun d => Relation.ReflTransGen (scene.menu.EditBy Q) c.cart d.cart)
    (fun _ hrule _ _ _ _ hslots hbefore hprod =>
      hbefore.tail (editBy_of_production hrule hslots hprod)) hrun .refl

end Intent

/-! ## Utterances -/

/-- All tokens of the lattice have the property, those of groups included. -/
def Lattice.Says {α : Type} (Q : Token → Prop) (l : Lattice α) : Prop :=
  ∀ edges ∈ l.positions, ∀ e ∈ edges, ∀ t ∈ e.token.members, Q t

variable {α : Type} [Score α] {Q : Token → Prop}

/-- A filter brings in no tokens. -/
theorem Lattice.Says.filter {l : Lattice α} (h : l.Says Q) (threshold : α) :
    (l.filter threshold).Says Q := by
  intro edges hedges e he
  obtain ⟨all, hall, hsubset⟩ := exists_of_mem_filter hedges
  exact h all hall e (hsubset he)

/-- The interpretation of a scene is a sequence of edits by tokens of its lattice. -/
theorem Scene.editsBy_of_interpret {scene : Scene α} (h : scene.lattice.Says Q) (cart : Cart) :
    Relation.ReflTransGen (scene.menu.EditBy Q) cart (scene.interpret cart).cart := by
  unfold interpret weigh
  rcases Interpretation.ofCandidates_cart with hcart | ⟨c, hc, hcart⟩
  · rw [hcart]
  · obtain ⟨tokens, htokens, rfl⟩ := List.mem_map.1 hc
    rw [hcart]
    refine Intent.editsBy_of_process scene (.ofCart cart) fun q hq t ht => ?_
    obtain ⟨p, hp, htp⟩ := Run.exists_mem_of_mem_group hq ht
    obtain ⟨edges, hedges, e, he, heq⟩ := Lattice.exists_edge_of_mem_tilings
      (Lattice.mem_tilings_of_heaviest htokens) hp
    exact h edges hedges e he t (heq ▸ htp)

/-- The interpretation of a lattice is a sequence of edits by tokens of the lattice. -/
theorem Menu.editsBy_of_interpretLattice (menu : Menu) {lattice : Lattice α} (h : lattice.Says Q)
    (threshold : α) (c : Cart) :
    Relation.ReflTransGen (menu.EditBy Q) c (menu.interpretLattice lattice threshold c).cart := by
  have hfiltered : (Scene.ofLattice menu lattice threshold).lattice.Says Q := h.filter threshold
  exact Scene.editsBy_of_interpret hfiltered c

/-- An utterance whose readings have the property is interpreted. -/
inductive Menu.HearsBy (menu : Menu) (Q : Token → Prop) : Cart → Cart → Prop
  | text {α : Type} [Score α] {lexicon : Lexicon} {text : String} (threshold : α) (c : Cart) :
      (lexicon.lattice text : Lattice α).Says Q →
      HearsBy menu Q c (menu.interpretText lexicon text threshold c).cart
  | lattice {α : Type} [Score α] {lattice : Lattice α} (threshold : α) (c : Cart) :
      lattice.Says Q → HearsBy menu Q c (menu.interpretLattice lattice threshold c).cart
  | tokens {tokens : List Token} (c : Cart) : (∀ t ∈ tokens, ∀ s ∈ t.members, Q s) →
      HearsBy menu Q c (menu.interpretTokens tokens c).cart

/-- The lattice of some tokens has no others. -/
theorem Lattice.says_ofTokens {tokens : List Token} (h : ∀ t ∈ tokens, ∀ s ∈ t.members, Q s) :
    (Lattice.ofTokens tokens : Lattice α).Says Q := by
  intro edges hedges e he
  obtain ⟨t, ht, rfl⟩ := List.mem_map.1 hedges
  rw [List.mem_singleton.1 he]
  exact h t ht

namespace Menu

variable {menu : Menu} {c d : Cart}

/-- An utterance whose readings have the property is a sequence of edits by words that have it. -/
theorem HearsBy.editsBy (h : menu.HearsBy Q c d) : Relation.ReflTransGen (menu.EditBy Q) c d := by
  cases h with
  | text threshold _ hsays => exact menu.editsBy_of_interpretLattice hsays threshold c
  | lattice threshold _ hsays => exact menu.editsBy_of_interpretLattice hsays threshold c
  | tokens _ hsays =>
    exact menu.editsBy_of_interpretLattice (Lattice.says_ofTokens hsays) defaultThreshold c

/-- Any number of utterances whose readings have the property are a sequence of edits by words that
have it. -/
theorem editsBy_of_hearsBy (h : Relation.ReflTransGen (menu.HearsBy Q) c d) :
    Relation.ReflTransGen (menu.EditBy Q) c d := by
  induction h with
  | refl => exact .refl
  | tail _ hhears ih => exact ih.trans hhears.editsBy

end Menu

end SpokenOrder
