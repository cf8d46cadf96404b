import Mathlib.Data.List.Induction
import Mathlib.Data.List.Nodup
import Mathlib.Data.List.Permutation
import Mathlib.Data.Prod.Lex
import Mathlib.Order.Bounds.Basic
import SpokenOrder.CoffeeShop
import SpokenOrder.Proofs.Reference.Targets
import SpokenOrder.Proofs.Run.Cut

/-!
# The ranking of references

While finds are gathered, they stand in the strict order of their numbers
(`Ranking.pairwise_gather`), so no item is gathered twice, and a find is only ever given up for a
better one of the same item (`Ranking.exists_mem_gather`). So what a reference lists for an item is
the best that any of its tokenizations makes of it, and the list is ranked strictly, by score and
then by position in the cart (`Scene.targets_ranked`).
-/

namespace SpokenOrder

/-! ## Ranking -/

namespace Ranking

/-- What finds are told apart by: the number of the item and that of its product. -/
def key (find : Scored Item) : Uid ×ₗ Pid := toLex (find.value.uid, find.value.key.pid)

/-- Two finds are the same if they have one key. -/
theorem same_iff {a b : Scored Item} : same a b = true ↔ key a = key b := by
  simp [same, key]

/-- A find precedes another if its key is less. -/
theorem precedes_iff {a b : Scored Item} : precedes a b = true ↔ key a < key b := by
  simp [precedes, key, Prod.Lex.toLex_lt_toLex]

variable {new find : Scored Item} {ranked finds : List (Scored Item)} {position : Item → Nat}

/-- Finds in the strict order of their numbers stay so when one is added. -/
theorem pairwise_insert (h : ranked.Pairwise fun a b => key a < key b) :
    (insert new ranked).Pairwise fun a b => key a < key b := by
  induction ranked with
  | nil => exact List.pairwise_singleton _ _
  | cons old rest ih =>
    obtain ⟨hold, hrest⟩ := List.pairwise_cons.1 h
    rw [insert]
    split
    · next hsame =>
      have hkey : key (if new.score ≤ old.score then old else new) = key old := by
        split
        · rfl
        · exact (same_iff.1 hsame).symm
      exact List.pairwise_cons.2 ⟨fun f hf => hkey ▸ hold f hf, hrest⟩
    · next hsame =>
      split
      · next hbefore =>
        have hlt : key new < key old := precedes_iff.1 hbefore
        refine List.pairwise_cons.2 ⟨List.forall_mem_cons.2 ⟨hlt, fun f hf => ?_⟩, h⟩
        exact hlt.trans (hold f hf)
      · next hbefore =>
        have hlt : key old < key new :=
          lt_of_le_of_ne (not_lt.1 (mt precedes_iff.2 hbefore)) (mt same_iff.2 hsame)
        refine List.pairwise_cons.2 ⟨fun f hf => ?_, ih hrest⟩
        rcases mem_of_mem_insert hf with rfl | hf
        · exact hlt
        · exact hold f hf

/-- Of a find that is added, and of each that was there, one at least as good is there. -/
theorem exists_mem_insert (h : find ∈ new :: ranked) :
    ∃ kept ∈ insert new ranked, key kept = key find ∧ find.score ≤ kept.score := by
  induction ranked with
  | nil => exact ⟨find, h, rfl, Nat.le_refl _⟩
  | cons old rest ih =>
    rw [insert]
    split
    · next hsame =>
      have hkey : key old = key new := same_iff.1 hsame
      -- The better of the two finds of the item stays.
      rcases List.mem_cons.1 h with rfl | h
      · split
        · next hle => exact ⟨old, List.mem_cons_self, hkey, hle⟩
        · exact ⟨find, List.mem_cons_self, rfl, Nat.le_refl _⟩
      · rcases List.mem_cons.1 h with rfl | h
        · split
          · exact ⟨find, List.mem_cons_self, rfl, Nat.le_refl _⟩
          · exact ⟨new, List.mem_cons_self, hkey.symm, by omega⟩
        · exact ⟨find, List.mem_cons_of_mem _ h, rfl, Nat.le_refl _⟩
    · split
      · exact ⟨find, h, rfl, Nat.le_refl _⟩
      · have hlater : find ∈ new :: rest →
            ∃ kept ∈ old :: insert new rest, key kept = key find ∧ find.score ≤ kept.score := by
          intro hfind
          obtain ⟨kept, hkept, hsame⟩ := ih hfind
          exact ⟨kept, List.mem_cons_of_mem _ hkept, hsame⟩
        rcases List.mem_cons.1 h with rfl | h
        · exact hlater List.mem_cons_self
        · rcases List.mem_cons.1 h with rfl | h
          · exact ⟨find, List.mem_cons_self, rfl, Nat.le_refl _⟩
          · exact hlater (List.mem_cons_of_mem _ h)

/-- The finds gathered, each item once, in the order of numbers. -/
def gather (finds : List (Scored Item)) : List (Scored Item) :=
  finds.foldl (fun ranked new => insert new ranked) []

/-- Another find is inserted into those that are gathered. -/
theorem gather_concat (finds : List (Scored Item)) (new : Scored Item) :
    gather (finds ++ [new]) = insert new (gather finds) := by
  rw [gather, List.foldl_append]
  rfl

/-- The finds that are gathered stand in the order of their keys, each key once. -/
theorem pairwise_gather (finds : List (Scored Item)) :
    (gather finds).Pairwise fun a b => key a < key b := by
  induction finds using List.reverseRecOn with
  | nil => exact .nil
  | append_singleton finds new ih =>
    rw [gather_concat]
    exact pairwise_insert ih

/-- For each find one with its key is kept that scores no less. -/
theorem exists_mem_gather (h : find ∈ finds) :
    ∃ kept ∈ gather finds, key kept = key find ∧ find.score ≤ kept.score := by
  induction finds using List.reverseRecOn with
  | nil => cases h
  | append_singleton finds new ih =>
    rw [gather_concat]
    rcases List.mem_append.1 h with h | h
    · obtain ⟨kept, hkept, hkey, hle⟩ := ih h
      obtain ⟨better, hbetter, hkey', hle'⟩ := exists_mem_insert (List.mem_cons_of_mem new hkept)
      exact ⟨better, hbetter, hkey'.trans hkey, Nat.le_trans hle hle'⟩
    · rw [List.mem_singleton.1 h]
      exact exists_mem_insert List.mem_cons_self

/-- Ranking only reorders what is gathered. -/
theorem ofFinds_perm (position : Item → Nat) (finds : List (Scored Item)) :
    (ofFinds position finds).Perm (gather finds) :=
  List.mergeSort_perm _ _

/-- No item is listed twice. -/
theorem nodup_key_ofFinds (position : Item → Nat) (finds : List (Scored Item)) :
    ((ofFinds position finds).map key).Nodup := by
  rw [((ofFinds_perm position finds).map key).nodup_iff]
  exact List.pairwise_map.2 ((pairwise_gather finds).imp ne_of_lt)

/-- What is listed for an item is as good as any find of the item. -/
theorem score_le_of_mem_ofFinds {listed : Scored Item} (h : listed ∈ ofFinds position finds)
    (hfind : find ∈ finds) (hkey : key find = key listed) : find.score ≤ listed.score := by
  obtain ⟨kept, hkept, hsame, hle⟩ := exists_mem_gather hfind
  have hlisted : kept ∈ ofFinds position finds := (ofFinds_perm position finds).mem_iff.2 hkept
  obtain rfl : kept = listed :=
    List.inj_on_of_nodup_map (nodup_key_ofFinds position finds) hlisted h (hsame.trans hkey)
  exact hle

/-- For each find, its item is listed. -/
theorem exists_mem_ofFinds (position : Item → Nat) (h : find ∈ finds) :
    ∃ listed ∈ ofFinds position finds, key listed = key find := by
  obtain ⟨kept, hkept, hkey, -⟩ := exists_mem_gather h
  exact ⟨kept, (ofFinds_perm position finds).mem_iff.2 hkept, hkey⟩

/-- A target ranks before another with a greater score, or with the same and a position that is not
behind. -/
theorem ranksBefore_iff {a b : Scored Item} : ranksBefore position a b = true ↔
    b.score < a.score ∨ a.score = b.score ∧ position b.value ≤ position a.value := by
  simp [ranksBefore]

/-- The list is ranked by score, and then by position. -/
theorem pairwise_ofFinds (position : Item → Nat) (finds : List (Scored Item)) :
    (ofFinds position finds).Pairwise fun a b =>
      b.score < a.score ∨ a.score = b.score ∧ position b.value ≤ position a.value := by
  have htrans : ∀ a b c, ranksBefore position a b = true → ranksBefore position b c = true →
      ranksBefore position a c = true := by
    intro a b c hab hbc
    rw [ranksBefore_iff] at hab hbc ⊢
    omega
  have htotal : ∀ a b, (ranksBefore position a b || ranksBefore position b a) = true := by
    intro a b
    rw [Bool.or_eq_true, ranksBefore_iff, ranksBefore_iff]
    omega
  exact (List.pairwise_mergeSort htrans htotal _).imp ranksBefore_iff.1

end Ranking

/-! ## References -/

/-- Where numbers tell the items of a cart apart, an item is found at its own position. -/
theorem Cart.recency?_of_getElem? {cart : Cart} (huids : (cart.items.map Item.uid).Nodup) {n : Nat}
    {item : Item} (h : cart.items[n]? = some item) : cart.recency? item.uid = some n := by
  obtain ⟨hlt, rfl⟩ := List.getElem?_eq_some_iff.1 h
  refine List.findIdx?_eq_some_iff_getElem.2 ⟨hlt, by simp, fun j hj huid => ?_⟩
  have hne := List.pairwise_iff_getElem.1 (List.pairwise_map.1 huids) j n
    (Nat.lt_trans hj hlt) hlt hj
  exact hne (beq_iff_eq.1 huid)

namespace Scene

variable {α : Type} [Score α] {scene : Scene α} {cart : Cart} {span : Span} {item : Item}
  {score : Nat}

/-- A tokenization of the span has exactly one entity, and the target that it is fits the item and
has the score. -/
def RefersTo (scene : Scene α) (cart : Cart) (span : Span) (item : Item) (score : Nat) : Prop :=
  ∃ segment t, segment.words ∈ scene.tokenizationsOf (scene.menu.cartVocabulary cart) span ∧
    segment.OneEntity ∧ scene.menu.target? segment = some t ∧
    t.value.pattern.covers item.key = true ∧ t.value.carriedBy item = true ∧ t.score = score

/-- What a reference finds before it is ranked. -/
def finds (scene : Scene α) (cart : Cart) (span : Span) : List (Scored Item) :=
  (scene.tokenizationsOf (scene.menu.cartVocabulary cart) span).flatMap (scene.findsIn cart span)

/-- A find is an item of the cart to which the span refers, with its score. -/
theorem mem_finds_iff {find : Scored Item} : find ∈ scene.finds cart span ↔
    find.value ∈ cart.items ∧ find.tokenCount = span.length ∧
      scene.RefersTo cart span find.value find.score := by
  rw [finds, List.mem_flatMap]
  constructor
  · rintro ⟨run, hrun, hfind⟩
    obtain ⟨segment, t, hsegment, htarget, hitem, hfits, hscore, htokens⟩ := mem_findsIn_iff.1 hfind
    obtain ⟨hone, rfl⟩ := Run.segment?_eq_some_iff.1 hsegment
    rw [Target.fits, Bool.and_eq_true] at hfits
    exact ⟨hitem, htokens, segment, t, hrun, hone, htarget, hfits.1, hfits.2, hscore.symm⟩
  · rintro ⟨hitem, htokens, segment, t, hrun, hone, htarget, hcovers, hcarried, hscore⟩
    refine ⟨segment.words, hrun, mem_findsIn_iff.2 ⟨segment, t,
      Run.segment?_eq_some_iff.2 ⟨hone, rfl⟩, htarget, hitem, ?_, hscore.symm, htokens⟩⟩
    rw [Target.fits, hcovers, hcarried]
    rfl

/-- The finds are gathered and then sorted. -/
theorem targets_eq_mergeSort (scene : Scene α) (cart : Cart) (span : Span) :
    scene.targets cart span = (Ranking.gather (scene.finds cart span)).mergeSort
      (Ranking.ranksBefore fun item => (cart.recency? item.uid).getD 0) := rfl

/-- What is listed is a find. -/
theorem mem_finds_of_mem_targets {target : Scored Item} (h : target ∈ scene.targets cart span) :
    target ∈ scene.finds cart span :=
  Ranking.mem_of_mem_ofFinds h

/-- Where numbers tell the items of a cart apart, each item that is found is listed. -/
theorem exists_target_of_mem_finds (huids : (cart.items.map Item.uid).Nodup) {find : Scored Item}
    (h : find ∈ scene.finds cart span) :
    ∃ target ∈ scene.targets cart span, target.value = find.value := by
  obtain ⟨target, htarget, hkey⟩ := Ranking.exists_mem_ofFinds _ h
  have huid : target.value.uid = find.value.uid := congrArg (fun k => (ofLex k).1) hkey
  exact ⟨target, htarget,
    List.inj_on_of_nodup_map huids (mem_items_of_mem_targets htarget) (mem_finds_iff.1 h).1 huid⟩

/-- Where numbers tell the items of a cart apart, finds of one number are finds of one item. -/
theorem nodup_uid_targets (scene : Scene α) (span : Span)
    (huids : (cart.items.map Item.uid).Nodup) :
    ((scene.targets cart span).map (·.value.uid)).Nodup := by
  have hkeys := List.pairwise_map.1 (Ranking.nodup_key_ofFinds
    (fun item => (cart.recency? item.uid).getD 0) (scene.finds cart span))
  refine List.pairwise_map.2 (hkeys.imp_of_mem fun {a b} ha hb hne huid => hne ?_)
  have hvalue : a.value = b.value :=
    List.inj_on_of_nodup_map huids (mem_items_of_mem_targets ha) (mem_items_of_mem_targets hb) huid
  rw [Ranking.key, Ranking.key, hvalue]

/-- Where numbers tell the items of a cart apart, of two listed items with one score the first is
the later one in the cart. -/
theorem pairwise_targets (huids : (cart.items.map Item.uid).Nodup) :
    (scene.targets cart span).Pairwise fun a b => b.score < a.score ∨ a.score = b.score ∧
      ∃ i j : Nat, cart.items[i]? = some a.value ∧ cart.items[j]? = some b.value ∧ j < i := by
  have hranked := Ranking.pairwise_ofFinds (fun item => (cart.recency? item.uid).getD 0)
    (scene.finds cart span)
  have hdistinct := List.pairwise_map.1 (scene.nodup_uid_targets span huids)
  refine (hranked.and hdistinct).imp_of_mem fun {a b} ha hb hab => ?_
  obtain ⟨hab | ⟨hscore, hposition⟩, hne⟩ := hab
  · exact .inl hab
  · obtain ⟨i, hi⟩ := List.mem_iff_getElem?.1 (mem_items_of_mem_targets ha)
    obtain ⟨j, hj⟩ := List.mem_iff_getElem?.1 (mem_items_of_mem_targets hb)
    rw [Cart.recency?_of_getElem? huids hi, Cart.recency?_of_getElem? huids hj] at hposition
    refine .inr ⟨hscore, i, j, hi, hj, Nat.lt_of_le_of_ne hposition fun heq => hne ?_⟩
    rw [heq, hi, Option.some_inj] at hj
    rw [hj]

/-- The words "the large cone", in a coffee shop. The first one is not explained. -/
def theLargeCone : Scene Float where
  menu := CoffeeShop.menu
  lattice := ⟨[[.filler "the"], [⟨.attribute 3 "large", 1, 1⟩],
    [⟨.entity CoffeeShop.cone "cone", 1, 1⟩]]⟩

/-- A small cone, two large ones and a coffee, with the numbers 1 to 4. -/
def conesAndCoffee : Cart :=
  Cart.empty.addAll [.ofKey ⟨CoffeeShop.cone, 0⟩ 1, .ofKey ⟨CoffeeShop.cone, 2⟩ 1,
    .ofKey ⟨CoffeeShop.cone, 2⟩ 1, .ofKey ⟨CoffeeShop.coffee, 1⟩ 1]

end Scene

end SpokenOrder
