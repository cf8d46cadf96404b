import Mathlib.Algebra.Ring.Nat
import Mathlib.Data.List.Nodup
import SpokenOrder.CoffeeShop
import SpokenOrder.Proofs.Particulars.Admission

/-!
# What becomes of children in a merge

Which candidates a merge accepts does not depend on the children: those that may go on the parent
are offered to its gate in turn, and what the gate lets through is accepted (`Menu.acceptances`). A
merge puts the accepted candidates among the children one after another, and it rejects the tokens
of the parts that have none (`Menu.foldl_offerPart_eq`). Each child stays in its place and becomes
more by the accepted candidates of its variant, unless one that conflicts with it has displaced it
(`Menu.Becomes`).
-/

namespace SpokenOrder.Menu

/-! ## Accepted candidates -/

section
variable (menu : Menu) (parent : Key)

/-- The candidates for a part that may go on the parent. -/
def legal (part : Part) : List Item :=
  (menu.candidates parent part).filter fun child => menu.composition.isValidChild parent child.key

/-- Each part with those of its candidates that are accepted, when parts are offered in turn. -/
def acceptances : Admission → List Part → List (Part × List Item)
  | _, [] => []
  | gate, part :: rest =>
    (part, gate.letThrough (·.key.pid) (menu.legal parent part)) ::
      acceptances (gate.after (·.key.pid) (menu.legal parent part)) rest

/-- The candidates that are let through are accepted, and put among the children in turn. -/
theorem offerChildren_eq (m : Merge) (offered : List Item) :
    menu.offerChildren parent m offered =
      let legal := offered.filter fun child => menu.composition.isValidChild parent child.key
      let accepted := m.gate.letThrough (·.key.pid) legal
      (⟨accepted.foldl (menu.putChild parent) m.children, m.gate.after (·.key.pid) legal,
        m.rejected⟩, !accepted.isEmpty) := by
  induction offered generalizing m with
  | nil => rfl
  | cons child rest ih =>
    simp only [offerChildren, ih]
    unfold offerChild
    cases hvalid : menu.composition.isValidChild parent child.key with
    | false => simp [hvalid]
    | true =>
      cases hpasses : (m.gate.offer child.key.pid).1 with
      | false => simp [hvalid, hpasses, Admission.letThrough, Admission.after]
      | true => simp [hvalid, hpasses, Admission.letThrough, Admission.after]

/-- What offering a part does: its accepted candidates are put among the children, and its tokens
are rejected if there is none. -/
theorem offerPart_eq (m : Merge) (part : Part) :
    menu.offerPart parent m part =
      let accepted := m.gate.letThrough (·.key.pid) (menu.legal parent part)
      ⟨accepted.foldl (menu.putChild parent) m.children,
        m.gate.after (·.key.pid) (menu.legal parent part),
        m.rejected + if accepted.isEmpty then part.tokens else 0⟩ := by
  unfold offerPart
  rw [offerChildren_eq]
  dsimp only
  rw [← legal]
  cases (m.gate.letThrough (·.key.pid) (menu.legal parent part)).isEmpty <;> rfl

/-- Run lemma: all accepted candidates are put among the children in turn, and the tokens of the
parts without any are rejected. -/
theorem foldl_offerPart_eq (m : Merge) (parts : List Part) :
    let shares := menu.acceptances parent m.gate parts
    (parts.foldl (menu.offerPart parent) m).children =
        (shares.flatMap Prod.snd).foldl (menu.putChild parent) m.children ∧
      (parts.foldl (menu.offerPart parent) m).rejected =
        m.rejected + ((shares.filter (·.2.isEmpty)).map (·.1.tokens)).sum := by
  induction parts generalizing m with
  | nil => exact ⟨rfl, rfl⟩
  | cons part rest ih =>
    have hrest := ih (menu.offerPart parent m part)
    simp only [offerPart_eq] at hrest
    simp only [acceptances]
    rw [List.foldl_cons, offerPart_eq, hrest.1, hrest.2, List.flatMap_cons, List.foldl_append]
    refine ⟨rfl, ?_⟩
    cases hnone : (m.gate.letThrough (·.key.pid) (menu.legal parent part)).isEmpty with
    | false => simp [hnone]
    | true => simp [hnone, Nat.add_assoc]

variable {menu parent}

/-- Each part is judged, in its order. -/
theorem map_fst_acceptances (gate : Admission) (parts : List Part) :
    (menu.acceptances parent gate parts).map Prod.fst = parts := by
  induction parts generalizing gate with
  | nil => rfl
  | cons part rest ih => rw [acceptances, List.map_cons, ih]

/-- How parts are judged does not depend on later ones. -/
theorem acceptances_take (gate : Admission) (parts : List Part) (n : Nat) :
    menu.acceptances parent gate (parts.take n) = (menu.acceptances parent gate parts).take n := by
  induction parts generalizing gate n with
  | nil => simp [acceptances]
  | cons part rest ih =>
    cases n with
    | zero => rfl
    | succ n => rw [List.take_succ_cons, acceptances, acceptances, List.take_succ_cons, ih]

/-- The accepted candidates of all parts are what the gate lets through of all legal ones. -/
theorem flatMap_snd_acceptances (gate : Admission) (parts : List Part) :
    (menu.acceptances parent gate parts).flatMap Prod.snd =
      gate.letThrough (·.key.pid) (parts.flatMap (menu.legal parent)) := by
  induction parts generalizing gate with
  | nil => rfl
  | cons part rest ih =>
    rw [acceptances, List.flatMap_cons, ih, List.flatMap_cons, Admission.letThrough_append]

/-- What is accepted is sold and may go on the parent, and it has neither a number nor children. -/
theorem forall_mem_acceptances {gate : Admission} {parts : List Part} {a : Item}
    (h : a ∈ (menu.acceptances parent gate parts).flatMap Prod.snd) :
    a = Item.ofKey a.key a.quantity ∧ menu.catalog.hasKey a.key = true ∧
      menu.composition.isValidChild parent a.key = true := by
  rw [flatMap_snd_acceptances] at h
  obtain ⟨part, -, hlegal⟩ := List.mem_flatMap.1 ((Admission.letThrough_sublist _ _ _).subset h)
  obtain ⟨hcandidate, hvalid⟩ := List.mem_filter.1 hlegal
  obtain ⟨heq, hsold⟩ := eq_ofKey_of_mem_candidates hcandidate
  exact ⟨heq, hsold, hvalid⟩

end

/-! ## A child in its place -/

/-- What a quantity is after more was added to it: the sum, or what the bound of quantities leaves of
a sum that outgrows it. -/
structure AddsUp (before more after : Nat) : Prop where
  exact : before + more < quantityBound → after = before + more
  wrapped : after % quantityBound = (before + more) % quantityBound

theorem addsUp_zero (quantity : Nat) : AddsUp quantity 0 quantity := ⟨fun _ => rfl, rfl⟩

/-- What is kept of a sum adds up. -/
theorem addsUp_mod (before more : Nat) :
    AddsUp before more ((before + more) % quantityBound) :=
  ⟨Nat.mod_eq_of_lt, Nat.mod_mod _ _⟩

/-- What is added in two steps is added. -/
theorem AddsUp.trans {before more between rest after : Nat} (h : AddsUp before more between)
    (hrest : AddsUp between rest after) : AddsUp before (more + rest) after where
  exact hlt := by
    have hfirst := h.exact (by omega)
    have hsecond := hrest.exact (by omega)
    omega
  wrapped := by
    calc after % quantityBound = (between % quantityBound + rest) % quantityBound := by
          rw [hrest.wrapped, Nat.mod_add_mod]
      _ = (before + (more + rest)) % quantityBound := by
          rw [h.wrapped, Nat.mod_add_mod, Nat.add_assoc]

/-- A child that comes from an accepted candidate. -/
structure Fresh (accepted : List Item) (c : Item) : Prop where
  uid : c.uid = 0
  children : c.children = []
  key : ∃ a ∈ accepted, a.key = c.key

/-- What becomes of a child where accepted candidates are put among it and others. It stays and
becomes more by those of its variant, or one that conflicts with it displaces it. -/
inductive Becomes (menu : Menu) (parent : Key) (accepted : List Item) (c : Item) : Item → Prop
  | kept {quantity : Nat} : AddsUp c.quantity (quantityOf c.key accepted) quantity →
      Becomes menu parent accepted c { c with quantity }
  | displaced {a d : Item} : a ∈ accepted → a.key ≠ c.key →
      menu.composition.conflicts parent c.key a.key = true → Fresh accepted d →
      Becomes menu parent accepted c d

section
variable {menu : Menu} {parent : Key} {xs ys : List Item} {c d e : Item}

/-- What comes from some candidates comes from these and others. -/
theorem Fresh.append_left (h : Fresh ys c) (xs : List Item) : Fresh (xs ++ ys) c where
  uid := h.uid
  children := h.children
  key := h.key.imp fun _ ha => ⟨List.mem_append_right _ ha.1, ha.2⟩

/-- Whatever becomes of a fresh child, a fresh child is in its place. -/
theorem Fresh.becomes (h : Fresh xs c) (hd : menu.Becomes parent ys c d) : Fresh (xs ++ ys) d := by
  cases hd with
  | kept _ => exact ⟨h.uid, h.children, h.key.imp fun _ ha => ⟨List.mem_append_left _ ha.1, ha.2⟩⟩
  | displaced _ _ _ hfresh => exact hfresh.append_left xs

/-- A child of which no more is put there stays as it is. -/
theorem becomes_of_quantityOf_eq_zero (h : quantityOf c.key xs = 0) :
    menu.Becomes parent xs c c := by
  have hzero : AddsUp c.quantity (quantityOf c.key xs) c.quantity := h ▸ addsUp_zero c.quantity
  cases c
  exact .kept hzero

/-- Two steps make one. -/
theorem Becomes.trans (h : menu.Becomes parent xs c d) (hd : menu.Becomes parent ys d e) :
    menu.Becomes parent (xs ++ ys) c e := by
  cases h with
  | kept hsum =>
    cases hd with
    | kept hmore =>
      refine .kept ?_
      rw [quantityOf_append]
      exact hsum.trans hmore
    | displaced ha hkey hconflict hfresh =>
      exact .displaced (List.mem_append_right _ ha) hkey hconflict (hfresh.append_left xs)
  | displaced ha hkey hconflict hfresh =>
    exact .displaced (List.mem_append_left _ ha) hkey hconflict (hfresh.becomes hd)

end

/-! ## All children -/

/-- What becomes of the children where accepted candidates are put among them: each of them in its
place, and fresh ones behind. -/
structure Grows (menu : Menu) (parent : Key) (accepted children merged : List Item) : Prop where
  nodup : (merged.map (·.key)).Nodup
  becomes : ∀ (i : Nat) (c : Item), children[i]? = some c →
    ∃ d, merged[i]? = some d ∧ menu.Becomes parent accepted c d
  fresh : ∀ (i : Nat) (d : Item), children.length ≤ i → merged[i]? = some d → Fresh accepted d

section
variable {menu : Menu} {parent : Key} {xs ys children merged last : List Item} {child : Item}

/-- Children never become fewer. -/
theorem Grows.length_le (h : menu.Grows parent xs children merged) :
    children.length ≤ merged.length := by
  by_contra hlt
  obtain ⟨d, hd, -⟩ := h.becomes merged.length _ (List.getElem?_eq_getElem (Nat.lt_of_not_le hlt))
  simp at hd

/-- What becomes of children in two goes becomes of them in one. -/
theorem Grows.trans (h : menu.Grows parent xs children merged)
    (hlast : menu.Grows parent ys merged last) : menu.Grows parent (xs ++ ys) children last where
  nodup := hlast.nodup
  becomes i c hc := by
    obtain ⟨d, hd, hcd⟩ := h.becomes i c hc
    obtain ⟨e, he, hde⟩ := hlast.becomes i d hd
    exact ⟨e, he, hcd.trans hde⟩
  fresh i e hi he := by
    rcases Nat.lt_or_ge i merged.length with hlt | hge
    · obtain ⟨e', he', hde⟩ := hlast.becomes i _ (List.getElem?_eq_getElem hlt)
      obtain rfl := Option.some.inj (he.symm.trans he')
      exact (h.fresh i _ hi (List.getElem?_eq_getElem hlt)).becomes hde
    · exact (hlast.fresh i e hge he).append_left xs

/-- Where nothing is put, the children stay as they are. -/
theorem grows_nil (hkeys : (children.map (·.key)).Nodup) :
    menu.Grows parent [] children children where
  nodup := hkeys
  becomes _ c hc := ⟨c, hc, becomes_of_quantityOf_eq_zero rfl⟩
  fresh i d hi hd := by simp [hi] at hd

/-- In the midst of others, a child has a variant of its own. -/
theorem nodup_keys_middle {before after : List Item} {x : Item} :
    ((before ++ x :: after).map (·.key)).Nodup ↔
      (∀ c ∈ before ++ after, c.key ≠ x.key) ∧ ((before ++ after).map (·.key)).Nodup := by
  rw [List.map_append, List.map_cons, List.nodup_middle, List.nodup_cons, ← List.map_append,
    List.mem_map]
  simp

/-- Where one element is put in the place of another, all others stay in theirs. -/
theorem getElem?_exchange {β : Type} {before after : List β} {x z : β} (y : β) {i : Nat}
    (h : (before ++ x :: after)[i]? = some z) :
    z ∈ before ++ after ∧ (before ++ y :: after)[i]? = some z ∨
      z = x ∧ (before ++ y :: after)[i]? = some y := by
  rcases Nat.lt_trichotomy i before.length with hlt | rfl | hgt
  · rw [List.getElem?_append_left hlt] at h ⊢
    exact .inl ⟨List.mem_append_left _ (List.mem_of_getElem? h), h⟩
  · simp at h ⊢
    exact .inr h.symm
  · obtain ⟨n, rfl⟩ := Nat.exists_eq_add_of_lt hgt
    have hskip : ∀ w : β, (before ++ w :: after)[before.length + n + 1]? = after[n]? := by
      intro w
      rw [Nat.add_assoc, List.getElem?_append_right (Nat.le_add_right _ _),
        Nat.add_sub_cancel_left, List.getElem?_cons_succ]
    rw [hskip] at h ⊢
    exact .inl ⟨List.mem_append_right _ (List.mem_of_getElem? h), h⟩

/-- Step lemma: what becomes of the children where one candidate is put among them. -/
theorem Put.grows (h : menu.Put parent child children merged)
    (hchild : child = Item.ofKey child.key child.quantity)
    (hkeys : (children.map (·.key)).Nodup) : menu.Grows parent [child] children merged := by
  have hfresh : Fresh [child] child := by
    refine ⟨?_, ?_, child, List.mem_singleton_self _, rfl⟩ <;> rw [hchild] <;> rfl
  have hother : ∀ {c : Item}, c.key ≠ child.key → menu.Becomes parent [child] c c := fun hne =>
    becomes_of_quantityOf_eq_zero (by simp [quantityOf, Ne.symm hne])
  cases h with
  | @toppedUp before after same hsame =>
    refine ⟨by simpa using hkeys, fun i c hc => ?_, fun i d hi hd => ?_⟩
    · rcases getElem?_exchange { same with
          quantity := (same.quantity + child.quantity) % quantityBound } hc with
        ⟨hmem, hd⟩ | ⟨rfl, hd⟩
      · exact ⟨c, hd, hother (hsame ▸ (nodup_keys_middle.1 hkeys).1 c hmem)⟩
      · have hmore : quantityOf c.key [child] = child.quantity := by simp [quantityOf, hsame]
        exact ⟨_, hd, .kept (hmore ▸ addsUp_mod c.quantity child.quantity)⟩
    · have hlt := (List.getElem?_eq_some_iff.1 hd).1
      simp only [List.length_append, List.length_cons] at hi hlt
      omega
  | @displaced before after rival hne hbefore hrival =>
    refine ⟨?_, fun i c hc => ?_, fun i d hi hd => ?_⟩
    · refine nodup_keys_middle.2 ⟨fun c hc => hne c ?_, (nodup_keys_middle.1 hkeys).2⟩
      exact (List.Sublist.append_left (List.sublist_cons_self _ _) _).subset hc
    · rcases getElem?_exchange child hc with ⟨hmem, hd⟩ | ⟨rfl, hd⟩
      · exact ⟨c, hd, hother (hne c (List.mem_of_getElem? hc))⟩
      · exact ⟨child, hd, .displaced (List.mem_singleton_self _)
          (Ne.symm (hne c (List.mem_of_getElem? hc))) hrival hfresh⟩
    · have hlt := (List.getElem?_eq_some_iff.1 hd).1
      simp only [List.length_append, List.length_cons] at hi hlt
      omega
  | appended hne hclear =>
    refine ⟨?_, fun i c hc => ⟨c, ?_, hother (hne c (List.mem_of_getElem? hc))⟩,
      fun i d hi hd => ?_⟩
    · rw [List.map_append, List.map_singleton, List.nodup_append]
      refine ⟨hkeys, List.nodup_singleton _, fun key hkey last hlast heq => ?_⟩
      obtain ⟨c, hc, rfl⟩ := List.mem_map.1 hkey
      exact hne c hc (heq.trans (List.mem_singleton.1 hlast))
    · rwa [List.getElem?_append_left (List.getElem?_eq_some_iff.1 hc).1]
    · rw [List.getElem?_append_right hi] at hd
      obtain rfl := List.mem_singleton.1 (List.mem_of_getElem? hd)
      exact hfresh

/-- Run lemma: what becomes of the children where candidates are put among them in turn. -/
theorem grows_foldl_putChild (menu : Menu) (parent : Key) {accepted children : List Item}
    (haccepted : ∀ a ∈ accepted, a = Item.ofKey a.key a.quantity)
    (hkeys : (children.map (·.key)).Nodup) :
    menu.Grows parent accepted children (accepted.foldl (menu.putChild parent) children) := by
  induction accepted generalizing children with
  | nil => exact grows_nil hkeys
  | cons a rest ih =>
    obtain ⟨ha, hrest⟩ := List.forall_mem_cons.1 haccepted
    have hput : menu.Put parent a children (menu.putChild parent children a) :=
      put_putChild parent children a
    have hfirst := hput.grows ha hkeys
    exact hfirst.trans (ih hrest hfirst.nodup)

/-- A merge into children of different variants leaves children of different variants, and no
fewer. Each of the given ones is still in its place, with the same number and children of its own,
and its quantity has grown by the accepted candidates of its variant, up to the bound of quantities;
or an accepted candidate of another variant conflicts with it, and a fresh child is in its place.
All children behind them are fresh: they have no number, no children, and the variant of an accepted
candidate. What is accepted is sold, may go on the parent, and was let through by the gate. Rejected
are the tokens of exactly the parts of which no candidate is accepted, and these parts leave the
children as they are. -/
theorem becomes_mergeParts (menu : Menu) (parent : Key) {children : List Item}
    (hkeys : (children.map (·.key)).Nodup) (parts : List Part) :
    let shares := menu.acceptances parent (menu.composition.admission parent) parts
    let accepted := shares.flatMap Prod.snd
    let merged := menu.mergeParts parent children parts
    (shares.map Prod.fst = parts ∧ accepted = (menu.composition.admission parent).letThrough
        (·.key.pid) (parts.flatMap (menu.legal parent))) ∧
      (∀ a ∈ accepted, menu.catalog.hasKey a.key = true ∧
        menu.composition.isValidChild parent a.key = true) ∧
      children.length ≤ merged.1.length ∧ (merged.1.map (·.key)).Nodup ∧
      (∀ (i : Nat) (c : Item), children[i]? = some c →
        ∃ d, merged.1[i]? = some d ∧ menu.Becomes parent accepted c d) ∧
      (∀ (i : Nat) (d : Item), children.length ≤ i → merged.1[i]? = some d → Fresh accepted d) ∧
      merged.2 = ((shares.filter (·.2.isEmpty)).map (·.1.tokens)).sum ∧
      ∀ (i : Nat) (part : Part), shares[i]? = some (part, []) →
        (menu.mergeParts parent children (parts.take (i + 1))).1 =
          (menu.mergeParts parent children (parts.take i)).1 := by
  intro shares accepted merged
  have hfold : ∀ taken : List Part, (menu.mergeParts parent children taken).1 =
      ((menu.acceptances parent (menu.composition.admission parent) taken).flatMap Prod.snd).foldl
        (menu.putChild parent) children := fun taken =>
    (menu.foldl_offerPart_eq parent ⟨children, menu.composition.admission parent, 0⟩ taken).1
  have hgrows : menu.Grows parent accepted children merged.1 := by
    rw [show merged.1 = accepted.foldl (menu.putChild parent) children from hfold parts]
    exact grows_foldl_putChild menu parent (fun a ha => (forall_mem_acceptances ha).1) hkeys
  refine ⟨⟨map_fst_acceptances _ _, flatMap_snd_acceptances _ _⟩,
    fun a ha => (forall_mem_acceptances ha).2, hgrows.length_le, hgrows.nodup, hgrows.becomes,
    hgrows.fresh, ?_, fun i part hpart => ?_⟩
  · have hrejected :=
      (menu.foldl_offerPart_eq parent ⟨children, menu.composition.admission parent, 0⟩ parts).2
    rwa [Nat.zero_add] at hrejected
  · rw [hfold, hfold, acceptances_take, acceptances_take, List.take_add_one, hpart]
    simp

/-- A coffee has milk and syrup. Half and half displaces the milk, the syrup becomes more, whipped
cream comes behind. Sprinkles do not go on a coffee, and oat milk comes too late. -/
theorem becomes_mergeParts_coffee :
    let menu := CoffeeShop.menu
    let parent : Key := ⟨CoffeeShop.coffee, 1⟩
    let children : List Item :=
      [⟨5, ⟨CoffeeShop.milk, 0⟩, 1, []⟩, ⟨7, ⟨CoffeeShop.vanillaSyrup, 0⟩, 1, []⟩]
    let parts : List Part := [.option CoffeeShop.halfAndHalf [] 1 1,
      .option CoffeeShop.vanillaSyrup [] 2 2, .option CoffeeShop.sprinkles [] 1 1,
      .option CoffeeShop.milk [32] 1 2, .option CoffeeShop.whippedCream [] 1 1]
    let accepted :=
      (menu.acceptances parent (menu.composition.admission parent) parts).flatMap Prod.snd
    let merged := menu.mergeParts parent children parts
    (children.map (·.key)).Nodup ∧
      accepted.map (·.key) = [⟨CoffeeShop.halfAndHalf, 0⟩, ⟨CoffeeShop.vanillaSyrup, 0⟩,
        ⟨CoffeeShop.whippedCream, 0⟩] ∧
      merged.1.map (fun c => (c.uid, c.key, c.quantity)) =
        [(0, ⟨CoffeeShop.halfAndHalf, 0⟩, 1), (7, ⟨CoffeeShop.vanillaSyrup, 0⟩, 3),
          (0, ⟨CoffeeShop.whippedCream, 0⟩, 1)] ∧
      merged.2 = 3 ∧
      ∀ (i : Nat) (c : Item), children[i]? = some c →
        ∃ d, merged.1[i]? = some d ∧ menu.Becomes parent accepted c d := by
  intro menu parent children parts accepted merged
  have hkeys : (children.map (·.key)).Nodup := by decide +kernel
  obtain ⟨-, -, -, -, hbecomes, -⟩ := becomes_mergeParts menu parent hkeys parts
  exact ⟨hkeys, by decide +kernel, by decide +kernel, by decide +kernel, hbecomes⟩

end

end SpokenOrder.Menu
