import SpokenOrder.Particulars.Merge

/-!
# What a merge keeps

A merge offers candidates one by one, and each that is accepted is put among the children. So a
property of the children that putting a legal candidate keeps is kept by the whole merge
(`Menu.mergeParts_induction`). Candidates are sold, have no number and no children of their own
(`Menu.eq_ofKey_of_mem_candidates`). Putting a child among others adds to one of the same variant,
displaces the first that it conflicts with, or adds the child behind all of them (`Menu.Put`).

A quantity that outgrows its bound begins to count at 0 again. Where the parts bring in less of each
option than that (`Menu.HasRoom`), no quantity does (`Menu.mergeParts_induction_of_hasRoom`).
-/

namespace SpokenOrder.Menu

variable {menu : Menu} {parent : Key}

/-! ## Candidates -/

/-- The items of a recipe are not placed, have no children and are on sale. -/
theorem eq_ofKey_of_mem_recipeItems {recipe : Recipe} {child : Item}
    (h : child ∈ menu.recipeItems recipe) :
    child = Item.ofKey child.key child.quantity ∧ menu.catalog.hasKey child.key = true := by
  obtain ⟨option, -, hoption⟩ := List.mem_filterMap.1 h
  obtain ⟨key, -, hkey⟩ := Option.bind_eq_some_iff.1 hoption
  split at hkey
  · next hsold => cases hkey; exact ⟨rfl, hsold⟩
  · cases hkey

/-- A candidate is sold, and it has neither a number nor children. -/
theorem eq_ofKey_of_mem_candidates {part : Part} {child : Item}
    (h : child ∈ menu.candidates parent part) :
    child = Item.ofKey child.key child.quantity ∧ menu.catalog.hasKey child.key = true := by
  cases part with
  | option pid attributes quantity tokens =>
    simp only [candidates, Option.mem_toList, Option.map_eq_some_iff,
      Option.filter_eq_some_iff] at h
    obtain ⟨key, ⟨-, hsold⟩, rfl⟩ := h
    exact ⟨rfl, hsold⟩
  | recipe rid tokens =>
    rw [candidates] at h
    cases hrecipe : menu.cookbook.recipeFor? rid parent with
    | none => rw [hrecipe] at h; cases h
    | some recipe => rw [hrecipe] at h; exact eq_ofKey_of_mem_recipeItems h

/-! ## Putting a child among others -/

/-- Where an element is found, the list splits in front of it and behind it. -/
theorem exists_split_of_findIdx? {β : Type} {p : β → Bool} {xs : List β} {i : Nat}
    (h : xs.findIdx? p = some i) : ∃ before x after, xs = before ++ x :: after ∧
      before.length = i ∧ p x = true ∧ ∀ y ∈ before, p y = false := by
  induction xs generalizing i with
  | nil => cases h
  | cons x xs ih =>
    rw [List.findIdx?_cons] at h
    split at h
    · next hx =>
      cases h
      exact ⟨[], x, xs, rfl, rfl, hx, fun _ hy => nomatch hy⟩
    · next hx =>
      obtain ⟨j, hj, rfl⟩ := Option.map_eq_some_iff.1 h
      obtain ⟨before, y, after, rfl, rfl, hy, hbefore⟩ := ih hj
      refine ⟨x :: before, y, after, rfl, rfl, hy, fun z hz => ?_⟩
      rcases List.mem_cons.1 hz with rfl | hz
      · exact Bool.eq_false_iff.2 hx
      · exact hbefore z hz

/-- The element behind some others is modified at their number. -/
theorem modify_append_cons {β : Type} (f : β → β) (before after : List β) (x : β) :
    (before ++ x :: after).modify before.length f = before ++ f x :: after := by
  induction before with
  | nil => rfl
  | cons y ys ih => rw [List.cons_append, List.length_cons, List.modify_succ_cons, ih]; rfl

/-- What putting a child among others on a parent can come to. -/
inductive Put (menu : Menu) (parent : Key) (child : Item) : List Item → List Item → Prop
  /-- One of the same variant becomes more, or begins to count again at 0. -/
  | toppedUp {before after : List Item} {same : Item} : same.key = child.key →
      Put menu parent child (before ++ same :: after)
        (before ++ { same with
          quantity := (same.quantity + child.quantity) % quantityBound } :: after)
  /-- The first that conflicts with the child makes room for it. -/
  | displaced {before after : List Item} {rival : Item} :
      (∀ c ∈ before ++ rival :: after, c.key ≠ child.key) →
      (∀ c ∈ before, menu.composition.conflicts parent c.key child.key = false) →
      menu.composition.conflicts parent rival.key child.key = true →
      Put menu parent child (before ++ rival :: after) (before ++ child :: after)
  /-- The child comes behind all others. -/
  | appended {children : List Item} : (∀ c ∈ children, c.key ≠ child.key) →
      (∀ c ∈ children, menu.composition.conflicts parent c.key child.key = false) →
      Put menu parent child children (children ++ [child])

/-- What `putChild` does is one of the ways to put a child among others. -/
theorem put_putChild (parent : Key) (children : List Item) (child : Item) :
    Put menu parent child children (menu.putChild parent children child) := by
  unfold putChild
  split
  · next i hfound =>
    obtain ⟨before, same, after, rfl, rfl, hsame, -⟩ := exists_split_of_findIdx? hfound
    rw [modify_append_cons]
    exact .toppedUp (by simpa using hsame)
  · next hnone =>
    have hother : ∀ c ∈ children, c.key ≠ child.key := by
      simpa using List.findIdx?_eq_none_iff.1 hnone
    split
    · next i hfound =>
      obtain ⟨before, rival, after, rfl, rfl, hrival, hbefore⟩ := exists_split_of_findIdx? hfound
      rw [List.set_append_right _ _ (Nat.le_refl _), Nat.sub_self, List.set_cons_zero]
      exact .displaced hother hbefore hrival
    · next hclear => exact .appended hother (List.findIdx?_eq_none_iff.1 hclear)

/-- After a child was put among others, there are these, the child itself, and one of its variant
with more of it. -/
theorem Put.mem {child c : Item} {children result : List Item}
    (h : Put menu parent child children result) (hc : c ∈ result) :
    c ∈ children ∨ c = child ∨ ∃ same ∈ children, same.key = child.key ∧
      c = { same with quantity := (same.quantity + child.quantity) % quantityBound } := by
  cases h with
  | @toppedUp before after same hsame =>
    rcases List.mem_append.1 hc with hc | hc
    · exact .inl (List.mem_append_left _ hc)
    · rcases List.mem_cons.1 hc with rfl | hc
      · exact .inr (.inr ⟨same, List.mem_append_right _ List.mem_cons_self, hsame, rfl⟩)
      · exact .inl (List.mem_append_right _ (List.mem_cons_of_mem _ hc))
  | displaced _ _ _ =>
    rcases List.mem_append.1 hc with hc | hc
    · exact .inl (List.mem_append_left _ hc)
    · rcases List.mem_cons.1 hc with rfl | hc
      · exact .inr (.inl rfl)
      · exact .inl (List.mem_append_right _ (List.mem_cons_of_mem _ hc))
  | appended _ _ =>
    rcases List.mem_append.1 hc with hc | hc
    · exact .inl hc
    · exact .inr (.inl (List.mem_singleton.1 hc))

/-- A relation of the keys of earlier children to those of later ones is kept when a child is put
among them, if all that the child does not conflict with are so related to it, and if the child is
so related to all that a child which it displaces was. -/
theorem Put.pairwise {R : Key → Key → Prop} {child : Item} {children result : List Item}
    (h : Put menu parent child children result)
    (hclear : ∀ c : Item, menu.composition.conflicts parent c.key child.key = false →
      R c.key child.key)
    (hreplace : ∀ rival c : Item, menu.composition.conflicts parent rival.key child.key = true →
      R rival.key c.key → R child.key c.key)
    (hchildren : (children.map (·.key)).Pairwise R) : (result.map (·.key)).Pairwise R := by
  cases h with
  | toppedUp hsame => simpa using hchildren
  | @displaced before after rival _ hbefore hrival =>
    simp only [List.pairwise_map, List.pairwise_append, List.pairwise_cons, List.mem_cons,
      forall_eq_or_imp] at hchildren ⊢
    obtain ⟨hbefores, ⟨hrivals, hafters⟩, hacross⟩ := hchildren
    exact ⟨hbefores, ⟨fun c hc => hreplace rival c hrival (hrivals c hc), hafters⟩,
      fun c hc => ⟨hclear c (hbefore c hc), (hacross c hc).2⟩⟩
  | appended _ hnone =>
    rw [List.map_append]
    refine List.pairwise_append.2
      ⟨hchildren, List.pairwise_singleton _ _, fun key hkey new hnew => ?_⟩
    obtain ⟨c, hc, rfl⟩ := List.mem_map.1 hkey
    rw [List.map_singleton, List.mem_singleton] at hnew
    exact hnew ▸ hclear c (hnone c hc)

/-! ## A whole merge -/

/-- The options that parts stand for on a parent. -/
def offered (menu : Menu) (parent : Key) (parts : List Part) : List Item :=
  parts.flatMap (menu.candidates parent)

/-- What a merge makes of children when options are offered in turn: each is put among the children,
if it is legal, or passed over. -/
inductive Merges (menu : Menu) (parent : Key) : List Item → List Item → List Item → Prop
  | done {children : List Item} : Merges menu parent children [] children
  | passed {children rest merged : List Item} {child : Item} :
      Merges menu parent children rest merged → Merges menu parent children (child :: rest) merged
  | put {children rest merged : List Item} {child : Item} :
      menu.composition.isValidChild parent child.key = true →
      Merges menu parent (menu.putChild parent children child) rest merged →
      Merges menu parent children (child :: rest) merged

section
variable {children more rest merged last : List Item} {P : List Item → Prop}

/-- One merge goes on where another one ends. -/
theorem Merges.trans (h : menu.Merges parent children more merged)
    (hlast : menu.Merges parent merged rest last) :
    menu.Merges parent children (more ++ rest) last := by
  induction h with
  | done => exact hlast
  | passed _ ih => exact .passed (ih hlast)
  | put hvalid _ ih => exact .put hvalid (ih hlast)

/-- Children that are offered in turn are merged. -/
theorem merges_offerChildren (parent : Key) (m : Merge) (offered : List Item) :
    menu.Merges parent m.children offered (menu.offerChildren parent m offered).1.children := by
  induction offered generalizing m with
  | nil => exact .done
  | cons child rest ih =>
    have hrest := ih (menu.offerChild parent m child).1
    rw [offerChildren]
    dsimp only
    unfold offerChild at hrest ⊢
    split at hrest
    · next hvalid =>
      rw [if_pos hvalid]
      dsimp only at hrest ⊢
      split at hrest
      · next hpasses =>
        rw [if_pos hpasses]
        exact .put hvalid hrest
      · next hpasses =>
        rw [if_neg hpasses]
        exact .passed hrest
    · next hvalid =>
      rw [if_neg hvalid]
      exact .passed hrest

/-- So are what some parts stand for. -/
theorem merges_mergeParts (menu : Menu) (parent : Key) (children : List Item)
    (parts : List Part) : menu.Merges parent children (menu.offered parent parts)
      (menu.mergeParts parent children parts).1 := by
  suffices hfold : ∀ m : Merge, menu.Merges parent m.children (menu.offered parent parts)
      (parts.foldl (menu.offerPart parent) m).children from
    hfold ⟨children, menu.composition.admission parent, 0⟩
  induction parts with
  | nil => exact fun _ => .done
  | cons part rest ih =>
    intro m
    have hpart : (menu.offerPart parent m part).children =
        (menu.offerChildren parent m (menu.candidates parent part)).1.children := by
      unfold offerPart
      dsimp only
      split <;> rfl
    have hrest := ih (menu.offerPart parent m part)
    rw [hpart] at hrest
    exact (merges_offerChildren parent m _).trans hrest

/-- A property of the children that is kept when a legal candidate is put among them is kept by a
merge. -/
theorem mergeParts_induction {parts : List Part}
    (hput : ∀ children child, (∃ part ∈ parts, child ∈ menu.candidates parent part) →
      menu.composition.isValidChild parent child.key = true →
      P children → P (menu.putChild parent children child))
    (h : P children) : P (menu.mergeParts parent children parts).1 := by
  have hoffered : ∀ child ∈ menu.offered parent parts,
      ∃ part ∈ parts, child ∈ menu.candidates parent part :=
    fun _ hchild => List.mem_flatMap.1 hchild
  have hmerges := menu.merges_mergeParts parent children parts
  generalize menu.offered parent parts = offered at hoffered hmerges
  generalize (menu.mergeParts parent children parts).1 = merged at hmerges
  induction hmerges with
  | done => exact h
  | passed _ ih => exact ih h fun child hchild => hoffered child (List.mem_cons_of_mem _ hchild)
  | put hvalid _ ih =>
    exact ih (hput _ _ (hoffered _ List.mem_cons_self) hvalid h)
      fun child hchild => hoffered child (List.mem_cons_of_mem _ hchild)

end

/-! ## Quantities that add up -/

/-- How many of a variant there are among some items. -/
def quantityOf (key : Key) : List Item → Nat
  | [] => 0
  | item :: rest => (if item.key = key then item.quantity else 0) + quantityOf key rest

/-- The first item counts if it is of the variant. -/
theorem quantityOf_cons (key : Key) (x : Item) (xs : List Item) :
    quantityOf key (x :: xs) = (if x.key = key then x.quantity else 0) + quantityOf key xs := rfl

/-- What is among two lists of items is counted in each. -/
theorem quantityOf_append (key : Key) (xs ys : List Item) :
    quantityOf key (xs ++ ys) = quantityOf key xs + quantityOf key ys := by
  induction xs with
  | nil => exact (Nat.zero_add _).symm
  | cons x rest ih => rw [List.cons_append, quantityOf_cons, quantityOf_cons, ih, Nat.add_assoc]

/-- There is no less of a variant than one item brings. -/
theorem quantity_le_quantityOf {c : Item} {items : List Item} (h : c ∈ items) :
    c.quantity ≤ quantityOf c.key items := by
  obtain ⟨before, after, rfl⟩ := List.append_of_mem h
  rw [quantityOf_append, quantityOf_cons, if_pos rfl]
  omega

/-- No variant becomes more than there was and was put there. -/
theorem Put.quantityOf_le {child : Item} {children merged : List Item}
    (h : Put menu parent child children merged) (key : Key) :
    quantityOf key merged ≤ quantityOf key children + quantityOf key [child] := by
  cases h with
  | @toppedUp before after same hsame =>
    have hle := Nat.mod_le (same.quantity + child.quantity) quantityBound
    simp only [quantityOf_append, quantityOf_cons, hsame]
    split <;> omega
  | displaced =>
    simp only [quantityOf_append, quantityOf_cons]
    omega
  | appended => exact Nat.le_of_eq (quantityOf_append _ _ _)

/-- Together with the children, the parts bring in less of each option than a quantity can hold. -/
def HasRoom (menu : Menu) (parent : Key) (children : List Item) (parts : List Part) : Prop :=
  ∀ child ∈ menu.offered parent parts,
    quantityOf child.key children + quantityOf child.key (menu.offered parent parts) <
      quantityBound

/-- Where there is room, a property of the children is kept by a merge even if it is kept only when
a legal candidate is put among children whose quantities do not outgrow their bound. -/
theorem mergeParts_induction_of_hasRoom {P : List Item → Prop} {children : List Item}
    {parts : List Part} (hroom : menu.HasRoom parent children parts)
    (hput : ∀ children child, (∃ part ∈ parts, child ∈ menu.candidates parent part) →
      menu.composition.isValidChild parent child.key = true →
      (∀ same ∈ children, same.key = child.key →
        same.quantity + child.quantity < quantityBound) →
      P children → P (menu.putChild parent children child))
    (h : P children) : P (menu.mergeParts parent children parts).1 := by
  have hoffered : ∀ child ∈ menu.offered parent parts,
      ∃ part ∈ parts, child ∈ menu.candidates parent part :=
    fun _ hchild => List.mem_flatMap.1 hchild
  have hmerges := menu.merges_mergeParts parent children parts
  rw [HasRoom] at hroom
  generalize menu.offered parent parts = offered at hoffered hmerges hroom
  generalize (menu.mergeParts parent children parts).1 = merged at hmerges
  -- What is still to be offered has room beside what is there.
  induction hmerges with
  | done => exact h
  | passed _ ih =>
    refine ih h (fun child hchild => hoffered child (List.mem_cons_of_mem _ hchild))
      fun child hchild => ?_
    have hlt := hroom child (List.mem_cons_of_mem _ hchild)
    rw [quantityOf_cons] at hlt
    omega
  | @put children rest merged new hvalid _ ih =>
    have hthere : Put menu parent new children (menu.putChild parent children new) :=
      put_putChild parent children new
    refine ih (hput _ _ (hoffered _ List.mem_cons_self) hvalid (fun same hsame hkey => ?_) h)
      (fun child hchild => hoffered child (List.mem_cons_of_mem _ hchild)) fun child hchild => ?_
    · have hlt := hroom new List.mem_cons_self
      have hle := quantity_le_quantityOf hsame
      rw [hkey] at hle
      rw [quantityOf_cons, if_pos rfl] at hlt
      omega
    · have hlt := hroom child (List.mem_cons_of_mem _ hchild)
      have hle := hthere.quantityOf_le child.key
      rw [quantityOf_cons] at hlt hle
      simp only [quantityOf] at hle hlt ⊢
      omega

end SpokenOrder.Menu
