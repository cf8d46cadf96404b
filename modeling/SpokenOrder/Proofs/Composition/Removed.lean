import SpokenOrder.Proofs.Composition.Legal
import SpokenOrder.Proofs.Intent.Words
import SpokenOrder.Proofs.Particulars.Quantity

/-!
# Removed defaults

An option of quantity 0 is the record of a default option that was taken off its item. As long as
nobody says the number 0, and no quantities add up to their bound (`Menu.EditWithin`), nothing else
has this quantity, with one exception: where another product is put in the place of an item, it takes
over the records of options that may go on it, whether it comes with them or not
(`Menu.quantity_eq_zero_of_hears`).
-/

namespace SpokenOrder

/-! ## Records -/

/-- Options have no options of their own, and those of quantity 0 satisfy a condition. -/
def Forest.Records (S : Key → Prop) (children : Forest) : Prop :=
  ∀ child ∈ children, child.children = [] ∧ (child.quantity = 0 → S child.key)

namespace Forest.Records

variable {menu : Menu} {S : Key → Prop} {children : Forest}

/-- Detaching children does not change what they record. -/
theorem detached_iff : Records S (children.map Item.detached) ↔ Records S children := by
  simp [Records]

/-- A merge of options in positive quantities brings in no record, if there is room. -/
theorem mergeParts {parent : Key} {parts : List Part} (hrecipes : menu.cookbook.Positive)
    (hroom : menu.HasRoom parent children parts) (hparts : ∀ part ∈ parts, part.Positive)
    (h : Records S children) : Records S (menu.mergeParts parent children parts).1 := by
  refine Menu.mergeParts_induction_of_hasRoom (P := Records S) hroom
    (fun merged child ⟨part, hpart, hchild⟩ _ hlt hmerged c hc => ?_) h
  have hpos := Menu.quantity_pos_of_mem_candidates hrecipes (hparts part hpart) hchild
  rcases (menu.put_putChild parent merged child).mem hc with hold | rfl | ⟨same, hsame, hkey, rfl⟩
  · exact hmerged c hold
  · exact ⟨(Menu.eq_ofKey_of_mem_candidates hchild).1 ▸ rfl, fun hzero => absurd hzero hpos.ne'⟩
  · refine ⟨(hmerged same hsame).1, fun hzero => absurd hzero ?_⟩
    dsimp only
    rw [Nat.mod_eq_of_lt (hlt same hsame hkey)]
    exact (Nat.add_pos_right _ hpos).ne'

/-- Taking an option off an item records it only if the item comes with it. -/
theorem withoutOption {parent option : Item} (hnd : (parent.children.map Item.uid).Nodup)
    (hoption : menu.HasOption parent option)
    (hdefault : menu.catalog.isDefaultOption parent.key.pid option.key.pid = true → S option.key)
    (h : Records S parent.children) :
    Records S (menu.withoutOption parent option).children := by
  unfold Menu.withoutOption
  split
  · next hisDefault =>
    split
    · next i hfound =>
      obtain ⟨before, child, after, hchildren, rfl, hchild, -⟩ :=
        Menu.exists_split_of_findIdx? hfound
      rw [Bool.and_eq_true, bne_iff_ne, beq_iff_eq] at hchild
      have hmem : child ∈ parent.children :=
        hchildren ▸ List.mem_append_right _ List.mem_cons_self
      obtain rfl : child = option :=
        hoption.eq_of_uid_eq hnd hmem (hchild.2 ▸ hchild.1) hchild.2
      intro c hc
      dsimp only at hc
      rw [hchildren, Menu.modify_append_cons] at hc
      rcases List.mem_append.1 hc with hc | hc
      · exact h c (hchildren ▸ List.mem_append_left _ hc)
      · rcases List.mem_cons.1 hc with rfl | hc
        · exact ⟨(h child hmem).1, fun _ => hdefault hisDefault⟩
        · exact h c (hchildren ▸ List.mem_append_right _ (List.mem_cons_of_mem _ hc))
    · intro c hc
      rcases List.mem_append.1 hc with hc | hc
      · exact h c hc
      · rw [List.mem_singleton.1 hc]
        refine ⟨?_, fun _ => hdefault hisDefault⟩
        rcases hoption with hthere | huntouched
        · exact (h option hthere).1
        · rw [huntouched.fresh]; rfl
  · intro c hc
    exact h c (List.mem_filter.1 hc).1

end Forest.Records

namespace Menu

variable {menu : Menu} {S : Pid → Key → Prop} {c d : Cart}

/-- The item comes in a positive quantity, and of its options only those that its product may record
have the quantity 0. -/
structure Counted (S : Pid → Key → Prop) (item : Item) : Prop where
  quantity_pos : 0 < item.quantity
  records : Forest.Records (S item.key.pid) item.children

/-- Detaching an item does not change how it is counted. -/
theorem counted_detached_iff (item : Item) : Counted S item.detached ↔ Counted S item := by
  constructor
  · rintro ⟨hpos, hrecords⟩
    rw [Item.quantity_detached] at hpos
    rw [Item.children_detached, Item.key_detached, Forest.Records.detached_iff] at hrecords
    exact ⟨hpos, hrecords⟩
  · rintro ⟨hpos, hrecords⟩
    refine ⟨item.quantity_detached.symm ▸ hpos, ?_⟩
    rw [Item.children_detached, Item.key_detached, Forest.Records.detached_iff]
    exact hrecords

/-! ## Quantities within their bound -/

/-- An edit as `EditBy` has it, in which the quantities of no option add up to their bound. -/
inductive EditWithin (menu : Menu) (Q : Token → Prop) (cart : Cart) : Cart → Prop
  | added {words : Run} {segments : List Segment} : (∀ p ∈ words, Q p.token) →
      segments ∈ words.segmentations → segments.filterMap menu.newItem? ≠ [] →
      (∀ segment ∈ segments, ∀ built, menu.newItem? segment = some built →
        menu.HasRoom built.value.key [] (menu.said segment).parts) →
      EditWithin menu Q cart (cart.addAll ((segments.filterMap menu.newItem?).map (·.value)))
  | removed {words : Run} {segments : List Segment} {uids : List Uid} :
      segments ∈ words.segmentations → uids ≠ [] → uids.Nodup → uids.length ≤ segments.length →
      (∀ u ∈ uids, ∃ item ∈ cart.items, item.uid = u) →
      EditWithin menu Q cart (cart.removeAll uids)
  | changed {item : Item} {words : Run} {new : Scored Item} : item ∈ cart.items →
      (∀ p ∈ words, Q p.token) → menu.modified? item words = some new →
      menu.HasRoom new.value.key item.children
        (Particulars.empty.readLeft menu (menu.matrixFor? item.key.pid) words).parts →
      EditWithin menu Q cart (cart.replace new.value)
  | replaced {target : Item} {segment : Segment} {new : Scored Item} : target ∈ cart.items →
      (∀ p ∈ segment.words, Q p.token) → menu.replacement? target segment = some new →
      menu.HasRoom new.value.key [] (menu.said segment).parts →
      EditWithin menu Q cart (cart.replace new.value)
  | optionRemoved {parent option : Item} : parent ∈ cart.items → menu.HasOption parent option →
      EditWithin menu Q cart (cart.replace (menu.withoutOption parent option))

/-- An edit whose words leave room for their quantities is an edit. -/
theorem EditWithin.edit {Q : Token → Prop} (h : menu.EditWithin Q c d) : menu.Edit c d := by
  cases h with
  | added _ hsegments hne _ => exact .added hsegments hne
  | removed hsegments hne hnd hlen hitems => exact .removed hsegments hne hnd hlen hitems
  | changed hitem _ hnew _ => exact .changed hitem hnew
  | replaced htarget _ hnew _ => exact .replaced htarget hnew
  | optionRemoved hparent hoption => exact .optionRemoved hparent hoption

/-! ## What the builders record -/

/-- A quantity that is read is positive, and so is one that is taken in its place. -/
theorem pos_getD {said : Particulars} (hsaid : said.Positive) {n : Nat} (hn : 0 < n) :
    0 < said.quantity.getD n := by
  cases hquantity : said.quantity with
  | none => exact hn
  | some value => exact hsaid.quantity value hquantity

/-- Words without a number 0 order an item in a positive quantity. -/
theorem quantity_pos_newItem? {segment : Segment} {built : Scored Item}
    (hwords : ∀ p ∈ segment.words, p.token.Nonzero) (h : menu.newItem? segment = some built) :
    0 < built.value.quantity := by
  obtain ⟨pid, matrix, said, key, -, -, rfl, -, -, rfl⟩ := newItem?_eq_some h
  rw [Segment.words, List.forall_mem_append, List.forall_mem_cons] at hwords
  exact pos_getD (Particulars.positive_readAround menu (some matrix) hwords.1 hwords.2.2)
    Nat.one_pos

/-- Words without a number 0 leave a changed item in a positive quantity. -/
theorem quantity_pos_modified? {item : Item} {words : Run} {new : Scored Item}
    (hwords : ∀ p ∈ words, p.token.Nonzero) (hpos : 0 < item.quantity)
    (h : menu.modified? item words = some new) : 0 < new.value.quantity := by
  obtain ⟨matrix, said, key, -, rfl, -, -, -, rfl⟩ := modified?_eq_some h
  exact pos_getD (Particulars.positive_empty.readLeft menu (some matrix) hwords) hpos

/-- Words without a number 0 order a replacement in a positive quantity. -/
theorem quantity_pos_replacement? {target : Item} {segment : Segment} {new : Scored Item}
    (hwords : ∀ p ∈ segment.words, p.token.Nonzero) (hpos : 0 < target.quantity)
    (h : menu.replacement? target segment = some new) : 0 < new.value.quantity := by
  obtain ⟨pid, matrix, said, key, -, -, rfl, -, -, rfl⟩ := replacement?_eq_some h
  rw [Segment.words, List.forall_mem_append, List.forall_mem_cons] at hwords
  exact pos_getD (Particulars.positive_readAround menu (some matrix) hwords.1 hwords.2.2) hpos

section
variable (hrecipes : menu.cookbook.Positive)
include hrecipes

/-- A new item is counted if its words have no number 0 and leave room for their quantities. -/
theorem counted_newItem? {segment : Segment} {built : Scored Item}
    (hwords : ∀ p ∈ segment.words, p.token.Nonzero) (h : menu.newItem? segment = some built)
    (hroom : menu.HasRoom built.value.key [] (menu.said segment).parts) :
    Counted S built.value := by
  refine ⟨quantity_pos_newItem? hwords h, ?_⟩
  obtain ⟨pid, matrix, said, key, hpid, hmatrix, rfl, -, -, rfl⟩ := newItem?_eq_some h
  rw [said_eq hpid hmatrix] at hroom
  rw [Segment.words, List.forall_mem_append, List.forall_mem_cons] at hwords
  have hsaid := Particulars.positive_readAround menu (some matrix) hwords.1 hwords.2.2
  exact Forest.Records.mergeParts hrecipes hroom hsaid.parts (List.forall_mem_nil _)

/-- A changed item stays counted if its words have no number 0 and leave room for their quantities.
-/
theorem counted_modified? {item : Item} {words : Run} {new : Scored Item}
    (hwords : ∀ p ∈ words, p.token.Nonzero) (hitem : Counted S item)
    (h : menu.modified? item words = some new)
    (hroom : menu.HasRoom new.value.key item.children
      (Particulars.empty.readLeft menu (menu.matrixFor? item.key.pid) words).parts) :
    Counted S new.value := by
  refine ⟨quantity_pos_modified? hwords hitem.quantity_pos h, ?_⟩
  obtain ⟨matrix, said, key, hmatrix, rfl, rfl, -, -, rfl⟩ := modified?_eq_some h
  rw [hmatrix] at hroom
  have hsaid := Particulars.positive_empty.readLeft menu (some matrix) hwords
  exact hitem.records.mergeParts hrecipes hroom hsaid.parts

/-- A replacement takes over the records of options that may go on it. -/
theorem counted_replacement? {target : Item} {segment : Segment} {new : Scored Item}
    (hwords : ∀ p ∈ segment.words, p.token.Nonzero) (hpos : 0 < target.quantity)
    (htarget : Forest.Records (fun child =>
      menu.composition.isValidChild new.value.key child = true → S new.value.key.pid child)
      target.children)
    (h : menu.replacement? target segment = some new)
    (hroom : menu.HasRoom new.value.key [] (menu.said segment).parts) :
    Counted S new.value := by
  refine ⟨quantity_pos_replacement? hwords hpos h, ?_⟩
  obtain ⟨pid, matrix, said, key, hpid, hmatrix, rfl, -, -, rfl⟩ := replacement?_eq_some h
  rw [said_eq hpid hmatrix] at hroom
  rw [Segment.words, List.forall_mem_append, List.forall_mem_cons] at hwords
  have hsaid := Particulars.positive_readAround menu (some matrix) hwords.1 hwords.2.2
  dsimp only [replacementChildren]
  split
  · intro child hchild
    obtain ⟨hmem, hvalid⟩ := List.mem_filter.1 hchild
    exact ⟨(htarget child hmem).1, fun hzero => (htarget child hmem).2 hzero hvalid⟩
  · exact Forest.Records.mergeParts hrecipes hroom hsaid.parts (List.forall_mem_nil _)

/-! ## Edits -/

omit hrecipes in
/-- Step lemma: an edit by words without the number 0 keeps the quantities of all items positive. -/
theorem quantity_pos_edit (h : c.Identified) (hc : ∀ item ∈ c.items, 0 < item.quantity)
    (hedit : menu.EditBy Token.Nonzero c d) : ∀ item ∈ d.items, 0 < item.quantity := by
  have hdetached : ∀ item : Item, 0 < item.detached.quantity ↔ 0 < item.quantity := fun item => by
    rw [Item.quantity_detached]
  cases hedit with
  | @added words segments hwords hsegments _ =>
    refine Cart.forall_items_addAll hdetached hc fun item hitem => ?_
    obtain ⟨built, hbuilt, rfl⟩ := List.mem_map.1 hitem
    obtain ⟨segment, hsegment, heq⟩ := List.mem_filterMap.1 hbuilt
    exact quantity_pos_newItem?
      (Intent.forall_of_mem_segmentations hwords hsegments segment hsegment) heq
  | removed _ _ _ _ huids => exact h.forall_items_removeAll huids hc
  | changed hitem hwords hnew =>
    exact h.forall_items_replace hdetached hitem (uid_of_modified? hnew) hc
      (quantity_pos_modified? hwords (hc _ hitem) hnew)
  | replaced htarget hwords hnew =>
    exact h.forall_items_replace hdetached htarget (uid_of_replacement? hnew) hc
      (quantity_pos_replacement? hwords (hc _ htarget) hnew)
  | optionRemoved hparent _ =>
    refine h.forall_items_replace hdetached hparent (uid_withoutOption _ _) hc ?_
    rw [quantity_withoutOption]
    exact hc _ hparent

/-- Step lemma: where products record what they come with, an edit by words without the number 0 and
within bounds keeps all items counted, unless it puts another product in the place of an item. -/
theorem counted_or_replaced
    (hdefault : ∀ pid key, menu.catalog.isDefaultOption pid key.pid = true → S pid key)
    (h : c.Identified) (hc : ∀ item ∈ c.items, Counted S item)
    (hedit : menu.EditWithin Token.Nonzero c d) :
    (∀ item ∈ d.items, Counted S item) ∨ ∃ target ∈ c.items, ∃ segment new,
      (∀ p ∈ segment.words, p.token.Nonzero) ∧ menu.replacement? target segment = some new ∧
        menu.HasRoom new.value.key [] (menu.said segment).parts ∧
        new.value.key.pid ≠ target.key.pid ∧ d = c.replace new.value := by
  cases hedit with
  | @added words segments hwords hsegments _ hroom =>
    refine .inl (Cart.forall_items_addAll counted_detached_iff hc fun item hitem => ?_)
    obtain ⟨built, hbuilt, rfl⟩ := List.mem_map.1 hitem
    obtain ⟨segment, hsegment, heq⟩ := List.mem_filterMap.1 hbuilt
    exact counted_newItem? hrecipes
      (Intent.forall_of_mem_segmentations hwords hsegments segment hsegment) heq
      (hroom segment hsegment built heq)
  | removed _ _ _ _ huids => exact .inl (h.forall_items_removeAll huids hc)
  | changed hitem hwords hnew hroom =>
    exact .inl (h.forall_items_replace counted_detached_iff hitem (uid_of_modified? hnew) hc
      (counted_modified? hrecipes hwords (hc _ hitem) hnew hroom))
  | @replaced target segment new htarget hwords hnew hroom =>
    by_cases hpid : new.value.key.pid = target.key.pid
    · refine .inl (h.forall_items_replace counted_detached_iff htarget (uid_of_replacement? hnew) hc
        (counted_replacement? hrecipes hwords (hc target htarget).quantity_pos ?_ hnew hroom))
      intro child hchild
      obtain ⟨hleaf, hrecord⟩ := (hc target htarget).records child hchild
      exact ⟨hleaf, fun hzero _ => hpid ▸ hrecord hzero⟩
    · exact .inr ⟨target, htarget, segment, new, hwords, hnew, hroom, hpid, rfl⟩
  | @optionRemoved parent option hparent hoption =>
    refine .inl (h.forall_items_replace counted_detached_iff hparent (uid_withoutOption _ _) hc ?_)
    have hitem := hc parent hparent
    have hrecords := hitem.records.withoutOption (h.nodup_map_uid_children hparent) hoption
      (hdefault parent.key.pid option.key)
    exact ⟨by rw [quantity_withoutOption]; exact hitem.quantity_pos, by rwa [key_withoutOption]⟩

end

/-! ## Every cart -/

/-- The product comes with the option. -/
def ComesWith (menu : Menu) (pid : Pid) (option : Key) : Prop :=
  menu.catalog.isDefaultOption pid option.pid = true

/-- The product comes with the option, or another product does and the option may go on some variant
of this one. -/
def MayRecord (menu : Menu) (pid : Pid) (option : Key) : Prop :=
  menu.ComesWith pid option ∨
    (∃ other, menu.ComesWith other option) ∧ menu.AllowsOnSome pid option

/-- What an item may record, some product comes with. -/
theorem MayRecord.exists_comesWith {pid : Pid} {option : Key} (h : menu.MayRecord pid option) :
    ∃ other, menu.ComesWith other option := by
  rcases h with hown | ⟨hother, -⟩
  · exact ⟨pid, hown⟩
  · exact hother

/-- Step lemma: an edit by words without the number 0 and within bounds keeps all items counted, if a
product may also record what another one comes with. -/
theorem counted_mayRecord_edit (hrecipes : menu.cookbook.Positive) (h : c.Identified)
    (hc : ∀ item ∈ c.items, Counted menu.MayRecord item)
    (hedit : menu.EditWithin Token.Nonzero c d) : ∀ item ∈ d.items, Counted menu.MayRecord item := by
  rcases counted_or_replaced hrecipes (fun _ _ => .inl) h hc hedit with
    hcounted | ⟨target, htarget, segment, new, hwords, hnew, hroom, -, rfl⟩
  · exact hcounted
  · refine h.forall_items_replace counted_detached_iff htarget (uid_of_replacement? hnew) hc
      (counted_replacement? hrecipes hwords (hc target htarget).quantity_pos ?_ hnew hroom)
    intro child hchild
    obtain ⟨hleaf, hrecord⟩ := (hc target htarget).records child hchild
    exact ⟨hleaf, fun hzero hvalid =>
      .inr ⟨(hrecord hzero).exists_comesWith, new.value.key, rfl, hvalid⟩⟩

/-- The items of a cart that edits bring about have numbers of their own. -/
theorem identified_of_edits {R : Cart → Cart → Prop} (hedit : ∀ c d, R c d → menu.Edit c d)
    (h : Relation.ReflTransGen R Cart.empty c) : c.Identified :=
  (Cart.wellNumbered_empty.edits (h.lift id hedit)).1.toIdentified

/-- The cart after a latte was ordered, the milk taken off it, and a coffee put in its place. -/
def milklessCoffee (menu : Menu) : Cart :=
  (menu.interpretTokens [.modifyItem, .entity CoffeeShop.latte "latte", .preposition,
      .entity CoffeeShop.coffee "coffee"]
    (menu.interpretTokens [.removeItem, .option CoffeeShop.milk "milk"]
      (menu.interpretTokens [.addToOrder, .entity CoffeeShop.latte "latte"]
        Cart.empty).cart).cart).cart

/-- The cart with the milkless coffee comes about by words without a number 0. -/
theorem hearsBy_milklessCoffee (menu : Menu) :
    Relation.ReflTransGen (menu.HearsBy Token.Nonzero) Cart.empty menu.milklessCoffee :=
  ((Relation.ReflTransGen.single (.tokens _ (by decide))).tail (.tokens _ (by decide))).tail
    (.tokens _ (by decide))

/-- The word that orders the latte. -/
def latteOrder : Segment := ⟨[], ⟨.entity CoffeeShop.latte "latte", ⟨1, 1⟩⟩, []⟩

/-- The word that orders the coffee. -/
def coffeeOrder : Segment := ⟨[], ⟨.entity CoffeeShop.coffee "coffee", ⟨3, 1⟩⟩, []⟩

/-- The latte with the record of its milk. -/
def milklessLatte : Item := ⟨1, ⟨CoffeeShop.latte, 1⟩, 1, [⟨2, ⟨CoffeeShop.milk, 0⟩, 0, []⟩]⟩

/-- The cart comes about by three edits, and the words that order items name no options. -/
theorem editsWithin_milklessCoffee :
    Relation.ReflTransGen (CoffeeShop.menu.EditWithin Token.Nonzero) Cart.empty
      CoffeeShop.menu.milklessCoffee := by
  have hroom : ∀ segment ∈ [latteOrder, coffeeOrder], ∀ key : Key,
      CoffeeShop.menu.HasRoom key [] (CoffeeShop.menu.said segment).parts := by
    intro segment hsegment key
    have hnothing : ∀ segment ∈ [latteOrder, coffeeOrder],
        (CoffeeShop.menu.said segment).parts = [] := by decide +kernel
    rw [hnothing segment hsegment]
    exact List.forall_mem_nil _
  have hwords : ∀ segment ∈ [latteOrder, coffeeOrder], ∀ p ∈ segment.words, p.token.Nonzero := by
    decide
  have hcoffee : coffeeOrder ∈ [latteOrder, coffeeOrder] := List.mem_cons_of_mem _ List.mem_cons_self
  have hordered : CoffeeShop.menu.EditWithin Token.Nonzero Cart.empty
      ⟨[{ milklessLatte with children := [] }], 2⟩ :=
    @EditWithin.added _ _ _ latteOrder.words [latteOrder] (hwords _ List.mem_cons_self)
      (List.mem_singleton_self _) (by decide +kernel) fun segment hsegment built _ =>
        hroom segment (List.mem_singleton.1 hsegment ▸ List.mem_cons_self) built.value.key
  have hremoved : CoffeeShop.menu.EditWithin Token.Nonzero
      ⟨[{ milklessLatte with children := [] }], 2⟩ ⟨[milklessLatte], 3⟩ :=
    @EditWithin.optionRemoved _ _ ⟨[{ milklessLatte with children := [] }], 2⟩ _
      (.ofKey ⟨CoffeeShop.milk, 0⟩ 1) (List.mem_singleton_self _)
      (.inr ⟨by decide +kernel, List.forall_mem_nil _, by decide +kernel, rfl⟩)
  have hnew : CoffeeShop.menu.replacement? milklessLatte coffeeOrder =
      some ⟨{ milklessLatte with key := ⟨CoffeeShop.coffee, 1⟩ }, 1, 1⟩ := rfl
  have hreplaced : CoffeeShop.menu.EditWithin Token.Nonzero ⟨[milklessLatte], 3⟩
      ⟨[{ milklessLatte with key := ⟨CoffeeShop.coffee, 1⟩ }], 3⟩ :=
    @EditWithin.replaced _ _ ⟨[milklessLatte], 3⟩ milklessLatte coffeeOrder _
      (List.mem_singleton_self _) (hwords _ hcoffee) hnew (hroom _ hcoffee _)
  have hcart : CoffeeShop.menu.milklessCoffee =
      ⟨[{ milklessLatte with key := ⟨CoffeeShop.coffee, 1⟩ }], 3⟩ := by decide +kernel
  rw [hcart]
  exact ((Relation.ReflTransGen.single hordered).tail hremoved).tail hreplaced

/-- The cart after 0 cones were ordered, and a coffee with 0 pumps of syrup. -/
def zeroCones (menu : Menu) : Cart :=
  (menu.interpretTokens [.addToOrder, .entity CoffeeShop.coffee "coffee", .number 0, .unit 1 "pump",
      .option CoffeeShop.vanillaSyrup "vanilla syrup"]
    (menu.interpretTokens [.addToOrder, .number 0, .entity CoffeeShop.cone "cone"]
      Cart.empty).cart).cart

/-- The cart after a coffee was ordered with 4294967295 syrups and one more. -/
def manySyrups (menu : Menu) : Cart :=
  (menu.interpretTokens [.addToOrder, .entity CoffeeShop.coffee "coffee", .number 4294967295,
    .option CoffeeShop.vanillaSyrup "vanilla syrup", .number 1,
    .option CoffeeShop.vanillaSyrup "vanilla syrup"] Cart.empty).cart

end Menu

end SpokenOrder
