import SpokenOrder.Proofs.Reference.Ranked

/-!
# The options that a reference lists

Where numbers tell the children of an item apart, a reference lists none of them twice, and no
untouched default twice (`Scene.pairwise_optionTargets`). It sees no more of the children than their
numbers and variants: items that look alike in this respect get lists that look alike
(`Scene.map_bare_optionTargets`), whatever the quantities are.
-/

namespace SpokenOrder

/-- The number and the variant of an item, which is all that a reference sees of an option. -/
def Item.bare (item : Item) : Item := ⟨item.uid, item.key, 0, []⟩

/-- The items are variants of one product, and their children have the same numbers and variants. -/
structure Item.LooksLike (item other : Item) : Prop where
  pid_eq : item.key.pid = other.key.pid
  map_bare : item.children.map Item.bare = other.children.map Item.bare

namespace Item.LooksLike

variable {item other : Item}

/-- What depends on the numbers and variants of the children only is the same. -/
theorem map_eq {β : Type} (h : item.LooksLike other) {f : Item → β}
    (hf : ∀ child : Item, f child.bare = f child) :
    item.children.map f = other.children.map f := by
  have hbare (children : List Item) : children.map f = (children.map bare).map f := by
    simp [hf]
  rw [hbare, h.map_bare, ← hbare]

/-- Items that look alike have children of the same products. -/
theorem map_pid_eq (h : item.LooksLike other) :
    item.children.map (·.key.pid) = other.children.map (·.key.pid) := h.map_eq fun _ => rfl

/-- Children that are chosen by their numbers and variants have the same ones. -/
theorem map_bare_filter (h : item.LooksLike other) {p : Item → Bool}
    (hp : ∀ child : Item, p child.bare = p child) :
    (item.children.filter p).map bare = (other.children.filter p).map bare := by
  have hbare (children : List Item) :
      (children.filter p).map bare = (children.map bare).filter p := by
    rw [List.filter_map]
    exact congrArg _ (List.filter_congr fun child _ => (hp child).symm)
  rw [hbare, h.map_bare, ← hbare]

end Item.LooksLike

/-! ## Ranking -/

namespace Ranking

/-- The find with the number and the variant of the item only. -/
def bare (find : Scored Item) : Scored Item := { find with value := find.value.bare }

/-- Insertion looks at nothing that is left out of a bare item. -/
theorem map_bare_insert (new : Scored Item) (ranked : List (Scored Item)) :
    (insert new ranked).map bare = insert (bare new) (ranked.map bare) := by
  induction ranked with
  | nil => rfl
  | cons old rest ih =>
    have hsame : same (bare old) (bare new) = same old new := rfl
    have hprecedes : precedes (bare new) (bare old) = precedes new old := rfl
    rw [List.map_cons, insert, insert, hsame, hprecedes]
    split
    · rw [List.map_cons, apply_ite bare]
      rfl
    · split
      · rfl
      · rw [List.map_cons, ih]

/-- So the bare items are gathered alike. -/
theorem map_bare_gather (finds : List (Scored Item)) :
    (gather finds).map bare = gather (finds.map bare) := by
  induction finds using List.reverseRecOn with
  | nil => rfl
  | append_singleton finds new ih =>
    rw [gather_concat, map_bare_insert, ih, List.map_append, List.map_singleton, gather_concat]

/-- A ranking by numbers, variants and scores sees nothing else of the finds. -/
theorem map_bare_ofFinds {position : Item → Nat}
    (hposition : ∀ item : Item, position item.bare = position item) (finds : List (Scored Item)) :
    (ofFinds position finds).map bare = ofFinds position (finds.map bare) := by
  have hranks : ∀ a ∈ gather finds, ∀ b ∈ gather finds,
      ranksBefore position a b = ranksBefore position (bare a) (bare b) := by
    intro a _ b _
    rw [Bool.eq_iff_iff, ranksBefore_iff, ranksBefore_iff]
    simp only [bare, hposition]
  calc (ofFinds position finds).map bare
      = ((gather finds).map bare).mergeSort (ranksBefore position) := List.map_mergeSort hranks
    _ = ofFinds position (finds.map bare) := by rw [map_bare_gather]; rfl

end Ranking

/-! ## References -/

namespace Scene

variable {α : Type} {scene : Scene α} {parent item other : Item} {span : Span}

/-- Items that look alike have the same untouched defaults. -/
theorem untouchedDefault?_congr (h : item.LooksLike other) (t : OptionTarget) :
    scene.untouchedDefault? item t = scene.untouchedDefault? other t := by
  have hany (children : List Item) : children.any (·.key.pid == t.pid) =
      (children.map (·.key.pid)).any (· == t.pid) := by
    rw [List.any_map]
    rfl
  rw [untouchedDefault?, untouchedDefault?, h.pid_eq, hany, hany, h.map_pid_eq]

/-- A tokenization finds the same among the options of items that look alike. -/
theorem map_bare_optionFindsIn (h : item.LooksLike other) (run : Run) :
    (scene.optionFindsIn item span run).map Ranking.bare =
      (scene.optionFindsIn other span run).map Ranking.bare := by
  unfold optionFindsIn
  cases scene.menu.optionTarget? run with
  | none => rfl
  | some t =>
    have hfound : (item.children.filter t.value.fits).map Item.bare =
        (other.children.filter t.value.fits).map Item.bare := h.map_bare_filter fun _ => rfl
    have hempty : (item.children.filter t.value.fits).isEmpty =
        (other.children.filter t.value.fits).isEmpty := by
      rw [← List.isEmpty_map (f := Item.bare), hfound, List.isEmpty_map]
    have hfind (found : List Item) :
        (found.map fun x => (⟨x, t.score, span.length⟩ : Scored Item)).map Ranking.bare =
          (found.map Item.bare).map fun x => ⟨x, t.score, span.length⟩ := by
      rw [List.map_map, List.map_map]
      rfl
    dsimp only
    rw [hfind, hfind, untouchedDefault?_congr h, hempty]
    split
    · rfl
    · rw [hfound]

/-- The same names can refer to an option of items that look alike. -/
theorem optionVocabulary_congr {menu : Menu} (h : item.LooksLike other) :
    menu.optionVocabulary item = menu.optionVocabulary other := by
  have hattributes : item.children.map (menu.attributesOf ·.key) =
      other.children.map (menu.attributesOf ·.key) := h.map_eq fun _ => rfl
  simp only [Menu.optionVocabulary, Menu.optionsOn, Menu.attributesOn, List.flatMap, h.pid_eq,
    h.map_pid_eq, hattributes]

variable [Score α]

/-- What a reference to an option finds before it is ranked. -/
def optionFinds (scene : Scene α) (parent : Item) (span : Span) : List (Scored Item) :=
  (scene.tokenizationsOf (scene.menu.optionVocabulary parent) span).flatMap
    (scene.optionFindsIn parent span)

/-- The finds are ranked, where scores are equal by the positions of the children. -/
theorem optionTargets_eq_ofFinds (scene : Scene α) (parent : Item) (span : Span) :
    scene.optionTargets parent span =
      Ranking.ofFinds (fun child => (parent.children.findIdx? (·.uid == child.uid)).getD 0)
        (scene.optionFinds parent span) := rfl

/-- References to an option of items that look alike list the same, up to what is not seen. -/
theorem map_bare_optionTargets (scene : Scene α) (span : Span) (h : item.LooksLike other) :
    (scene.optionTargets item span).map Ranking.bare =
      (scene.optionTargets other span).map Ranking.bare := by
  have huids : item.children.map Item.uid = other.children.map Item.uid := h.map_eq fun _ => rfl
  have hposition (children : List Item) (child : Item) :
      children.findIdx? (·.uid == child.uid) =
        (children.map Item.uid).findIdx? (· == child.uid) := by
    rw [List.findIdx?_map]
    rfl
  have hfinds : (scene.optionFinds item span).map Ranking.bare =
      (scene.optionFinds other span).map Ranking.bare := by
    simp only [optionFinds, optionVocabulary_congr h, List.map_flatMap, map_bare_optionFindsIn h]
  rw [optionTargets_eq_ofFinds, optionTargets_eq_ofFinds, Ranking.map_bare_ofFinds fun _ => rfl,
    Ranking.map_bare_ofFinds fun _ => rfl, hfinds]
  simp only [hposition, huids]

/-- Where numbers tell the children of an item apart, two finds of one number are untouched
defaults, and different ones. -/
theorem pairwise_optionTargets (scene : Scene α) (span : Span)
    (hnodup : (parent.children.map Item.uid).Nodup) :
    (scene.optionTargets parent span).Pairwise fun a b =>
      a.value.uid = b.value.uid → a.value.uid = 0 ∧ a.value.key.pid ≠ b.value.key.pid := by
  have hkeys : (scene.optionTargets parent span).Pairwise
      fun a b => Ranking.key a ≠ Ranking.key b :=
    List.pairwise_map.1 (Ranking.nodup_key_ofFinds _ _)
  refine hkeys.imp_of_mem fun {a b} ha hb hne huid => ?_
  have hpid : a.value.key.pid ≠ b.value.key.pid := by
    intro hpid
    exact hne (by rw [Ranking.key, Ranking.key, huid, hpid])
  refine ⟨?_, hpid⟩
  rcases hasOption_of_mem_optionTargets ha with hchild | huntouched
  · rcases hasOption_of_mem_optionTargets hb with hchild' | huntouched
    · exact absurd (congrArg (·.key.pid) (List.inj_on_of_nodup_map hnodup hchild hchild' huid)) hpid
    · rw [huid, huntouched.fresh]
      rfl
  · rw [huntouched.fresh]
    rfl

end Scene

end SpokenOrder
