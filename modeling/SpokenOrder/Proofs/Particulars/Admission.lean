import SpokenOrder.Proofs.Composition.Gate
import SpokenOrder.Proofs.Particulars.Accounting

/-!
# What a merge has let through

The gate of a merge turns an option away when its exclusion set has let one through. If no option is
in two exclusion sets, an option that was let through therefore blocks all that exclude it
(`Merge.Admitted`), and nothing that comes later displaces it. So if no part is rejected, each part
has an option on the item in the end (`Menu.exists_mem_mergeParts`).
-/

namespace SpokenOrder

/-! ## The gate -/

namespace Admission

variable {gate : Admission} {pid : Pid}

/-- Each set that holds the option has let one through. -/
def Blocks (gate : Admission) (pid : Pid) : Prop :=
  ∀ entry ∈ gate, pid ∈ entry.1 → entry.2 = true

/-- No offer takes a mark back. -/
theorem Blocks.offer (h : gate.Blocks pid) (other : Pid) : (gate.offer other).2.Blocks pid := by
  induction gate with
  | nil => exact h
  | cons entry rest ih =>
    obtain ⟨hentry, hrest⟩ := List.forall_mem_cons.1 h
    rw [Admission.offer]
    split
    · exact List.forall_mem_cons.2 ⟨fun _ => rfl, hrest⟩
    · exact List.forall_mem_cons.2 ⟨hentry, ih hrest⟩

/-- An option in one exclusion set at most is let through only by unmarked sets, and marks them. -/
theorem blocks_of_offer (hone : (gate.map Prod.fst).countP (·.contains pid) ≤ 1)
    (h : (gate.offer pid).1 = true) :
    (∀ entry ∈ gate, pid ∈ entry.1 → entry.2 = false) ∧ (gate.offer pid).2.Blocks pid := by
  induction gate with
  | nil => exact ⟨nofun, nofun⟩
  | cons entry rest ih =>
    rw [List.map_cons, List.countP_cons] at hone
    rw [Admission.offer] at h ⊢
    split at h
    · next hholds =>
      -- The option is in this set, so it is in none of the others.
      rw [if_pos hholds] at hone ⊢
      have hnone : (rest.map Prod.fst).countP (·.contains pid) = 0 := by omega
      have hother : ∀ e ∈ rest, pid ∉ e.1 := fun e he hpid =>
        List.countP_eq_zero.1 hnone e.1 (List.mem_map_of_mem he) (List.contains_iff_mem.2 hpid)
      constructor
      · exact List.forall_mem_cons.2
          ⟨fun _ => by simpa using h, fun e he hpid => absurd hpid (hother e he)⟩
      · exact List.forall_mem_cons.2
          ⟨fun _ => rfl, fun e he hpid => absurd hpid (hother e he)⟩
    · next hholds =>
      rw [if_neg hholds] at hone ⊢
      obtain ⟨hunmarked, hblocks⟩ := ih hone h
      have hentry : pid ∉ entry.1 := by simpa using hholds
      exact ⟨List.forall_mem_cons.2 ⟨fun hpid => absurd hpid hentry, hunmarked⟩,
        List.forall_mem_cons.2 ⟨fun hpid => absurd hpid hentry, hblocks⟩⟩

end Admission

/-! ## Offers -/

/-- The generic options on the item so far. -/
def Merge.pids (m : Merge) : List Pid := m.children.map (·.key.pid)

namespace Menu

variable {menu : Menu} {parent : Key} {m : Merge}

/-- At most one exclusion set of the parent holds the option. -/
def HeldOnce (menu : Menu) (parent : Key) (child : Item) : Prop :=
  (menu.composition.exclusionSets parent).countP (·.contains child.key.pid) ≤ 1

/-- The gate is one of the parent, and each option on the item blocks those that exclude it. -/
structure Admitted (menu : Menu) (parent : Key) (m : Merge) : Prop where
  sets : m.gate.map Prod.fst = menu.composition.exclusionSets parent
  blocks : ∀ pid ∈ m.pids, m.gate.Blocks pid

/-- Where a child conflicts with no other option, it and all others are there after it was put among
them. -/
theorem Put.subset {child : Item} {children result : List Item}
    (h : Put menu parent child children result)
    (hrivals : ∀ c ∈ children, menu.composition.conflicts parent c.key child.key = true →
      c.key.pid = child.key.pid) :
    child.key.pid :: children.map (·.key.pid) ⊆ result.map (·.key.pid) := by
  cases h with
  | toppedUp hsame => simp [hsame]
  | @displaced before after rival _ _ hrival =>
    have heq := hrivals rival (List.mem_append_right _ List.mem_cons_self) hrival
    simp [heq]
  | appended _ _ => simp

/-- An option that is let through conflicts only with variants of itself. -/
theorem Admitted.pid_eq_of_conflicts (hm : menu.Admitted parent m) {child c : Item}
    (hone : menu.HeldOnce parent child) (hpasses : (m.gate.offer child.key.pid).1 = true)
    (hc : c ∈ m.children)
    (hconflict : menu.composition.conflicts parent c.key child.key = true) :
    c.key.pid = child.key.pid := by
  rw [HeldOnce, ← hm.sets] at hone
  obtain ⟨hunmarked, -⟩ := Admission.blocks_of_offer hone hpasses
  rw [Composition.conflicts, ← hm.sets, Bool.or_eq_true, beq_iff_eq, List.any_eq_true] at hconflict
  rcases hconflict with heq | ⟨set, hset, hboth⟩
  · exact heq
  · obtain ⟨entry, hentry, rfl⟩ := List.mem_map.1 hset
    simp only [Bool.and_eq_true, List.contains_iff_mem] at hboth
    -- The set has let `c` through, so it would not let the child through.
    have hmarked := hm.blocks c.key.pid (List.mem_map_of_mem hc) entry hentry hboth.1
    rw [hunmarked entry hentry hboth.2] at hmarked
    cases hmarked

/-- Step lemma: an offer keeps what the merge has let through, and adds to it if it is accepted. -/
theorem Admitted.offerChild (hm : menu.Admitted parent m) {child : Item}
    (hone : menu.HeldOnce parent child) :
    menu.Admitted parent (menu.offerChild parent m child).1 ∧
      m.pids ⊆ (menu.offerChild parent m child).1.pids ∧
      ((menu.offerChild parent m child).2 = true →
        child.key.pid ∈ (menu.offerChild parent m child).1.pids) := by
  have hsets : (m.gate.offer child.key.pid).2.map Prod.fst =
      menu.composition.exclusionSets parent := by
    rw [Admission.map_fst_offer, hm.sets]
  unfold Menu.offerChild
  split
  · dsimp only
    split
    · next hpasses =>
      have hput : Put menu parent child m.children (menu.putChild parent m.children child) :=
        put_putChild parent m.children child
      have hall := hput.subset fun c hc => hm.pid_eq_of_conflicts hone hpasses hc
      have hblocks := (Admission.blocks_of_offer (hm.sets ▸ hone) hpasses).2
      refine ⟨⟨hsets, fun pid hpid => ?_⟩, fun pid hpid => hall (List.mem_cons_of_mem _ hpid),
        fun _ => hall List.mem_cons_self⟩
      obtain ⟨c, hc, rfl⟩ := List.mem_map.1 hpid
      rcases hput.mem hc with hold | rfl | ⟨same, hsame, -, rfl⟩
      · exact (hm.blocks _ (List.mem_map_of_mem hold)).offer _
      · exact hblocks
      · exact (hm.blocks same.key.pid (List.mem_map_of_mem hsame)).offer _
    · exact ⟨⟨hsets, fun pid hpid => (hm.blocks pid hpid).offer _⟩, fun _ => id, nofun⟩
  · exact ⟨hm, fun _ => id, nofun⟩

/-- A run of offers keeps what a merge has marked, and marks each option that it admits. -/
theorem Admitted.offerChildren {children : List Item} (hm : menu.Admitted parent m)
    (hone : ∀ child ∈ children, menu.HeldOnce parent child) :
    menu.Admitted parent (menu.offerChildren parent m children).1 ∧
      m.pids ⊆ (menu.offerChildren parent m children).1.pids ∧
      ((menu.offerChildren parent m children).2 = true →
        ∃ child ∈ children, child.key.pid ∈ (menu.offerChildren parent m children).1.pids) := by
  induction children generalizing m with
  | nil => exact ⟨hm, fun _ => id, nofun⟩
  | cons child rest ih =>
    obtain ⟨hfirst, hrest⟩ := List.forall_mem_cons.1 hone
    obtain ⟨hm', hsubset, hthere⟩ := hm.offerChild hfirst
    obtain ⟨hm'', hsubset', hthere'⟩ := ih hm' hrest
    refine ⟨hm'', fun pid hpid => hsubset' (hsubset hpid), fun haccepted => ?_⟩
    rcases Bool.or_eq_true_iff.1 haccepted with hfirst | hmore
    · exact ⟨child, List.mem_cons_self, hsubset' (hthere hfirst)⟩
    · obtain ⟨c, hc, hpid⟩ := hthere' hmore
      exact ⟨c, List.mem_cons_of_mem _ hc, hpid⟩

/-- A part of which nothing is rejected has an option on the item afterwards. -/
theorem Admitted.offerPart (hm : menu.Admitted parent m) {part : Part}
    (hone : ∀ child ∈ menu.candidates parent part, menu.HeldOnce parent child) :
    menu.Admitted parent (menu.offerPart parent m part) ∧
      m.pids ⊆ (menu.offerPart parent m part).pids ∧
      (0 < part.tokens → (menu.offerPart parent m part).rejected ≤ m.rejected →
        ∃ child ∈ menu.candidates parent part,
          child.key.pid ∈ (menu.offerPart parent m part).pids) := by
  obtain ⟨hm', hsubset, hthere⟩ := hm.offerChildren hone
  have hsame := menu.rejected_offerChildren parent m (menu.candidates parent part)
  unfold Menu.offerPart
  dsimp only
  split
  · next haccepted => exact ⟨hm', hsubset, fun _ _ => hthere haccepted⟩
  · refine ⟨⟨hm'.sets, hm'.blocks⟩, hsubset, fun hpos hle => ?_⟩
    dsimp only at hle
    omega

/-- An offer rejects no fewer tokens than were rejected before. -/
theorem rejected_le_offerPart (menu : Menu) (parent : Key) (m : Merge) (part : Part) :
    m.rejected ≤ (menu.offerPart parent m part).rejected := by
  rw [rejected_offerPart]
  exact Nat.le_add_right _ _

/-- Offers reject no fewer tokens than were rejected before. -/
theorem rejected_le_foldl (menu : Menu) (parent : Key) (parts : List Part) (m : Merge) :
    m.rejected ≤ (parts.foldl (menu.offerPart parent) m).rejected := by
  induction parts generalizing m with
  | nil => exact Nat.le_refl _
  | cons part rest ih => exact Nat.le_trans (menu.rejected_le_offerPart parent m part) (ih _)

/-- Run lemma: if no part is rejected, each part has an option on the item in the end. -/
theorem Admitted.foldl {parts : List Part} (hm : menu.Admitted parent m)
    (hone : ∀ child ∈ menu.offered parent parts, menu.HeldOnce parent child)
    (hpos : ∀ part ∈ parts, 0 < part.tokens) :
    m.pids ⊆ (parts.foldl (menu.offerPart parent) m).pids ∧
      ((parts.foldl (menu.offerPart parent) m).rejected ≤ m.rejected → ∀ part ∈ parts,
        ∃ child ∈ menu.candidates parent part,
          child.key.pid ∈ (parts.foldl (menu.offerPart parent) m).pids) := by
  induction parts generalizing m with
  | nil => exact ⟨fun _ => id, fun _ => nofun⟩
  | cons part rest ih =>
    rw [offered, List.flatMap_cons, List.forall_mem_append] at hone
    obtain ⟨hm', hsubset, hthere⟩ := hm.offerPart hone.1
    obtain ⟨hsubset', hthere'⟩ := ih hm' hone.2 fun p hp => hpos p (List.mem_cons_of_mem _ hp)
    have hmono := menu.rejected_le_foldl parent rest (menu.offerPart parent m part)
    refine ⟨fun pid hpid => hsubset' (hsubset hpid), fun hle p hp => ?_⟩
    rw [List.foldl_cons] at hle ⊢
    rcases List.mem_cons.1 hp with rfl | hp
    · have hstep : (menu.offerPart parent m p).rejected ≤ m.rejected := Nat.le_trans hmono hle
      obtain ⟨child, hchild, hpid⟩ := hthere (hpos p List.mem_cons_self) hstep
      exact ⟨child, hchild, hsubset' hpid⟩
    · exact hthere' (Nat.le_trans hle (menu.rejected_le_offerPart parent m part)) p hp

/-- If no part is rejected, each part has an option on the item in the end. -/
theorem exists_mem_mergeParts {parts : List Part}
    (hone : ∀ child ∈ menu.offered parent parts, menu.HeldOnce parent child)
    (hpos : ∀ part ∈ parts, 0 < part.tokens)
    (hnone : (menu.mergeParts parent [] parts).2 = 0) :
    ∀ part ∈ parts, ∃ child ∈ menu.candidates parent part,
      ∃ c ∈ (menu.mergeParts parent [] parts).1, c.key.pid = child.key.pid := by
  intro part hpart
  have hstart : menu.Admitted parent ⟨[], menu.composition.admission parent, 0⟩ :=
    ⟨Admission.map_fst_admission menu.composition parent, nofun⟩
  obtain ⟨child, hchild, hpid⟩ := (hstart.foldl hone hpos).2 (Nat.le_of_eq hnone) part hpart
  obtain ⟨c, hc, heq⟩ := List.mem_map.1 hpid
  exact ⟨child, hchild, c, hc, heq⟩

/-- Options of positive quantities make children of positive quantities, if there is room. -/
theorem quantity_pos_of_mem_mergeParts {parts : List Part}
    (hroom : menu.HasRoom parent [] parts)
    (hpos : ∀ child ∈ menu.offered parent parts, 0 < child.quantity) :
    ∀ c ∈ (menu.mergeParts parent [] parts).1, 0 < c.quantity := by
  refine mergeParts_induction_of_hasRoom (P := fun children => ∀ c ∈ children, 0 < c.quantity)
    hroom (fun children child ⟨part, hpart, hchild⟩ _ hlt hchildren c hc => ?_) nofun
  rcases (put_putChild parent children child).mem hc with hold | rfl | ⟨same, hsame, hkey, rfl⟩
  · exact hchildren c hold
  · exact hpos c (List.mem_flatMap.2 ⟨part, hpart, hchild⟩)
  · dsimp only
    rw [Nat.mod_eq_of_lt (hlt same hsame hkey)]
    exact Nat.lt_add_right _ (hchildren same hsame)

end Menu

end SpokenOrder
