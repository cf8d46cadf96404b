import Mathlib.Data.List.Nodup
import SpokenOrder.Proofs.Lattice.Connected
import SpokenOrder.Proofs.Lattice.Optimal

/-!
# Filtered lattices

Of the edges that pass at a word, filtering keeps one of each reading: the first of the best
(`Edge.bestOfEach_distinct`). The readings stand in the order in which they first come up, none
twice, so filtering again changes nothing (`Lattice.filter_filter`), and no two tokenizations read
the same words in the same way (`Lattice.nodup_tilings_filter`). Each edge of a path can be
exchanged for the one that is kept of its reading, so no weight is lost
(`Lattice.IsPath.exists_filter`). All of this is in `Lattice.filter_canonical`. It takes ends below
the bound of sizes: at the bound an edge passes that leads far beyond the last word
(`Lattice.filter_longReading`).
-/

namespace SpokenOrder

/-! ## One edge of each reading -/

namespace Edge

section
variable {α : Type} [Score α] {new : Edge α} {edges kept : List (Edge α)}

/-- An edge of another reading comes behind all others. -/
theorem insertBest_of_forall_ne (h : ∀ f ∈ kept, f.reading ≠ new.reading) :
    new.insertBest kept = kept ++ [new] := by
  induction kept with
  | nil => rfl
  | cons f rest ih =>
    obtain ⟨hne, hrest⟩ := List.forall_mem_cons.1 h
    rw [insertBest, if_neg (mt sameReading_iff.1 hne), ih hrest, List.cons_append]

/-- Edges of different readings all stay. -/
theorem distinct_of_nodup (h : (edges.map reading).Nodup) : distinct edges = edges := by
  suffices hfold : ∀ kept : List (Edge α), ((kept ++ edges).map reading).Nodup →
      edges.foldl (fun kept e => e.insertBest kept) kept = kept ++ edges from hfold [] h
  clear h
  induction edges with
  | nil => simp
  | cons new rest ih =>
    intro kept hnodup
    have hnew : ∀ f ∈ kept, f.reading ≠ new.reading := by
      rw [List.map_append, List.nodup_append] at hnodup
      exact fun f hf => hnodup.2.2 _ (List.mem_map_of_mem hf) _ List.mem_cons_self
    rw [List.append_cons] at hnodup ⊢
    rw [List.foldl_cons, insertBest_of_forall_ne hnew, ih _ hnodup]

/-- What happens where an edge is added to edges of different readings. -/
inductive Inserted (new : Edge α) : List (Edge α) → List (Edge α) → Prop
  /-- It is the first of its reading. -/
  | first {kept : List (Edge α)} : (∀ f ∈ kept, f.reading ≠ new.reading) →
      Inserted new kept (kept ++ [new])
  /-- The one that is there of its reading is no worse. -/
  | dropped {kept : List (Edge α)} {old : Edge α} : old ∈ kept → old.reading = new.reading →
      Score.atLeast old.score new.score = true → Inserted new kept kept
  /-- The one that is there of its reading is worse, and makes room for it. -/
  | replaced (before : List (Edge α)) {after : List (Edge α)} {old : Edge α} :
      old.reading = new.reading → Score.atLeast old.score new.score = false →
      Inserted new (before ++ old :: after) (before ++ new :: after)

/-- Inserting an edge puts it behind the others or in the place of its copy. -/
theorem inserted_insertBest (new : Edge α) (kept : List (Edge α)) :
    Inserted new kept (new.insertBest kept) := by
  induction kept with
  | nil => exact .first nofun
  | cons old rest ih =>
    rw [insertBest]
    by_cases hsame : old.sameReading new = true
    · rw [if_pos hsame]
      have hreading := sameReading_iff.1 hsame
      cases hscore : Score.atLeast old.score new.score with
      | true => exact .dropped List.mem_cons_self hreading hscore
      | false => exact .replaced [] hreading hscore
    · rw [if_neg hsame]
      have hne : old.reading ≠ new.reading := mt sameReading_iff.2 hsame
      generalize new.insertBest rest = inserted at ih
      cases ih with
      | first hrest => exact .first (List.forall_mem_cons.2 ⟨hne, hrest⟩)
      | dropped hold hreading hscore =>
        exact .dropped (List.mem_cons_of_mem _ hold) hreading hscore
      | replaced before hreading hscore => exact .replaced (old :: before) hreading hscore

end

/-- The first of the edges of its reading that score best. -/
def FirstBest (edges : List (Edge Rat)) (e : Edge Rat) : Prop :=
  ∃ before after, edges = before ++ e :: after ∧
    (∀ f ∈ before, f.reading = e.reading → f.score < e.score) ∧
    ∀ f ∈ after, f.reading = e.reading → f.score ≤ e.score

/-- Of some edges, one of each reading: the first of the best. The readings stand in the order in
which they first come up. -/
structure BestOfEach (edges kept : List (Edge Rat)) : Prop where
  readings : kept.map reading = (edges.map reading).eraseDups
  nodup : (kept.map reading).Nodup
  best : ∀ e ∈ kept, FirstBest edges e

section
variable {new e f : Edge Rat} {edges kept inserted : List (Edge Rat)}

/-- The first of the best edges is one of them. -/
theorem FirstBest.mem (h : FirstBest edges e) : e ∈ edges := by
  obtain ⟨before, after, rfl, -⟩ := h
  simp

/-- No edge of the same reading scores better than the first of the best. -/
theorem FirstBest.le (h : FirstBest edges e) (hf : f ∈ edges) (hreading : f.reading = e.reading) :
    f.score ≤ e.score := by
  obtain ⟨before, after, rfl, hbefore, hafter⟩ := h
  rcases List.mem_append.1 hf with hf | hf
  · exact le_of_lt (hbefore f hf hreading)
  rcases List.mem_cons.1 hf with rfl | hf
  · exact le_refl _
  · exact hafter f hf hreading

/-- What is the first of the best stays so before an edge of another reading or one no better. -/
theorem FirstBest.concat (h : FirstBest edges e)
    (hnew : new.reading = e.reading → new.score ≤ e.score) : FirstBest (edges ++ [new]) e := by
  obtain ⟨before, after, rfl, hbefore, hafter⟩ := h
  refine ⟨before, after ++ [new], by simp, hbefore, ?_⟩
  exact List.forall_mem_append.2 ⟨hafter, List.forall_mem_singleton.2 hnew⟩

/-- The last edge is the first of the best if it is better than those of its reading before it. -/
theorem firstBest_concat (h : ∀ f ∈ edges, f.reading = new.reading → f.score < new.score) :
    FirstBest (edges ++ [new]) new :=
  ⟨edges, [], rfl, h, nofun⟩

/-- An element at the end is new or a repetition. -/
theorem eraseDups_concat {β : Type} [BEq β] [LawfulBEq β] (rs : List β) (r : β) :
    (rs ++ [r]).eraseDups = if r ∈ rs then rs.eraseDups else rs.eraseDups ++ [r] := by
  rw [List.eraseDups_append, List.cons_removeAll, List.nil_removeAll]
  by_cases hr : r ∈ rs <;> simp [hr, List.eraseDups_cons]

/-- One edge is kept of each reading that there is. -/
theorem BestOfEach.mem_map_reading_iff (h : BestOfEach edges kept) {r : Nat × Token.Identity} :
    r ∈ kept.map reading ↔ r ∈ edges.map reading := by
  rw [h.readings, List.mem_eraseDups]

/-- One more edge of a reading that has come up brings in no reading. -/
theorem BestOfEach.readings_concat (h : BestOfEach edges kept)
    (hnew : new.reading ∈ kept.map reading) :
    kept.map reading = ((edges ++ [new]).map reading).eraseDups := by
  rw [List.map_append, List.map_singleton, eraseDups_concat, if_pos (h.mem_map_reading_iff.1 hnew),
    h.readings]

/-- Step lemma: one edge of each reading, where an edge is added. -/
theorem Inserted.bestOfEach (h : Inserted new kept inserted) (hkept : BestOfEach edges kept) :
    BestOfEach (edges ++ [new]) inserted := by
  cases h with
  | first hne =>
    have hnew : new.reading ∉ kept.map reading := by
      rw [List.mem_map]
      rintro ⟨f, hf, heq⟩
      exact hne f hf heq
    refine ⟨?_, ?_, List.forall_mem_append.2 ⟨fun e he => ?_, List.forall_mem_singleton.2 ?_⟩⟩
    · rw [List.map_append, List.map_append, List.map_singleton, eraseDups_concat, ← hkept.readings,
        if_neg (mt hkept.mem_map_reading_iff.2 hnew)]
    · rw [List.map_append, List.map_singleton]
      exact List.nodup_append.2 ⟨hkept.nodup, List.nodup_singleton _, by simpa using hne⟩
    · exact (hkept.best e he).concat fun heq => absurd heq.symm (hne e he)
    · refine firstBest_concat fun f hf heq => absurd (hkept.mem_map_reading_iff.2 ?_) hnew
      exact heq ▸ List.mem_map_of_mem hf
  | @dropped _ old hold hreading hscore =>
    refine ⟨?_, hkept.nodup, fun e he => (hkept.best e he).concat fun heq => ?_⟩
    · exact hkept.readings_concat (hreading ▸ List.mem_map_of_mem hold)
    · obtain rfl := List.inj_on_of_nodup_map hkept.nodup hold he (hreading.trans heq)
      exact of_decide_eq_true hscore
  | @replaced before after old hreading hscore =>
    have hmap : (before ++ new :: after).map reading = (before ++ old :: after).map reading := by
      simp [hreading]
    have hmem : old ∈ before ++ old :: after := by simp
    have hother : ∀ e ∈ before ++ after, e.reading ≠ new.reading := by
      have hnodup := hkept.nodup
      rw [List.map_append, List.map_cons, List.nodup_middle, List.nodup_cons, ← List.map_append,
        hreading] at hnodup
      exact fun e he heq => hnodup.1 (heq ▸ List.mem_map_of_mem he)
    refine ⟨?_, hmap ▸ hkept.nodup, fun e he => ?_⟩
    · rw [hmap]
      exact hkept.readings_concat (hreading ▸ List.mem_map_of_mem hmem)
    · rcases List.mem_cons.1 (List.perm_middle.subset he) with rfl | he
      · refine firstBest_concat fun f hf heq => ?_
        exact lt_of_le_of_lt ((hkept.best old hmem).le hf (heq.trans hreading.symm))
          (not_le.1 (of_decide_eq_false hscore))
      · refine (hkept.best e ?_).concat fun heq => absurd heq.symm (hother e he)
        exact List.perm_middle.symm.subset (List.mem_cons_of_mem _ he)

/-- Run lemma: of all edges, one of each reading is kept. -/
theorem bestOfEach_distinct (edges : List (Edge Rat)) : BestOfEach edges (distinct edges) := by
  suffices hfold : ∀ seen kept : List (Edge Rat), BestOfEach seen kept →
      BestOfEach (seen ++ edges) (edges.foldl (fun kept e => e.insertBest kept) kept) from
    hfold [] [] ⟨rfl, .nil, nofun⟩
  induction edges with
  | nil =>
    intro seen kept hkept
    rwa [List.append_nil]
  | cons new rest ih =>
    intro seen kept hkept
    rw [List.append_cons]
    exact ih _ _ ((inserted_insertBest new kept).bestOfEach hkept)

end

end Edge

namespace Lattice

/-! ## What is kept at a word -/

/-- The edge is a filler, or it scores no less than the threshold. -/
def Clears (t : Rat) (e : Edge Rat) : Prop := e.isFiller = true ∨ t ≤ e.score

instance (t : Rat) (e : Edge Rat) : Decidable (Clears t e) := inferInstanceAs (Decidable (_ ∨ _))

/-- The edge, beginning at the position, ends behind it inside the lattice, and it clears the
threshold. -/
def Admits (l : Lattice Rat) (t : Rat) (start : Nat) (e : Edge Rat) : Prop :=
  0 < e.length ∧ start + e.length ≤ l.size ∧ Clears t e

instance (l : Lattice Rat) (t : Rat) (start : Nat) (e : Edge Rat) :
    Decidable (l.Admits t start e) :=
  inferInstanceAs (Decidable (_ ∧ _ ∧ _))

/-- The paths over edges that clear the threshold. -/
def clearPaths (l : Lattice Rat) (t : Rat) : List (List (Edge Rat)) :=
  l.paths.filter fun path => ∀ e ∈ path, Clears t e

section
variable {l : Lattice Rat} {t : Rat} {start : Nat} {e : Edge Rat} {edges kept : List (Edge Rat)}
  {path : List (Edge Rat)}

/-- An edge passes if it leads on and clears the threshold. -/
theorem passes_iff : e.passes t l.size start = true ↔
    0 < e.length ∧ e.keptStop start ≤ l.size ∧ Clears t e := by
  have hbelow : (!Score.below e.score t) = decide (t ≤ e.score) := by
    rw [show Score.below e.score t = decide (e.score < t) from rfl, ← decide_not]
    exact decide_eq_decide.2 not_lt
  rw [Edge.passes, hbelow]
  simp only [Clears, Bool.and_eq_true, Edge.leadsOn_iff, Bool.or_eq_true, decide_eq_true_iff,
    and_assoc]

/-- Whatever is admitted passes. -/
theorem Admits.passes (h : l.Admits t start e) : e.passes t l.size start = true :=
  passes_iff.2 ⟨h.1, Nat.le_trans (Nat.mod_le _ _) h.2.1, h.2.2⟩

/-- Where edges end below the bound, nothing else passes. -/
theorem KeepsStops.passes_eq_decide (hl : l.KeepsStops) (he : l.HasEdge start e) :
    e.passes t l.size start = decide (l.Admits t start e) := by
  rw [Bool.eq_iff_iff, passes_iff, decide_eq_true_iff, hl.keptStop_eq he, Admits]

/-- One edge of each reading that passes. -/
theorem exists_bestOfEach (h : (l.filter t).positions[start]? = some kept) :
    ∃ edges, l.positions[start]? = some edges ∧
      Edge.BestOfEach (edges.filter (Edge.passes t l.size start)) kept := by
  rw [getElem?_filter, Option.map_eq_some_iff] at h
  obtain ⟨edges, hedges, rfl⟩ := h
  exact ⟨edges, hedges, Edge.bestOfEach_distinct _⟩

/-! ## Filtering again -/

/-- Nothing is dropped where all edges pass, none of them the same reading as another. -/
theorem filterFrom_of_passes {size : Nat} {positions : List (List (Edge Rat))}
    (h : ∀ (i : Nat) (edges : List (Edge Rat)), positions[i]? = some edges →
      (edges.map Edge.reading).Nodup ∧ ∀ e ∈ edges, e.passes t size (start + i) = true) :
    filterFrom t size start positions = positions := by
  induction positions generalizing start with
  | nil => rfl
  | cons edges rest ih =>
    obtain ⟨hnodup, hpasses⟩ : _ ∧ ∀ e ∈ edges, e.passes t size start = true := h 0 edges rfl
    rw [filterFrom, List.filter_eq_self.2 hpasses, Edge.distinct_of_nodup hnodup, ih]
    intro i later hlater
    have hrest := h (i + 1) later hlater
    rwa [← Nat.add_assoc, Nat.add_right_comm] at hrest

/-- Filtering again changes nothing. -/
theorem filter_filter (l : Lattice Rat) (t : Rat) : (l.filter t).filter t = l.filter t := by
  refine congrArg Lattice.mk (filterFrom_of_passes fun i kept hkept => ?_)
  obtain ⟨edges, -, hbest⟩ := exists_bestOfEach hkept
  refine ⟨hbest.nodup, fun e he => ?_⟩
  rw [size_filter, Nat.zero_add]
  exact (List.mem_filter.1 (hbest.best e he).mem).2

/-! ## Readings of paths -/

/-- Where no two edges at a word are the same reading, no two paths read the same. -/
theorem pairwise_reading_pathsFrom {positions : List (List (Edge Rat))}
    (h : ∀ edges ∈ positions, (edges.map Edge.reading).Nodup) :
    (pathsFrom positions).Pairwise fun p q => p.map Edge.reading ≠ q.map Edge.reading := by
  induction positions using suffix_induction with
  | nil => exact List.pairwise_singleton _ _
  | cons edges rest ih =>
    rw [pathsFrom_cons, List.pairwise_flatMap]
    constructor
    · intro e _
      split
      · next he =>
        refine List.pairwise_map.2 ((ih e he fun later hlater =>
          h later (List.mem_of_mem_drop hlater)).imp fun hne heq => hne ?_)
        exact (List.cons.inj heq).2
      · exact .nil
    · have hedges := List.pairwise_map.1 (h edges List.mem_cons_self)
      refine hedges.imp fun {e f} hne p hp q hq heq => ?_
      split at hp
      · split at hq
        · obtain ⟨p', -, rfl⟩ := List.mem_map.1 hp
          obtain ⟨q', -, rfl⟩ := List.mem_map.1 hq
          exact hne (List.cons.inj heq).1
        · cases hq
      · cases hp

/-- Placed edges keep their readings. -/
theorem map_place (start : Nat) (path : List (Edge Rat)) :
    (place start path).map (fun p => (p.span.length, p.token.identity)) =
      path.map Edge.reading := by
  induction path generalizing start with
  | nil => rfl
  | cons e rest ih => rw [place, List.map_cons, List.map_cons, ih, Edge.reading]

/-- No two tokenizations read the same words in the same way. -/
theorem nodup_tilings_filter (l : Lattice Rat) (t : Rat) :
    ((l.filter t).tilings.map
      (·.map fun p : Placed Token => (p.span, p.token.identity))).Nodup := by
  have hpaths : ((l.filter t).paths.map (·.map Edge.reading)).Nodup := by
    by_cases hne : (l.filter t).positions = []
    · rw [paths, hne]
      exact .nil
    · rw [paths_eq_pathsFrom hne]
      refine List.pairwise_map.2 (pairwise_reading_pathsFrom fun edges hedges => ?_)
      obtain ⟨i, hi⟩ := List.getElem?_of_mem hedges
      obtain ⟨_, -, hbest⟩ := exists_bestOfEach hi
      exact hbest.nodup
  refine List.Nodup.of_map
    (·.map fun (p : Span × Token.Identity) => (p.1.length, p.2)) ?_
  rw [tilings, List.map_map, List.map_map]
  refine (congrArg List.Nodup (List.map_congr_left fun path _ => ?_)).mpr hpaths
  rw [← map_place 0 path]
  simp

/-! ## Weights -/

/-- The paths that are left are paths of the lattice, over edges that clear the threshold. -/
theorem IsPath.of_filter (h : (l.filter t).IsPath start path) :
    l.IsPath start path ∧ ∀ e ∈ path, Clears t e := by
  induction h with
  | stop => exact ⟨size_filter l t ▸ .stop, nofun⟩
  | take hkept he hpos hle _ ih =>
    obtain ⟨edges, hedges, hbest⟩ := exists_bestOfEach hkept
    obtain ⟨hmem, hpasses⟩ := List.mem_filter.1 (hbest.best _ he).mem
    obtain ⟨-, -, hclears⟩ := passes_iff.1 hpasses
    exact ⟨.take hedges hmem hpos (size_filter l t ▸ hle) ih.1,
      List.forall_mem_cons.2 ⟨hclears, ih.2⟩⟩

/-- A path over edges that clear the threshold can be exchanged, edge by edge, for one that is left,
reads the same and is no lighter. -/
theorem IsPath.exists_filter (h : l.IsPath start path) (hclears : ∀ e ∈ path, Clears t e) :
    ∃ kept, (l.filter t).IsPath start kept ∧
      kept.map Edge.reading = path.map Edge.reading ∧ weight path ≤ weight kept := by
  induction h with
  | stop => exact ⟨[], size_filter l t ▸ .stop, rfl, le_refl _⟩
  | @take start edges e path hedges he hpos hle _ ih =>
    obtain ⟨hclear, hrest⟩ := List.forall_mem_cons.1 hclears
    obtain ⟨tail, htail, hreadings, hweight⟩ := ih hrest
    have hadmitted : l.Admits t start e := ⟨hpos, hle, hclear⟩
    have hpassed : e ∈ edges.filter (Edge.passes t l.size start) :=
      List.mem_filter.2 ⟨he, hadmitted.passes⟩
    have hbest := Edge.bestOfEach_distinct (edges.filter (Edge.passes t l.size start))
    obtain ⟨k, hk, hreading⟩ :=
      List.mem_map.1 (hbest.mem_map_reading_iff.2 (List.mem_map_of_mem hpassed))
    have hkept : (l.filter t).positions[start]? =
        some (Edge.distinct (edges.filter (Edge.passes t l.size start))) := by
      rw [getElem?_filter, hedges, Option.map_some]
    have hlength : k.length = e.length := (Prod.mk.inj hreading).1
    refine ⟨k :: tail, .take hkept hk (hlength ▸ hpos) ?_ (hlength ▸ htail),
      ?_, ?_⟩
    · rwa [size_filter, hlength]
    · rw [List.map_cons, List.map_cons, hreading, hreadings]
    · have hscore : e.score ≤ k.score := (hbest.best k hk).le hpassed hreading.symm
      have hedge : e.weight ≤ k.weight := by
        show e.score * (e.length : Rat) ≤ k.score * (k.length : Rat)
        rw [hlength]
        exact mul_le_mul_of_nonneg_right hscore (Nat.cast_nonneg _)
      rw [weight_cons, weight_cons]
      exact add_le_add hedge hweight

/-- The paths over edges that clear the threshold are paths of the lattice. -/
theorem mem_clearPaths_iff : path ∈ l.clearPaths t ↔
    l.positions ≠ [] ∧ l.IsPath 0 path ∧ ∀ e ∈ path, Clears t e := by
  rw [clearPaths, List.mem_filter, mem_paths_iff, decide_eq_true_iff, and_assoc]

/-- A filter takes no words away. -/
theorem positions_filter_ne_nil_iff : (l.filter t).positions ≠ [] ↔ l.positions ≠ [] := by
  rw [← List.length_pos_iff, ← List.length_pos_iff]
  exact iff_of_eq (congrArg (0 < ·) (size_filter l t))

/-- Each path that is left goes over edges that clear the threshold. -/
theorem paths_filter_subset (l : Lattice Rat) (t : Rat) :
    (l.filter t).paths ⊆ l.clearPaths t := by
  intro path hpath
  obtain ⟨hne, hpath⟩ := mem_paths_iff.1 hpath
  exact mem_clearPaths_iff.2 ⟨positions_filter_ne_nil_iff.1 hne, hpath.of_filter⟩

/-- For each path over edges that clear the threshold, one is left that is no lighter. -/
theorem exists_mem_paths_filter (h : path ∈ l.clearPaths t) :
    ∃ kept ∈ (l.filter t).paths, weight path ≤ weight kept := by
  obtain ⟨hne, hpath, hclears⟩ := mem_clearPaths_iff.1 h
  obtain ⟨kept, hkept, -, hle⟩ := hpath.exists_filter hclears
  exact ⟨kept, mem_paths_iff.2 ⟨positions_filter_ne_nil_iff.2 hne, hkept⟩, hle⟩

/-- Some of the paths have the greatest weight of all if each is no heavier than one of them. -/
theorem IsGreatestWeight.of_subset {left all : List (List (Edge Rat))} {w : Rat}
    (h : IsGreatestWeight left w) (hsub : left ⊆ all)
    (hle : ∀ p ∈ all, ∃ q ∈ left, weight p ≤ weight q) : IsGreatestWeight all w where
  attained := h.attained.imp fun _ hp => ⟨hsub hp.1, hp.2⟩
  le p hp := by
    obtain ⟨q, hq, hpq⟩ := hle p hp
    exact le_trans hpq (h.le q hq)

/-- Two words, the second with a reading that is as long as a length can be. -/
def longReading : Lattice Rat where
  positions := [[.filler "and"], [.filler "half", ⟨.conjunction, 1, 18446744073709551615⟩]]

end

end Lattice

end SpokenOrder
