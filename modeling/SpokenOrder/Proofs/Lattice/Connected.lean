import SpokenOrder.Proofs.Lattice.Restrict

/-!
# Paths that are left

Filtering keeps one edge of each reading that passes, and fillers pass, so where each word has a
filler of its own it still has one (`Lattice.Filled.filter`). Of the paths over such a lattice at
least one is kept as a heaviest, if the weights that come up can be compared
(`Lattice.Comparable.heaviestTilings_ne_nil`): rounding may make a weight infinite, and an
infinite weight is not close even to itself.
-/

namespace SpokenOrder

variable {α : Type}

/-! ## Readings that are kept -/

/-- What an edge says: a token's identity, for so many words. -/
def Edge.reading (e : Edge α) : Nat × Token.Identity := (e.length, e.token.identity)

/-- Edges read the same if their lengths and identities do. -/
theorem Edge.sameReading_iff {e f : Edge α} : e.sameReading f = true ↔ e.reading = f.reading := by
  rw [sameReading, Bool.and_eq_true, beq_iff_eq, beq_iff_eq, reading, reading, Prod.mk.injEq]

/-- The words that nothing explains are told from other tokens by their identity. -/
theorem Token.isUnknown_iff {t : Token} : t.isUnknown = true ↔ ∃ text, t.identity = .word text := by
  cases t <;> simp [isUnknown, kind, identity]

namespace Lattice

variable [Score α] {l : Lattice α}

/-- Inserting an edge adds its reading and loses none. -/
theorem mem_map_reading_insertBest {r : Nat × Token.Identity} {new : Edge α}
    {edges : List (Edge α)} : r ∈ (new.insertBest edges).map Edge.reading ↔
      r = new.reading ∨ r ∈ edges.map Edge.reading := by
  induction edges with
  | nil => simp [Edge.insertBest]
  | cons old rest ih =>
    rw [Edge.insertBest]
    split
    · next hsame =>
      have heq := Edge.sameReading_iff.1 hsame
      split <;> simp [heq]
    · rw [List.map_cons, List.mem_cons, ih, List.map_cons, List.mem_cons]
      exact or_left_comm

/-- Copies of a reading are dropped, but no reading. -/
theorem mem_map_reading_distinct {r : Nat × Token.Identity} {edges : List (Edge α)} :
    r ∈ (Edge.distinct edges).map Edge.reading ↔ r ∈ edges.map Edge.reading := by
  suffices hfold : ∀ kept : List (Edge α),
      r ∈ (edges.foldl (fun kept e => e.insertBest kept) kept).map Edge.reading ↔
        r ∈ kept.map Edge.reading ∨ r ∈ edges.map Edge.reading from
    (hfold []).trans (or_iff_right List.not_mem_nil)
  induction edges with
  | nil => simp
  | cons new rest ih =>
    intro kept
    rw [List.foldl_cons, ih, mem_map_reading_insertBest, List.map_cons, List.mem_cons]
    tauto

/-- Fillers stay, whatever the threshold is. -/
theorem Filled.filter (h : l.Filled) (threshold : α) : (l.filter threshold).Filled := by
  intro i hi
  rw [size_filter] at hi
  obtain ⟨f, ⟨edges, hedges, hf⟩, hfiller, hone⟩ := h i hi
  have hpasses : f.passes threshold l.size i = true := by
    have hstop : f.keptStop i ≤ l.size := by
      rw [Edge.keptStop, hone]
      exact Nat.le_trans (Nat.mod_le _ _) hi
    simp [Edge.passes, Edge.leadsOn, hone, hstop, hfiller]
  have hreading : f.reading ∈ (Edge.distinct (edges.filter
      (Edge.passes threshold l.size i))).map Edge.reading :=
    mem_map_reading_distinct.2 (List.mem_map_of_mem (List.mem_filter.2 ⟨hf, hpasses⟩))
  obtain ⟨g, hg, heq⟩ := List.mem_map.1 hreading
  obtain ⟨hlength, hidentity⟩ := Prod.mk.inj heq
  obtain ⟨text, htext⟩ := Token.isUnknown_iff.1 hfiller
  refine ⟨g, ⟨_, ?_, hg⟩, Token.isUnknown_iff.2 ⟨text, hidentity.trans htext⟩,
    hlength.trans hone⟩
  rw [getElem?_filter, hedges, Option.map_some]

/-! ## A heaviest path -/

/-- Some scores can be compared among one another, and the weights of the paths are among them. -/
structure Comparable (Fit : α → Prop) (positions : List (List (Edge α))) : Prop where
  zero : Fit Score.zero
  add : ∀ edges ∈ positions, ∀ e ∈ edges, ∀ w, Fit w → Fit (Score.add e.weight w)
  larger : ∀ s t : α, Score.larger s t = s ∨ Score.larger s t = t
  close : ∀ w, Fit w → Score.close w w = true

variable {Fit : α → Prop} {positions : List (List (Edge α))}

/-- What can be compared in a lattice can be compared from any position on. -/
theorem Comparable.drop (h : Comparable Fit positions) (n : Nat) :
    Comparable Fit (positions.drop n) where
  zero := h.zero
  add := fun _ hedges => h.add _ (List.mem_of_mem_drop hedges)
  larger := h.larger
  close := h.close

/-- Of some scores, one is the largest. -/
theorem exists_largest? {s : α} {ss : List α} (h : s ∈ ss) : ∃ t, largest? ss = some t := by
  cases ss with
  | nil => cases h
  | cons t ss => exact ⟨_, rfl⟩

/-- The largest of some scores is one of them. -/
theorem mem_of_largest? (hlarger : ∀ s t : α, Score.larger s t = s ∨ Score.larger s t = t)
    {s : α} {ss : List α} (h : largest? ss = some s) : s ∈ ss := by
  cases ss with
  | nil => cases h
  | cons t ss =>
    obtain rfl := Option.some.inj h
    clear h
    induction ss generalizing t with
    | nil => exact List.mem_cons_self
    | cons u ss ih =>
      rw [List.foldl_cons]
      rcases List.mem_cons.1 (ih (Score.larger t u)) with heq | hmem
      · rw [heq]
        rcases hlarger t u with h | h <;> simp [h]
      · exact List.mem_cons_of_mem _ (List.mem_cons_of_mem _ hmem)

/-- Where an edge over one word begins at each word, there is a best weight, and a path is kept: the
edge that the best weight goes over is as heavy as itself. -/
theorem Comparable.exists_keeps (h : Comparable Fit positions)
    (hone : ∀ edges ∈ positions, ∃ e ∈ edges, e.length = 1) :
    (∃ w, bestFrom positions = some w ∧ Fit w) ∧
      ∃ path ∈ pathsFrom positions, keeps positions path = true := by
  induction positions using suffix_induction with
  | nil => exact ⟨⟨_, rfl, h.zero⟩, [], List.mem_singleton_self _, rfl⟩
  | cons edges rest ih =>
    have hsuffix : ∀ e : Edge α, e.Within (rest.length + 1) → _ := fun e he =>
      ih e he (h.drop e.length) fun all hall => hone all (List.mem_of_mem_drop hall)
    obtain ⟨f, hf, hlength⟩ := hone edges List.mem_cons_self
    have hwithin : f.Within (rest.length + 1) := ⟨by omega, by omega⟩
    obtain ⟨⟨b, hb, -⟩, -⟩ := hsuffix f hwithin
    obtain ⟨w, hbest⟩ : ∃ w, bestFrom (edges :: rest) = some w :=
      exists_largest? (List.mem_filterMap.2
        ⟨f, hf, (weightVia?_eq_some_iff edges).2 ⟨hwithin, b, hb, rfl⟩⟩)
    obtain ⟨e, he, hvia⟩ := List.mem_filterMap.1 (mem_of_largest? h.larger hbest)
    obtain ⟨hwithin, b, hb, hw⟩ := (weightVia?_eq_some_iff edges).1 hvia
    obtain ⟨⟨b', hb', hfit⟩, path, hpath, hkeeps⟩ := hsuffix e hwithin
    obtain rfl : b = b' := Option.some.inj (hb.symm.trans hb')
    have hfit : Fit w := hw ▸ h.add edges List.mem_cons_self e he b hfit
    refine ⟨⟨w, hbest, hfit⟩, e :: path, ?_, ?_⟩
    · exact mem_pathsFrom_cons.2 ⟨e, he, hwithin, path, hpath, rfl⟩
    · rw [keeps, hkeeps, Bool.and_true]
      exact onHeaviest_eq_true_iff.2 ⟨w, w, hvia, hbest, h.close w hfit⟩

/-- So the lattice has a heaviest tokenization, unless it has no words. -/
theorem Comparable.heaviestTilings_ne_nil (h : Comparable Fit l.positions)
    (hfilled : l.Filled) (hne : l.positions ≠ []) : l.heaviestTilings ≠ [] := by
  have hone : ∀ edges ∈ l.positions, ∃ e ∈ edges, e.length = 1 := by
    intro edges hedges
    obtain ⟨i, hi, rfl⟩ := List.getElem_of_mem hedges
    obtain ⟨f, ⟨all, hall, hf⟩, -, hlength⟩ := hfilled i hi
    rw [List.getElem?_eq_getElem hi] at hall
    exact ⟨f, Option.some.inj hall ▸ hf, hlength⟩
  obtain ⟨-, path, hpath, hkeeps⟩ := h.exists_keeps hone
  have hmem : path ∈ l.heaviest.paths := by
    rw [paths_heaviest, paths_eq_pathsFrom hne]
    exact List.mem_filter.2 ⟨hpath, hkeeps⟩
  exact List.ne_nil_of_mem (List.mem_map_of_mem hmem)

end Lattice

end SpokenOrder
