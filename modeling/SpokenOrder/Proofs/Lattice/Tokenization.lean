import SpokenOrder.Lattice.Filter
import SpokenOrder.Proofs.Lattice.Heaviest
import SpokenOrder.Proofs.Run.Span

/-!
# What tokenizations are

A tokenization places the tokens of some edges one right behind another, from the first word to the
end of the lattice (`Lattice.tiles_of_mem_tilings`). Filtering and the choice of heaviest paths
bring in no edges and keep the words. Restricting leaves no more words than the span has, and a test
that no unknown word fails only takes tokenizations away (`Lattice.tilings_restrict_subset`).
-/

namespace SpokenOrder

variable {α : Type}

namespace Lattice

variable {l : Lattice α} {run : Run}

/-! ## Paths as tokenizations -/

/-- The tokens of a path tile the words from where it begins. -/
theorem IsPath.tiles {start : Nat} {path : List (Edge α)} (h : l.IsPath start path) :
    Run.Tiles start (place start path) l.size := by
  induction h with
  | stop => rfl
  | take _ _ hpos _ _ ih => exact ⟨rfl, hpos, ih⟩

/-- The tokens of a path are those of its edges. -/
theorem IsPath.exists_hasEdge {start : Nat} {path : List (Edge α)} (h : l.IsPath start path)
    {p : Placed Token} (hp : p ∈ place start path) :
    ∃ i e, l.HasEdge i e ∧ i + e.length ≤ l.size ∧ p = ⟨e.token, ⟨i, e.length⟩⟩ := by
  induction h with
  | stop => cases hp
  | take hedges he _ hle _ ih =>
    rcases List.mem_cons.1 hp with rfl | hp
    · exact ⟨_, _, ⟨_, hedges, he⟩, hle, rfl⟩
    · exact ih hp

/-- The tokenizations are the paths, placed from the first word on. A lattice over no words has
none. -/
theorem mem_tilings_iff : run ∈ l.tilings ↔
    l.positions ≠ [] ∧ ∃ path, l.IsPath 0 path ∧ place 0 path = run := by
  simp only [tilings, List.mem_map, mem_paths_iff, and_assoc, exists_and_left]

/-- The tokens of a tokenization stand one right behind another, from the first word to the end. -/
theorem tiles_of_mem_tilings (h : run ∈ l.tilings) : Run.Tiles 0 run l.size := by
  obtain ⟨-, path, hpath, rfl⟩ := mem_tilings_iff.1 h
  exact hpath.tiles

/-- A tokenization has no more tokens than there are words. -/
theorem length_le_size (h : run ∈ l.tilings) : run.length ≤ l.size :=
  (tiles_of_mem_tilings h).between_words.length_le

/-- The tokens of a tokenization come from edges. -/
theorem exists_edge_of_mem_tilings (h : run ∈ l.tilings) {p : Placed Token}
    (hp : p ∈ run) : ∃ edges ∈ l.positions, ∃ e ∈ edges, e.token = p.token := by
  obtain ⟨-, path, hpath, rfl⟩ := mem_tilings_iff.1 h
  obtain ⟨i, e, ⟨edges, hedges, he⟩, -, rfl⟩ := hpath.exists_hasEdge hp
  exact ⟨edges, List.mem_of_getElem? hedges, e, he, rfl⟩

variable [Score α]

/-- The heaviest tokenizations are tokenizations. -/
theorem mem_tilings_of_heaviest (h : run ∈ l.heaviestTilings) :
    run ∈ l.tilings := by
  rw [heaviestTilings, tilings, paths_heaviest] at h
  exact (List.filter_sublist.map _).subset h

/-! ## Fewer edges -/

/-- Inserting an edge brings in no other. -/
theorem mem_of_mem_insertBest {e new : Edge α} {edges : List (Edge α)}
    (h : e ∈ new.insertBest edges) : e = new ∨ e ∈ edges := by
  induction edges with
  | nil => exact .inl (List.mem_singleton.1 h)
  | cons old rest ih =>
    rw [Edge.insertBest] at h
    split at h
    · rcases List.mem_cons.1 h with rfl | h
      · split
        · exact .inr List.mem_cons_self
        · exact .inl rfl
      · exact .inr (List.mem_cons_of_mem _ h)
    · rcases List.mem_cons.1 h with rfl | h
      · exact .inr List.mem_cons_self
      · exact (ih h).imp_right (List.mem_cons_of_mem _)

/-- Dropping copies brings in no edge. -/
theorem mem_of_mem_distinct {e : Edge α} {edges : List (Edge α)} (h : e ∈ Edge.distinct edges) :
    e ∈ edges := by
  suffices hfold : ∀ kept : List (Edge α),
      e ∈ edges.foldl (fun kept e => e.insertBest kept) kept → e ∈ kept ∨ e ∈ edges from
    (hfold [] h).resolve_left List.not_mem_nil
  clear h
  induction edges with
  | nil => exact fun _ h => .inl h
  | cons new rest ih =>
    intro kept h
    rcases ih _ h with h | h
    · rcases mem_of_mem_insertBest h with rfl | h
      · exact .inr List.mem_cons_self
      · exact .inl h
    · exact .inr (List.mem_cons_of_mem _ h)

/-- What is left of the edges at a position. -/
theorem getElem?_filterFrom (threshold : α) (size start : Nat) (positions : List (List (Edge α)))
    (i : Nat) : (filterFrom threshold size start positions)[i]? = positions[i]?.map fun edges =>
      Edge.distinct (edges.filter (Edge.passes threshold size (start + i))) := by
  induction positions generalizing start i with
  | nil => rfl
  | cons edges rest ih =>
    cases i with
    | zero => rfl
    | succ i =>
      rw [filterFrom, List.getElem?_cons_succ, ih, List.getElem?_cons_succ, Nat.add_right_comm,
        Nat.add_assoc]

/-- What is left of the edges at a position of a filtered lattice. -/
theorem getElem?_filter (l : Lattice α) (threshold : α) (i : Nat) :
    (l.filter threshold).positions[i]? = l.positions[i]?.map fun edges =>
      Edge.distinct (edges.filter (Edge.passes threshold l.size i)) := by
  rw [filter, getElem?_filterFrom, Nat.zero_add]

/-- The edges that a filter leaves at a position are some of those that are there and pass. -/
theorem exists_of_getElem?_filter {threshold : α} {i : Nat} {edges : List (Edge α)}
    (h : (l.filter threshold).positions[i]? = some edges) :
    ∃ all, l.positions[i]? = some all ∧
      ∀ e ∈ edges, e ∈ all ∧ e.passes threshold l.size i = true := by
  rw [getElem?_filter, Option.map_eq_some_iff] at h
  obtain ⟨all, hall, rfl⟩ := h
  exact ⟨all, hall, fun e he => List.mem_filter.1 (mem_of_mem_distinct he)⟩

/-- The edges that a filter leaves at a word are some of those that begin at some word. -/
theorem exists_of_mem_filter {threshold : α} {edges : List (Edge α)}
    (h : edges ∈ (l.filter threshold).positions) : ∃ all ∈ l.positions, edges ⊆ all := by
  obtain ⟨i, hi⟩ := List.mem_iff_getElem?.1 h
  obtain ⟨all, hall, hedges⟩ := exists_of_getElem?_filter hi
  exact ⟨all, List.mem_of_getElem? hall, fun e he => (hedges e he).1⟩

/-- A filter brings in no edge. -/
theorem HasEdge.of_filter {threshold : α} {start : Nat} {e : Edge α}
    (h : (l.filter threshold).HasEdge start e) : l.HasEdge start e := by
  obtain ⟨edges, hedges, he⟩ := h
  obtain ⟨all, hall, hpass⟩ := exists_of_getElem?_filter hedges
  exact ⟨all, hall, (hpass e he).1⟩

/-- The edges that a filter leaves cover a word or more. -/
theorem HasEdge.length_pos_of_filter {threshold : α} {start : Nat} {e : Edge α}
    (h : (l.filter threshold).HasEdge start e) : 0 < e.length := by
  obtain ⟨edges, hedges, he⟩ := h
  obtain ⟨all, -, hpass⟩ := exists_of_getElem?_filter hedges
  have hpasses := (hpass e he).2
  rw [Edge.passes, Bool.and_eq_true, Edge.leadsOn_iff] at hpasses
  exact hpasses.1.1

/-- A filter keeps the number of positions. -/
theorem length_filterFrom (threshold : α) (size start : Nat) (positions : List (List (Edge α))) :
    (filterFrom threshold size start positions).length = positions.length := by
  induction positions generalizing start with
  | nil => rfl
  | cons edges rest ih => rw [filterFrom, List.length_cons, List.length_cons, ih]

/-- A filter keeps the words. -/
theorem size_filter (l : Lattice α) (threshold : α) : (l.filter threshold).size = l.size :=
  length_filterFrom threshold l.size 0 l.positions

/-- Restricting keeps the positions of the span. -/
theorem length_restrictFrom (wanted : Token → Bool) (stop start : Nat)
    (positions : List (List (Edge α))) :
    (restrictFrom wanted stop start positions).length = positions.length := by
  induction positions generalizing start with
  | nil => rfl
  | cons edges rest ih => rw [restrictFrom, List.length_cons, List.length_cons, ih]

/-- A restricted lattice has the words from the beginning of the span to its clipped end. -/
theorem size_restrict (l : Lattice α) (span : Span) (wanted : Token → Bool) :
    (l.restrict span wanted).size = l.clippedStop span - span.start := by
  have hle : l.clippedStop span ≤ l.positions.length := Nat.min_le_right _ _
  rw [size, restrict, length_restrictFrom, List.length_drop, List.length_take,
    Nat.min_eq_left hle]

omit [Score α] in
theorem clippedStop_le_stop (l : Lattice α) (span : Span) : l.clippedStop span ≤ span.stop :=
  Nat.le_trans (Nat.min_le_left _ _) (Nat.mod_le _ _)

/-- A restricted lattice has no more words than the span. -/
theorem size_restrict_le (l : Lattice α) (span : Span) (wanted : Token → Bool) :
    (l.restrict span wanted).size ≤ span.length := by
  rw [size_restrict]
  exact Nat.sub_le_of_le_add (Nat.add_comm _ _ ▸ l.clippedStop_le_stop span)

/-! ## Fewer tokenizations -/

omit [Score α] in
/-- A lattice has all paths of one over the same words whose edges it has. -/
theorem IsPath.mono {m : Lattice α} {start : Nat} {path : List (Edge α)} (hsize : l.size = m.size)
    (hsub : ∀ (i : Nat) (edges : List (Edge α)), l.positions[i]? = some edges →
      ∃ more, m.positions[i]? = some more ∧ edges ⊆ more)
    (h : l.IsPath start path) : m.IsPath start path := by
  induction h with
  | stop => exact hsize ▸ .stop
  | take hedges he hpos hle _ ih =>
    obtain ⟨more, hmore, hsubset⟩ := hsub _ _ hedges
    exact .take hmore (hsubset he) hpos (hsize ▸ hle) ih

/-- A filler is put in where there is none. -/
theorem mem_refill_iff {e : Edge α} {edges : List (Edge α)} : e ∈ refill edges ↔
    e ∈ edges ∨ e = Edge.filler "_" ∧ ∀ f ∈ edges, f.isFiller = false := by
  unfold refill
  split
  · next hany =>
    obtain ⟨f, hf, hfiller⟩ := List.any_eq_true.1 hany
    refine (or_iff_left fun ⟨_, hnone⟩ => ?_).symm
    rw [hnone f hf] at hfiller
    cases hfiller
  · next hnone =>
    rw [List.mem_append, List.mem_singleton]
    refine or_congr_right (and_iff_left fun f hf => ?_).symm
    exact Bool.eq_false_iff.2 fun hfiller => hnone (List.any_eq_true.2 ⟨f, hf, hfiller⟩)

/-- A test that no filler fails takes none away, so no other is put in. -/
theorem refill_filter_subset {wanted : Token → Bool} {keep : Edge α → Bool}
    (hwanted : ∀ t, t.isUnknown = true → wanted t = true) (edges : List (Edge α)) :
    refill (edges.filter fun e => keep e && wanted e.token) ⊆ refill (edges.filter keep) := by
  intro e he
  simp only [mem_refill_iff, List.mem_filter, Bool.and_eq_true] at he ⊢
  rcases he with ⟨hmem, hkeep, -⟩ | ⟨rfl, hnone⟩
  · exact .inl ⟨hmem, hkeep⟩
  · refine .inr ⟨rfl, fun f ⟨hmem, hkeep⟩ => Bool.eq_false_iff.2 fun hfiller => ?_⟩
    rw [hnone f ⟨hmem, hkeep, hwanted _ hfiller⟩] at hfiller
    cases hfiller

/-- A test that no unknown word fails leaves only edges that are there without it. -/
theorem exists_of_getElem?_restrictFrom {wanted : Token → Bool}
    (hwanted : ∀ t, t.isUnknown = true → wanted t = true) {stop start : Nat}
    {positions : List (List (Edge α))} {i : Nat} {edges : List (Edge α)}
    (h : (restrictFrom wanted stop start positions)[i]? = some edges) :
    ∃ more, (restrictFrom (fun _ => true) stop start positions)[i]? = some more ∧
      edges ⊆ more := by
  induction positions generalizing start i with
  | nil => cases h
  | cons all rest ih =>
    cases i with
    | zero =>
      cases h
      refine ⟨_, rfl, ?_⟩
      simpa using refill_filter_subset hwanted all
    | succ i => exact ih h

/-- A test that no unknown word fails leaves only tokenizations of the span that are there without
it. -/
theorem tilings_restrict_subset {span : Span} {wanted : Token → Bool}
    (hwanted : ∀ t, t.isUnknown = true → wanted t = true) :
    (l.restrict span wanted).tilings ⊆ (l.restrict span fun _ => true).tilings := by
  intro run hrun
  obtain ⟨hne, path, hpath, rfl⟩ := mem_tilings_iff.1 hrun
  have hsize : (l.restrict span wanted).size = (l.restrict span fun _ => true).size := by
    rw [size, size, restrict, restrict, length_restrictFrom, length_restrictFrom]
  have hall := hpath.mono hsize fun _ _ h => exists_of_getElem?_restrictFrom hwanted h
  refine mem_tilings_iff.2 ⟨fun hnil => hne ?_, path, hall, rfl⟩
  exact List.length_eq_zero_iff.1 (hsize.trans (List.length_eq_zero_iff.2 hnil))

end Lattice

end SpokenOrder
