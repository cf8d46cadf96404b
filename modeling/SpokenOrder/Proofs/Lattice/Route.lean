import Mathlib.Data.List.Basic
import SpokenOrder.Proofs.Lattice.Path

/-!
# Which path comes when

Several edges at a position may be equal, so a path does not say which of them it takes. A `Route`
does: besides its path it has, for each edge of the path, the place of the edge among those that
begin at the same position. The paths of a lattice are listed in the lexicographic order of these
choices (`Lattice.pairwise_routesFrom`), one for each route (`Lattice.mem_routesFrom`).
-/

namespace SpokenOrder

variable {α : Type}

/-- A path, and the place of each of its edges among those that begin at the same position. -/
structure Route (α : Type) where
  choices : List Nat
  path : List (Edge α)

/-- The route that takes an edge first. -/
def Route.cons (choice : Nat) (e : Edge α) (r : Route α) : Route α :=
  ⟨choice :: r.choices, e :: r.path⟩

namespace Lattice

/-- The route leads from the position `start` to the end of the lattice. -/
inductive IsRoute (l : Lattice α) : Nat → Route α → Prop
  | stop : IsRoute l l.size ⟨[], []⟩
  | take {start choice : Nat} {edges : List (Edge α)} {e : Edge α} {r : Route α} :
      l.positions[start]? = some edges → edges[choice]? = some e → 0 < e.length →
      start + e.length ≤ l.size → IsRoute l (start + e.length) r →
      IsRoute l start (r.cons choice e)

/-! ## The listed routes -/

/-- The routes that begin with one of the edges, given the routes from the later positions. -/
def extendRoutes (edges : List (Edge α)) (later : List (List (Route α))) : List (Route α) :=
  edges.zipIdx.flatMap fun p => ((arrival? later p.1).getD []).map (.cons p.2 p.1)

/-- The routes from the first of the positions to the end. -/
def routesFrom (positions : List (List (Edge α))) : List (Route α) :=
  foldFrom [⟨[], []⟩] extendRoutes positions

variable {edges : List (Edge α)} {rest : List (List (Edge α))} {r : Route α}

/-- The routes from a position take an edge and go on from where it ends. -/
theorem routesFrom_cons (edges : List (Edge α)) (rest : List (List (Edge α))) :
    routesFrom (edges :: rest) = edges.zipIdx.flatMap fun p =>
      if p.1.Within (rest.length + 1) then
        (routesFrom ((edges :: rest).drop p.1.length)).map (.cons p.2 p.1)
      else [] := by
  refine List.flatMap_congr fun p _ => ?_
  by_cases he : p.1.Within (rest.length + 1)
  · rw [if_pos he, arrival?_of_within he]
    rfl
  · rw [if_neg he, arrival?_of_not_within he]
    rfl

/-- The routes have the listed paths, in their order. -/
theorem map_path_routesFrom (positions : List (List (Edge α))) :
    (routesFrom positions).map Route.path = pathsFrom positions := by
  induction positions using suffix_induction with
  | nil => rfl
  | cons edges rest ih =>
    have hedges : edges = edges.zipIdx.map Prod.fst := (List.zipIdx_map_fst 0 edges).symm
    conv_rhs => rw [pathsFrom_cons, hedges, List.flatMap_map, ← hedges]
    rw [routesFrom_cons, List.map_flatMap]
    refine List.flatMap_congr fun p _ => ?_
    by_cases he : p.1.Within (rest.length + 1)
    · rw [if_pos he, if_pos he, ← ih p.1 he, List.map_map, List.map_map]
      rfl
    · rw [if_neg he, if_neg he]
      rfl

/-- The routes from a position of a lattice. -/
theorem routesFrom_drop {l : Lattice α} {start : Nat} (h : l.positions[start]? = some edges) :
    routesFrom (l.positions.drop start) = edges.zipIdx.flatMap fun p =>
      if p.1.Within (l.size - start) then
        (routesFrom (l.positions.drop (start + p.1.length))).map (.cons p.2 p.1)
      else [] := by
  obtain ⟨rest, hdrop, hroom⟩ := drop_of_getElem? h
  rw [hdrop, routesFrom_cons, ← hdrop, hroom]
  simp only [List.drop_drop]

/-- The routes come in the lexicographic order of their choices, so no choices come twice. -/
theorem pairwise_routesFrom (positions : List (List (Edge α))) :
    (routesFrom positions).Pairwise fun r s => r.choices < s.choices := by
  induction positions using suffix_induction with
  | nil => exact List.pairwise_singleton _ _
  | cons edges rest ih =>
    rw [routesFrom_cons, List.pairwise_flatMap]
    constructor
    · -- Where the first choice is the same, the later ones decide.
      intro p _
      split
      · next he =>
        refine List.pairwise_map.2 ((ih p.1 he).imp fun hlt => ?_)
        exact List.cons_lt_cons_iff.2 (.inr ⟨rfl, hlt⟩)
      · exact .nil
    · have hplaces : edges.zipIdx.Pairwise fun p q => p.2 < q.2 := by
        refine List.pairwise_map.1 ?_
        rw [List.zipIdx_map_snd]
        exact List.pairwise_lt_range'
      refine hplaces.imp fun {p q} hlt r hr s hs => ?_
      split at hr
      · split at hs
        · obtain ⟨r', -, rfl⟩ := List.mem_map.1 hr
          obtain ⟨s', -, rfl⟩ := List.mem_map.1 hs
          exact List.cons_lt_cons_iff.2 (.inl hlt)
        · cases hs
      · cases hr

/-- At the end of a lattice there is only the route without edges. -/
theorem isRoute_size_iff {l : Lattice α} : l.IsRoute l.size r ↔ r = ⟨[], []⟩ := by
  constructor
  · intro h
    cases h with
    | stop => rfl
    | take hedges => exact absurd (List.getElem?_eq_some_iff.1 hedges).1 (Nat.lt_irrefl _)
  · rintro rfl
    exact .stop

/-- A route from a position takes one of its edges and goes on from where the edge ends. -/
theorem isRoute_iff_of_getElem? {l : Lattice α} {start : Nat}
    (h : l.positions[start]? = some edges) :
    l.IsRoute start r ↔ ∃ choice e, edges[choice]? = some e ∧ e.Within (l.size - start) ∧
      ∃ tail, l.IsRoute (start + e.length) tail ∧ tail.cons choice e = r := by
  have hlt : start < l.size := (List.getElem?_eq_some_iff.1 h).1
  constructor
  · intro hroute
    cases hroute with
    | stop => exact absurd hlt (Nat.lt_irrefl _)
    | take hedges hchoice hpos hle htail =>
      obtain rfl := Option.some_inj.1 (h.symm.trans hedges)
      exact ⟨_, _, hchoice, ⟨hpos, by omega⟩, _, htail, rfl⟩
  · rintro ⟨choice, e, hchoice, hwithin, tail, htail, rfl⟩
    exact .take h hchoice hwithin.1 hwithin.add_le htail

/-- From each position, the routes of the relation are the listed ones. -/
theorem mem_routesFrom {l : Lattice α} {start : Nat} (hstart : start ≤ l.size) :
    r ∈ routesFrom (l.positions.drop start) ↔ l.IsRoute start r := by
  induction start, hstart using position_induction generalizing r with
  | stop =>
    rw [isRoute_size_iff, size, List.drop_length]
    exact List.mem_singleton
  | take start edges hedges ih =>
    rw [isRoute_iff_of_getElem? hedges, routesFrom_drop hedges, List.mem_flatMap, Prod.exists,
      exists_comm]
    refine exists_congr fun choice => exists_congr fun e => ?_
    rw [List.mem_zipIdx_iff_getElem?]
    refine and_congr_right fun _ => ?_
    by_cases he : e.Within (l.size - start)
    · simp only [if_pos he, List.mem_map, and_iff_right he, ih e he]
    · simp [he]

end Lattice

end SpokenOrder
