import Mathlib.Data.List.Basic
import Mathlib.Logic.Relation
import SpokenOrder.Segment

/-!
# Turning the cuts

The ways to share words among entities can also be found with indices alone. One pass over a run
notes its entities and the gaps around them (`Run.pass_eq`). Then all gaps are cut at once: the
first at its front, the last at its end, and those between two entities anywhere. Such cuts are
turned like an odometer: the last cut that can move does so, and those behind it go back to the
front (`Run.turn?`). The odometer comes to a stop, and what it has shown by then is every choice of
cuts, the last one varying fastest (`Run.turnsTo_allCuts`). What the segments are is read off from
two neighbouring cuts each, and they are the segmentations (`Run.segmentations_eq_map_slices`).
-/

namespace SpokenOrder.Run

/-! ## One pass -/

/-- How far a pass over a run has come: where the gap in progress begins, and the entities and the
gaps before it. -/
structure Pass where
  start : Nat
  entities : List (Placed Token)
  gaps : List Run

/-- The pass comes to a token. An entity ends the gap in progress. -/
def Pass.step (run : Run) (s : Pass) (p : Placed Token × Nat) : Pass :=
  if p.1.token.kind == .entity then
    ⟨p.2 + 1, s.entities ++ [p.1], s.gaps ++ [(run.take p.2).drop s.start]⟩
  else s

/-- The entities of a run and the gaps around them, one more gap than entities. -/
def pass (run : Run) : List (Placed Token) × List Run :=
  let s := run.zipIdx.foldl (Pass.step run) ⟨0, [], []⟩
  (s.entities, s.gaps ++ [run.drop s.start])

/-- The entities of a run. -/
def entities (run : Run) : List (Placed Token) := run.splitOnEntities.2.map (·.1)

/-- The gaps around the entities of a run. -/
def gaps (run : Run) : List Run := run.splitOnEntities.1 :: run.splitOnEntities.2.map (·.2)

/-- Step by step, a pass splits what is left of the run. The gap in progress goes on with the first
gap of the rest. -/
theorem foldl_step {run before rest : Run} {start : Nat} (hrun : before ++ rest = run)
    (hstart : start ≤ before.length) (es : List (Placed Token)) (gs : List Run) :
    let s := (rest.zipIdx before.length).foldl (Pass.step run) ⟨start, es, gs⟩
    s.entities = es ++ entities rest ∧
      s.gaps ++ [run.drop s.start] =
        gs ++ (before.drop start ++ rest.splitOnEntities.1) ::
          rest.splitOnEntities.2.map (·.2) := by
  induction rest generalizing before start es gs with
  | nil =>
    subst hrun
    simp [entities, splitOnEntities]
  | cons p rest ih =>
    have hnext : (before ++ [p]) ++ rest = run := by
      rw [List.append_assoc, List.singleton_append, hrun]
    have hlength : (before ++ [p]).length = before.length + 1 := by simp
    rw [List.zipIdx_cons, List.foldl_cons, ← hlength]
    cases hp : p.token.kind == .entity with
    | true =>
      obtain ⟨hentities, hgaps⟩ := ih hnext (Nat.le_refl _) (es ++ [p])
        (gs ++ [before.drop start])
      have hgap : (run.take before.length).drop start = before.drop start := by
        rw [← hrun, List.take_left]
      rw [Pass.step, if_pos hp, hgap, ← hlength]
      refine ⟨hentities.trans ?_, hgaps.trans ?_⟩
      · simp [entities, splitOnEntities, hp]
      · simp [splitOnEntities, hp]
    | false =>
      obtain ⟨hentities, hgaps⟩ := ih hnext (Nat.le_trans hstart (by simp)) es gs
      rw [Pass.step, if_neg (by simp [hp])]
      refine ⟨hentities.trans ?_, hgaps.trans ?_⟩
      · simp [entities, splitOnEntities, hp]
      · simp [splitOnEntities, hp, List.drop_append_of_le_length hstart]

/-- The pass finds the entities and the gaps around them. -/
theorem pass_eq (run : Run) : run.pass = (run.entities, run.gaps) := by
  obtain ⟨hentities, hgaps⟩ :=
    @foldl_step run [] run 0 rfl (Nat.le_refl 0) [] []
  exact Prod.ext hentities hgaps

/-! ## Turning -/

/-- The cuts that an odometer shows, unless it has come to a stop, and those that it has shown. -/
structure Odometer where
  cuts? : Option (List Nat)
  shown : List (List Nat)

/-- The cuts that come next. The last cut between the outer ones that can move does so, and those
behind it go back to the front. -/
def advance? (lengths cuts : List Nat) : Option (List Nat) :=
  let last := lengths.length - 1
  let movable := (List.range' 1 (last - 1)).reverse.find? fun i =>
    cuts.getD i 0 < lengths.getD i 0
  movable.map fun i =>
    let moved := cuts.modify i (· + 1)
    moved.take (i + 1) ++ List.replicate (last - (i + 1)) 0 ++ moved.drop last

/-- One turn shows the cuts and goes on to the next ones. -/
def turn? (lengths : List Nat) (s : Odometer) : Option Odometer :=
  s.cuts?.map fun cuts => ⟨advance? lengths cuts, s.shown ++ [cuts]⟩

/-- Where an odometer begins: all cuts are at the front, but the last one is at the end. Without two
gaps there is nothing to turn. -/
def odometerStart (lengths : List Nat) : Odometer :=
  ⟨if lengths.length < 2 then none
    else some (List.replicate (lengths.length - 1) 0 ++ lengths.getLast?.toList), []⟩

/-- The odometer comes from the one state to the other. -/
abbrev TurnsTo (lengths : List Nat) : Odometer → Odometer → Prop :=
  Relation.ReflTransGen fun s t => turn? lengths s = some t

/-- All choices of one cut in each of some gaps, the last one varying fastest. -/
def choices : List Nat → List (List Nat)
  | [] => [[]]
  | length :: rest => (List.range (length + 1)).flatMap fun cut => (choices rest).map (cut :: ·)

/-- All choices of cuts: the first gap is cut at its front and the last one at its end. Without two
gaps there is none. -/
def allCuts (lengths : List Nat) : List (List Nat) :=
  if lengths.length < 2 then []
  else (choices lengths.tail.dropLast).map fun inner => 0 :: (inner ++ lengths.getLast?.toList)

/-! ### The cuts between the outer ones -/

/-- The choice that comes next. -/
def next? : List Nat → List Nat → Option (List Nat)
  | length :: lengths, cut :: cuts =>
    match next? lengths cuts with
    | some later => some (cut :: later)
    | none => if cut < length then some ((cut + 1) :: List.replicate cuts.length 0) else none
  | _, _ => none

/-- The place of the last cut that can move. -/
def movable? (lengths cuts : List Nat) : Option Nat :=
  (List.range lengths.length).reverse.find? fun i => cuts.getD i 0 < lengths.getD i 0

/-- The cuts after the one at a place has moved. -/
def moveAt (cuts : List Nat) (i : Nat) : List Nat :=
  (cuts.modify i (· + 1)).take (i + 1) ++ List.replicate (cuts.length - (i + 1)) 0

/-- A later cut moves before the first one does. -/
theorem movable?_cons (length cut : Nat) (lengths cuts : List Nat) :
    movable? (length :: lengths) (cut :: cuts) =
      ((movable? lengths cuts).map (· + 1)).or (if cut < length then some 0 else none) := by
  rw [movable?, List.length_cons, List.range_succ_eq_map, List.reverse_cons, List.find?_append,
    ← List.map_reverse, List.find?_map, List.find?_singleton]
  simp [movable?, Function.comp_def]

/-- The next choice moves the last cut that can move. -/
theorem next?_eq_map_moveAt {lengths cuts : List Nat} (h : cuts.length = lengths.length) :
    next? lengths cuts = (movable? lengths cuts).map (moveAt cuts) := by
  induction lengths generalizing cuts with
  | nil => rfl
  | cons length lengths ih =>
    obtain ⟨cut, cuts, rfl⟩ := List.exists_cons_of_length_eq_add_one h
    rw [next?, ih (Nat.succ.inj h), movable?_cons]
    cases hlater : movable? lengths cuts with
    | some i => simp [moveAt]
    | none =>
      by_cases hlt : cut < length
      · simp [hlt, moveAt]
      · simp [hlt]

/-- A cut that can move is one of the given ones. -/
theorem movable?_lt {lengths cuts : List Nat} {i : Nat} (h : movable? lengths cuts = some i) :
    i < lengths.length := by
  have hmem := List.mem_of_find?_eq_some h
  simpa using hmem

/-- An element of the first of two lists is changed there. -/
theorem modify_append_of_lt {β : Type} (f : β → β) {xs : List β} {i : Nat} (h : i < xs.length)
    (ys : List β) : (xs ++ ys).modify i f = xs.modify i f ++ ys := by
  induction xs generalizing i with
  | nil => cases h
  | cons x xs ih =>
    cases i with
    | zero => rfl
    | succ i => exact congrArg (x :: ·) (ih (Nat.lt_of_succ_lt_succ h))

/-- The next cuts are the next choice between the outer ones. -/
theorem advance?_eq {lengths cuts : List Nat} (h : cuts.length = lengths.length)
    (first last c d : Nat) :
    advance? (first :: (lengths ++ [last])) (c :: (cuts ++ [d])) =
      (next? lengths cuts).map fun inner => c :: (inner ++ [d]) := by
  have hplaces : List.range' 1 lengths.length = (List.range lengths.length).map (· + 1) := by
    rw [List.range'_eq_map_range]
    exact List.map_congr_left fun i _ => Nat.add_comm 1 i
  have hfind : ((List.range' 1 lengths.length).reverse.find? fun i =>
      decide ((c :: (cuts ++ [d])).getD i 0 < (first :: (lengths ++ [last])).getD i 0)) =
        (movable? lengths cuts).map (· + 1) := by
    rw [hplaces, ← List.map_reverse, List.find?_map, movable?, ← List.head?_filter,
      ← List.head?_filter]
    refine congrArg (fun places => places.head?.map (· + 1)) (List.filter_congr fun i hi => ?_)
    have hlt : i < lengths.length := by simpa using hi
    simp [List.getElem?_append_left hlt, List.getElem?_append_left (h ▸ hlt)]
  have hlast : (first :: (lengths ++ [last])).length - 1 = lengths.length + 1 := by simp
  rw [next?_eq_map_moveAt h, advance?]
  dsimp only
  rw [hlast, Nat.add_sub_cancel, hfind, Option.map_map, Option.map_map]
  cases hi : movable? lengths cuts with
  | none => rfl
  | some i =>
    have hlt : i < cuts.length := h ▸ movable?_lt hi
    have htake : ((cuts.modify i (· + 1)) ++ [d]).take (i + 1) =
        (cuts.modify i (· + 1)).take (i + 1) :=
      List.take_append_of_le_length (by rwa [List.length_modify])
    simp [moveAt, h, modify_append_of_lt _ hlt, htake]

/-! ### All turns -/

/-- Each element is followed by the one that comes next, and behind the last one comes nothing. -/
inductive Counts {β : Type} (next? : β → Option β) : List β → Prop
  | last {x : β} : next? x = none → Counts next? [x]
  | cons {x y : β} {rest : List β} : next? x = some y → Counts next? (y :: rest) →
      Counts next? (x :: y :: rest)

section
variable {β γ : Type} {next? : β → Option β} {later? : γ → Option γ} {f : β → γ} {xs : List β}

/-- What is counted is counted under another name. -/
theorem Counts.map (h : Counts next? xs) (hf : ∀ x ∈ xs, later? (f x) = (next? x).map f) :
    Counts later? (xs.map f) := by
  induction h with
  | last hlast =>
    exact .last (by rw [hf _ List.mem_cons_self, hlast, Option.map_none])
  | cons hnext _ ih =>
    exact .cons (by rw [hf _ List.mem_cons_self, hnext, Option.map_some])
      (ih fun x hx => hf x (List.mem_cons_of_mem _ hx))

/-- One count goes on as another, if the last element of the one is followed by the first of the
other. -/
theorem Counts.map_append (h : Counts next? xs) {z : γ} {zs : List γ}
    (hzs : Counts later? (z :: zs))
    (hf : ∀ x ∈ xs, later? (f x) = some (((next? x).map f).getD z)) :
    Counts later? (xs.map f ++ z :: zs) := by
  induction h with
  | last hlast =>
    exact .cons (by rw [hf _ List.mem_cons_self, hlast, Option.map_none, Option.getD_none]) hzs
  | cons hnext _ ih =>
    exact .cons (by rw [hf _ List.mem_cons_self, hnext, Option.map_some, Option.getD_some])
      (ih fun x hx => hf x (List.mem_cons_of_mem _ hx))

end

/-- The first choice is to cut all gaps at their fronts. -/
theorem exists_choices_eq_cons (lengths : List Nat) :
    ∃ rest, choices lengths = List.replicate lengths.length 0 :: rest := by
  induction lengths with
  | nil => exact ⟨[], rfl⟩
  | cons length lengths ih =>
    obtain ⟨rest, hrest⟩ := ih
    rw [choices, List.range_succ_eq_map, List.flatMap_cons, hrest]
    exact ⟨_, rfl⟩

/-- A choice has one cut for each gap. -/
theorem length_of_mem_choices {lengths cuts : List Nat} (h : cuts ∈ choices lengths) :
    cuts.length = lengths.length := by
  induction lengths generalizing cuts with
  | nil => rw [List.mem_singleton.1 h]
  | cons length lengths ih =>
    obtain ⟨cut, -, h⟩ := List.mem_flatMap.1 h
    obtain ⟨later, hlater, rfl⟩ := List.mem_map.1 h
    rw [List.length_cons, List.length_cons, ih hlater]

/-- All choices are counted, each of them once. -/
theorem counts_choices (lengths : List Nat) : Counts (next? lengths) (choices lengths) := by
  induction lengths with
  | nil => exact .last rfl
  | cons length lengths ih =>
    -- The choices from a first cut on, by how far it still can move.
    suffices hleft : ∀ left cut, cut + left = length →
        Counts (next? (length :: lengths)) ((List.range' cut (left + 1)).flatMap fun cut =>
          (choices lengths).map (cut :: ·)) by
      rw [choices, List.range_eq_range']
      exact hleft length 0 (Nat.zero_add length)
    intro left
    induction left with
    | zero =>
      rintro cut rfl
      rw [List.range'_one, List.flatMap_singleton]
      refine ih.map fun cuts _ => ?_
      rw [next?]
      cases next? lengths cuts <;> simp
    | succ left ihleft =>
      intro cut hcut
      have hlater := ihleft (cut + 1) (by omega)
      obtain ⟨zs, hzs⟩ : ∃ zs, ((List.range' (cut + 1) (left + 1)).flatMap fun cut =>
          (choices lengths).map (cut :: ·)) =
            ((cut + 1) :: List.replicate lengths.length 0) :: zs := by
        obtain ⟨rest, hrest⟩ := exists_choices_eq_cons lengths
        rw [List.range'_succ, List.flatMap_cons, hrest]
        exact ⟨_, rfl⟩
      rw [hzs] at hlater
      rw [List.range'_succ, List.flatMap_cons, hzs]
      refine ih.map_append hlater fun cuts hcuts => ?_
      have hlt : cut < length := by omega
      rw [next?, ← length_of_mem_choices hcuts]
      cases next? lengths cuts <;> simp [hlt]

/-- Of two gaps or more, there is a first one and a last one. -/
theorem exists_eq_of_length {lengths : List Nat} (h : ¬ lengths.length < 2) :
    ∃ first inner last, lengths = first :: (inner ++ [last]) := by
  obtain ⟨first, rest, rfl⟩ := List.exists_cons_of_length_pos (l := lengths) (by omega)
  have hne : rest ≠ [] := fun hnil => h (by simp [hnil])
  exact ⟨first, rest.dropLast, rest.getLast hne, by rw [List.dropLast_concat_getLast hne]⟩

/-- From the first of some cuts, each followed by the next ones, an odometer shows them all. -/
theorem Counts.turnsTo {lengths cuts : List Nat} {rest : List (List Nat)}
    (h : Counts (advance? lengths) (cuts :: rest)) (shown : List (List Nat)) :
    TurnsTo lengths ⟨some cuts, shown⟩ ⟨none, shown ++ cuts :: rest⟩ := by
  induction rest generalizing cuts shown with
  | nil =>
    cases h with
    | last hlast => exact .single (by rw [turn?, Option.map_some, hlast])
  | cons next rest ih =>
    cases h with
    | cons hnext hrest =>
      have hlater := ih hrest (shown ++ [cuts])
      rw [List.append_assoc, List.singleton_append] at hlater
      exact .head (by rw [turn?, Option.map_some, hnext]) hlater

/-- An odometer comes to a stop, and has shown every choice of cuts by then, in their order. -/
theorem turnsTo_allCuts (lengths : List Nat) :
    TurnsTo lengths (odometerStart lengths) ⟨none, allCuts lengths⟩ := by
  rw [odometerStart, allCuts]
  by_cases hfew : lengths.length < 2
  · rw [if_pos hfew, if_pos hfew]
  · rw [if_neg hfew, if_neg hfew]
    obtain ⟨first, inner, last, rfl⟩ := exists_eq_of_length hfew
    have hcounts : Counts (advance? (first :: (inner ++ [last])))
        ((choices inner).map fun cuts => 0 :: (cuts ++ [last])) :=
      (counts_choices inner).map fun cuts hcuts =>
        advance?_eq (length_of_mem_choices hcuts) first last 0 last
    obtain ⟨rest, hrest⟩ := exists_choices_eq_cons inner
    rw [hrest, List.map_cons] at hcounts
    have hlast : (first :: (inner ++ [last])).getLast? = some last := by
      rw [← List.cons_append, List.getLast?_concat]
    have hturns := hcounts.turnsTo []
    simpa [hrest, hlast, List.replicate_succ] using hturns

/-! ## Slices -/

/-- The segments of some cuts: each entity has what is behind the cut of the gap before it, and what
is before the cut of the gap behind it. -/
def slices (entities : List (Placed Token)) (gaps : List Run) (cuts : List Nat) : List Segment :=
  entities.mapIdx fun i entity =>
    ⟨(gaps.getD i []).drop (cuts.getD i 0), entity,
      (gaps.getD (i + 1) []).take (cuts.getD (i + 1) 0)⟩

/-- The first segment comes from the first two gaps. -/
theorem slices_cons (entity : Placed Token) (entities : List (Placed Token)) (gap gap' : Run)
    (gaps : List Run) (cut cut' : Nat) (cuts : List Nat) :
    slices (entity :: entities) (gap :: gap' :: gaps) (cut :: cut' :: cuts) =
      ⟨gap.drop cut, entity, gap'.take cut'⟩ ::
        slices entities (gap' :: gaps) (cut' :: cuts) := by
  rw [slices, List.mapIdx_cons]
  rfl

/-- Gaps are shared as all choices of cuts slice them. -/
theorem share_eq_map_slices (gap : Run) (cut : Nat) {es : List (Placed Token × Run)}
    (hne : es ≠ []) : share (gap.drop cut) es =
      (choices (es.dropLast.map (·.2.length))).map fun inner =>
        slices (es.map (·.1)) (gap :: es.map (·.2))
          (cut :: (inner ++ (es.getLast?.map (·.2.length)).toList)) := by
  induction es generalizing gap cut with
  | nil => exact absurd rfl hne
  | cons first rest ih =>
    obtain ⟨entity, gap'⟩ := first
    cases rest with
    | nil => simp [share, choices, slices]
    | cons next rest =>
      have hnext : next :: rest ≠ [] := List.cons_ne_nil next rest
      have hchoices : choices ((((entity, gap') :: next :: rest).dropLast).map (·.2.length)) =
          (List.range (gap'.length + 1)).flatMap fun cut' =>
            (choices ((next :: rest).dropLast.map (·.2.length))).map (cut' :: ·) := by
        rw [List.dropLast_cons_of_ne_nil hnext, List.map_cons, choices]
      rw [share, hchoices, List.map_flatMap]
      refine List.flatMap_congr fun cut' _ => ?_
      rw [ih gap' cut' hnext, List.map_map, List.map_map]
      refine List.map_congr_left fun inner _ => ?_
      simp [slices_cons]

/-- The segmentations of a run are what all choices of cuts slice it into. -/
theorem segmentations_eq_map_slices (run : Run) : run.segmentations =
    (allCuts (run.gaps.map List.length)).map (slices run.entities run.gaps) := by
  rw [segmentations, entities, gaps]
  rcases run.splitOnEntities with ⟨gap, es⟩
  dsimp only
  by_cases hne : es = []
  · subst hne
    rfl
  · have hshare := share_eq_map_slices gap 0 hne
    rw [List.drop_zero] at hshare
    have hmany : ¬ ((gap :: es.map (·.2)).map List.length).length < 2 := by
      have hpos := List.length_pos_iff.2 hne
      simp only [List.length_map, List.length_cons]
      omega
    rw [hshare, allCuts, if_neg hmany, List.map_map]
    have hlast : (gap.length :: es.map (·.2.length)).getLast? =
        es.getLast?.map (·.2.length) := by
      obtain ⟨before, last, rfl⟩ := (List.eq_nil_or_concat' es).resolve_left hne
      rw [List.map_append, ← List.cons_append, List.map_singleton, List.getLast?_concat,
        List.getLast?_concat, Option.map_some]
    simp [List.map_dropLast, Function.comp_def, hlast]

end SpokenOrder.Run
