import Mathlib.Data.List.Basic
import SpokenOrder.Lattice.Path

/-!
# Which paths there are

`Lattice.IsPath` says what a path is without saying how to find it: edges over one word or more,
each beginning where the one before it ends, up to the end of the lattice. The listed paths are
exactly these (`Lattice.mem_paths`). What is computed from the end of a lattice is a value for each
of its suffixes (`Lattice.getElem?_foldSuffixes`); facts about such values go by induction on the
suffixes (`Lattice.suffix_induction`).
-/

namespace SpokenOrder

variable {α β : Type}

/-- The edge covers one word or more, and no more than the `room` that is left, with nothing lost of
where it ends. A walk goes by `Edge.leadsOn` instead, which is the same in a lattice that keeps its
ends (`Lattice.KeepsStops.leadsOn_iff`). -/
def Edge.Within (room : Nat) (e : Edge α) : Prop := 0 < e.length ∧ e.length ≤ room

instance (room : Nat) (e : Edge α) : Decidable (e.Within room) :=
  inferInstanceAs (Decidable (_ ∧ _))

/-- An edge leads on if it covers a word and its end, as it is kept, is in the lattice. -/
theorem Edge.leadsOn_iff {size start : Nat} {e : Edge α} :
    e.leadsOn size start = true ↔ 0 < e.length ∧ e.keptStop start ≤ size := by
  rw [Edge.leadsOn, Bool.and_eq_true, decide_eq_true_iff, decide_eq_true_iff]

/-- An edge that stays within what is left of a lattice ends in it. -/
theorem Edge.Within.add_le {e : Edge α} {start size : Nat} (he : e.Within (size - start)) :
    start + e.length ≤ size := by
  obtain ⟨hpos, hle⟩ := he
  omega

namespace Lattice

/-- The path takes edges from the position `start` to the end of the lattice. -/
inductive IsPath (l : Lattice α) : Nat → List (Edge α) → Prop
  | stop : IsPath l l.size []
  | take {start : Nat} {edges : List (Edge α)} {e : Edge α} {path : List (Edge α)} :
      l.positions[start]? = some edges → e ∈ edges → 0 < e.length → start + e.length ≤ l.size →
      IsPath l (start + e.length) path → IsPath l start (e :: path)

/-- The edge is one of those that begin at the position. -/
def HasEdge (l : Lattice α) (start : Nat) (e : Edge α) : Prop :=
  ∃ edges, l.positions[start]? = some edges ∧ e ∈ edges

/-- All edges end below the bound of sizes, so nothing is lost of where they end. -/
def KeepsStops (l : Lattice α) : Prop :=
  ∀ start e, l.HasEdge start e → start + e.length < sizeBound

section
variable {l : Lattice α} {start : Nat} {e : Edge α} {path : List (Edge α)}

/-- Below the bound, ends are kept as they are. -/
theorem KeepsStops.keptStop_eq (h : l.KeepsStops) (he : l.HasEdge start e) :
    e.keptStop start = start + e.length :=
  Nat.mod_eq_of_lt (h start e he)

/-- Edges begin at words of the lattice. -/
theorem HasEdge.lt_size (h : l.HasEdge start e) : start < l.size := by
  obtain ⟨edges, hedges, -⟩ := h
  exact (List.getElem?_eq_some_iff.1 hedges).1

/-- Where nothing is lost of the ends, the edges that lead on are those that stay within the
lattice. -/
theorem KeepsStops.leadsOn_iff (h : l.KeepsStops) (he : l.HasEdge start e) :
    e.leadsOn l.size start = true ↔ e.Within (l.size - start) := by
  have hlt := he.lt_size
  rw [Edge.leadsOn_iff, h.keptStop_eq he]
  exact and_congr_right fun _ => by omega

/-- A lattice that has only edges of another one keeps their ends, too. -/
theorem KeepsStops.mono {m : Lattice α} (h : l.KeepsStops)
    (hsub : ∀ start e, m.HasEdge start e → l.HasEdge start e) : m.KeepsStops :=
  fun start e he => h start e (hsub start e he)

/-- Edges that are short enough for any position of the lattice end below the bound. -/
theorem keepsStops_of_forall
    (h : ∀ edges ∈ l.positions, ∀ e ∈ edges, l.size + e.length ≤ sizeBound) : l.KeepsStops := by
  rintro start e ⟨edges, hedges, he⟩
  have hlt := (List.getElem?_eq_some_iff.1 hedges).1
  have hle := h edges (List.mem_of_getElem? hedges) e he
  exact Nat.lt_of_lt_of_le (Nat.add_lt_add_right hlt e.length) hle

/-- Paths begin in the lattice or at its end. -/
theorem IsPath.le_size (h : l.IsPath start path) : start ≤ l.size := by
  cases h with
  | stop => exact Nat.le_refl _
  | take hedges => exact Nat.le_of_lt (List.getElem?_eq_some_iff.1 hedges).1

/-- A path may begin with any edge over a word or more behind which it goes on. -/
theorem HasEdge.isPath (h : l.HasEdge start e) (hpos : 0 < e.length)
    (hpath : l.IsPath (start + e.length) path) : l.IsPath start (e :: path) := by
  obtain ⟨edges, hedges, he⟩ := h
  exact .take hedges he hpos hpath.le_size hpath

/-- At the end of a lattice there is only the path without edges. -/
theorem isPath_size_iff : l.IsPath l.size path ↔ path = [] := by
  constructor
  · intro h
    cases h with
    | stop => rfl
    | take hedges => exact absurd (List.getElem?_eq_some_iff.1 hedges).1 (Nat.lt_irrefl _)
  · rintro rfl
    exact .stop

/-- A path from a position takes one of its edges and goes on from where the edge ends. -/
theorem isPath_iff_of_getElem? {edges : List (Edge α)} (h : l.positions[start]? = some edges) :
    l.IsPath start path ↔ ∃ e ∈ edges, e.Within (l.size - start) ∧
      ∃ tail, l.IsPath (start + e.length) tail ∧ e :: tail = path := by
  have hlt : start < l.size := (List.getElem?_eq_some_iff.1 h).1
  constructor
  · intro hpath
    cases hpath with
    | stop => exact absurd hlt (Nat.lt_irrefl _)
    | take hedges he hpos hle htail =>
      obtain rfl := Option.some_inj.1 (h.symm.trans hedges)
      exact ⟨_, he, ⟨hpos, by omega⟩, _, htail, rfl⟩
  · rintro ⟨e, he, hwithin, tail, htail, rfl⟩
    exact .take h he hwithin.1 hwithin.add_le htail

/-! ## Positions -/

/-- What holds of the end, and of each position if it holds of the later ones that an edge can lead
to, holds of all positions. -/
theorem position_induction {motive : (start : Nat) → start ≤ l.size → Prop}
    (stop : motive l.size (Nat.le_refl _))
    (take : ∀ (start : Nat) (edges : List (Edge α)) (hedges : l.positions[start]? = some edges),
      (∀ (e : Edge α) (he : e.Within (l.size - start)), motive (start + e.length) he.add_le) →
      motive start (Nat.le_of_lt (List.getElem?_eq_some_iff.1 hedges).1)) :
    ∀ (start : Nat) (hstart : start ≤ l.size), motive start hstart
  | start, hstart =>
    if hend : start = l.size then by
      subst hend
      exact stop
    else
      have hlt : start < l.positions.length := Nat.lt_of_le_of_ne hstart hend
      take start l.positions[start] (List.getElem?_eq_getElem hlt) fun e he =>
        have hpos := he.1
        have hdec : l.size - (start + e.length) < l.size - start := by omega
        position_induction stop take (start + e.length) he.add_le
termination_by start => l.size - start

/-- The positions from one on are this one and the rest. -/
theorem drop_of_getElem? {edges : List (Edge α)} (h : l.positions[start]? = some edges) :
    ∃ rest, l.positions.drop start = edges :: rest ∧ rest.length + 1 = l.size - start := by
  obtain ⟨hlt, rfl⟩ := List.getElem?_eq_some_iff.1 h
  have hdrop := List.drop_eq_getElem_cons hlt
  refine ⟨_, hdrop, ?_⟩
  rw [size, ← List.length_drop, hdrop, List.length_cons]

end

/-! ## Suffixes -/

section suffixes
variable {last : β} {step : List (Edge α) → List β → β} {edges : List (Edge α)}
  {rest : List (List (Edge α))} {e : Edge α}

/-- What holds of the end, and of each position if it holds of the later ones that an edge can lead
to, holds of all suffixes of a lattice. -/
theorem suffix_induction {motive : List (List (Edge α)) → Prop} (nil : motive [])
    (cons : ∀ edges rest,
      (∀ e : Edge α, e.Within (rest.length + 1) → motive ((edges :: rest).drop e.length)) →
      motive (edges :: rest)) :
    ∀ positions, motive positions
  | [] => nil
  | edges :: rest => cons edges rest fun e he => by
    have hpos := he.1
    have hdec : ((edges :: rest).drop e.length).length < (edges :: rest).length := by
      rw [List.length_drop, List.length_cons]
      omega
    exact suffix_induction nil cons ((edges :: rest).drop e.length)
termination_by positions => positions.length

/-- The value for the first position. -/
def foldFrom (last : β) (step : List (Edge α) → List β → β) : List (List (Edge α)) → β
  | [] => last
  | edges :: rest => step edges (foldSuffixes last step rest)

/-- The value at a position is the one for the suffix that begins there. -/
theorem getElem?_foldSuffixes (positions : List (List (Edge α))) (n : Nat) :
    (foldSuffixes last step positions)[n]? =
      if n ≤ positions.length then some (foldFrom last step (positions.drop n)) else none := by
  induction positions generalizing n with
  | nil => cases n <;> simp [foldSuffixes, foldFrom]
  | cons edges rest ih =>
    cases n with
    | zero => rfl
    | succ n => simpa [foldSuffixes] using ih n

/-- An edge that stays within the lattice arrives at the suffix behind its words. -/
theorem arrival?_of_within (he : e.Within (rest.length + 1)) :
    arrival? (foldSuffixes last step rest) e =
      some (foldFrom last step ((edges :: rest).drop e.length)) := by
  obtain ⟨hpos, hle⟩ := he
  unfold arrival?
  split
  · next hlength => omega
  · next n hlength =>
    rw [getElem?_foldSuffixes, if_pos (by omega), hlength, List.drop_succ_cons]

/-- Another edge does not arrive anywhere. -/
theorem arrival?_of_not_within (he : ¬ e.Within (rest.length + 1)) :
    arrival? (foldSuffixes last step rest) e = none := by
  unfold arrival?
  split
  · rfl
  · next n hlength =>
    rw [getElem?_foldSuffixes, if_neg]
    intro hle
    exact he ⟨by omega, by omega⟩

end suffixes

/-! ## The listed paths -/

variable {edges : List (Edge α)} {rest : List (List (Edge α))} {path : List (Edge α)}

/-- The paths are a value that is computed from the end. -/
theorem pathsFrom_eq_foldFrom (positions : List (List (Edge α))) :
    pathsFrom positions = foldFrom [[]] extend positions := by
  cases positions with
  | nil => rfl
  | cons edges rest => rfl

@[simp] theorem pathsFrom_nil : pathsFrom ([] : List (List (Edge α))) = [[]] := rfl

/-- The paths from a position take an edge and go on from where it ends. -/
theorem pathsFrom_cons (edges : List (Edge α)) (rest : List (List (Edge α))) :
    pathsFrom (edges :: rest) = edges.flatMap fun e =>
      if e.Within (rest.length + 1) then (pathsFrom ((edges :: rest).drop e.length)).map (e :: ·)
      else [] := by
  refine List.flatMap_congr fun e _ => ?_
  by_cases he : e.Within (rest.length + 1)
  · rw [if_pos he, arrival?_of_within he, pathsFrom_eq_foldFrom]
    rfl
  · rw [if_neg he, arrival?_of_not_within he]
    rfl

/-- The paths from a position of a lattice. -/
theorem pathsFrom_drop {l : Lattice α} {start : Nat} (h : l.positions[start]? = some edges) :
    pathsFrom (l.positions.drop start) = edges.flatMap fun e =>
      if e.Within (l.size - start) then
        (pathsFrom (l.positions.drop (start + e.length))).map (e :: ·)
      else [] := by
  obtain ⟨rest, hdrop, hroom⟩ := drop_of_getElem? h
  rw [hdrop, pathsFrom_cons, ← hdrop, hroom]
  simp only [List.drop_drop]

/-- A path takes an edge at its first position and goes on from where the edge ends. -/
theorem mem_pathsFrom_cons : path ∈ pathsFrom (edges :: rest) ↔
    ∃ e ∈ edges, e.Within (rest.length + 1) ∧
      ∃ tail ∈ pathsFrom ((edges :: rest).drop e.length), e :: tail = path := by
  rw [pathsFrom_cons, List.mem_flatMap]
  refine exists_congr fun e => and_congr_right fun _ => ?_
  by_cases he : e.Within (rest.length + 1)
  · rw [if_pos he, List.mem_map, and_iff_right he]
  · simp [he]

/-- From each position, the paths of the relation are the listed ones. -/
theorem isPath_iff_mem_pathsFrom {l : Lattice α} {start : Nat} (hstart : start ≤ l.size) :
    l.IsPath start path ↔ path ∈ pathsFrom (l.positions.drop start) := by
  induction start, hstart using position_induction generalizing path with
  | stop =>
    rw [isPath_size_iff, size, List.drop_length, pathsFrom_nil, List.mem_singleton]
  | take start edges hedges ih =>
    rw [isPath_iff_of_getElem? hedges, pathsFrom_drop hedges, List.mem_flatMap]
    refine exists_congr fun e => and_congr_right fun _ => ?_
    by_cases he : e.Within (l.size - start)
    · simp only [if_pos he, List.mem_map, and_iff_right he, ih e he]
    · simp [he]

/-- The paths of a lattice over words are those from its first position. -/
theorem paths_eq_pathsFrom {l : Lattice α} (hne : l.positions ≠ []) :
    l.paths = pathsFrom l.positions := by
  rw [paths, if_neg]
  simpa using hne

/-- The paths of a lattice are exactly the ones that are listed. -/
theorem mem_paths {l : Lattice α} (hne : l.positions ≠ []) : path ∈ l.paths ↔ l.IsPath 0 path := by
  rw [paths_eq_pathsFrom hne, isPath_iff_mem_pathsFrom (Nat.zero_le _), List.drop_zero]

/-- A lattice over no words has no paths. -/
theorem mem_paths_iff {l : Lattice α} : path ∈ l.paths ↔ l.positions ≠ [] ∧ l.IsPath 0 path := by
  by_cases hne : l.positions = []
  · simp [paths, hne]
  · rw [mem_paths hne, and_iff_right hne]

end Lattice

end SpokenOrder
