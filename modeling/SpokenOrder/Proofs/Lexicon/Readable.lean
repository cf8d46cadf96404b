import SpokenOrder.CoffeeShop
import SpokenOrder.Proofs.Interpretation.Understood
import SpokenOrder.Proofs.Lattice.Connected
import SpokenOrder.Proofs.Lattice.Optimal
import SpokenOrder.Proofs.Lattice.Rounding
import SpokenOrder.Proofs.Lexicon.Recognition

/-!
# Every text can be read

The lexicon puts a filler at each word, which no threshold drops, and weighs readings by counts of
words, whose sums do not overflow (`Lexicon.comparable_filter`). So every text with a word in it has
a heaviest tokenization, and each of them reads all words (`Menu.candidates_interpretText`).
-/

namespace SpokenOrder

namespace Lexicon

section
variable {α : Type} [Score α]

/-- The lattice of a text has its words. -/
theorem size_lattice (x : Lexicon) (text : String) :
    (x.lattice text : Lattice α).size = (words text).length := by
  have hlength : ∀ ws, (x.readingsFrom ws : List (List (Edge α))).length = ws.length := by
    intro ws
    induction ws with
    | nil => rfl
    | cons word rest ih => rw [readingsFrom, List.length_cons, ih, List.length_cons]
  exact hlength (words text)

/-- Each word has its filler. -/
theorem filled_lattice (x : Lexicon) (text : String) : (x.lattice text : Lattice α).Filled := by
  intro i hi
  obtain ⟨word, rest, hedges⟩ := exists_of_mem_readingsFrom (List.getElem_mem hi)
  refine ⟨.filler word, ⟨_, List.getElem?_eq_getElem hi, ?_⟩, rfl, rfl⟩
  rw [hedges]
  exact List.mem_cons_self

/-- No reading ends beyond the text. -/
theorem keepsStops_filter (x : Lexicon) {text : String} (h : (words text).length < 2 ^ 64)
    (threshold : α) : ((x.lattice text).filter threshold).KeepsStops := by
  intro i e he
  have hedge := he.of_filter
  have hlength := length_le_of_mem_readings (hasEdge_lattice_iff.1 hedge)
  have hlt : i < (words text).length := x.size_lattice (α := α) text ▸ hedge.lt_size
  rw [List.length_drop] at hlength
  exact Nat.lt_of_le_of_lt (show i + e.length ≤ (words text).length by omega) h

end

/-! ## Counted words -/

/-- What a reading adds to the weight of a path is no greater than a machine word. -/
theorem upTo_weight {e : Edge Float} (hscore : e.score = Score.zero ∨ e.score = Score.one)
    (hlength : e.length < 2 ^ 64) : Score.UpTo 14 e.weight := by
  have hupTo : Score.UpTo (-52) e.score := by
    rcases hscore with h | h <;> rw [h]
    · exact Score.upTo_zero _
    · exact Score.upTo_one
  exact hupTo.mul (Score.upTo_ofNat hlength) (by decide)

/-- The weights of the paths over a filtered text can be compared, however many words it has. -/
theorem comparable_filter (x : Lexicon) {text : String} (h : (words text).length < 2 ^ 64)
    (threshold : Float) :
    Lattice.Comparable (Score.UpTo 68) ((x.lattice text).filter threshold).positions where
  zero := Score.upTo_zero 68
  add := by
    intro edges hedges e he w hw
    obtain ⟨i, hi⟩ := List.mem_iff_getElem?.1 hedges
    have hedge : ((x.lattice text).filter threshold).HasEdge i e := ⟨edges, hi, he⟩
    have hlength : e.length < 2 ^ 64 :=
      Nat.lt_of_le_of_lt (Nat.le_add_left _ _) (x.keepsStops_filter h threshold i e hedge)
    have hweight :=
      upTo_weight (score_of_mem_readings (hasEdge_lattice_iff.1 hedge.of_filter)) hlength
    exact hweight.add hw (by decide) (by decide)
  larger := Score.larger_eq
  close := fun _ hw => Score.close_self hw

end Lexicon

namespace Menu

/-- Whatever the lexicon and the threshold are, an utterance has candidates if and only if its text
has words besides stopwords. The candidates read the heaviest tokenizations, and the tokens of each
of these follow one another from the first word to the last. Positions of words are machine words,
so no text has more words than one can count. -/
theorem candidates_interpretText (menu : Menu) (lexicon : Lexicon) (text : String)
    (threshold : Float) (cart : Cart) (h : (Lexicon.words text).length < 2 ^ 64) :
    let result := menu.interpretText lexicon text threshold cart
    (result.candidates ≠ [] ↔ Lexicon.words text ≠ []) ∧
      result.candidates.map Candidate.tokens =
        ((lexicon.lattice text).filter threshold).heaviestTokenizations ∧
      ∀ run ∈ ((lexicon.lattice text).filter threshold).heaviestTokenizations,
        Run.Tiles 0 run (Lexicon.words text).length := by
  rw [(lexicon.keepsStops_filter h threshold).heaviestTokenizations_eq_heaviestTilings]
  have hcandidates : (menu.interpretText lexicon text threshold cart).candidates =
      ((lexicon.lattice text).filter threshold).heaviestTilings.map
        ((Scene.ofLattice menu (lexicon.lattice text) threshold).candidate cart) := by
    rw [interpretText, interpretLattice, Scene.candidates_interpret]
    rfl
  have hsize : ((lexicon.lattice text).filter threshold).size = (Lexicon.words text).length := by
    rw [Lattice.size_filter, Lexicon.size_lattice]
  have hwords : ((lexicon.lattice text).filter threshold).positions ≠ [] ↔
      Lexicon.words text ≠ [] := by
    rw [← List.length_pos_iff, ← List.length_pos_iff, ← hsize, Lattice.size]
  refine ⟨?_, ?_, fun run hrun => ?_⟩
  · rw [hcandidates, Ne, List.map_eq_nil_iff, ← hwords]
    constructor
    · intro hne
      obtain ⟨run, hrun⟩ := List.exists_mem_of_ne_nil _ hne
      exact (Lattice.mem_tilings_iff.1 (Lattice.mem_tilings_of_heaviest hrun)).1
    · exact (lexicon.comparable_filter h threshold).heaviestTilings_ne_nil
        ((lexicon.filled_lattice text).filter threshold)
  · rw [hcandidates, List.map_map]
    exact List.map_id _
  · rw [← hsize]
    exact Lattice.tiles_of_mem_tilings (Lattice.mem_tilings_of_heaviest hrun)

/-- Where "large cones" is a phrase, a threshold that is no number drops no reading of "two large
cones", and an infinite one drops all but the fillers. With both all three words are read. -/
theorem candidates_twoLargeCones :
    let lexicon := Lexicon.addAlias ⟨[], [], []⟩ "large cones" (.entity 9000 "cone")
    let text := "Um, two large cones!"
    let result := fun threshold : Float =>
      CoffeeShop.menu.interpretText lexicon text threshold .empty
    let readings := fun threshold : Float =>
      ((lexicon.lattice text).filter threshold).heaviestTokenizations
    (Lexicon.words text).length < 2 ^ 64 ∧
      (result (0 / 0)).candidates ≠ [] ∧ (result (1 / 0)).candidates ≠ [] ∧
      (readings (0 / 0)).map (·.map (·.token.kind)) = [[.number, .entity]] ∧
      (readings (1 / 0)).map (·.map (·.token.kind)) = [[.unknown, .unknown, .unknown]] ∧
      ∀ run ∈ readings (1 / 0), Run.Tiles 0 run 3 := by
  intro lexicon text result readings
  have hwords : Lexicon.words text = ["two", "large", "cones"] := by decide +kernel
  have hlength : (Lexicon.words text).length < 2 ^ 64 := by
    rw [hwords]
    decide
  have hne : Lexicon.words text ≠ [] := by
    rw [hwords]
    exact List.cons_ne_nil _ _
  have hread (threshold : Float) :=
    CoffeeShop.menu.candidates_interpretText lexicon text threshold .empty hlength
  have hreadings (threshold : Float) : readings threshold =
      ((lexicon.lattice text).filter threshold).heaviestTilings :=
    (lexicon.keepsStops_filter hlength threshold).heaviestTokenizations_eq_heaviestTilings
  refine ⟨hlength, (hread (0 / 0)).1.2 hne, (hread (1 / 0)).1.2 hne, ?_, ?_, fun run hrun => ?_⟩
  · rw [hreadings]
    decide +kernel
  · rw [hreadings]
    decide +kernel
  · have htiles := (hread (1 / 0)).2.2 run hrun
    rw [hwords] at htiles
    exact htiles

end Menu

end SpokenOrder
