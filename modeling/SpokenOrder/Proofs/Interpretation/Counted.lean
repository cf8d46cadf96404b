import SpokenOrder.CoffeeShop
import SpokenOrder.Proofs.Grammar.Captures
import SpokenOrder.Proofs.Intent.Edit
import SpokenOrder.Proofs.Interpretation.Understood
import SpokenOrder.Proofs.Run.Partition

/-!
# No token is counted twice

A candidate takes as many tokens into account as the captured slots of the rules that fired stand
for. These slots are pieces of the grouped run, one behind another
(`Scene.exists_traces_candidate`), and the grouped run partitions the tokens that explain something.
So a candidate takes each of these tokens into account once at most
(`Menu.counted_once`).
-/

namespace SpokenOrder

open Grammar (Piece)

/-! ## Pieces of a run -/

/-- Tokens in pieces stand for as many tokens as the pieces do. -/
theorem Run.tokenCount_flatMap_taken (pieces : List Piece) :
    tokenCount (pieces.flatMap Piece.taken) = (pieces.map (·.taken.tokenCount)).sum := by
  induction pieces with
  | nil => rfl
  | cons piece rest ih =>
    rw [List.flatMap_cons, tokenCount_append, ih, List.map_cons, List.sum_cons]

/-- Some of the pieces stand for no more tokens than all of them. -/
theorem Run.sum_filter_tokenCount_le (pieces : List Piece) (keep : Piece → Bool) :
    ((pieces.filter keep).map (·.taken.tokenCount)).sum ≤
      tokenCount (pieces.flatMap Piece.taken) := by
  rw [tokenCount_flatMap_taken]
  exact (List.filter_sublist.map _).sum_le_sum fun _ _ => Nat.zero_le _

variable {α : Type} [Score α]

/-- A production that fires takes into account what the tokens in its slots stand for. -/
theorem Intent.tokenCount_of_production {scene : Scene α} {rule : Rule Context} {c next : Context}
    {captures : Captures} {used : Nat} (hrule : rule ∈ (grammar scene).rules)
    (h : rule.production c captures used = some next) :
    next.tokenCount = c.tokenCount + captures.filled.tokenCount := by
  cases outcome_of_production hrule h <;> rfl

namespace Scene

/-- What a candidate took into account was taken by rules that fired, from pieces of the grouped
tokens that lie one behind another. -/
theorem exists_traces_candidate (scene : Scene α) (cart : Cart) (tokens : Run) :
    ∃ pieces : List Piece,
      (Intent.grammar scene).Traces (.ofCart cart) pieces (scene.candidate cart tokens).context ∧
        pieces.flatMap Piece.taken = tokens.group ∧
        pieces.filterMap Piece.fired = (scene.candidate cart tokens).rules ∧
        (scene.candidate cart tokens).context.tokenCount =
          ((pieces.filter (·.fired.isSome)).map (·.taken.tokenCount)).sum := by
  obtain ⟨pieces, htraces, htaken, hfired⟩ :=
    ((Intent.grammar scene).runs_process (.ofCart cart) tokens.group).exists_traces
  have hcount := htraces.measure_eq fun _ hrule _ _ _ _ => Intent.tokenCount_of_production hrule
  exact ⟨pieces, htraces, htaken, hfired, hcount.trans (Nat.zero_add _)⟩

end Scene

namespace Menu

/-- Grouping partitions the tokens that explain something: no two groups stand side by side, tokens
in order stay in order, and the grouped tokens stand for each of them once. A candidate for such
tokens takes no more into account. The rules that fired took pieces of the grouped tokens that lie one
behind another, and what these stand for adds up to the tokens that the candidate took into
account. -/
theorem counted_once (run : Run) (hplain : ∀ p ∈ run, p.token.run? = none) :
    run.known.Partitions run.group ∧
      (∀ before p q after, run.group = before ++ p :: q :: after →
        p.token.run? = none ∨ q.token.run? = none) ∧
      (run.InOrder → run.group.InOrder) ∧
      run.group.tokenCount = run.known.length ∧
      ∀ {α : Type} [Score α] (menu : Menu) (lattice : Lattice α) (threshold : α) (cart : Cart),
        ∀ c ∈ (menu.interpretLattice lattice threshold cart).candidates, c.tokens = run →
          c.context.tokenCount ≤ run.known.length ∧
            ∃ pieces : List Piece,
              (Intent.grammar (Scene.ofLattice menu lattice threshold)).Traces (.ofCart cart) pieces
                c.context ∧
                pieces.flatMap Piece.taken = run.group ∧
                Run.ungroup (pieces.flatMap Piece.taken) = run.known ∧
                pieces.filterMap Piece.fired = c.rules ∧
                c.context.tokenCount =
                  ((pieces.filter (·.fired.isSome)).map (·.taken.ungroup.length)).sum := by
  have hpartitions := Run.partitions_group hplain
  refine ⟨hpartitions, fun _ _ _ _ => hpartitions.apart,
    fun horder => hpartitions.inOrder horder.known, hpartitions.tokenCount_eq, ?_⟩
  intro α _ menu lattice threshold cart c hc hrun
  have hcandidates : (menu.interpretLattice lattice threshold cart).candidates =
      (lattice.filter threshold).heaviestTilings.map
        ((Scene.ofLattice menu lattice threshold).candidate cart) := Scene.candidates_interpret
  rw [hcandidates] at hc
  obtain ⟨tokens, -, rfl⟩ := List.mem_map.1 hc
  obtain rfl : tokens = run := hrun
  obtain ⟨pieces, htraces, htaken, hfired, hcount⟩ :=
    (Scene.ofLattice menu lattice threshold).exists_traces_candidate cart tokens
  refine ⟨?_, pieces, htraces, htaken, htaken ▸ hpartitions.ungroup_eq, hfired, ?_⟩
  · rw [hcount, ← hpartitions.tokenCount_eq, ← htaken]
    exact Run.sum_filter_tokenCount_le pieces _
  · simpa only [Run.length_ungroup] using hcount

/-- The words "add two nice lattes please and remove that milk". -/
def lattesWithoutMilk : List Token :=
  [.addToOrder, .number 2, .unknown "nice", .entity CoffeeShop.latte "latte", .prologue,
    .conjunction, .removeItem, .unknown "that", .option CoffeeShop.milk "milk"]

/-- What is said, word by word. -/
def saidLattesWithoutMilk : Run :=
  lattesWithoutMilk.zipIdx.map fun (token, i) => ⟨token, ⟨i, 1⟩⟩

/-- There is one way to read these words. -/
theorem heaviestTilings_lattesWithoutMilk :
    ((Lattice.ofTokens lattesWithoutMilk : Lattice Float).filter
      defaultThreshold).heaviestTilings = [saidLattesWithoutMilk] := by
  set_option maxRecDepth 10000 in rfl

/-- The two lattes and the milk are taken into account with what is to be done with them: five tokens
of seven. Left out are the courtesy and the conjunction, which stays as it is. -/
theorem counted_once_lattesWithoutMilk :
    (∀ p ∈ saidLattesWithoutMilk, p.token.run? = none) ∧
      saidLattesWithoutMilk.group.map (fun p => (p.token.kind, p.span, p.tokenCount)) =
        [(.addToOrder, ⟨0, 1⟩, 1), (.parts .one, ⟨1, 3⟩, 2), (.prologue, ⟨4, 1⟩, 1),
          (.conjunction, ⟨5, 1⟩, 1), (.removeItem, ⟨6, 1⟩, 1), (.parts .zero, ⟨8, 1⟩, 1)] ∧
      saidLattesWithoutMilk.known.length = 7 ∧
      (∃ c ∈ (CoffeeShop.menu.interpretTokens lattesWithoutMilk .empty).candidates,
        c.tokens = saidLattesWithoutMilk ∧ c.context.tokenCount = 5) ∧
      ∀ c ∈ (CoffeeShop.menu.interpretTokens lattesWithoutMilk .empty).candidates,
        c.tokens = saidLattesWithoutMilk →
          c.context.tokenCount ≤ saidLattesWithoutMilk.known.length := by
  have hplain : ∀ p ∈ saidLattesWithoutMilk, p.token.run? = none := by decide +kernel
  have hcandidates : (CoffeeShop.menu.interpretTokens lattesWithoutMilk .empty).candidates =
      [(Scene.ofLattice CoffeeShop.menu (.ofTokens lattesWithoutMilk) defaultThreshold).candidate
        .empty saidLattesWithoutMilk] := by
    rw [interpretTokens, interpretLattice, Scene.candidates_interpret, Scene.ofLattice,
      heaviestTilings_lattesWithoutMilk, List.map_singleton]
  obtain ⟨-, -, -, -, hcounted⟩ := counted_once saidLattesWithoutMilk hplain
  exact ⟨hplain, by decide +kernel, by decide +kernel,
    ⟨_, hcandidates ▸ List.mem_singleton_self _, rfl, by decide +kernel⟩, fun c hc hrun =>
    (hcounted CoffeeShop.menu (.ofTokens lattesWithoutMilk) defaultThreshold .empty c hc hrun).1⟩

end Menu

end SpokenOrder
