import SpokenOrder.Lexicon.Basic
import SpokenOrder.Proofs.Lattice.Path
import SpokenOrder.Proofs.Text.Words

/-!
# Every phrase is recognised

Phrases are cut into words when they enter a lexicon, and an utterance when it is heard. Both meet
because cutting goes along with putting texts one behind the other (`Lexicon.words_append_space`)
and does not cut words any further (`Lexicon.words_intercalate`). The case of the letters of ASCII
and stopwords in between make no difference (`Lexicon.Says`).

`Lexicon.Built` keeps the phrases that were entered beside a lexicon. Each of them is an edge
wherever it is said, and an edge over several words always is such a phrase
(`Lexicon.recognises_phrases`).
-/

namespace SpokenOrder.Lexicon

variable {a s t text said : String} {x : Lexicon} {phrases : List (String × Token)}

/-! ## Words of texts -/

/-- Texts with a gap between them have the words of the one and of the other. -/
theorem words_append_gap {gap : String} (hgap : Text.IsGap gap.toList) (a b : String) :
    words (a ++ gap ++ b) = words a ++ words b := by
  simp only [words, String.toList_append, Text.wordsOf_append_gap hgap, List.filter_append]

/-- Texts with a space between them have the words of the one and of the other. -/
theorem words_append_space (a b : String) : words (a ++ " " ++ b) = words a ++ words b :=
  words_append_gap Text.isGap_space a b

/-- A word has itself as its only word. -/
theorem words_of_mem {w : String} (h : w ∈ words a) : words w = [w] := by
  obtain ⟨hw, hkept⟩ := List.mem_filter.1 h
  simp only [words, Text.wordsOf_word hw, List.filter_singleton, hkept, cond_true]

/-- The words of a text, with spaces between them, have the same words. -/
theorem words_intercalate (a : String) : words (" ".intercalate (words a)) = words a := by
  suffices h : ∀ ws : List String, (∀ w ∈ ws, words w = [w]) → words (" ".intercalate ws) = ws from
    h (words a) fun _ => words_of_mem
  intro ws hws
  induction ws with
  | nil => rfl
  | cons w rest ih =>
    rw [List.forall_mem_cons] at hws
    cases rest with
    | nil => exact hws.1
    | cons v rest =>
      rw [String.intercalate_cons_cons, words_append_space, hws.1, ih hws.2, List.singleton_append]

/-- Texts that differ in the case of the letters of ASCII have the same words. -/
theorem words_congr (h : s.toLower = t.toLower) : words s = words t := by
  have hlower (s : String) : words s.toLower = words s := by
    rw [words, String.toLower, String.toList_map, Text.wordsOf_map_toLower, ← words]
  rw [← hlower s, h, hlower t]

theorem words_stopword : ∀ w ∈ stopwords, words w = [] := by decide +kernel

/-! ## Ways to say a text -/

/-- Ways to say a text: as it stands, in another case of the letters of ASCII, and with stopwords
between its words. -/
inductive Says (text : String) : String → Prop
  | verbatim : Says text text
  | letterCase {said said' : String} : Says text said → said'.toLower = said.toLower →
      Says text said'
  | stopword (before gap after gap' w : String) : Says text (before ++ gap ++ after) →
      Text.IsGap gap.toList → Text.IsGap gap'.toList → w ∈ stopwords →
      Says text (before ++ gap ++ w ++ gap' ++ after)

/-- However a text is said, its words are the same. -/
theorem Says.words_eq (h : Says text said) : words said = words text := by
  induction h with
  | verbatim => rfl
  | letterCase _ hcase ih => rw [words_congr hcase, ih]
  | stopword _ _ _ _ _ _ hgap hgap' hw ih =>
    rw [words_append_gap hgap', words_append_gap hgap, words_stopword _ hw, List.append_nil,
      ← words_append_gap hgap, ih]

/-! ## The phrases of a lexicon -/

/-- A name as phrases, in the plural first. -/
def namePhrases (name : String) (token : Token) : List (String × Token) :=
  [(name ++ "s", token), (name, token)]

/-- The shared phrases, and those for the names on the menu. -/
def menuPhrases (menu : Menu) : List (String × Token) :=
  intentPhrases ++ quantityPhrases
    ++ menu.catalog.generics.flatMap (fun g => namePhrases g.name (genericToken g))
    ++ menu.attributes.map (fun a => (a.name, attributeTokenOf a))
    ++ menu.cookbook.recipes.map fun r => (r.name, .optionRecipe r.rid r.name)

/-- The lexicon with the phrases that were entered, however it was built. -/
inductive Built : Lexicon → List (String × Token) → Prop
  | empty : Built ⟨[], [], []⟩ []
  | ofMenu (menu : Menu) : Built (ofMenu menu) (menuPhrases menu)
  | addAlias {x : Lexicon} {phrases : List (String × Token)} (text : String) (token : Token) :
      Built x phrases → Built (x.addAlias text token) (phrases ++ [(text, token)])
  | addUnit {x : Lexicon} {phrases : List (String × Token)} (id : UnitId) (name : String) :
      Built x phrases → Built (x.addUnit id name) (phrases ++ namePhrases name (.unit id name))

/-- A name is entered as its two phrases. -/
theorem flatMap_namePhrases (name : String) (token : Token) :
    (namePhrases name token).flatMap (fun p => aliasOf p.1 p.2) = nameAliases name token := by
  simp only [namePhrases, nameAliases, List.flatMap_cons, List.flatMap_nil, List.append_nil]

/-- The aliases of a lexicon are those of its phrases, in their order. -/
theorem Built.aliases_eq (h : Built x phrases) :
    x.aliases = phrases.flatMap fun p => aliasOf p.1 p.2 := by
  induction h with
  | empty => rfl
  | ofMenu menu =>
    simp only [Lexicon.ofMenu, menuPhrases, List.flatMap_append, List.flatMap_assoc,
      flatMap_namePhrases, List.flatMap_map]
  | addAlias text token _ ih =>
    rw [Lexicon.addAlias, ih, List.flatMap_append, List.flatMap_singleton]
  | addUnit id name _ ih => rw [Lexicon.addUnit, ih, List.flatMap_append, flatMap_namePhrases]

/-- A text is entered by its words, if it has any. -/
theorem mem_aliasOf_iff {entry : Alias} {token : Token} :
    entry ∈ aliasOf text token ↔ words text ≠ [] ∧ entry = ⟨words text, token⟩ := by
  unfold aliasOf
  split
  · next hnil => simp [hnil]
  · next hcons => simp [hcons]

/-- What stands in a lexicon is the phrases that have words. -/
theorem Built.mem_aliases_iff (h : Built x phrases) {entry : Alias} :
    entry ∈ x.aliases ↔ ∃ p ∈ phrases, words p.1 ≠ [] ∧ entry = ⟨words p.1, p.2⟩ := by
  simp only [h.aliases_eq, List.mem_flatMap, mem_aliasOf_iff]

/-! ## Readings -/

variable {α : Type} [Score α] {e : Edge α} {ws : List String} {i : Nat}

/-- A reading is a filler, a number in one word, or a phrase that is said. -/
theorem mem_readings_iff : e ∈ x.readings ws ↔ ∃ word rest, ws = word :: rest ∧
    (e = Edge.filler word ∨ (∃ n ∈ numbersOf word, e = ⟨.number n, Score.one, 1⟩) ∨
      ∃ entry ∈ x.aliases, entry.words <+: ws ∧
        e = ⟨entry.token, Score.one, entry.words.length⟩) := by
  cases ws with
  | nil => simp [readings]
  | cons word rest =>
    simp only [readings, List.cons_append, List.mem_cons, List.mem_append, List.mem_map,
      List.mem_filter, List.isPrefixOf_iff_prefix, List.cons.injEq, and_assoc, exists_and_left,
      exists_eq_left', eq_comm (b := e)]

/-- No reading is longer than what is left of the text. -/
theorem length_le_of_mem_readings (he : e ∈ x.readings ws) : e.length ≤ ws.length := by
  obtain ⟨word, rest, rfl, rfl | ⟨n, -, rfl⟩ | ⟨entry, -, hsaid, rfl⟩⟩ := mem_readings_iff.1 he
  · exact Nat.succ_pos _
  · exact Nat.succ_pos _
  · exact hsaid.length_le

/-- The edges at a position are the readings of the words from there on. -/
theorem getElem?_readingsFrom : (x.readingsFrom ws : List (List (Edge α)))[i]? =
    if i < ws.length then some (x.readings (ws.drop i)) else none := by
  induction ws generalizing i with
  | nil => rfl
  | cons word rest ih =>
    cases i with
    | zero => rfl
    | succ i =>
      rw [readingsFrom, List.getElem?_cons_succ, ih, List.length_cons, List.drop_succ_cons]
      simp only [Nat.add_lt_add_iff_right]

/-- The edges at a word are the readings that begin there. -/
theorem hasEdge_lattice_iff :
    (x.lattice text : Lattice α).HasEdge i e ↔ e ∈ x.readings ((words text).drop i) := by
  simp only [Lattice.HasEdge, lattice, getElem?_readingsFrom]
  split
  · simp
  · next hi =>
    rw [List.drop_eq_nil_of_le (Nat.le_of_not_lt hi)]
    simp [readings]

/-- Words of texts that are put together are those of the first and then those of the second, and
words that are put together again are the same words. So a phrase with words is an edge wherever it
is said, in whatever case and with whatever stopwords in it, with the score 1 and over as many words
as it has; and an edge over several words is a phrase that consists of just these words. -/
theorem recognises_phrases (h : Built x phrases) :
    (∀ a b, words (a ++ " " ++ b) = words a ++ words b) ∧
      (∀ a, words (" ".intercalate (words a)) = words a) ∧
      (∀ p ∈ phrases, words p.1 ≠ [] → ∀ said, Says p.1 said → ∀ a b,
        (x.lattice (a ++ " " ++ said ++ " " ++ b) : Lattice α).HasEdge (words a).length
          ⟨p.2, Score.one, (words p.1).length⟩) ∧
      ∀ text i (e : Edge α), (x.lattice text).HasEdge i e → 1 < e.length →
        ∃ p ∈ phrases, e = ⟨p.2, Score.one, (words p.1).length⟩ ∧
          words p.1 = ((words text).drop i).take e.length := by
  refine ⟨words_append_space, words_intercalate, ?_, ?_⟩
  · intro p hp hwords said hsaid a b
    obtain ⟨word, rest, hcons⟩ := List.exists_cons_of_ne_nil hwords
    rw [hasEdge_lattice_iff, words_append_space, words_append_space, hsaid.words_eq,
      List.append_assoc, List.drop_left, mem_readings_iff]
    refine ⟨word, rest ++ words b, by rw [hcons, List.cons_append], .inr (.inr ?_)⟩
    exact ⟨_, h.mem_aliases_iff.2 ⟨p, hp, hwords, rfl⟩, List.prefix_append _ _, rfl⟩
  · intro text i e he hlong
    rw [hasEdge_lattice_iff, mem_readings_iff] at he
    obtain ⟨word, rest, -, rfl | ⟨n, -, rfl⟩ | ⟨entry, hentry, hsaid, rfl⟩⟩ := he
    · exact absurd hlong (Nat.lt_irrefl 1)
    · exact absurd hlong (Nat.lt_irrefl 1)
    · obtain ⟨p, hp, -, rfl⟩ := h.mem_aliases_iff.1 hentry
      exact ⟨p, hp, rfl, List.prefix_iff_eq_take.1 hsaid⟩

/-- "With half 'n half, please", said loudly and with a stopword in it. -/
theorem recognises_halfAndHalf :
    let token := Token.option 5010 "half and half"
    let x := addAlias ⟨[], [], []⟩ "half 'n half" token
    Built x [("half 'n half", token)] ∧
      (x.lattice ("with" ++ " " ++ "HALF of 'n Half" ++ " " ++ "please") : Lattice Float).HasEdge 1
        ⟨token, Score.one, 3⟩ := by
  intro token x
  have hbuilt : Built x [("half 'n half", token)] := .addAlias _ _ .empty
  have hphrase : words "half 'n half" = ["half", "'n", "half"] := by decide +kernel
  have hwith : (words "with").length = 1 := by decide +kernel
  have hplain : "half" ++ " " ++ "'n half" = "half 'n half" := by decide +kernel
  have hstopword : "half" ++ " " ++ "of" ++ " " ++ "'n half" = "half of 'n half" := by
    decide +kernel
  have hsaid : Says "half 'n half" "HALF of 'n Half" := by
    refine .letterCase (?_ : Says _ "half of 'n half") ?_
    · rw [← hstopword]
      refine .stopword _ _ _ _ _ ?_ Text.isGap_space Text.isGap_space (by decide)
      rw [hplain]
      exact .verbatim
    · rw [← String.toList_inj, String.toLower, String.toLower, String.toList_map,
        String.toList_map]
      decide
  have hedge := (recognises_phrases (α := Float) hbuilt).2.2.1 _ List.mem_cons_self
    (by rw [hphrase]; exact List.cons_ne_nil _ _) _ hsaid "with" "please"
  rw [hwith, hphrase] at hedge
  exact ⟨hbuilt, hedge⟩

end SpokenOrder.Lexicon
