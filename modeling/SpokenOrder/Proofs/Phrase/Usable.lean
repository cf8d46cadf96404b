import SpokenOrder.CoffeeShop
import SpokenOrder.Proofs.Particulars.Tally
import SpokenOrder.Proofs.Phrase.Build

/-!
# Words that are put to use

Words change an item if any of them is put to use and the variant is sold. The score tells how many
are: each conjunction, a quantity, each accepted attribute, and the tokens of each part of which an
option is accepted (`Menu.score_modified?_iff`). Conjunctions count although they say nothing. So
words of which only a conjunction is put to use change an item to itself
(`Menu.modified?_andChocolate`).
-/

namespace SpokenOrder.Menu

variable {menu : Menu}

/-- A part of which an option is accepted has a token. -/
theorem sum_acceptedParts_pos {said : Particulars} (hsaid : said.Accounted) {key : Key}
    {children : List Item} (h : menu.acceptedParts key children said.parts ≠ []) :
    0 < ((menu.acceptedParts key children said.parts).map Part.tokens).sum := by
  obtain ⟨part, rest, heq⟩ := List.exists_cons_of_ne_nil h
  have hsublist : (menu.acceptedParts key children said.parts).Sublist said.parts :=
    menu.acceptedParts_sublist key children said.parts
  have hpos := hsaid.tokens_pos part (hsublist.subset (heq ▸ List.mem_cons_self))
  rw [heq, List.map_cons, List.sum_cons]
  exact Nat.add_pos_left hpos _

/-- The tokens that are put to use, less those of rejected parts. -/
theorem used_sub_rejected (menu : Menu) (matrix : Option Matrix) (words : Run) (key : Key)
    (children : List Item) {said : Particulars}
    (hsaid : said = Particulars.empty.readLeft menu matrix words) :
    said.used - (menu.mergeParts key children said.parts).2 =
      words.conjunctions + words.quantity?.toList.length + said.attributes.length +
        ((menu.acceptedParts key children said.parts).map Part.tokens).sum := by
  have hused := Particulars.used_readLeft menu matrix words
  have hparts := menu.rejected_add_accepted key children said.parts
  rw [← hsaid, Particulars.tally, hsaid, Particulars.quantity_readLeft, ← hsaid] at hused
  omega

/-- How a changed item is built. -/
theorem modified?_of_sold {item : Item} {words : Run} {matrix : Matrix} {said : Particulars}
    {key : Key} (hmatrix : menu.matrixFor? item.key.pid = some matrix)
    (hsaid : said = Particulars.empty.readLeft menu (some matrix) words)
    (hkey : key = matrix.key item.key.pid (said.attributes ++ matrix.attributes item.key.index))
    (hsold : menu.catalog.hasKey key = true)
    (hscore : said.used - (menu.mergeParts key item.children said.parts).2 ≠ 0) :
    ∃ new, menu.modified? item words = some new ∧
      new.score = said.used - (menu.mergeParts key item.children said.parts).2 := by
  subst hsaid hkey
  have hused : (Particulars.empty.readLeft menu (some matrix) words).used ≠ 0 := by omega
  simp [modified?, hmatrix, hused, hsold, hscore]

/-- Words change an item if its variant is sold then, and if they hold a conjunction, or a quantity,
or an attribute that is accepted, or a part of which an option is. The score is the number of these
tokens. -/
theorem score_modified?_iff (menu : Menu) (item : Item) (words : Run) (score : Nat) :
    (∃ new, menu.modified? item words = some new ∧ new.score = score) ↔
      ∃ matrix said key accepted, menu.matrixFor? item.key.pid = some matrix ∧
        said = Particulars.empty.readLeft menu (some matrix) words ∧
        key = matrix.key item.key.pid (said.attributes ++ matrix.attributes item.key.index) ∧
        accepted = menu.acceptedParts key item.children said.parts ∧
        menu.catalog.hasKey key = true ∧
        score = words.conjunctions + words.quantity?.toList.length + said.attributes.length +
          (accepted.map Part.tokens).sum ∧
        (0 < words.conjunctions ∨ words.quantity? ≠ none ∨ said.attributes ≠ [] ∨
          accepted ≠ []) := by
  constructor
  · rintro ⟨new, hnew, rfl⟩
    obtain ⟨matrix, said, key, hmatrix, hsaid, hkey, hsold, hscore, rfl⟩ := modified?_eq_some hnew
    have hsum := menu.used_sub_rejected (some matrix) words key item.children hsaid
    refine ⟨matrix, said, key, _, hmatrix, hsaid, hkey, rfl, hsold, hsum, ?_⟩
    by_contra hnone
    simp only [not_or, Nat.not_lt, Nat.le_zero, Classical.not_not] at hnone
    obtain ⟨hconjunctions, hquantity, hattributes, hparts⟩ := hnone
    rw [hsum, hconjunctions, hquantity, hattributes, hparts] at hscore
    exact hscore rfl
  · rintro ⟨matrix, said, key, accepted, hmatrix, hsaid, hkey, rfl, hsold, rfl, hsome⟩
    have hsum := menu.used_sub_rejected (some matrix) words key item.children hsaid
    have haccounted : said.Accounted :=
      hsaid ▸ Particulars.accounted_empty.readLeft menu (some matrix) words
    rw [← hsum]
    refine modified?_of_sold hmatrix hsaid hkey hsold ?_
    rw [hsum]
    rcases hsome with hconjunctions | hquantity | hattributes | hparts
    · omega
    · obtain ⟨value, hvalue⟩ := Option.ne_none_iff_exists'.1 hquantity
      simp [hvalue]
    · have hpos := List.length_pos_iff.2 hattributes
      omega
    · have hpos := sum_acceptedParts_pos haccounted hparts
      omega

/-- A coffee. -/
def plainCoffee : Item := ⟨1, ⟨CoffeeShop.coffee, 1⟩, 1, []⟩

/-- "And chocolate". -/
def andChocolate : Run := [⟨.conjunction, ⟨0, 1⟩⟩, ⟨.attribute 11 "chocolate", ⟨1, 1⟩⟩]

/-- "And chocolate" changes a coffee to itself, although it says neither a quantity nor an attribute
of a coffee nor a part. "Chocolate" alone changes nothing. -/
theorem modified?_andChocolate :
    (∃ new, CoffeeShop.menu.modified? plainCoffee andChocolate = some new ∧
      new.value = plainCoffee ∧ new.score = 1) ∧
    Particulars.empty.readLeft CoffeeShop.menu (CoffeeShop.menu.matrixFor? CoffeeShop.coffee)
      andChocolate = { Particulars.empty with used := 1 } ∧
    (CoffeeShop.menu.modified? plainCoffee andChocolate.tail).isNone = true :=
  ⟨⟨⟨plainCoffee, 1, 2⟩, rfl, rfl, rfl⟩, by decide +kernel, by decide +kernel⟩

end SpokenOrder.Menu
