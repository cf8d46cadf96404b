import SpokenOrder.Lexicon.Basic
import SpokenOrder.Menu.Authoring

/-!
# A coffee shop

A small menu of ice cream and coffee, and a lexicon for it that knows some more ways to name things.
-/

namespace SpokenOrder.CoffeeShop

/-! ## Numbers -/

def cone : Pid := 9000
def coffee : Pid := 9100
def latte : Pid := 9200
def milk : Pid := 5000
def halfAndHalf : Pid := 5010
def sprinkles : Pid := 5100
def whippedCream : Pid := 5200
def vanillaSyrup : Pid := 5300
def caramelSyrup : Pid := 5301
def espressoShot : Pid := 5500

/-! ## The menu -/

/-- Sizes, flavours, caffeine and kinds of milk. -/
def dimensions : List Entry :=
  [.dimension 1 "size" [⟨1, "small", false⟩, ⟨2, "medium", true⟩, ⟨3, "large", false⟩],
    .dimension 2 "flavor"
      [⟨10, "vanilla", true⟩, ⟨11, "chocolate", false⟩, ⟨12, "strawberry", false⟩],
    .dimension 3 "caffeine" [⟨20, "regular", true⟩, ⟨21, "decaf", false⟩],
    .dimension 4 "milk type" [⟨30, "whole", true⟩, ⟨31, "skim", false⟩, ⟨32, "oat", false⟩]]

/-- What configures a cone, a drink, milk, and anything plain. -/
def matrices : List Entry :=
  [.matrix 1 [1, 2], .matrix 2 [1, 3], .matrix 3 [4], .matrix 4 []]

/-- Products and options. A latte comes with milk. -/
def generics : List Entry :=
  [.generic ⟨cone, "cone", .product, 1, []⟩,
    .generic ⟨coffee, "coffee", .product, 2, []⟩,
    .generic ⟨latte, "latte", .product, 2, [milk]⟩,
    .generic ⟨milk, "milk", .option, 3, []⟩,
    .generic ⟨halfAndHalf, "half and half", .option, 4, []⟩,
    .generic ⟨sprinkles, "sprinkles", .option, 4, []⟩,
    .generic ⟨whippedCream, "whipped cream", .option, 4, []⟩,
    .generic ⟨vanillaSyrup, "vanilla syrup", .option, 4, []⟩,
    .generic ⟨caramelSyrup, "caramel syrup", .option, 4, []⟩,
    .generic ⟨espressoShot, "espresso shot", .option, 4, []⟩]

/-- What goes into a drink. Milk and half and half exclude each other. -/
def drinkRules (drink : Pid) : List Entry :=
  [.children (toString drink)
      [milk, halfAndHalf, vanillaSyrup, caramelSyrup, espressoShot, whippedCream],
    .exclusion (toString drink) [milk, halfAndHalf]]

/-- The whole menu. Small strawberry cones are not sold. -/
def entries : List Entry :=
  dimensions ++ matrices ++ generics
    ++ [.exclude ⟨cone, 6⟩, .children (toString cone) [sprinkles, whippedCream, caramelSyrup]]
    ++ drinkRules coffee ++ drinkRules latte
    ++ [.recipe 1 "the works" (toString cone)
        [⟨sprinkles, [], 1⟩, ⟨whippedCream, [], 1⟩, ⟨caramelSyrup, [], 1⟩]]

/-- The menu of the shop. None of the entries is refused. -/
def menu : Menu :=
  match Menu.empty.writeAll entries with
  | .ok menu => menu
  | .error _ => .empty

/-! ## The lexicon -/

/-- The lexicon of the shop: the menu's names, two units, and short names. -/
def lexicon : Lexicon :=
  (Lexicon.ofMenu menu)
    |>.addUnit 1 "pump"
    |>.addUnit 2 "splash"
    |>.addAlias "vanilla" (.option vanillaSyrup "vanilla syrup")
    |>.addAlias "caramel" (.option caramelSyrup "caramel syrup")
    |>.addAlias "shot" (.option espressoShot "espresso shot")
    |>.addAlias "shots" (.option espressoShot "espresso shot")
    |>.addAlias "ice cream cone" (.entity cone "cone")

end SpokenOrder.CoffeeShop
