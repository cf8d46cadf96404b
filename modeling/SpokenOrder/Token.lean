import SpokenOrder.Bounds
import SpokenOrder.Identifier

/-!
# Tokens and their places

A `Token` is one reading of one or more words; a `Placed` token also says which words. Tokens that
can describe an item (`Kind.describesItem`) are gathered into groups: `Token.parts` carries the run
that it stands for, so tokens nest, and functions on them come in pairs, one for a token and one for
a run.
-/

namespace SpokenOrder

/-! ## Spans -/

/-- A stretch of word positions. -/
structure Span where
  start : Nat
  length : Nat
deriving DecidableEq, Repr

namespace Span

/-- The first position after the span, with nothing lost of it. As positions are kept, it is
`Span.keptStop`. -/
def stop (s : Span) : Nat := s.start + s.length

/-- The first position after the span as it is kept, up to the bound of sizes. The spans of tokens
that stand in a lattice do not come near the bound. -/
def keptStop (s : Span) : Nat := s.stop % sizeBound

/-- The smallest span that holds both. -/
def cover (s t : Span) : Span :=
  let start := min s.start t.start
  ⟨start, max s.stop t.stop - start⟩

end Span

/-- Something read from the words of a span. -/
structure Placed (α : Type) where
  token : α
  span : Span
deriving DecidableEq, Repr

/-! ## Kinds -/

/-- How many entities a group of tokens names. -/
inductive EntityCount where
  | zero
  | one
  | several
deriving DecidableEq, Repr

/-- The count of a number of entities: `several` is anything above one. -/
def EntityCount.of : Nat → EntityCount
  | 0 => .zero
  | 1 => .one
  | _ + 2 => .several

/-- What sort of thing a token is. Grammar patterns ask for a kind. -/
inductive Kind where
  | addToOrder
  | removeItem
  | modifyItem
  | prologue
  | preposition
  | conjunction
  | attribute
  | entity
  | option
  | optionRecipe
  | productRecipe
  | number
  | quantity
  | unit
  | parts (entities : EntityCount)
  | unknown
deriving DecidableEq, Repr

namespace Kind

/-- The name of a kind in traces and reports. -/
def label : Kind → String
  | .addToOrder => "ADD_TO_ORDER"
  | .removeItem => "REMOVE_ITEM"
  | .modifyItem => "MODIFY_ITEM"
  | .prologue => "PROLOGUE"
  | .preposition => "PREPOSITION"
  | .conjunction => "CONJUNCTION"
  | .attribute => "ATTRIBUTE"
  | .entity => "ENTITY"
  | .option => "OPTION"
  | .optionRecipe => "OPTION_RECIPE"
  | .productRecipe => "PRODUCT_RECIPE"
  | .number => "NUMBER"
  | .quantity => "QUANTITY"
  | .unit => "UNIT"
  | .parts .zero => "PRODUCT_PARTS_0"
  | .parts .one => "PRODUCT_PARTS_1"
  | .parts .several => "PRODUCT_PARTS_N"
  | .unknown => "UNKNOWN"

/-- Every kind, once. -/
def all : List Kind :=
  [.addToOrder, .removeItem, .modifyItem, .prologue, .preposition, .conjunction, .attribute,
    .entity, .option, .optionRecipe, .productRecipe, .number, .quantity, .unit, .parts .zero,
    .parts .one, .parts .several, .unknown]

/-- The kind with the given label. -/
def ofLabel? (label : String) : Option Kind := all.find? (·.label == label)

/-- The kinds that say something about an item, and so belong into a group. -/
def describesItem : Kind → Bool
  | .attribute | .conjunction | .entity | .number | .option | .optionRecipe | .productRecipe
  | .quantity | .unit => true
  | _ => false

end Kind

/-! ## Tokens -/

/-- One reading of some words. -/
inductive Token where
  /-- Words such as "add" and "I'd like". -/
  | addToOrder
  /-- Words such as "remove" and "no". -/
  | removeItem
  /-- Words such as "make" and "change". -/
  | modifyItem
  /-- Words of courtesy. -/
  | prologue
  | preposition
  | conjunction
  | attribute (id : Aid) (name : String)
  /-- A product. -/
  | entity (pid : Pid) (name : String)
  /-- Something that goes on or into a product. -/
  | option (pid : Pid) (name : String)
  | optionRecipe (rid : Rid) (name : String)
  | productRecipe (rid : Rid) (name : String)
  | number (value : Nat)
  /-- A vaguer number, such as "a" or "a couple". -/
  | quantity (value : Nat)
  | unit (id : UnitId) (name : String)
  /-- A group of tokens that describe items together. -/
  | parts (entities : EntityCount) (run : List (Placed Token))
  /-- A word that nothing else explains. -/
  | unknown (text : String)

/-- A run of tokens, in the order of the words. -/
abbrev Run := List (Placed Token)

namespace Token

/-- The kind of a token. -/
def kind : Token → Kind
  | .addToOrder => .addToOrder
  | .removeItem => .removeItem
  | .modifyItem => .modifyItem
  | .prologue => .prologue
  | .preposition => .preposition
  | .conjunction => .conjunction
  | .attribute .. => .attribute
  | .entity .. => .entity
  | .option .. => .option
  | .optionRecipe .. => .optionRecipe
  | .productRecipe .. => .productRecipe
  | .number _ => .number
  | .quantity _ => .quantity
  | .unit .. => .unit
  | .parts entities _ => .parts entities
  | .unknown _ => .unknown

/-- The run that a group stands for. -/
def run? : Token → Option Run
  | .parts _ run => some run
  | _ => none

/-- Is the token a word that nothing explains? -/
def isUnknown (t : Token) : Bool := t.kind == .unknown

/-! ### Rendering -/

/-- A label, and in brackets what it is about. -/
def labelled (kind : Kind) (content : String) : String := kind.label ++ "(" ++ content ++ ")"

mutual

/-- The short rendering of a token in traces and reports. -/
def describe : Token → String
  | .attribute _ name => labelled .attribute name
  | .entity _ name => labelled .entity name
  | .option _ name => labelled .option name
  | .optionRecipe _ name => labelled .optionRecipe name
  | .productRecipe _ name => labelled .productRecipe name
  | .number value => labelled .number (toString value)
  | .quantity value => labelled .quantity (toString value)
  | .unit _ name => labelled .unit name
  | .parts entities run =>
    (Kind.parts entities).label ++ "[" ++ " ".intercalate (describeEach run) ++ "]"
  | .unknown text => labelled .unknown text
  | .addToOrder => Kind.addToOrder.label
  | .removeItem => Kind.removeItem.label
  | .modifyItem => Kind.modifyItem.label
  | .prologue => Kind.prologue.label
  | .preposition => Kind.preposition.label
  | .conjunction => Kind.conjunction.label

/-- The renderings of the tokens of a run. -/
def describeEach : List (Placed Token) → List String
  | [] => []
  | p :: rest => describePlaced p :: describeEach rest

/-- The rendering of a token, wherever it stands. -/
def describePlaced : Placed Token → String
  | ⟨token, _⟩ => describe token

end

/-! ### Identity -/

/-- What a token is, apart from the name it is shown under. -/
inductive Identity where
  | bare (kind : Kind)
  | numbered (kind : Kind) (id : Nat)
  | word (text : String)
deriving DecidableEq, Repr

/-- Two tokens with one identity are the same reading. Names do not count: `ENTITY(cone)` and
`ENTITY(cones)` with one number are one reading. -/
def identity : Token → Identity
  | .attribute id _ => .numbered .attribute id
  | .entity pid _ => .numbered .entity pid
  | .option pid _ => .numbered .option pid
  | .optionRecipe rid _ => .numbered .optionRecipe rid
  | .productRecipe rid _ => .numbered .productRecipe rid
  | .number value => .numbered .number value
  | .quantity value => .numbered .quantity value
  | .unit id _ => .numbered .unit id
  | .unknown text => .word text
  | token => .bare token.kind

end Token

/-! ## Runs -/

/-- How many words' tokens a placed token stands for: a group counts its members. -/
def Placed.tokenCount (p : Placed Token) : Nat := (p.token.run?.map List.length).getD 1

namespace Run

/-- The rendering of a run: its tokens with a space between. -/
def describe (run : Run) : String := " ".intercalate (Token.describeEach run)

/-- How many words' tokens a run stands for. -/
def tokenCount (run : Run) : Nat := run.foldr (·.tokenCount + ·) 0

/-- The smallest span that holds every token of a run that is not empty. -/
def span? : Run → Option Span
  | [] => none
  | p :: rest => some (rest.foldl (fun s q => s.cover q.span) p.span)

end Run

end SpokenOrder
