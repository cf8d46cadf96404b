import SpokenOrder.Menu.Matrix
import SpokenOrder.Text.Blank
import SpokenOrder.Text.Numeral

/-!
# Sets of parents

The rules of a menu are about sets of parents, written as an expression: `*` for every parent,
`9000` for all variants of a generic product, `9000:4` for one of them.
-/

namespace SpokenOrder

/-- A set of parents. -/
inductive KeyMatcher where
  | any
  | generic (pid : Pid)
  | exact (key : Key)
deriving DecidableEq, Repr

namespace KeyMatcher

/-- Is the key in the set? -/
def covers : KeyMatcher → Key → Bool
  | any, _ => true
  | generic pid, key => key.pid == pid
  | exact wanted, key => wanted == key

/-- Numbers of generic items are below this. -/
def pidBound : Nat := Nat.pow 2 32

/-- Indices of variants are below this. -/
def indexBound : Nat := Nat.pow 2 64

/-- Reads an expression without blanks around it. A colon separates the number of a generic item
from the index of a variant. -/
def ofTrimmed? (cs : List Char) : Option KeyMatcher :=
  if cs = ['*'] then some any
  else match cs.dropWhile (· != ':') with
    | [] => (Text.readNumeral? pidBound cs).map generic
    | _ :: index =>
      match Text.readNumeral? pidBound (cs.takeWhile (· != ':')),
        Text.readNumeral? indexBound index with
      | some pid, some index => some (exact ⟨pid, index⟩)
      | _, _ => none

/-- Reads an expression. Blanks around it do not count; the error repeats them. -/
def parse (expression : String) : Except MenuError KeyMatcher :=
  match ofTrimmed? (Text.trim expression.toList) with
  | some m => .ok m
  | none => .error (.unknownMatcher expression)

end KeyMatcher

end SpokenOrder
