import Packrat.Text.Quoted

/-!
# Dynamic values

The payloads of the parsers on the workbench: characters, texts, numbers, and lists, tuples and
optional values of these.
-/

namespace Packrat.Workbench

/-- A payload. -/
inductive Value where
  | unit
  | char (c : Char)
  | text (s : String)
  | int (n : Int64)
  | list (items : List Value)
  | tuple (items : List Value)
  | nothing
  | just (value : Value)
  deriving Inhabited

namespace Value

mutual

/-- The characters that a value stands for; the parts of a compound value follow each other. -/
def flatten : Value → String
  | .unit | .nothing => ""
  | .char c => String.singleton c
  | .text s => s
  | .int n => toString n.toInt
  | .list items | .tuple items => String.join (flattenAll items)
  | .just value => value.flatten

def flattenAll : List Value → List String
  | [] => []
  | value :: values => value.flatten :: flattenAll values

end

/-- The elements of a list or tuple; any other value is a single item. -/
def items : Value → List Value
  | .list items | .tuple items => items
  | value => [value]

mutual

/-- The text that shows a value in a report. -/
def describe : Value → String
  | .unit => "()"
  | .char c => Text.quotedSingle c
  | .text s => Text.quoted s
  | .int n => toString n.toInt
  | .list items => "[" ++ String.intercalate ", " (describeAll items) ++ "]"
  | .tuple items => "(" ++ String.intercalate ", " (describeAll items) ++ ")"
  | .nothing => "None"
  | .just value => "Some(" ++ value.describe ++ ")"

def describeAll : List Value → List String
  | [] => []
  | value :: values => value.describe :: describeAll values

end

/-- The number that decimal digits denote, if all characters are digits and there is one. -/
def natOfDigits? : List Char → Option Nat
  | [] => none
  | digits =>
      if digits.all Char.isDigit then some (Nat.ofDigitChars 10 digits 0) else none

/-- An optionally signed decimal number that fits 64 bits. -/
def int64OfText? (text : String) : Option Int64 :=
  let number? : Option Int :=
    match text.toList with
    | '-' :: digits => (natOfDigits? digits).map fun n => -(n : Int)
    | '+' :: digits => (natOfDigits? digits).map Int.ofNat
    | digits => (natOfDigits? digits).map Int.ofNat
  match number? with
  | some n => if Int64.minValue.toInt ≤ n ∧ n ≤ Int64.maxValue.toInt then some (.ofInt n) else none
  | none => none

/-- The number of a value, which is zero for all but numbers. -/
def toInt64 : Value → Int64
  | .int n => n
  | _ => 0

end Value

/-- A change of payloads. -/
inductive Transform where
  /-- The characters as a text. -/
  | flatten
  /-- The texts of the items between parentheses, separated by spaces. -/
  | group
  /-- The number of items. -/
  | count
  /-- The number that the characters spell, or zero. -/
  | number
  /-- The first item less the last one, modulo 2 to the power of 64. -/
  | difference
  /-- A pair of a name and the value. -/
  | tagged (name : String)
  deriving Repr

def Transform.apply : Transform → Value → Value
  | .flatten, value => .text value.flatten
  | .group, value =>
      .text ("(" ++ String.intercalate " " (value.items.map Value.flatten) ++ ")")
  | .count, value => .int (.ofNat value.items.length)
  | .number, value => .int ((Value.int64OfText? value.flatten).getD 0)
  | .difference, value =>
      let first := (value.items.head?.map Value.toInt64).getD 0
      let last := (value.items.getLast?.map Value.toInt64).getD 0
      .int (first - last)
  | .tagged name, value => .tuple [.text name, value]

end Packrat.Workbench
