import Packrat.Decimal.Layout
import Packrat.Decimal.Reading
import Packrat.Grammar

/-!
# Arithmetic

Arithmetic on floating-point numbers.  From lowest to highest precedence: `+` and `-`, `*` and
`/`, the unary minus, `^`, groups in parentheses, numbers.  Powers associate to the right, all
other binary operators to the left.  An exponent may begin with a minus of its own, so `2 ^ -1`
is 0.5, while `-2 ^ 2` is -4.  All rules share one cache, which is emptied after each parse.
-/

namespace Packrat.Arithmetic

/-- The payloads of the grammar: numbers, and the texts of its tokens. -/
inductive Payload where
  | number (x : Float)
  | text (chars : List Char)
  deriving Inhabited

namespace Payload

def toFloat : Payload → Float
  | number x => x
  | text _ => 0.0

def toChars : Payload → List Char
  | number _ => []
  | text chars => chars

/-- The texts of several payloads, one after another. -/
def concat (payloads : List Payload) : Payload := .text (payloads.flatMap toChars)

/-- The text that shows a result in a report. -/
def describe (payload : Payload) : String := Decimal.reported.write payload.toFloat

end Payload

open Packrat.Parser

/-! ## Tokens -/

def filler : Payload := .text []

def symbol (text : String) : Parser Payload := token filler text (.text text.toList)

def digits : Parser Payload :=
  many1 (.satisfy Char.isDigit fun c => .text [c]) .concat

/-- Digits with an optional fraction. -/
def number : Parser Payload :=
  let point : Parser Payload := .literal ['.'] (.text ['.'])
  let fraction : Parser Payload :=
    .optional (.sequence [point, digits] .concat) fun payload => payload.getD filler
  (Parser.sequence [digits, fraction] .concat).map fun payload =>
    .number (Decimal.Numeral.ofChars payload.toChars).toFloat

/-! ## Rules -/

/-- The whole grammar as a rule. -/
def expression : Parser Payload := .call 0

/-- A cached rule, whose calls are recorded on demand. -/
def rule (traced : Bool) (id : Nat) (name : String) (parser : Parser Payload) : Parser Payload :=
  .memo id 0 (if traced then .logged name parser else parser)

/-- Two operands around an operator, joined by `f`. -/
def combine (f : Float → Float → Float) (payloads : List Payload) : Payload :=
  match payloads with
  | [left, _, right] => .number (f left.toFloat right.toFloat)
  | _ => filler

/-- An operator that associates to the left. -/
def leftAssociative (id : Nat) (operator : String) (f : Float → Float → Float) :
    Parser Payload :=
  foldedLeft id expression [symbol operator] expression (combine f)

/-- An operand behind a minus. -/
def negated : Parser Payload :=
  .sequence [symbol "-", expression] fun payloads => .number (-(payloads.getD 1 filler).toFloat)

/-- A power; its exponent is an operand of the same level or one behind a minus. -/
def power : Parser Payload :=
  inOrder 4 expression [symbol "^", .firstOf [negated, expression]] (combine Float.pow)

/-- An expression in parentheses, inside which precedence starts over. -/
def group : Parser Payload :=
  .nested (.sequence [symbol "(", expression, symbol ")"] fun payloads => payloads.getD 1 filler)

/-- The alternatives from loosest to tightest. -/
def levels (traced : Bool) : List (Parser Payload) :=
  let rule := rule traced
  [ .firstOf
      [ rule 0 "plus" (leftAssociative 0 "+" fun x y => x + y),
        rule 1 "minus" (leftAssociative 1 "-" fun x y => x - y) ],
    .firstOf
      [ rule 2 "times" (leftAssociative 2 "*" fun x y => x * y),
        rule 3 "divide" (leftAssociative 3 "/" fun x y => x / y) ],
    rule 4 "negate" negated,
    rule 5 "power" power,
    rule 6 "group" group,
    rule 7 "number" (padded filler number) ]

/-- The grammar of arithmetic; a traced one records every rule that is run. -/
def grammar (traced : Bool) : Grammar Payload where
  rules := .ofBodies [.climb 0 (levels traced)]
  entry := .clearing 0 0 expression

/-- The text that shows a number. -/
def display (payload : Payload) : String := Decimal.plain.write payload.toFloat

end Packrat.Arithmetic
