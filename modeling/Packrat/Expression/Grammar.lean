import Packrat.Expression.Printer
import Packrat.Grammar

/-!
# The expression language

From lowest to highest precedence: `||`; `&&`; `==` and `!=`; `+` and `-`; `*`, `/` and `%`; the
unary `!` and `-`; `^`.  Powers associate to the right, all other binary operators to the left.
Above them stand calls, arrays, groups, integers, strings and names.  Precedence starts over
inside calls, arrays and groups.  All rules share one cache, which is emptied after each parse.
-/

namespace Packrat.Expression

/-- The payloads of the grammar: expressions, lists of them, and the texts of tokens. -/
inductive Payload where
  | expr (e : Expr)
  | exprs (es : List Expr)
  | text (chars : List Char)
  deriving Inhabited

namespace Payload

def toExpr : Payload → Expr
  | expr e => e
  | exprs es => .array es
  | text chars => .ident chars

def toExprs : Payload → List Expr
  | exprs es => es
  | _ => []

def toChars : Payload → List Char
  | text chars => chars
  | _ => []

/-- The texts of several payloads, one after another. -/
def concat (payloads : List Payload) : Payload := .text (payloads.flatMap toChars)

/-- The expressions of several payloads as a list. -/
def pack (payloads : List Payload) : Payload := .exprs (payloads.map toExpr)

def unpack (payload : Payload) : List Payload := payload.toExprs.map .expr

end Payload

open Packrat.Parser

/-! ## Tokens -/

def filler : Payload := .text []

def symbol (text : String) : Parser Payload := token filler text (.text text.toList)

def charIn (accepts : Char → Bool) : Parser Payload := .satisfy accepts fun c => .text [c]

def isLetter (c : Char) : Bool := c.isLower || c.isUpper || c == '_'

def isLetterOrDigit (c : Char) : Bool := isLetter c || c.isDigit

/-- A letter or underscore, followed by letters, underscores and digits. -/
def identifier : Parser Payload :=
  .sequence [charIn isLetter, many (charIn isLetterOrDigit) .concat] .concat

/-- The integer that digits denote, if it fits 64 bits. -/
def int64OfDigits? (digits : List Char) : Option Int64 :=
  let n := Nat.ofDigitChars 10 digits 0
  if (n : Int) ≤ Int64.maxValue.toInt then some (.ofNat n) else none

/-- Digits that denote a number of at most 63 bits. -/
def integer : Parser Payload :=
  .convert (many1 (charIn Char.isDigit) .concat) fun payload =>
    (int64OfDigits? payload.toChars).map fun n => .expr (.int n)

/-- A text in double quotes, in which a quote or backslash stands behind a backslash. -/
def string : Parser Payload :=
  let quote := charIn (· == '"')
  let backslash := charIn (· == '\\')
  let escaped : Parser Payload :=
    .sequence [backslash, .firstOf [quote, backslash]] fun payloads => payloads.getD 1 filler
  let content : Parser Payload :=
    many (.firstOf [escaped, charIn fun c => c != '"' && c != '\\']) .concat
  .sequence [quote, content, quote] fun payloads => payloads.getD 1 filler

/-! ## Rules -/

/-- The whole language as a rule. -/
def expression : Parser Payload := .call 0

/-- A cached rule, whose calls are recorded on demand. -/
def rule (traced : Bool) (id : Nat) (name : String) (parser : Parser Payload) : Parser Payload :=
  .memo id 0 (if traced then .logged name parser else parser)

/-- Two operands around an operator. -/
def combine (op : BinaryOp) (payloads : List Payload) : Payload :=
  match payloads with
  | [left, _, right] => .expr (.binary op left.toExpr right.toExpr)
  | _ => filler

/-- An operator that associates to the left. -/
def leftAssociative (traced : Bool) (id : Nat) (op : BinaryOp) : Parser Payload :=
  rule traced id op.symbol
    (foldedLeft id expression [symbol op.symbol] expression (combine op))

/-- An operator in front of its operand. -/
def unary (traced : Bool) (id : Nat) (op : UnaryOp) : Parser Payload :=
  rule traced id ("unary " ++ op.symbol)
    (.sequence [symbol op.symbol, expression] fun payloads =>
      .expr (.unary op (payloads.getD 1 filler).toExpr))

def power : Parser Payload :=
  inOrder 9 expression [symbol BinaryOp.pow.symbol, expression] (combine .pow)

/-- Expressions with commas between them, in brackets. -/
def list (tailId itemsId : Nat) (opening closing : String) : Parser Payload :=
  .sequence
    [ symbol opening,
      joined tailId itemsId .pack Payload.unpack expression (symbol ","),
      symbol closing ]
    fun payloads => payloads.getD 1 filler

/-- A name with arguments. -/
def call : Parser Payload :=
  .nested (.sequence [padded filler identifier, list 10 11 "(" ")"] fun payloads =>
    .expr (.call (payloads.getD 0 filler).toChars (payloads.getD 1 filler).toExprs))

def array : Parser Payload :=
  .nested ((list 12 13 "[" "]").map fun payload => .expr (.array payload.toExprs))

/-- An expression in parentheses. -/
def group : Parser Payload :=
  .nested (.sequence [symbol "(", expression, symbol ")"] fun payloads => payloads.getD 1 filler)

/-- The alternatives from loosest to tightest. -/
def levels (traced : Bool) : List (Parser Payload) :=
  let left := leftAssociative traced
  let unary := unary traced
  let rule := rule traced
  [ left 0 .or,
    left 1 .and,
    .firstOf [left 2 .eq, left 3 .notEq],
    .firstOf [left 4 .add, left 5 .sub],
    .firstOf [left 6 .mul, left 7 .div, left 8 .rem],
    .firstOf [unary 9 .not, unary 10 .neg],
    rule 11 "^" power,
    rule 12 "call" call,
    rule 13 "array" array,
    rule 14 "group" group,
    rule 15 "integer" (padded filler integer),
    rule 16 "string" ((padded filler string).map fun payload => .expr (.str payload.toChars)),
    rule 17 "identifier"
      ((padded filler identifier).map fun payload => .expr (.ident payload.toChars)) ]

/-- The grammar of the language; a traced one records every rule that is run. -/
def grammar (traced : Bool) : Grammar Payload where
  rules := .ofBodies [.climb 0 (levels traced)]
  entry := .clearing 0 0 expression

end Packrat.Expression
