import Packrat.Decimal.Reading
import Packrat.Grammar
import Packrat.Json.Printer
import Packrat.Text.Encoding

/-!
# The grammar of JSON

Any white space may stand around values, keys and punctuation.  Strings may hold every character
but quotes and backslashes, and the usual escapes.
-/

namespace Packrat.Json

/-! ## String contents -/

/-- A piece of a string: a character, or a 16-bit unit that an escape spells. -/
inductive Piece where
  | char (c : Char)
  | unit (unit : UInt16)
  deriving DecidableEq, Repr

/-- The characters of pieces that follow the units `pending`.  Adjacent units are decoded
together, so that two escapes may make one character. -/
def decodeAfter (pending : List UInt16) : List Piece → List Char
  | [] => Text.Units.decode pending
  | .unit unit :: pieces => decodeAfter (pending ++ [unit]) pieces
  | .char c :: pieces => Text.Units.decode pending ++ c :: decodeAfter [] pieces

/-- The characters of a string. -/
def decode (pieces : List Piece) : List Char := decodeAfter [] pieces

/-! ## Payloads -/

/-- The payloads of the grammar. -/
inductive Payload where
  | value (v : Value)
  | text (chars : List Char)
  | piece (p : Piece)
  | member (key : List Char) (v : Value)
  | items (payloads : List Payload)
  deriving Inhabited

namespace Payload

def toValue : Payload → Value
  | .value v => v
  | _ => .null

def toChars : Payload → List Char
  | .text chars => chars
  | _ => []

def toItems : Payload → List Payload
  | .items payloads => payloads
  | _ => []

def piece? : Payload → Option Piece
  | .piece p => some p
  | _ => none

def member? : Payload → Option (List Char × Value)
  | .member key v => some (key, v)
  | _ => none

/-- The texts of several payloads, one after another. -/
def concat (payloads : List Payload) : Payload := .text (payloads.flatMap toChars)

end Payload

open Packrat.Parser

/-! ## Numbers -/

def filler : Payload := .text []

def charIn (accepts : Char → Bool) : Parser Payload := .satisfy accepts fun c => .text [c]

def orEmpty (parser : Parser Payload) : Parser Payload :=
  .optional parser fun payload => payload.getD filler

def digits : Parser Payload := many1 (charIn Char.isDigit) .concat

/-- A whole number without zeros in front. -/
def integer : Parser Payload :=
  .firstOf
    [ .literal ['0'] (.text ['0']),
      .sequence [charIn fun c => '1' ≤ c && c ≤ '9', many (charIn Char.isDigit) .concat] .concat ]

def fraction : Parser Payload := .sequence [charIn (· == '.'), digits] .concat

def exponent : Parser Payload :=
  .sequence
    [ charIn fun c => c == 'e' || c == 'E',
      orEmpty (charIn fun c => c == '+' || c == '-'),
      digits ]
    .concat

def number : Parser Payload :=
  (Parser.sequence [orEmpty (charIn (· == '-')), integer, orEmpty fraction, orEmpty exponent]
    .concat).map fun payload =>
      .value (.number (Decimal.Numeral.ofChars payload.toChars).toFloat)

/-! ## Strings -/

/-- The character that a letter stands for behind a backslash. -/
def unescape (c : Char) : Char :=
  if c = 'b' then '\x08'
  else if c = 'f' then '\x0c'
  else if c = 'n' then '\n'
  else if c = 'r' then '\r'
  else if c = 't' then '\t'
  else c

def isHexDigit (c : Char) : Bool :=
  c.isDigit || ('a' ≤ c && c ≤ 'f') || ('A' ≤ c && c ≤ 'F')

def hexDigit (c : Char) : Nat :=
  if c.isDigit then c.toNat - '0'.toNat
  else if 'a' ≤ c then c.toNat - 'a'.toNat + 10
  else c.toNat - 'A'.toNat + 10

/-- The number that hexadecimal digits denote. -/
def ofHexDigits (digits : List Char) : Nat := digits.foldl (fun n c => 16 * n + hexDigit c) 0

/-- A unit spelled by four hexadecimal digits. -/
def unicodeEscape : Parser Payload :=
  (Parser.sequence
    [ .literal ['\\', 'u'] filler,
      .repeated (charIn isHexDigit) 4 (some 4) .concat ] .concat).map fun payload =>
    .piece (.unit (.ofNat (ofHexDigits payload.toChars)))

/-- A character behind a backslash. -/
def letterEscape : Parser Payload :=
  let letter : Parser Payload :=
    .satisfy ("\"\\/bfnrt".toList.contains ·) fun c => .piece (.char (unescape c))
  .sequence [charIn (· == '\\'), letter] fun payloads => payloads.getD 1 filler

def plainChar : Parser Payload :=
  .satisfy (fun c => c != '"' && c != '\\') fun c => .piece (.char c)

def string : Parser Payload :=
  let quote := charIn (· == '"')
  let content := many (.firstOf [unicodeEscape, letterEscape, plainChar]) fun payloads =>
    .text (decode (payloads.filterMap Payload.piece?))
  .sequence [quote, content, quote] fun payloads => payloads.getD 1 filler

/-! ## Values -/

def value : Parser Payload := .call 0

def symbol (text : String) : Parser Payload := token filler text filler

/-- Items with commas between them, in brackets. -/
def list (tailId itemsId : Nat) (opening closing : String) (item : Parser Payload) :
    Parser Payload :=
  .sequence
    [ symbol opening,
      joined tailId itemsId .items Payload.toItems item (symbol ","),
      symbol closing ]
    fun payloads => payloads.getD 1 filler

def array : Parser Payload :=
  (list 0 1 "[" "]" value).map fun payload =>
    .value (.array (payload.toItems.map Payload.toValue))

/-- A key with its value. -/
def member : Parser Payload :=
  .sequence [padded filler string, symbol ":", value] fun payloads =>
    .member (payloads.getD 0 filler).toChars (payloads.getD 2 filler).toValue

def object : Parser Payload :=
  (list 2 3 "\x7b" "\x7d" member).map fun payload =>
    .value (.object (Members.ofList (payload.toItems.filterMap Payload.member?)))

def keyword (text : String) (value : Value) : Parser Payload :=
  .literal text.toList (.value value)

def body : Parser Payload :=
  padded filler
    (.firstOf
      [ keyword "null" .null,
        .firstOf [keyword "true" (.bool true), keyword "false" (.bool false)],
        number,
        string.map fun payload => .value (.string payload.toChars),
        array,
        object ])

/-- The grammar of JSON. -/
def grammar : Grammar Payload where
  rules := .ofBodies [body]
  entry := value

end Packrat.Json
