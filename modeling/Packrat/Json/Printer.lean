import Packrat.Decimal.Layout
import Packrat.Json.Basic
import Packrat.Text.Quoted

/-!
# Writing JSON

Values are written on one line, or over several lines with two spaces for each level.
`describe` names every node, as reports do.
-/

namespace Packrat.Json

/-- Numbers have a fraction, or an exponent with a sign; a half goes to the even neighbour. -/
def numberLayout : Decimal.Layout where
  positional leading := -5 ≤ leading && leading ≤ 15
  keepsFraction := true
  plusSign := true
  tie := .toEven

/-- The text of a number; what is not finite has none. -/
def writeNumber (x : Float) : List Char :=
  match Decimal.Binary.ofBits x.toBits.toNat with
  | .finite negative m q atBoundary =>
      (numberLayout.writeBinary (.finite negative m q atBoundary)).toList
  | _ => "null".toList

/-- The spelling of a character inside a string. -/
def escape (c : Char) : List Char :=
  if c = '"' then ['\\', '"']
  else if c = '\\' then ['\\', '\\']
  else if c = '\x08' then ['\\', 'b']
  else if c = '\x0c' then ['\\', 'f']
  else if c = '\n' then ['\\', 'n']
  else if c = '\r' then ['\\', 'r']
  else if c = '\t' then ['\\', 't']
  else if c.toNat < 0x20 then
    ['\\', 'u', '0', '0', Nat.digitChar (c.toNat / 16), Nat.digitChar (c.toNat % 16)]
  else [c]

/-- The text of a string. -/
def writeString (chars : List Char) : List Char := '"' :: chars.flatMap escape ++ ['"']

/-- Texts with a separator between them. -/
def separated (separator : List Char) : List (List Char) → List Char
  | [] => []
  | [text] => text
  | text :: texts => text ++ separator ++ separated separator texts

/-- Where the items of an array or object stand. -/
inductive Style where
  | compact
  /-- Each on a line of its own. -/
  | pretty
  deriving DecidableEq, Repr

namespace Style

/-- What begins the line of an item at a depth. -/
def newline (style : Style) (depth : Nat) : List Char :=
  match style with
  | .compact => []
  | .pretty => '\n' :: List.replicate (2 * depth) ' '

/-- What stands between a key and its value. -/
def colon : Style → List Char
  | .compact => [':']
  | .pretty => [':', ' ']

/-- Items between brackets at a depth; there is nothing between the brackets of no items. -/
def bracket (style : Style) (depth : Nat) (opening closing : Char) (items : List (List Char)) :
    List Char :=
  if items.isEmpty then [opening, closing]
  else
    opening :: style.newline (depth + 1) ++ separated (',' :: style.newline (depth + 1)) items ++
      style.newline depth ++ [closing]

end Style

mutual

/-- The text of a value at a depth. -/
def writeAt (style : Style) (depth : Nat) : Value → List Char
  | .null => "null".toList
  | .bool b => (if b then "true" else "false").toList
  | .number x => writeNumber x
  | .string chars => writeString chars
  | .array items => style.bracket depth '[' ']' (writeItems style (depth + 1) items)
  | .object members => style.bracket depth '\x7b' '\x7d' (writeMembers style (depth + 1) members)

def writeItems (style : Style) (depth : Nat) : List Value → List (List Char)
  | [] => []
  | value :: values => writeAt style depth value :: writeItems style depth values

def writeMembers (style : Style) (depth : Nat) : List (List Char × Value) → List (List Char)
  | [] => []
  | (key, value) :: members =>
      (writeString key ++ style.colon ++ writeAt style depth value) ::
        writeMembers style depth members

end

/-- The text of a value. -/
def Value.write (style : Style) (value : Value) : String :=
  String.ofList (writeAt style 0 value)

mutual

/-- The text that shows a value in a report. -/
def Value.describe : Value → String
  | .null => "Null"
  | .bool b => "Bool(" ++ (if b then "true" else "false") ++ ")"
  | .number x => "Number(" ++ Decimal.reported.write x ++ ")"
  | .string chars => "String(" ++ Text.quoted (String.ofList chars) ++ ")"
  | .array items => "Array([" ++ String.intercalate ", " (describeItems items) ++ "])"
  | .object members =>
      "Object(\x7b" ++ String.intercalate ", " (describeMembers members) ++ "\x7d)"

def describeItems : List Value → List String
  | [] => []
  | value :: values => value.describe :: describeItems values

def describeMembers : List (List Char × Value) → List String
  | [] => []
  | (key, value) :: members =>
      (Text.quoted (String.ofList key) ++ ": " ++ value.describe) :: describeMembers members

end

end Packrat.Json
