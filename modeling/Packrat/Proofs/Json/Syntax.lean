import Packrat.Json.Grammar

/-!
# The language of JSON

Which texts are JSON, and what they denote, production by production.  `Spells` is the language of
values without white space around them; a document is `Spaced Spells`.
-/

namespace Packrat.Json

/-- White space and nothing else. -/
def Blank (text : List Char) : Prop := ∀ c ∈ text, Text.isBlank c = true

/-- A text that denotes something, with any white space around it. -/
inductive Spaced {β : Type} (spells : List Char → β → Prop) : List Char → β → Prop where
  | mk {before text after : List Char} {x : β} (hbefore : Blank before) (h : spells text x)
      (hafter : Blank after) : Spaced spells (before ++ text ++ after) x

/-- One or more items with commas between them. -/
inductive Listed {β : Type} (item : List Char → β → Prop) : List Char → List β → Prop where
  | one {text : List Char} {x : β} (h : item text x) : Listed item text [x]
  | more {text texts : List Char} {x : β} {xs : List β} (h : item text x)
      (hs : Listed item texts xs) : Listed item (text ++ ',' :: texts) (x :: xs)

/-! ## Numbers -/

/-- Decimal digits and nothing else. -/
def AllDigits (text : List Char) : Prop := ∀ c ∈ text, c.isDigit = true

/-- `0`, or digits of which the first is not `0`. -/
inductive Whole : List Char → Prop where
  | zero : Whole ['0']
  | positive {c : Char} {digits : List Char} (hc : c.isDigit = true) (hne : c ≠ '0')
      (hdigits : AllDigits digits) : Whole (c :: digits)

/-- Perhaps a point with digits behind it; the second text is the digits. -/
inductive Fraction : List Char → List Char → Prop where
  | absent : Fraction [] []
  | present {digits : List Char} (hne : digits ≠ []) (hdigits : AllDigits digits) :
      Fraction ('.' :: digits) digits

/-- A sign, or none; only a minus is negative. -/
inductive Sign : List Char → Bool → Prop where
  | absent : Sign [] false
  | plus : Sign ['+'] false
  | minus : Sign ['-'] true

/-- Perhaps a letter with a sign and digits behind it. -/
inductive Exponent : List Char → Bool → List Char → Prop where
  | absent : Exponent [] false []
  | present {letter : Char} {sign digits : List Char} {negative : Bool}
      (hletter : letter = 'e' ∨ letter = 'E') (hsign : Sign sign negative) (hne : digits ≠ [])
      (hdigits : AllDigits digits) : Exponent (letter :: (sign ++ digits)) negative digits

/-- The text of a number, and the numeral that it is. -/
inductive Literal : List Char → Decimal.Numeral → Prop where
  | mk {sign whole fraction exponent fractionDigits exponentDigits : List Char}
      {negative exponentNegative : Bool} (hsign : Sign sign negative) (hplus : sign ≠ ['+'])
      (hwhole : Whole whole) (hfraction : Fraction fraction fractionDigits)
      (hexponent : Exponent exponent exponentNegative exponentDigits) :
      Literal (sign ++ (whole ++ (fraction ++ exponent)))
        ⟨negative, whole, fractionDigits, exponentNegative, exponentDigits⟩

/-! ## Strings -/

/-- The letters that may stand behind a backslash, with the characters that they denote. -/
def escapes : List (Char × Char) :=
  [('"', '"'), ('\\', '\\'), ('/', '/'), ('b', '\x08'), ('f', '\x0c'), ('n', '\n'), ('r', '\r'),
    ('t', '\t')]

/-- A hexadecimal digit and its value. -/
def Hex (c : Char) (n : Nat) : Prop :=
  "0123456789abcdef".toList[n]? = some c ∨ "0123456789ABCDEF".toList[n]? = some c

/-- A piece of a string's content. -/
inductive PieceText : List Char → Piece → Prop where
  | plain {c : Char} (hquote : c ≠ '"') (hbackslash : c ≠ '\\') : PieceText [c] (.char c)
  | letter {letter c : Char} (h : (letter, c) ∈ escapes) : PieceText ['\\', letter] (.char c)
  | unit {c₁ c₂ c₃ c₄ : Char} {n₁ n₂ n₃ n₄ : Nat} (h₁ : Hex c₁ n₁) (h₂ : Hex c₂ n₂)
      (h₃ : Hex c₃ n₃) (h₄ : Hex c₄ n₄) :
      PieceText ['\\', 'u', c₁, c₂, c₃, c₄]
        (.unit (.ofNat (n₁ * 4096 + n₂ * 256 + n₃ * 16 + n₄)))

/-- Pieces one behind another. -/
inductive Content : List Char → List Piece → Prop where
  | nil : Content [] []
  | cons {text texts : List Char} {piece : Piece} {pieces : List Piece} (h : PieceText text piece)
      (hs : Content texts pieces) : Content (text ++ texts) (piece :: pieces)

/-- A string in quotes.  Escaped units that stand side by side are decoded together. -/
inductive Quoted : List Char → List Char → Prop where
  | mk {text : List Char} {pieces : List Piece} (h : Content text pieces) :
      Quoted ('"' :: (text ++ ['"'])) (decode pieces)

/-! ## Values -/

/-- A key, a colon and a value. -/
inductive Pair (value : List Char → Value → Prop) : List Char → List Char × Value → Prop where
  | mk {keyText valueText key : List Char} {v : Value} (hkey : Spaced Quoted keyText key)
      (hvalue : value valueText v) : Pair value (keyText ++ ':' :: valueText) (key, v)

/--
The object that members in the order of the text make: every key where it occurs first, with the
value of its last occurrence.
-/
structure Collects (members : List (List Char × Value)) (object : Members) : Prop where
  keys : object.map Prod.fst = (members.map Prod.fst).eraseDups
  last : ∀ key value, (key, value) ∈ object → members.reverse.lookup key = some value

/-- The texts of JSON values, without white space around them. -/
inductive Spells : List Char → Value → Prop where
  | null : Spells "null".toList .null
  | true : Spells "true".toList (.bool true)
  | false : Spells "false".toList (.bool false)
  | number {text : List Char} {numeral : Decimal.Numeral} (h : Literal text numeral) :
      Spells text (.number numeral.toFloat)
  | string {text chars : List Char} (h : Quoted text chars) : Spells text (.string chars)
  | emptyArray {blanks : List Char} (h : Blank blanks) :
      Spells ('[' :: (blanks ++ [']'])) (.array [])
  | array {text : List Char} {items : List Value} (h : Listed (Spaced Spells) text items) :
      Spells ('[' :: (text ++ [']'])) (.array items)
  | emptyObject {blanks : List Char} (h : Blank blanks) :
      Spells ('\x7b' :: (blanks ++ ['\x7d'])) (.object [])
  | object {text : List Char} {members : List (List Char × Value)} {object : Members}
      (h : Listed (Pair (Spaced Spells)) text members) (hobject : Collects members object) :
      Spells ('\x7b' :: (text ++ ['\x7d'])) (.object object)

end Packrat.Json
