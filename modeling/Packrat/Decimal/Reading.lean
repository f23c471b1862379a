/-!
# Reading decimals

Decimal notation denotes `± digits · 10 ^ exponent`, which is rounded to the nearest
double-precision number.  Numbers past the largest one are infinite.
-/

namespace Packrat.Decimal

/-- The number that decimal digits denote; other characters count as zero. -/
def ofDigits (digits : List Char) : Nat :=
  digits.foldl (fun n c => 10 * n + (if c.isDigit then c.toNat - '0'.toNat else 0)) 0

/-- Infinity, which too large numbers round to. -/
def infinity : Float := 1.0 / 0.0

/--
The floating-point number nearest to `m · 10 ^ e`.  Numbers of more than four hundred digits, or
with as many zeros behind the point, are settled by their size alone.
-/
def nearest (m : Nat) (e : Int) : Float :=
  if m = 0 then 0.0
  else
    let leading := (Nat.toDigits 10 m).length + e
    if 400 < leading then infinity
    else if leading < -400 then 0.0
    else Float.ofScientific m (e < 0) e.natAbs

/-- The digits of a number in decimal notation, and its sign. -/
structure Numeral where
  negative : Bool
  whole : List Char
  fraction : List Char
  exponentNegative : Bool
  exponent : List Char
  deriving DecidableEq, Repr

namespace Numeral

/-- The exponent as a number. -/
def scale (numeral : Numeral) : Int :=
  if numeral.exponentNegative then -(ofDigits numeral.exponent : Int)
  else ofDigits numeral.exponent

/-- The floating-point number that the numeral denotes. -/
def toFloat (numeral : Numeral) : Float :=
  let size := nearest (ofDigits (numeral.whole ++ numeral.fraction))
    (numeral.scale - numeral.fraction.length)
  if numeral.negative then -size else size

/-- The sign at the front of a text, and what follows it. -/
def takeSign : List Char → Bool × List Char
  | '-' :: rest => (true, rest)
  | '+' :: rest => (false, rest)
  | rest => (false, rest)

/-- Reads a sign, digits, and an optional fraction and exponent. -/
def ofChars (chars : List Char) : Numeral :=
  let (negative, rest) := takeSign chars
  let whole := rest.takeWhile Char.isDigit
  let rest := rest.dropWhile Char.isDigit
  let (fraction, rest) :=
    match rest with
    | '.' :: rest => (rest.takeWhile Char.isDigit, rest.dropWhile Char.isDigit)
    | rest => ([], rest)
  let (exponentNegative, exponent) :=
    match rest with
    | _ :: rest => takeSign rest
    | [] => (false, [])
  ⟨negative, whole, fraction, exponentNegative, exponent⟩

end Numeral

end Packrat.Decimal
