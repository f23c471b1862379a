import Packrat.Decimal.Shortest

/-!
# Writing decimals

How a decimal is laid out is a matter of the output format.  A `Layout` states the format's
decisions; `Layout.write` carries them out.
-/

namespace Packrat.Decimal

/-- The decisions of an output format. -/
structure Layout where
  /-- Whether a decimal whose first digit stands at this power of ten is written positionally. -/
  positional : Int → Bool
  /-- Whether a whole number gets the fraction `.0`. -/
  keepsFraction : Bool
  /-- Whether exponents that are not negative get a plus sign. -/
  plusSign : Bool
  tie : Tie

namespace Layout

def zeros (n : Nat) : List Char := List.replicate n '0'

/-- Digits in positional notation, the last of them at the given power of ten. -/
def writePositional (layout : Layout) (digits : List Char) (exponent : Int) : List Char :=
  let fraction := (-exponent).toNat
  if fraction = 0 then
    digits ++ zeros exponent.toNat ++ (if layout.keepsFraction then ['.', '0'] else [])
  else
    let padded := zeros (fraction + 1 - digits.length) ++ digits
    padded.take (padded.length - fraction) ++ '.' :: padded.drop (padded.length - fraction)

/-- Digits in scientific notation, the first of them at the given power of ten. -/
def writeScientific (layout : Layout) (digits : List Char) (leading : Int) : List Char :=
  let mantissa :=
    match digits with
    | [] => []
    | [digit] => [digit]
    | digit :: more => digit :: '.' :: more
  let sign := if leading < 0 then ['-'] else if layout.plusSign then ['+'] else []
  mantissa ++ 'e' :: sign ++ Nat.toDigits 10 leading.natAbs

/-- A decimal without its sign. -/
def writeScaled (layout : Layout) (decimal : Scaled) : List Char :=
  let digits := Nat.toDigits 10 decimal.digits
  let leading := decimal.exponent + digits.length - 1
  if layout.positional leading then layout.writePositional digits decimal.exponent
  else layout.writeScientific digits leading

/-- The text of a double-precision number; zero is positional in every layout. -/
def writeBinary (layout : Layout) : Binary → String
  | .notANumber => "NaN"
  | .infinite negative => if negative then "-inf" else "inf"
  | .finite negative m q atBoundary =>
      let digits :=
        if m = 0 then layout.writePositional ['0'] 0
        else layout.writeScaled (shortest layout.tie m q atBoundary)
      String.ofList (if negative then '-' :: digits else digits)

/-- The text of a floating-point number. -/
def write (layout : Layout) (x : Float) : String :=
  layout.writeBinary (.ofBits x.toBits.toNat)

end Layout

/-- Every digit in its place, without an exponent. -/
def plain : Layout where
  positional _ := true
  keepsFraction := false
  plusSign := false
  tie := .up

/-- As reports show numbers: a fraction always, and an exponent for the very large and small. -/
def reported : Layout where
  positional leading := -4 ≤ leading && leading ≤ 15
  keepsFraction := true
  plusSign := false
  tie := .up

end Packrat.Decimal
