/-!
# Shortest decimals

A binary floating-point number `m · 2 ^ q` stands for all reals that round to it.  Of the
decimals among them, `shortest` finds the one with the fewest digits, and of several that are
equally short the nearest to the number.  All arithmetic is exact.
-/

namespace Packrat.Decimal

/-- How to choose between two decimals that are equally near. -/
inductive Tie where
  | up
  | toEven
  deriving DecidableEq, Repr

/-- The decimal `digits · 10 ^ exponent`. -/
structure Scaled where
  digits : Nat
  exponent : Int
  deriving DecidableEq, Repr

/-- The reals that round to a number, as multiples of a fourth of its unit. -/
structure Interval where
  low : Nat
  middle : Nat
  high : Nat
  /-- Whether the ends round to the number too. -/
  closed : Bool
  /-- Multiples of `2 ^ exponent`. -/
  exponent : Int
  deriving Repr

/--
The interval of `m · 2 ^ q`.  Below the least mantissa of a binade the numbers lie twice as
densely, unless the binade is the lowest one.
-/
def Interval.around (m : Nat) (q : Int) (atBoundary : Bool) : Interval where
  low := if atBoundary then 4 * m - 1 else 4 * m - 2
  middle := 4 * m
  high := 4 * m + 2
  closed := m % 2 == 0
  exponent := q - 2

/-- An interval on a decimal grid: its ends and middle over one denominator, the grid's unit. -/
structure OnGrid where
  low : Nat
  middle : Nat
  high : Nat
  closed : Bool
  unit : Nat

/-- Scales an interval by common factors such that the grid of `10 ^ exponent` has a whole unit. -/
def Interval.onGrid (interval : Interval) (exponent : Int) : OnGrid :=
  let factor := Nat.pow 2 interval.exponent.toNat * Nat.pow 10 (-exponent).toNat
  { low := interval.low * factor
    middle := interval.middle * factor
    high := interval.high * factor
    closed := interval.closed
    unit := Nat.pow 2 (-interval.exponent).toNat * Nat.pow 10 exponent.toNat }

/-- Whether the `n`-th point of the grid lies in the interval. -/
def OnGrid.holds (grid : OnGrid) (n : Nat) : Bool :=
  let point := n * grid.unit
  if grid.closed then grid.low ≤ point && point ≤ grid.high
  else grid.low < point && point < grid.high

/-- The grid point in the interval that is nearest to the middle, if there is one. -/
def OnGrid.nearest? (grid : OnGrid) (tie : Tie) : Option Nat :=
  let below := grid.middle / grid.unit
  let above := below + 1
  match grid.holds below, grid.holds above with
  | false, false => none
  | true, false => some below
  | false, true => some above
  | true, true =>
      let down := grid.middle - below * grid.unit
      let up := above * grid.unit - grid.middle
      if down < up then some below
      else if up < down then some above
      else
        match tie with
        | .up => some above
        | .toEven => some (if below % 2 == 0 then below else above)

/-- The first grid with a point in the interval, from the grid of `10 ^ exponent` on down. -/
def search (interval : Interval) (tie : Tie) : Nat → Int → Scaled
  | 0, exponent => ⟨0, exponent⟩
  | fuel + 1, exponent =>
      match (interval.onGrid exponent).nearest? tie with
      | some digits => ⟨digits, exponent⟩
      | none => search interval tie fuel (exponent - 1)

/-- The number of the highest bit times the decimal logarithm of two, rounded down. -/
def leadingExponent (m : Nat) (q : Int) : Int := ((m.log2 + q) * 30103).fdiv 100000

/--
The shortest decimal that rounds to `m · 2 ^ q`.  The search begins on a grid that is coarser
than the number, and within seventeen digits below its first one a point is found.
-/
def shortest (tie : Tie) (m : Nat) (q : Int) (atBoundary : Bool) : Scaled :=
  search (.around m q atBoundary) tie 24 (leadingExponent m q + 2)

/-! ## Double precision -/

/-- The parts of a double-precision number. -/
inductive Binary where
  | notANumber
  | infinite (negative : Bool)
  /-- The number `± m · 2 ^ q`; `atBoundary` if `m` is the least mantissa of its binade. -/
  | finite (negative : Bool) (m : Nat) (q : Int) (atBoundary : Bool)
  deriving DecidableEq, Repr

/-- Takes a double-precision number apart, given its bits. -/
def Binary.ofBits (bits : Nat) : Binary :=
  let fractions := Nat.pow 2 52
  let exponents := Nat.pow 2 11
  let negative := bits / (fractions * exponents) == 1
  let biased : Nat := bits / fractions % exponents
  let fraction : Nat := bits % fractions
  if biased = exponents - 1 then
    if fraction = 0 then .infinite negative else .notANumber
  else if biased = 0 then
    .finite negative fraction (-1074) false
  else
    .finite negative (fractions + fraction) (biased - 1075) (fraction == 0 && 1 < biased)

end Packrat.Decimal
