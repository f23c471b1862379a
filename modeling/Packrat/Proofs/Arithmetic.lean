import Packrat.Arithmetic.Grammar
import Packrat.Proofs.Ladder.Descent
import Packrat.Proofs.Ladder.Primaries
import Packrat.Proofs.Reader.Transfer

/-!
# Arithmetic by recursive descent

`evaluation` is the textbook parser of arithmetic, which evaluates as it goes: sums of products of
signed powers of groups and numbers.  The grammar of arithmetic answers every text as it does.
-/

namespace Packrat.Arithmetic

open Packrat.Parser
open Text (byteLength)

/-! ## Recursive descent -/

/-- Digits, at least one. -/
def digitRun : Reader (List Char) := fun rest =>
  if rest.takeWhile Char.isDigit = [] then none
  else some (rest.takeWhile Char.isDigit, rest.dropWhile Char.isDigit)

/-- A point with digits behind it. -/
def pointRun : Reader (List Char)
  | '.' :: rest => (digitRun rest).map (Prod.map ('.' :: ·) id)
  | _ => none

/-- The number that the characters of a literal denote. -/
def value (chars : List Char) : Float := (Decimal.Numeral.ofChars chars).toFloat

/-- Digits with an optional fraction, as a number. -/
def literal : Reader Float := fun rest =>
  (digitRun rest).map fun (digits, rest) =>
    match pointRun rest with
    | some (fraction, rest) => (value (digits ++ fraction), rest)
    | none => (value digits, rest)

def plus : Reader.Binary Float := ⟨"+", fun x y => x + y, by decide⟩

def minus : Reader.Binary Float := ⟨"-", fun x y => x - y, by decide⟩

def times : Reader.Binary Float := ⟨"*", fun x y => x * y, by decide⟩

def divided : Reader.Binary Float := ⟨"/", fun x y => x / y, by decide⟩

def raised : Reader.Binary Float := ⟨"^", Float.pow, by decide⟩

/-- The minus in front of an operand. -/
def negative : Reader.Unary Float := ⟨"-", fun x => -x, by decide⟩

/-- A sum, given what the sums in its groups are. -/
def sumOf (sum : Reader Float) : Reader Float :=
  .leftAssociative [plus, minus] <|
    .leftAssociative [times, divided] <|
      .prefixed [negative] <|
        .rightAssociative raised [negative] <|
          .first [.between "(" ")" sum, .padded literal]

/-- The value of a formula. -/
def evaluation : Reader Float := .recursive sumOf

/-! ## The grammar as a ladder -/

/-- An operator between two operands, with the numbers of its guard and its rule. -/
def operator (guard memo : Nat) (name text : String) (f : Float → Float → Float)
    (nonempty : text ≠ "") : Infix Payload where
  text := text
  payload := .text text.toList
  combine := combine f
  nonempty := nonempty
  guard := guard
  memo := memo
  name := name

def sign : Sign Payload where
  text := "-"
  payload := .text ['-']
  combine payloads := .number (-(payloads.getD 1 filler).toFloat)
  nonempty := by decide

def ladder (traced : Bool) : Ladder Payload where
  node := 0
  cached := true
  traced := traced
  filler := filler
  levels :=
    [ .left false
        [ operator 0 0 "plus" "+" (fun x y => x + y) (by decide),
          operator 1 1 "minus" "-" (fun x y => x - y) (by decide) ],
      .left false
        [ operator 2 2 "times" "*" (fun x y => x * y) (by decide),
          operator 3 3 "divide" "/" (fun x y => x / y) (by decide) ],
      .prefixed false [{ sign with memo := 4, name := "negate" }],
      .right (operator 4 5 "power" "^" Float.pow (by decide)) [sign] ]
  primaries :=
    [ .group filler 6 "group" "(" ")" (.text ['(']) (.text [')']),
      .atom 7 "number" (padded filler number) ]
  around := []
  guards_nodup := by decide
  memos_nodup := by decide

theorem ladder_grammar (traced : Bool) : (ladder traced).grammar = grammar traced := by
  cases traced <;> rfl

/-! ## Literals -/

theorem concat_map_text (chars : List Char) :
    Payload.concat (chars.map fun c => .text [c]) = .text chars := by
  induction chars with
  | nil => rfl
  | cons c chars ih =>
      simp only [Payload.concat, Payload.text.injEq] at ih
      simp [Payload.concat, Payload.toChars, ih]

theorem read_digits : digits.read = Reader.map .text digitRun := by
  funext rest
  rw [digits, read_many1_satisfy, Reader.map, digitRun, concat_map_text]
  split <;> rfl

theorem read_point :
    (Parser.sequence [.literal ['.'] (.text ['.']), digits] Payload.concat).read =
      Reader.map .text pointRun := by
  funext rest
  simp only [read_sequence, List.map_cons, List.map_nil, Reader.map, Reader.all, read_digits,
    read_literal_singleton]
  cases rest with
  | nil => rfl
  | cons c rest =>
      by_cases hpoint : c = '.'
      · subst hpoint
        simp only [if_true, Option.bind_some, pointRun]
        cases digitRun rest with
        | none => rfl
        | some found => simp [Payload.concat, Payload.toChars, Prod.map]
      · simp [hpoint, pointRun]

/-- Numbers are read into the values of literals. -/
theorem read_number : number.read = Reader.map .number literal := by
  rw [number, read_map, read_sequence]
  simp only [List.map_cons, List.map_nil, read_digits, read_optional, read_point]
  funext rest
  simp only [Reader.map, Reader.all, Reader.optional, literal]
  cases digitRun rest with
  | none => rfl
  | some found =>
      obtain ⟨digits, behind⟩ := found
      simp only [Option.map_some, Option.bind_some, Prod.map_apply, id_eq]
      cases pointRun behind <;> simp [value, Payload.concat, Payload.toChars, filler]

/-! ## The grammar answers as recursive descent does -/

theorem proper (traced : Bool) : ∀ primary ∈ (ladder traced).primaries, primary.Proper := by
  refine List.forall_mem_cons.mpr ⟨Primary.group_proper (by decide), ?_⟩
  refine List.forall_mem_cons.mpr ⟨Primary.atom_proper _ _ _, ?_⟩
  exact fun _ hmem => nomatch hmem

theorem runs (traced : Bool) :
    ∀ primary ∈ (ladder traced).primaries, primary.Runs (ladder traced) := by
  refine List.forall_mem_cons.mpr
    ⟨Primary.group_runs (by decide) (Ladder.expression_shrinks (proper traced)), ?_⟩
  refine List.forall_mem_cons.mpr ⟨Primary.atom_runs (.of_bare rfl rfl rfl), ?_⟩
  exact fun _ hmem => nomatch hmem

/-- No operator of a level is a beginning of another one. -/
theorem apart (traced : Bool) : ∀ level ∈ (ladder traced).levels, level.Apart := by
  simp [ladder, Level.Apart, Reader.Apart, operator, Infix.binary]

/-- An operator does to payloads what it does to numbers. -/
theorem operator_over {guard memo : Nat} {name text : String} {f : Float → Float → Float}
    {nonempty : text ≠ ""} : Reader.Binary.Over Payload.number ⟨text, f, nonempty⟩
      (operator guard memo name text f nonempty).binary :=
  ⟨rfl, fun _ _ => rfl⟩

theorem sign_over : Reader.Unary.Over Payload.number negative sign.unary :=
  ⟨rfl, fun _ => rfl⟩

theorem bare_eq (traced : Bool) (sum : Reader Float) :
    Ladder.bare (ladder traced).primaries (Reader.map .number sum) =
      Reader.map .number (.first [.between "(" ")" sum, .padded literal]) := by
  rw [← Reader.first_map]
  change Reader.first [Reader.between "(" ")" (Reader.map .number sum),
    (padded filler number).read] = _
  rw [Reader.between_map, read_padded, read_number, Reader.padded_map]
  rfl

/-- On payloads, a sum is read as it is on numbers. -/
theorem sumOf_map (traced : Bool) (sum : Reader Float) :
    Ladder.descents (ladder traced).levels
        (Ladder.bare (ladder traced).primaries (Reader.map .number sum)) =
      Reader.map Payload.number (sumOf sum) := by
  rw [bare_eq, sumOf]
  generalize Reader.first [.between "(" ")" sum, .padded literal] = bare
  simp only [ladder, Ladder.descents, List.foldr_cons, List.foldr_nil, Level.descent,
    List.map_cons, List.map_nil]
  rw [Reader.rightAssociative_map operator_over (.cons sign_over .nil),
    Reader.prefixed_map (.cons sign_over .nil),
    Reader.leftAssociative_map (.cons operator_over (.cons operator_over .nil)),
    Reader.leftAssociative_map (.cons operator_over (.cons operator_over .nil))]
  rfl

/-- On payloads, the ladder reads what recursive descent reads. -/
theorem descents_eq (traced : Bool) :
    (.recursive fun expression => Ladder.descents (ladder traced).levels
        (Ladder.bare (ladder traced).primaries expression)) =
      Reader.map Payload.number evaluation :=
  Reader.recursive_map (sumOf_map traced)

/-- A formula is a sum whose groups are formulas. -/
theorem evaluation_eq : evaluation = sumOf evaluation := by
  refine Reader.map_injective (f := Payload.number) (fun x y h => Payload.number.inj h) ?_
  rw [← sumOf_map false, ← descents_eq false]
  exact Ladder.recursive_descents _ (proper false)

/-- Arithmetic is answered as its textbook parser evaluates it. -/
theorem answers_as_evaluation (traced : Bool) :
    (grammar traced).Answers (Reader.map .number evaluation) := by
  rw [← ladder_grammar, ← descents_eq traced]
  exact (Ladder.reads_descent (proper traced) (runs traced) (apart traced)).answers

end Packrat.Arithmetic
