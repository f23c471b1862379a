import Packrat.Cursor
import Packrat.Text.Classes

/-!
# Parsers as data

A parser is a tree of combinators over one payload type `α`.  The tree holds no state: whatever
a combinator has to remember while it runs (the offsets it is busy at, the alternatives it is
trying, the results it has stored) is kept by the engine under the number that the combinator
carries.  Two nodes with one number are one instance; a grammar gives every instance its own.

Rules are called by number too, so a grammar may be cyclic although its trees are finite.
-/

namespace Packrat

/-- A parser whose payloads have type `α`. -/
inductive Parser (α : Type) where
  /-- One character that passes a test. -/
  | satisfy (accepts : Char → Bool) (payload : Char → α)
  /-- The given characters, one after another. -/
  | literal (chars : List Char) (payload : α)
  /-- The end of the text. -/
  | endOfInput (payload : α)
  /-- The parser, unless one of `excluded` matches at the same place. -/
  | except (parser : Parser α) (excluded : List (Parser α))
  /-- The first alternative that matches. -/
  | firstOf (alternatives : List (Parser α))
  /-- The alternative with the longest match; the earlier one of two that are equally long. -/
  | longestOf (alternatives : List (Parser α))
  /-- All parts in order. -/
  | sequence (parts : List (Parser α)) (combine : List α → α)
  /-- A left operand, all middle parts and a right operand, folded to the left. -/
  | foldLeft (left : Parser α) (middle : List (Parser α)) (right : Parser α)
      (combine : List α → α)
  /-- The parser as often as it matches, within bounds. -/
  | repeated (parser : Parser α) (atLeast : Nat) (atMost : Option Nat) (collect : List α → α)
  /-- The parser, or nothing. -/
  | optional (parser : Parser α) (wrap : Option α → α)
  /-- The parser, with its payload changed; payloads that `f` refuses are no match. -/
  | convert (parser : Parser α) (f : α → Option α)
  /-- The parser, unless this instance is already busy at the same offset. -/
  | guarded (id : Nat) (parser : Parser α)
  /-- Alternatives from loosest to tightest, of which a nested call may only take tighter ones. -/
  | climb (id : Nat) (alternatives : List (Parser α))
  /-- The parser, inside which precedence starts over. -/
  | nested (parser : Parser α)
  /-- The parser, with its results stored in a cache. -/
  | memo (id cache : Nat) (parser : Parser α)
  /-- The parser, after whose outermost return a cache is emptied. -/
  | clearing (id cache : Nat) (parser : Parser α)
  /-- The parser, with its calls recorded under a name. -/
  | logged (name : String) (parser : Parser α)
  /-- The rule of the given number. -/
  | call (rule : Nat)
  /-- The parser, started at a cursor that is changed first. -/
  | redirected (move : Cursor α → Except Fault (Cursor α)) (parser : Parser α)

namespace Parser

variable {α : Type}

/-- The parser that matches nothing at all. -/
def never : Parser α := .firstOf []

instance : Inhabited (Parser α) := ⟨never⟩

/-! ## Size -/

mutual

/-- The number of nodes in the tree. -/
def size : Parser α → Nat
  | .satisfy _ _ | .literal _ _ | .endOfInput _ | .call _ => 1
  | .except parser excluded => parser.size + sizeAll excluded + 1
  | .firstOf alternatives | .longestOf alternatives | .climb _ alternatives =>
      sizeAll alternatives + 1
  | .sequence parts _ => sizeAll parts + 1
  | .foldLeft left middle right _ => left.size + sizeAll middle + right.size + 1
  | .repeated parser _ _ _ | .optional parser _ | .convert parser _ | .guarded _ parser
  | .nested parser | .memo _ _ parser | .clearing _ _ parser | .logged _ parser
  | .redirected _ parser => parser.size + 1

/-- The number of nodes in all the trees of a list. -/
def sizeAll : List (Parser α) → Nat
  | [] => 0
  | parser :: parsers => parser.size + sizeAll parsers

end

/-! ## Derived combinators -/

/-- Changes the payload of every match. -/
def map (parser : Parser α) (f : α → α) : Parser α :=
  .convert parser fun payload => some (f payload)

/-- Parts in order.  The first part may be a call that leads back here, so it is guarded. -/
def inOrder (id : Nat) (first : Parser α) (rest : List (Parser α)) (combine : List α → α) :
    Parser α :=
  .sequence (.guarded id first :: rest) combine

/-- A left-associative rule, whose left operand is guarded. -/
def foldedLeft (id : Nat) (left : Parser α) (middle : List (Parser α)) (right : Parser α)
    (combine : List α → α) : Parser α :=
  .foldLeft (.guarded id left) middle right combine

/-- The longest match of several alternatives, which usually lead into each other. -/
def longest (id : Nat) (alternatives : List (Parser α)) : Parser α :=
  .guarded id (.longestOf alternatives)

/-- The parser as often as it matches. -/
def many (parser : Parser α) (collect : List α → α) : Parser α := .repeated parser 0 none collect

/-- The parser at least once, and as often as it matches. -/
def many1 (parser : Parser α) (collect : List α → α) : Parser α := .repeated parser 1 none collect

/-- The parser, with white space allowed on both sides.  What is skipped yields `filler`. -/
def padded (filler : α) (parser : Parser α) : Parser α :=
  let blanks : Parser α := many (.satisfy Text.isBlank fun _ => filler) fun _ => filler
  .sequence [blanks, parser, blanks] fun payloads => payloads.getD 1 filler

/-- A fixed text, with white space allowed on both sides. -/
def token (filler : α) (text : String) (payload : α) : Parser α :=
  padded filler (.literal text.toList payload)

/--
Any number of items with separators between them.  It always matches; a separator at the end is
left over.
-/
def joined (tailId itemsId : Nat) (pack : List α → α) (unpack : α → List α)
    (item separator : Parser α) : Parser α :=
  let tail := many (inOrder tailId separator [item] fun payloads => payloads.getD 1 (pack [])) pack
  let items := inOrder itemsId item [tail] fun
    | [first, rest] => pack (first :: unpack rest)
    | _ => pack []
  .optional items fun payload => payload.getD (pack [])

/-- The parser, started with another left context. -/
def withLeft (left : Left α) (parser : Parser α) : Parser α :=
  .redirected (fun cursor => .ok (cursor.withLeft left)) parser

/-- Moves on by a number of bytes, whatever they are. -/
def skipBytes (bytes : Nat) (payload : α) : Parser α :=
  .redirected (fun cursor => cursor.advance bytes) (.literal [] payload)

end Parser

end Packrat
