import Packrat.Engine

/-!
# Running parsers

`run` gives parsers their meaning.  Each combinator is a definition of its own that is handed
the function to run its parts with; `run` ties the knot, and bounds the depth of nested calls.
`parse` and `parseText` choose that bound from the sizes of the grammar and of the text.

A result of `none` is an ordinary failure to match, and leads to the next alternative.
-/

namespace Packrat

variable {α : Type}

/-- Tries to match at a cursor. -/
abbrev Matcher (α : Type) := Cursor α → EngineM α (Option (Output α))

/-- Runs a parser. -/
abbrev Call (α : Type) := Parser α → Matcher α

namespace Engine

/-! ## Characters -/

/-- Takes one character that passes the test. -/
def takeChar (accepts : Char → Bool) (payload : Char → α) (cursor : Cursor α) :
    Option (Output α) :=
  match h : cursor.rest with
  | [] => none
  | c :: cs =>
      if accepts c then some ⟨payload c, cursor.consume [c] cs h⟩ else none

/-- What follows the characters `chars` in `rest`, if `rest` begins with them. -/
def after? : (chars rest : List Char) → Option { tail : List Char // rest = chars ++ tail }
  | [], rest => some ⟨rest, rfl⟩
  | _ :: _, [] => none
  | c :: cs, d :: ds =>
      if h : c = d then
        (after? cs ds).map fun tail => ⟨tail.1, by rw [h, List.cons_append, ← tail.2]⟩
      else none

/-- Takes exactly the given characters. -/
def takeLiteral (chars : List Char) (payload : α) (cursor : Cursor α) : Option (Output α) :=
  (after? chars cursor.rest).map fun tail => ⟨payload, cursor.consume chars tail.1 tail.2⟩

/-! ## Alternatives -/

/-- The first match among the alternatives. -/
def firstMatch (call : Call α) : List (Parser α) → Matcher α
  | [], _ => pure none
  | parser :: parsers, cursor => do
      match ← call parser cursor with
      | some output => return some output
      | none => firstMatch call parsers cursor

/-- The longer of two matches; the earlier one if they are equally long. -/
def longer (best : Option (Output α)) (output : Output α) : Output α :=
  match best with
  | some earlier => if output.next.offset ≤ earlier.next.offset then earlier else output
  | none => output

/-- The longest match among `best` and the alternatives, all of which are tried. -/
def longestMatch (call : Call α) (best : Option (Output α)) : List (Parser α) → Matcher α
  | [], _ => pure best
  | parser :: parsers, cursor => do
      match ← call parser cursor with
      | some output => longestMatch call (some (longer best output)) parsers cursor
      | none => longestMatch call best parsers cursor

/-- Runs a parser unless one of the excluded parsers matches. -/
def unlessMatch (call : Call α) (parser : Parser α) (excluded : List (Parser α)) : Matcher α :=
  fun cursor => do
    match ← firstMatch call excluded cursor with
    | some _ => return none
    | none => call parser cursor

/-! ## Sequences and repetition -/

/-- All payloads of parsers that match one after another, and the cursor behind them. -/
def inSequence (call : Call α) :
    List (Parser α) → Cursor α → EngineM α (Option (List α × Cursor α))
  | [], cursor => pure (some ([], cursor))
  | parser :: parsers, cursor => do
      match ← call parser cursor with
      | none => return none
      | some output =>
          match ← inSequence call parsers output.next with
          | none => return none
          | some (payloads, next) => return some (output.payload :: payloads, next)

/-- Whether a bound leaves room for one more. -/
def allows (atMost : Option Nat) (count : Nat) : Bool :=
  match atMost with
  | some most => count < most
  | none => true

/--
Matches a parser over and over, and returns the payloads, newest first, with their number and
the cursor behind them.  A match that does not move on is the last one.
-/
def repeatMatch (call : Call α) (parser : Parser α) (atMost : Option Nat) :
    Nat → List α → Nat → Cursor α → EngineM α (List α × Nat × Cursor α)
  | 0, _, _, _ => throw .tooDeep
  | fuel + 1, payloads, count, cursor => do
      if !allows atMost count then
        return (payloads, count, cursor)
      match ← call parser cursor with
      | none => return (payloads, count, cursor)
      | some output =>
          if cursor.offset < output.next.offset then
            repeatMatch call parser atMost fuel (output.payload :: payloads) (count + 1)
              output.next
          else
            return (output.payload :: payloads, count + 1, output.next)

/-- Matches a parser as often as the bounds ask and allow. -/
def repetition (call : Call α) (fuel : Nat) (parser : Parser α) (atLeast : Nat)
    (atMost : Option Nat) (collect : List α → α) : Matcher α := fun cursor => do
  let (payloads, count, next) ← repeatMatch call parser atMost fuel [] 0 cursor
  if count < atLeast then
    return none
  return some ⟨collect payloads.reverse, next⟩

/-! ## Left recursion -/

/-- The left operand of a fold: the one that the cursor carries, or else a fresh one. -/
def leftOperand (call : Call α) (left : Parser α) : Matcher α := fun cursor =>
  match cursor.left with
  | .rightOperand => return none
  | .empty => call left cursor
  | .operand _ none => return none
  | .operand _ (some value) => return some ⟨value, cursor.withoutLeft⟩

/-- The right operand of a fold, which the fold itself may not take over. -/
def rightOperand (call : Call α) (right : Parser α) : Matcher α := fun cursor => do
  match ← call right (cursor.withLeft .rightOperand) with
  | none => return none
  | some output => return some { output with next := output.next.withoutLeft }

/--
One step of a fold to the left.  The folded payload is offered to the left operand's parser as
an operand that is already there; if that goes on and leaves nothing to its left, its match is
the result, and else the fold ends here.
-/
def foldStep (call : Call α) (left : Parser α) (middle : List (Parser α)) (right : Parser α)
    (combine : List α → α) : Matcher α := fun cursor => do
  match ← leftOperand call left cursor with
  | none => return none
  | some first =>
      match ← inSequence call middle first.next with
      | none => return none
      | some (payloads, behind) =>
          match ← rightOperand call right behind with
          | none => return none
          | some last =>
              let folded := combine (first.payload :: payloads ++ [last.payload])
              let tag ← freshTag
              match ← call left (last.next.withLeft (.operand tag (some folded))) with
              | some extended =>
                  if extended.next.left.isEmpty then
                    return some extended
                  else
                    return some ⟨folded, last.next⟩
              | none => return some ⟨folded, last.next⟩

/-- Runs a parser unless the guard is already busy at this offset. -/
def guardedMatch (call : Call α) (id : Nat) (parser : Parser α) : Matcher α := fun cursor => do
  if ← enter id cursor.offset then
    let result ← call parser cursor
    leave id cursor.offset
    return result
  else
    return none

/-! ## Precedence -/

/-- Tries one alternative of a precedence node. -/
def attempt (call : Call α) (id index : Nat) (alternative : Parser α) : Matcher α :=
  fun cursor => do
    pushAlternative id index
    let result ← call alternative cursor
    popAlternative id
    return result

/-- Tries alternatives in order, numbered from `index`. -/
def attemptAll (call : Call α) (id : Nat) : Nat → List (Parser α) → Matcher α
  | _, [], _ => pure none
  | index, alternative :: alternatives, cursor => do
      match ← attempt call id index alternative cursor with
      | some output => return some output
      | none => attemptAll call id (index + 1) alternatives cursor

/--
Whether a parser marks a group in which precedence starts over.  Nodes that only wrap a parser
answer as that parser does.
-/
def restarts (rules : Rules α) : Nat → Parser α → Except Stop Bool
  | 0, _ => throw .tooDeep
  | fuel + 1, parser =>
      match parser with
      | .nested _ => return true
      | .convert parser _ | .guarded _ parser | .memo _ _ parser | .clearing _ _ parser
      | .logged _ parser => restarts rules fuel parser
      | .call rule =>
          match rules.find rule with
          | .body parser => restarts rules fuel parser
          | .missing => return false
          | .pending => throw (.pending rule)
      | _ => return false

/--
Precedence climbing.  While an alternative is being tried, a nested call takes it and tighter
ones only.  The active alternative gets the cursor as it is; a tighter one never sees a carried
operand, and is not a right operand.  Inside a group all alternatives are tried afresh.
-/
def climbMatch (call : Call α) (restarts : Parser α → Except Stop Bool) (id : Nat)
    (alternatives : List (Parser α)) : Matcher α := fun cursor => do
  match ← innermost? id with
  | none =>
      if cursor.left.isOperand then return none
      attemptAll call id 0 alternatives cursor.withoutLeft
  | some active =>
      match alternatives.drop active with
      | [] => return none
      | alternative :: tighter =>
          if ← restarts alternative then
            if cursor.left.isOperand then
              attempt call id active alternative cursor
            else
              attemptAll call id 0 alternatives cursor.withoutLeft
          else
            match ← attempt call id active alternative cursor with
            | some output => return some output
            | none =>
                if cursor.left.isOperand then return none
                attemptAll call id (active + 1) tighter cursor.withoutLeft

/-! ## Caches and traces -/

/--
Answers from the cache, or runs the parser and stores its result.  While it runs, a further
call with the same key finds no match stored.
-/
def memoMatch (call : Call α) (id cache : Nat) (parser : Parser α) : Matcher α :=
  fun cursor => do
    let key : CacheKey := ⟨id, cursor.offset, cursor.left.key⟩
    match ← lookup? cache key with
    | some stored => return stored
    | none =>
        store cache key none
        let result ← call parser cursor
        store cache key result
        return result

/-- Runs a parser, and empties the cache when the outermost call returns. -/
def clearingMatch (call : Call α) (id cache : Nat) (parser : Parser α) : Matcher α :=
  fun cursor => do
    descend id
    let result ← call parser cursor
    if ← ascend id then
      clear cache
    return result

/-- Runs a parser, and records its call and its return. -/
def loggedMatch (call : Call α) (name : String) (parser : Parser α) : Matcher α :=
  fun cursor => do
    record (.entered name cursor.offset cursor.left.key)
    let result ← call parser cursor
    record (.returned name cursor.offset (result.map fun output => output.next.offset))
    return result

/-! ## The interpreter -/

/-- What a parser does at a cursor, given how its parts are run. -/
def step (rules : Rules α) (fuel : Nat) (call : Call α) : Call α
  | .satisfy accepts payload, cursor => return takeChar accepts payload cursor
  | .literal chars payload, cursor => return takeLiteral chars payload cursor
  | .endOfInput payload, cursor => return if cursor.atEnd then some ⟨payload, cursor⟩ else none
  | .except parser excluded, cursor => unlessMatch call parser excluded cursor
  | .firstOf alternatives, cursor => firstMatch call alternatives cursor
  | .longestOf alternatives, cursor => longestMatch call none alternatives cursor
  | .sequence parts combine, cursor => do
      match ← inSequence call parts cursor with
      | some (payloads, next) => return some ⟨combine payloads, next⟩
      | none => return none
  | .foldLeft left middle right combine, cursor => foldStep call left middle right combine cursor
  | .repeated parser atLeast atMost collect, cursor =>
      repetition call fuel parser atLeast atMost collect cursor
  | .optional parser wrap, cursor => do
      match ← call parser cursor with
      | some output => return some { output with payload := wrap (some output.payload) }
      | none => return some ⟨wrap none, cursor⟩
  | .convert parser f, cursor => do
      match ← call parser cursor with
      | some output => return (f output.payload).map fun payload => { output with payload }
      | none => return none
  | .guarded id parser, cursor => guardedMatch call id parser cursor
  | .climb id alternatives, cursor =>
      climbMatch call (restarts rules fuel) id alternatives cursor
  | .nested parser, cursor => call parser cursor
  | .memo id cache parser, cursor => memoMatch call id cache parser cursor
  | .clearing id cache parser, cursor => clearingMatch call id cache parser cursor
  | .logged name parser, cursor => loggedMatch call name parser cursor
  | .call rule, cursor =>
      match rules.find rule with
      | .body parser => call parser cursor
      | .missing => return none
      | .pending => throw (.pending rule)
  | .redirected move parser, cursor =>
      match move cursor with
      | .ok moved => call parser moved
      | .error fault => throw (.fault fault)

/-- Runs a parser with at most `fuel` calls inside each other. -/
def run (rules : Rules α) : Nat → Call α
  | 0, _, _ => throw .tooDeep
  | fuel + 1, parser, cursor => step rules fuel (run rules fuel) parser cursor

/--
A bound on the depth of calls.  At one offset every guard, and every cached parser with each of
its left contexts, can be entered once, and between two such entries a path through the grammar
meets no node twice.
-/
def depthBound (rules : Rules α) (parser : Parser α) (bytes : Nat) : Nat :=
  let nodes := rules.size + parser.size + 3
  nodes * nodes * nodes * (bytes + 1)

end Engine

/-! ## Parsing -/

/-- Runs a parser at a cursor. -/
def Parser.parse (rules : Rules α) (parser : Parser α) : Matcher α := fun cursor => do
  modify fun engine => { engine with horizon := max engine.horizon cursor.source.size }
  Engine.run rules (Engine.depthBound rules parser (← get).horizon) parser cursor

/-- Runs a parser at an offset of a text, with something put to its left. -/
def Parser.parseAt (rules : Rules α) (parser : Parser α) (source : Source) (offset : Nat)
    (left : LeftContent α) : EngineM α (Option (Output α)) := do
  match (Cursor.start source).seek offset with
  | .error fault => throw (.fault fault)
  | .ok cursor => parser.parse rules (cursor.withLeft (left.tagged (← Engine.freshTag)))

/-- Why a text as a whole was not parsed. -/
inductive Failure (α : Type) where
  /-- The parser does not match at the start of the text. -/
  | noMatch
  /-- The parser matches, but only up to `offset`. -/
  | leftover (offset : Nat) (payload : α)
  deriving DecidableEq, Repr

/-- Changes the payload of a match that left text over. -/
def Failure.map {α β : Type} (f : α → β) : Failure α → Failure β
  | noMatch => .noMatch
  | leftover offset payload => .leftover offset (f payload)

/-- Parses a whole text; a match that ends before the text does is a failure. -/
def Parser.parseText (rules : Rules α) (parser : Parser α) (source : Source) :
    EngineM α (Except (Failure α) α) := do
  match ← parser.parse rules (.start source) with
  | none => return .error .noMatch
  | some output =>
      if output.next.offset < source.size then
        return .error (.leftover output.next.offset output.payload)
      else
        return .ok output.payload

end Packrat
