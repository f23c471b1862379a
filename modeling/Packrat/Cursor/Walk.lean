import Packrat.Cursor.Scalar
import Packrat.Text.Quoted

/-!
# Walks

A walk makes cursors from cursors, move by move, and keeps all of them.  A move past the end of
the text is a fault, and makes no cursor.
-/

namespace Packrat

/-- The text that shows a cursor; there is none if an operand stands to its left. -/
def Cursor.describe? {α : Type} (cursor : Cursor α) : Option String :=
  let left? :=
    match cursor.left with
    | .empty => some "Empty"
    | .rightOperand => some "RightRecursion"
    | .operand _ _ => none
  left?.map fun left =>
    "Input \x7b offset: " ++ toString cursor.offset ++ ", left: " ++ left ++ ", remaining: " ++
      Text.quoted (String.ofList cursor.rest) ++ " \x7d"

namespace Walk

inductive Move where
  | advance (bytes : Nat)
  | seek (offset : Nat)
  | withLeft (content : LeftContent Scalar)
  | withoutLeft
  /-- Start a new text. -/
  | restart (text : String)
  /-- Ask whether a text comes next. -/
  | startsWith (text : String)
  /-- Compare with another cursor of the walk. -/
  | compare (other : Nat)
  /-- Pair the cursor with a payload, and multiply that by ten. -/
  | output (payload : Int64)

inductive Answer where
  | cursor (cursor : Cursor Scalar)
  | flag (flag : Bool)
  | comparison (equal hashesAgree leftsEqual : Bool)
  | output (output : Output Scalar)
  | fault (fault : Fault)

/-- What a move makes or answers, from a given cursor. -/
def Move.apply (move : Move) (cursors : Array (Cursor Scalar)) (cursor : Cursor Scalar) : Answer :=
  let moved (result : Except Fault (Cursor Scalar)) : Answer :=
    match result with
    | .ok cursor => .cursor cursor
    | .error fault => .fault fault
  match move with
  | .advance bytes => moved (cursor.advance bytes)
  | .seek offset => moved (cursor.seek offset)
  | .withLeft content => .cursor (cursor.withLeft (content.tagged cursors.size))
  | .withoutLeft => .cursor cursor.withoutLeft
  | .restart text => .cursor (.start (.ofString text))
  | .startsWith text => .flag (cursor.startsWith text.toList)
  | .compare other =>
      let other := cursors.getD other default
      let equal := cursor == other
      .comparison equal (!equal || hash cursor == hash other)
        (cursor.left.key == other.left.key)
  | .output payload => .output ((Output.mk (.int payload) cursor).map Scalar.timesTen)

/-- Makes moves in order, each from a cursor of the walk, by default from the last one. -/
def follow (cursors : Array (Cursor Scalar)) : List (Option Nat × Move) → List Answer
  | [] => []
  | (on?, move) :: moves =>
      let cursor := cursors.getD (on?.getD (cursors.size - 1)) default
      let answer := move.apply cursors cursor
      let cursors :=
        match answer with
        | .cursor cursor => cursors.push cursor
        | _ => cursors
      answer :: follow cursors moves

/-- A walk from the start of a text. -/
def run (text : String) (moves : List (Option Nat × Move)) : List Answer :=
  let start : Cursor Scalar := .start (.ofString text)
  .cursor start :: follow #[start] moves

end Walk

end Packrat
