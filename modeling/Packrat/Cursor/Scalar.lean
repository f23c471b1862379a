import Packrat.Cursor

/-!
# Scalars to the left of cursors

Numbers and texts that stand to the left of cursors, and how such left contexts are told apart.
-/

namespace Packrat

/-- A number or a text. -/
inductive Scalar where
  | int (n : Int64)
  | text (s : String)
  deriving Inhabited

namespace Scalar

def int? : Scalar → Option Int64
  | .int n => some n
  | .text _ => none

def text? : Scalar → Option String
  | .int _ => none
  | .text s => some s

/-- Ten times a number; texts stay as they are. -/
def timesTen : Scalar → Scalar
  | .int n => .int (n * 10)
  | .text s => .text s

end Scalar

/-! ## Collections of left contexts -/

/-- A left context of a collection: a new one, or the one at an earlier place. -/
inductive LeftEntry where
  | new (content : LeftContent Scalar)
  | same (place : Nat)

/-- The left contexts that entries stand for; every new operand has a tag of its own. -/
def LeftEntry.resolve (entries : List LeftEntry) : List (Left Scalar) :=
  entries.foldl
    (fun lefts entry =>
      match entry with
      | .new content => lefts ++ [content.tagged lefts.length]
      | .same place => lefts ++ [lefts.getD place .empty])
    []

namespace Left

variable {α : Type}

/-- How many of the left contexts differ. -/
def countDistinct (lefts : List (Left α)) : Nat := (lefts.map key).eraseDups.length

/-- The places of equal left contexts, in order. -/
def equalPairs (lefts : List (Left α)) : List (Nat × Nat) :=
  let keys := (lefts.map key).zipIdx
  keys.flatMap fun (key, place) =>
    keys.filterMap fun (other, later) =>
      if place < later ∧ key = other then some (place, later) else none

end Left

end Packrat
