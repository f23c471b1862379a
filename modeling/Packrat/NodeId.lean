/-!
# Numbers of instances

Stateful nodes are told apart by numbers, which are handed out in ascending order.
-/

namespace Packrat

/-- Hands out numbers; all that were not handed out are at least `next`. -/
structure NodeSupply where
  next : Nat
  deriving DecidableEq, Repr

namespace NodeSupply

/-- The supply that has handed out nothing. -/
def start : NodeSupply := ⟨0⟩

/-- A number that was not handed out before. -/
def fresh (supply : NodeSupply) : Nat × NodeSupply := (supply.next, ⟨supply.next + 1⟩)

/-- Several new numbers. -/
def take : Nat → NodeSupply → List Nat
  | 0, _ => []
  | n + 1, supply => supply.fresh.1 :: take n supply.fresh.2

end NodeSupply

/-- The text that shows the number of an instance. -/
def displayNode (id : Nat) : String := "#" ++ toString id

/-- Whether a text is a number sign with digits behind it. -/
def isNodeText (text : String) : Bool :=
  match text.toList with
  | '#' :: digits => !digits.isEmpty && digits.all Char.isDigit
  | _ => false

/-- The differences of neighbours in a list of numbers. -/
def gaps : List Nat → List Nat
  | first :: second :: rest => (second - first) :: gaps (second :: rest)
  | _ => []

/-- Whether numbers are in ascending order. -/
def ascending (ids : List Nat) : Bool :=
  match ids with
  | first :: second :: rest => first < second && ascending (second :: rest)
  | _ => true

end Packrat
