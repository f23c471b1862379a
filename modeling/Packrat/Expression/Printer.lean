import Packrat.Expression.Basic
import Packrat.Text.Quoted

/-!
# Writing expressions

`display` writes an expression with parentheses around every operator, so that the shape of the
tree shows.  `describe` names every node, as reports do.
-/

namespace Packrat.Expression

namespace Expr

mutual

/-- The expression with all parentheses. -/
def display : Expr → String
  | .int n => toString n.toInt
  | .str chars => Text.quoted (String.ofList chars)
  | .ident name => String.ofList name
  | .array items => "[" ++ String.intercalate ", " (displayAll items) ++ "]"
  | .call name args =>
      String.ofList name ++ "(" ++ String.intercalate ", " (displayAll args) ++ ")"
  | .unary op operand => "(" ++ op.symbol ++ operand.display ++ ")"
  | .binary op left right =>
      "(" ++ left.display ++ " " ++ op.symbol ++ " " ++ right.display ++ ")"

def displayAll : List Expr → List String
  | [] => []
  | expr :: exprs => expr.display :: displayAll exprs

end

end Expr

/-- The name of an operator in reports. -/
def BinaryOp.describe : BinaryOp → String
  | or => "Or"
  | and => "And"
  | eq => "Eq"
  | notEq => "NotEq"
  | add => "Add"
  | sub => "Sub"
  | mul => "Mul"
  | div => "Div"
  | rem => "Rem"
  | pow => "Pow"

/-- The name of an operator in reports. -/
def UnaryOp.describe : UnaryOp → String
  | not => "Not"
  | neg => "Neg"

/-- A node with named fields, as reports show it. -/
def describeRecord (name : String) (fields : List (String × String)) : String :=
  name ++ " \x7b " ++
    String.intercalate ", " (fields.map fun field => field.1 ++ ": " ++ field.2) ++ " \x7d"

namespace Expr

mutual

/-- The text that shows an expression in a report. -/
def describe : Expr → String
  | .int n => "Int(" ++ toString n.toInt ++ ")"
  | .str chars => "Str(" ++ Text.quoted (String.ofList chars) ++ ")"
  | .ident name => "Ident(" ++ Text.quoted (String.ofList name) ++ ")"
  | .array items => "Array([" ++ String.intercalate ", " (describeAll items) ++ "])"
  | .call name args =>
      describeRecord "Call"
        [ ("name", Text.quoted (String.ofList name)),
          ("args", "[" ++ String.intercalate ", " (describeAll args) ++ "]") ]
  | .unary op operand =>
      describeRecord "Unary" [("op", op.describe), ("operand", operand.describe)]
  | .binary op left right =>
      describeRecord "Binary"
        [("op", op.describe), ("left", left.describe), ("right", right.describe)]

def describeAll : List Expr → List String
  | [] => []
  | expr :: exprs => expr.describe :: describeAll exprs

end

end Expr

end Packrat.Expression
