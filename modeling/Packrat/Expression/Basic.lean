/-!
# Expressions

The trees of a small expression language: integers, strings, names, arrays and calls, joined by
unary and binary operators.
-/

namespace Packrat.Expression

inductive BinaryOp where
  | or
  | and
  | eq
  | notEq
  | add
  | sub
  | mul
  | div
  | rem
  | pow
  deriving DecidableEq, Repr

/-- The spelling of an operator. -/
def BinaryOp.symbol : BinaryOp → String
  | or => "||"
  | and => "&&"
  | eq => "=="
  | notEq => "!="
  | add => "+"
  | sub => "-"
  | mul => "*"
  | div => "/"
  | rem => "%"
  | pow => "^"

inductive UnaryOp where
  | not
  | neg
  deriving DecidableEq, Repr

/-- The spelling of an operator. -/
def UnaryOp.symbol : UnaryOp → String
  | not => "!"
  | neg => "-"

/-- An expression. -/
inductive Expr where
  | int (n : Int64)
  | str (chars : List Char)
  | ident (name : List Char)
  | array (items : List Expr)
  | call (name : List Char) (args : List Expr)
  | unary (op : UnaryOp) (operand : Expr)
  | binary (op : BinaryOp) (left right : Expr)
  deriving Inhabited

end Packrat.Expression
