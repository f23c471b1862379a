/-!
# Rows of a diagram

A row is a sequence of cells, each a character with a role.  Text is written into a row from a
column on: it takes the place of whatever stood there, and cells that nothing was written into
are blank.  The roles are painted in the end, so that plain and colored diagrams differ in
nothing but the paint.
-/

namespace Packrat.Diagram

/-- The role of a character. -/
inductive Ink where
  | plain
  | title
  /-- Line numbers, bars, and dots in place of what was cut. -/
  | gutter
  /-- Marks, their labels, and the word that opens the report. -/
  | mark
  deriving DecidableEq, Repr

namespace Ink

/-- The code that begins a role in colored output. -/
def start : Ink → List Char
  | plain => []
  | title => "\x1b[1m".toList
  | gutter => "\x1b[1m\x1b[94m".toList
  | mark => "\x1b[1m\x1b[91m".toList

/-- The code that ends a role in colored output. -/
def stop : Ink → List Char
  | plain => []
  | _ => "\x1b[0m".toList

end Ink

structure Cell where
  ink : Ink
  char : Char
  deriving DecidableEq, Repr

/-- The cell that nothing was written into. -/
def Cell.blank : Cell := ⟨.plain, ' '⟩

abbrev Row := List Cell

namespace Row

/-- The cells in front of a column, with blanks where there are none. -/
def front (row : Row) (column : Nat) : Row :=
  row.take column ++ List.replicate (column - row.length) Cell.blank

/-- Writes characters into a row from a column on; no characters leave no trace. -/
def write (row : Row) (column : Nat) (ink : Ink) (chars : List Char) : Row :=
  if chars.isEmpty then row
  else row.front column ++ (chars.map (Cell.mk ink) ++ row.drop (column + chars.length))

/-- The characters of a row, with a code wherever the role changes; `ink` is the role so far. -/
def paint (ink : Ink) : Row → List Char
  | [] => ink.stop
  | cell :: row =>
      (if cell.ink = ink then [] else ink.stop ++ cell.ink.start) ++
        cell.char :: paint cell.ink row

/-- The text of a row, in color on demand. -/
def render (colored : Bool) (row : Row) : List Char :=
  if colored then paint .plain row else row.map Cell.char

end Row

end Packrat.Diagram
