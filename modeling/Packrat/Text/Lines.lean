import Packrat.Text.Encoding

/-!
# Lines of a text

A line ends with `\n` or `\r\n`, or with the text.  A text that ends with a line break has no
further line behind it; the empty text has one line.
-/

namespace Packrat.Text

/-- A line, and the characters that end it. -/
structure Line where
  chars : List Char
  ending : List Char
  deriving DecidableEq, Repr

/-- Puts a character in front of the first line. -/
def prepend (c : Char) : List Line → List Line
  | [] => [⟨[c], []⟩]
  | line :: lines =>
      if c = '\r' ∧ line = ⟨[], ['\n']⟩ then ⟨[], ['\r', '\n']⟩ :: lines
      else ⟨c :: line.chars, line.ending⟩ :: lines

/-- The lines of a text that is not empty. -/
def splitLines : List Char → List Line
  | [] => []
  | c :: cs => if c = '\n' then ⟨[], ['\n']⟩ :: splitLines cs else prepend c (splitLines cs)

/-- A line with its number and the offset at which it begins. -/
structure PlacedLine where
  number : Nat
  start : Nat
  line : Line
  deriving DecidableEq, Repr

/-- The offset behind the line and its ending. -/
def PlacedLine.stop (placed : PlacedLine) : Nat :=
  placed.start + byteLength placed.line.chars + byteLength placed.line.ending

/-- The line that an offset falls into, or else the last one, and the line after it. -/
def locateFrom (offset : Nat) : (number start : Nat) → List Line → PlacedLine × Option Line
  | number, start, [] => (⟨number, start, ⟨[], []⟩⟩, none)
  | number, start, [line] => (⟨number, start, line⟩, none)
  | number, start, line :: next :: lines =>
      let placed : PlacedLine := ⟨number, start, line⟩
      if offset < placed.stop then (placed, some next)
      else locateFrom offset (number + 1) placed.stop (next :: lines)

/-- The line that an offset falls into, with the line after it; lines are counted from one. -/
def locate (offset : Nat) (chars : List Char) : PlacedLine × Option Line :=
  locateFrom offset 1 0 (splitLines chars)

/-- The characters before a byte offset. -/
def takeBytes : Nat → List Char → List Char
  | _, [] => []
  | n, c :: cs => if c.utf8Size ≤ n then c :: takeBytes (n - c.utf8Size) cs else []

end Packrat.Text
