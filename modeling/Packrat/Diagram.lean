import Packrat.Diagram.Row
import Packrat.Report
import Packrat.Text.Classes
import Packrat.Text.Lines
import Packrat.Text.Width

/-!
# Diagrams of failures

A report is drawn as the source line in question with a mark under the character at which parsing
stopped.  At a line break in the middle of the text the mark runs from the end of the line to the
start of the next one.  Lines too wide for a terminal are cut.

Each row begins with a field for the number of a source line, as wide as the number of the line in
question, and a bar.
-/

namespace Packrat.Diagram

def blanks (n : Nat) : List Char := List.replicate n ' '

/-! ## Showing characters -/

/-- The character as it is drawn: control characters as symbols, so that all can be seen. -/
def visible (c : Char) : List Char :=
  if c = '\t' then blanks 4
  else if c.toNat < 0x20 then [Char.ofNat (0x2400 + c.toNat)]
  else if c = '\x7f' then ['\u2421']
  else if c = '\u200d' then []
  else if (0x202a ≤ c.toNat && c.toNat ≤ 0x202e) || (0x2066 ≤ c.toNat && c.toNat ≤ 0x2069) then
    ['\ufffd']
  else [c]

def visibleAll (chars : List Char) : List Char := chars.flatMap visible

/-! ## What is marked -/

/-- The span of the character at an offset; past the end it is empty. -/
def caretSpan (chars : List Char) (offset : Nat) : Nat × Nat :=
  let start := min offset (Text.byteLength chars)
  let width := ((Text.dropBytes start chars).head?.map Char.utf8Size).getD 0
  (start, start + width)

/-- What a diagram shows. -/
structure Subject where
  line : Text.PlacedLine
  /-- The line after it, if the mark runs to its start. -/
  next? : Option Text.Line
  /-- The column for people, from one. -/
  column : Nat
  /-- The display columns at which the mark begins and ends. -/
  markStart : Nat
  markStop : Nat

/-- The subject of a diagram for an offset. -/
def subject (chars : List Char) (offset : Nat) : Subject :=
  let start := (caretSpan chars offset).1
  let (line, next?) := Text.locate start chars
  let before := Text.takeBytes (start - line.start) line.line.chars
  let atLineBreak := Text.byteLength line.line.chars < start - line.start
  let markStart := Text.width before
  let marked := (line.line.chars.drop before.length).head?
  { line
    next? := if (Text.dropBytes start chars).head? = some '\n' then next? else none
    column := before.length + (if atLineBreak then 1 else 0) + 1
    markStart
    markStop := markStart + max 1 ((marked.map Text.charWidth).getD 0) }

/-! ## Cutting lines -/

/-- The columns of a terminal. -/
def terminalWidth : Nat := 140

/-- The display columns of the source that are shown. -/
structure Window where
  left : Nat
  right : Nat
  /-- The columns that there is room for. -/
  room : Nat
  deriving DecidableEq, Repr

/-- The columns of white space in front of the text of a line; a blank line has none. -/
def indentation (chars : List Char) : Nat :=
  if chars.all Text.isBlank then 0
  else
    (chars.takeWhile Text.isBlank).foldr (fun c columns => (if c = '\t' then 4 else 1) + columns) 0

/--
The window for lines of at most `lineWidth` columns with a mark from `spanLeft` to `spanRight`
and a label up to `labelRight`.  Deep indentation in front of the mark is cut; lines that are
still too wide are cut around the mark, with the label if it fits.
-/
def Window.fit (indentation spanLeft spanRight labelRight room lineWidth : Nat) : Window :=
  let margin := 6
  let indentation := min indentation spanLeft - margin
  let spanLeft := spanLeft - margin
  let spanRight := spanRight + margin
  let labelRight := labelRight + margin
  let left := if 20 < indentation then indentation - 16 else 0
  let right := max lineWidth left
  if right - left ≤ room then ⟨left, right, room⟩
  else if labelRight - indentation ≤ room then ⟨indentation, indentation + room, room⟩
  else if labelRight - spanLeft ≤ room then
    let left := spanLeft - (room - (labelRight - spanLeft)) / 2
    ⟨left, left + room, room⟩
  else if spanRight - spanLeft ≤ room then
    let left := spanLeft - (room - (spanRight - spanLeft)) / 5 * 2
    ⟨left, left + room, room⟩
  else ⟨spanLeft, spanRight, room⟩

/-- The dots in place of what was cut. -/
def dots : List Char := ['.', '.', '.']

/-- The characters at the front that dots take the place of, enough for three columns. -/
def coveredByDots : List Char → List Char
  | chars => go 0 chars
where
  go : Nat → List Char → List Char
    | _, [] => []
    | width, c :: cs =>
        if 3 ≤ width + Text.charWidth c then [c] else c :: go (width + Text.charWidth c) cs

/--
Writes a source line into a row, as far as the window shows it, and gives the columns that were
cut on the left.  Dots on the left stand before the character that follows those they cover; dots
on the right are written over the cells of those they cover.
-/
def Window.show (window : Window) (row : Row) (column : Nat) (chars : List Char) : Row × Nat :=
  let lineWidth := Text.width chars
  let left := min window.left lineWidth
  let right :=
    if lineWidth - window.left ≤ window.room then lineWidth else min lineWidth window.right
  let kept := Text.dropWidth left chars
  let skipped := lineWidth - Text.width kept
  let code := Text.takeWidth (right - left) kept
  let covered := if 0 < window.left then coveredByDots code else []
  let shown := code.drop covered.length
  let shownFrom := column + Text.width covered
  let row := row.write column .gutter (if 0 < window.left then dots else [])
  let row := row.write shownFrom .plain shown
  let dotsFrom := shownFrom + shown.length - (coveredByDots code.reverse).length
  (row.write dotsFrom .gutter (if right < lineWidth then dots else []), max left skipped)

/-! ## Drawing -/

/-- The bar behind a field for line numbers. -/
def bar (numberWidth : Nat) : Row := Row.write [] (numberWidth + 1) .gutter ['|']

/-- A line number and the bar; next to a number too long for its field, the bar follows at once. -/
def numbered (numberWidth number : Nat) : Row :=
  let digits := Nat.toDigits 10 number
  let row := Row.write [] (numberWidth - digits.length) .gutter digits
  row.write (numberWidth + 1) .gutter ['|']

/-- A mark on a single line. -/
def drawWithin (subject : Subject) (numberWidth : Nat) (label : List Char) : List Row :=
  let line := subject.line.line.chars
  let room := terminalWidth - (numberWidth + 3)
  let column := numberWidth + 3
  let window := Window.fit (indentation line) subject.markStart subject.markStop
    (subject.markStop + label.length + 1) room (Text.width line)
  let head := numbered numberWidth subject.line.number
  let (first, cut) := window.show head column (visibleAll line)
  let carets := List.replicate (subject.markStop - subject.markStart) '^'
  let second := (bar numberWidth).write (column + subject.markStart - cut) .mark carets
  [first, second.write (column + subject.markStop + 1 - cut) .mark label]

/--
A mark from the end of a line to the start of the next one.  As it begins at the first column of
that line, nothing is cut on the left.
-/
def drawAcross (subject : Subject) (numberWidth : Nat) (next : Text.Line) (label : List Char) :
    List Row :=
  let line := subject.line.line.chars
  let room := terminalWidth - (numberWidth + 5)
  let edge := numberWidth + 3
  let column := numberWidth + 5
  let window := Window.fit 0 0 (subject.markStart + 1)
    (max (subject.markStart + 1) (label.length + 1)) room
    (max (Text.width line) (Text.width next.chars))
  let head := numbered numberWidth subject.line.number
  let (first, _) := window.show head column (visibleAll line)
  let blankBefore := ((visibleAll line).take subject.markStart).all Text.isBlank
  let opening :=
    if blankBefore then [first.write edge .mark ['/']]
    else
      let reach := List.replicate (subject.markStart + 1) '_'
      [first, (bar numberWidth).write edge .mark ([' '] ++ reach ++ ['^'])]
  let below := (numbered numberWidth (subject.line.number + 1)).write edge .mark ['|']
  let (second, _) := window.show below column (visibleAll next.chars)
  let closing := (bar numberWidth).write edge .mark ['|', '_', '^']
  opening ++ [second, closing.write (column + 2) .mark label]

/-- All rows of the diagram of a report. -/
def draw (report : Report) (path? : Option String) : List Row :=
  let subject := subject report.text.toList report.offset
  let numberWidth := (Nat.toDigits 10 subject.line.number).length
  let severity := "error".toList
  let heading :=
    (Row.write [] 0 .mark severity).write severity.length .title (": " ++ report.title).toList
  let place : List Row :=
    match path? with
    | none => []
    | some path =>
        let arrow := "--> ".toList
        [ (Row.write [] numberWidth .gutter arrow).write (numberWidth + arrow.length) .plain
            (path ++ ":" ++ toString subject.line.number ++ ":" ++
              toString subject.column).toList ]
  let source :=
    match subject.next? with
    | none => drawWithin subject numberWidth report.label.toList
    | some next => drawAcross subject numberWidth next report.label.toList
  heading :: place ++ [bar numberWidth] ++ source

end Diagram

/-- The diagram of a report, in color on demand, and with the path of the text if it has one. -/
def Report.render (report : Report) (path? : Option String) (colored : Bool) : String :=
  String.intercalate "\n" ((Diagram.draw report path?).map fun row =>
    String.ofList (row.render colored))

end Packrat
