import Packrat.Engine.Run
import Packrat.Text.Quoted

/-!
# Reports on failures

A report says why a text was not parsed.  The payload of a match that left text over appears in
it as text.
-/

namespace Packrat

/-- A text that was not parsed, and why. -/
structure Report where
  text : String
  failure : Failure String

namespace Report

/-- The offset at which parsing stopped. -/
def offset (report : Report) : Nat :=
  match report.failure with
  | .noMatch => 0
  | .leftover offset _ => offset

/-- What went wrong. -/
def title (report : Report) : String :=
  match report.failure with
  | .noMatch => "no matching parsers"
  | .leftover _ _ => "input is not consumed"

/-- What to write beside the place. -/
def label (report : Report) : String :=
  match report.failure with
  | .noMatch => "no parser matches here"
  | .leftover _ _ => "unconsumed input"

/-- The report in one line. -/
def message (report : Report) : String :=
  match report.failure with
  | .noMatch => report.title
  | .leftover offset _ => report.title ++ " at offset " ++ toString offset

/-- All that the report holds. -/
def describe (report : Report) : String :=
  let input := "input: " ++ Text.quoted report.text
  match report.failure with
  | .noMatch => "NoMatchingParsers \x7b " ++ input ++ " \x7d"
  | .leftover offset payload =>
      "InputIsNotConsumed \x7b " ++ input ++ ", offset: " ++ toString offset ++ ", payload: " ++
        Text.quoted payload ++ " \x7d"

end Report

end Packrat
