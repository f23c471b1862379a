import Packrat.Arithmetic.Grammar
import Packrat.Csv.Grammar
import Packrat.Expression.Grammar
import Packrat.Json.Grammar

/-!
# Languages

The bundled grammars under two common interfaces.  Languages are grammars of formulas, whose
results are shown as text; documents are data formats, whose values are written as JSON.
-/

namespace Packrat

/-- An observed run with its results as texts: `display` shows a result, `describe` reports one. -/
def Grammar.Observation.shown {α : Type} (display describe : α → String)
    (observation : Grammar.Observation α) : Grammar.Observation String where
  result :=
    match observation.result with
    | .ok payload => .ok (display payload)
    | .error failure => .error (failure.map describe)
  trace := observation.trace
  hits := observation.hits
  misses := observation.misses

/-- The languages of formulas. -/
inductive Language where
  | arithmetic
  | expressions
  deriving DecidableEq, Repr

/-- Parses a formula, and records all rules that are run if `traced`. -/
def Language.observe (language : Language) (traced : Bool) (text : String) :
    Except Stop (Grammar.Observation String) :=
  match language with
  | .arithmetic =>
      (·.shown Arithmetic.display Arithmetic.Payload.describe) <$>
        (Arithmetic.grammar traced).observe text
  | .expressions =>
      (·.shown (·.toExpr.display) (·.toExpr.describe)) <$>
        (Expression.grammar traced).observe text

/-- The formats of documents. -/
inductive Document where
  | json
  | csv
  deriving DecidableEq, Repr

/-- Parses a document, and writes what it holds as JSON. -/
def Document.reprint (document : Document) (style : Json.Style) (text : String) :
    Except Stop (Except (Failure String) String) :=
  match document with
  | .json => do
      let observation ← Json.grammar.observe text
      return (observation.shown (·.toValue.write style) (·.toValue.describe)).result
  | .csv => do
      let observation ← Csv.grammar.observe text
      return (observation.shown (fun payload => (Csv.toJson payload.toRecords).write style)
        (fun payload => Csv.describe payload.toRecords)).result

end Packrat
