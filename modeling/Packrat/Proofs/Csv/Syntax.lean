import Packrat.Csv.Grammar
import Packrat.Proofs.Reader.Separated

/-!
# The language of comma-separated values

Which texts spell which fields and records.  A field has a spelling in quotes, and one without if
it holds no comma, quote or line break; a line may end in either of two ways.
-/

namespace Packrat.Csv

open Reader

/-- A character inside quotes, where a quote is written twice. -/
def doubled (c : Char) : List Char := if c = '"' then ['"', '"'] else [c]

/-- A field, as it may be written. -/
inductive FieldText : List Char → List Char → Prop where
  | quoted (chars : List Char) : FieldText ('"' :: (chars.flatMap doubled ++ ['"'])) chars
  | plain {chars : List Char} (h : ∀ c ∈ chars, c ∉ [',', '"', '\r', '\n']) : FieldText chars chars

/-- A record: one or more fields with commas between them. -/
abbrev RecordText : List Char → Record → Prop := Separated (· = [',']) FieldText

/-- What ends a record. -/
inductive LineBreak : List Char → Prop where
  | lf : LineBreak ['\n']
  | crlf : LineBreak ['\r', '\n']

/-! ## Spellings -/

theorem recordText_nil : RecordText [] [[]] := .one (.plain (by simp))

/-- Only two texts spell the record that an empty line yields. -/
theorem recordText_blank_iff {text : List Char} :
    RecordText text [[]] ↔ text = [] ∨ text = ['"', '"'] := by
  constructor
  · intro h
    cases h with
    | one hfield =>
        cases hfield with
        | quoted => exact .inr rfl
        | plain => exact .inl rfl
    | more _ _ hs => exact absurd rfl hs.ne_nil
  · rintro (rfl | rfl)
    · exact recordText_nil
    · exact .one (.quoted [])

end Packrat.Csv
