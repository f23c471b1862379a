import Mathlib
import Packrat.Proofs.Csv.Language
import Packrat.Proofs.Cut.Arithmetic
import Packrat.Proofs.Cut.Expression
import Packrat.Proofs.Json.Language
import Packrat.Proofs.Reuse

/-!
# Texts that are cut where a match ended

When a match leaves text over, it is reported how far it went and what it came to.  Cutting the text
there makes every alternative that was tried beyond that point see the end of the text instead.  For
the bundled grammars this never changes what the rest of the text is taken for: the part in front of
the cut is answered with what was reported.
-/

namespace Packrat

open Text (byteLength)

variable {α β : Type}

/-- What is reported of a match that leaves text over is the answer to the text in front of it. -/
def Grammar.Honest (grammar : Grammar α) : Prop :=
  ∀ (text : String) (offset : Nat) (payload : α),
    (grammar.observe text).map (·.result) = .ok (.error (.leftover offset payload)) →
      ∃ front back : String, text = front ++ back ∧ byteLength front.toList = offset ∧
        (grammar.observe front).map (·.result) = .ok (.ok payload)

namespace Reader

theorem Honest.map {reader : Reader β} (h : Honest reader) (f : β → α) :
    Honest (Reader.map f reader) := by
  intro text y rest hread
  obtain ⟨⟨x, rest⟩, hinner, heq⟩ := Option.map_eq_some_iff.mp hread
  cases heq
  obtain ⟨before, htext, hcut⟩ := h _ _ _ hinner
  refine ⟨before, htext, ?_⟩
  rw [Reader.map, hcut]
  rfl

/-- A reader that is stopped by the end of the text reads a language up to any place. -/
theorem Exact.honest {reader : Reader β} {language : List Char → β → Prop}
    {stops : List Char → Prop} (h : ∀ limit, Exact limit reader language stops)
    (hstops : stops []) : Honest reader := by
  intro text x rest hread
  obtain ⟨before, htext, hx⟩ := (h _).sound (Nat.lt_succ_self _) hread
  have hcut := (h _).complete (Nat.lt_succ_self (byteLength (before ++ []))) hx hstops
  rw [List.append_nil] at hcut
  exact ⟨before, htext, hcut⟩

end Reader

/-- What a reader leaves over is reported as left over. -/
theorem Grammar.Reads.observe_leftover {grammar : Grammar α} {reader : Reader α}
    (h : grammar.Reads reader) {text : String} {payload : α} {c : Char} {rest : List Char}
    (hread : reader text.toList = some (payload, c :: rest)) :
    (grammar.observe text).map (·.result) =
      .ok (.error (.leftover (byteLength text.toList - byteLength (c :: rest)) payload)) := by
  rw [h.observe, Reader.answer, hread]

/-- A grammar that answers as a reader does reports as honestly as the reader reads. -/
theorem Grammar.Reads.honest {grammar : Grammar α} {reader : Reader α} (h : grammar.Reads reader)
    (hreader : reader.Honest) : grammar.Honest := by
  intro text offset payload hobserve
  rw [h.observe, Except.ok.injEq, Reader.answer] at hobserve
  split at hobserve
  · cases hobserve
  · cases hobserve
  · next x rest hrest hread =>
      cases hobserve
      obtain ⟨before, htext, hcut⟩ := hreader _ _ _ hread
      refine ⟨String.ofList before, String.ofList rest, ?_, ?_, ?_⟩
      · rw [← String.ofList_append, ← htext, String.ofList_toList]
      · rw [String.toList_ofList, htext, Text.byteLength_append, Nat.add_sub_cancel]
      · rw [h.observe, String.toList_ofList, Reader.answer, hcut]

/-! ## Documents -/

theorem Json.reading_honest : Json.reading.Honest := by
  intro text x rest hread
  obtain ⟨before, htext, hx⟩ := (Json.value_lexical _).sound (Nat.lt_succ_self _) hread
  have hcut := (Json.value_lexical _).complete_spaced (Nat.lt_succ_self (byteLength (before ++ [])))
    hx (Reader.unlike_nil _)
  rw [List.append_nil] at hcut
  exact ⟨before, htext, hcut⟩

namespace Csv

open Packrat.Parser

/-- A field may be empty, so that one can be read in front of any text. -/
theorem isSome_field (rest : List Char) : (field.read rest).isSome = true := by
  rw [field, read_firstOf]
  simp only [List.map_cons, List.map_nil, Reader.first, Option.isSome_or, Bool.or_eq_true]
  refine .inr (.inl ?_)
  rw [plainField_eq, read_many]
  rfl

theorem isSome_rows (rest : List Char) : (rows rest).isSome = true := by
  have hfield := isSome_field rest
  rw [rows, record_read]
  simp only [Reader.separated, Reader.map, Option.isSome_map]
  exact hfield

theorem reading_honest : reading.Honest := by
  have hrows : rows.Honest := Reader.Exact.honest (fun _ => rows_exact) rfl
  intro text payload rest hread
  obtain ⟨⟨records, behind⟩, hfound⟩ := Option.isSome_iff_exists.mp (isSome_rows text)
  rw [reading, Reader.optional, hfound] at hread
  cases hread
  obtain ⟨before, htext, hcut⟩ := hrows _ _ _ hfound
  refine ⟨before, htext, ?_⟩
  rw [reading, Reader.optional, hcut]

end Csv

/-! ## All grammars -/

/--
A partial match is an honest report: for arithmetic and expressions, traced or not, and for both
formats of documents, the text in front of what was left over is a text of its own, and the answer
to it is the very payload that was reported.
-/
theorem leftovers_stand_alone :
    (∀ traced, (Arithmetic.grammar traced).Honest) ∧
      (∀ traced, (Expression.grammar traced).Honest) ∧ Json.grammar.Honest ∧ Csv.grammar.Honest :=
  ⟨fun traced => (Arithmetic.reads_evaluation traced).honest (Arithmetic.evaluation_honest.map _),
    fun traced => (Expression.reads_tree traced).honest (Expression.tree_honest.map _),
    Json.grammar_reads.honest Json.reading_honest, Csv.grammar_reads.honest Csv.reading_honest⟩

/-- What `max(a, -b) * c` is. -/
def Expression.callTimesName : Expr :=
  .binary .mul (.call ['m', 'a', 'x'] [.ident ['a'], .unary .neg (.ident ['b'])]) (.ident ['c'])

/--
Behind a product with a call in it stands a sum that breaks off, and behind a field in quotes one
whose quote is never closed: the operator and the quote are left over with all that follows, and
what stands in front of them is a text.
-/
theorem call_and_field_stand_alone :
    (((Expression.grammar true).observe "max(a, -b) * c + (d").map (·.result) =
        .ok (.error (.leftover 15 (.expr Expression.callTimesName))) ∧
      ∃ front back : String, "max(a, -b) * c + (d" = front ++ back ∧
        byteLength front.toList = 15 ∧
        ((Expression.grammar true).observe front).map (·.result) =
          .ok (.ok (.expr Expression.callTimesName))) ∧
    (Csv.grammar.observe "\"a,b\",\"cd").map (·.result) =
        .ok (.error (.leftover 6 (.records [[['a', ',', 'b'], []]]))) ∧
      ∃ front back : String, "\"a,b\",\"cd" = front ++ back ∧ byteLength front.toList = 6 ∧
        (Csv.grammar.observe front).map (·.result) =
          .ok (.ok (.records [[['a', ',', 'b'], []]])) := by
  have htree : Reader.map Expression.Payload.expr Expression.tree "max(a, -b) * c + (d".toList =
      some (.expr Expression.callTimesName, ['+', ' ', '(', 'd']) := by
    cbv
  have hrecords : Csv.reading "\"a,b\",\"cd".toList =
      some (.records [[['a', ',', 'b'], []]], ['"', 'c', 'd']) := by
    cbv
  have hsum := (Expression.reads_tree true).observe_leftover htree
  have hfield := Csv.grammar_reads.observe_leftover hrecords
  constructor
  · exact ⟨hsum, leftovers_stand_alone.2.1 true _ _ _ hsum⟩
  · exact ⟨hfield, leftovers_stand_alone.2.2.2 _ _ _ hfield⟩

end Packrat
