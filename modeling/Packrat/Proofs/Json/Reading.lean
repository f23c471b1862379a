import Packrat.Proofs.Descent
import Packrat.Proofs.Json.Lexical

/-!
# Recursive descent for JSON

The rule of the grammar is called behind brackets, commas and colons only, so that the grammar reads
a text as a recursive reader does.
-/

namespace Packrat.Json

open Packrat.Parser Reader
open Text (byteLength)

/-! ## The reader -/

/-- What is read of a key with its value. -/
def memberReading (value : Reader Payload) : Reader Payload :=
  Reader.map (fun payloads =>
      .member (payloads.getD 0 filler).toChars (payloads.getD 2 filler).toValue)
    (Reader.all [(padded filler string).read, (symbol ":").read, value])

def arrayPayload (payload : Payload) : Payload :=
  .value (.array (payload.toItems.map Payload.toValue))

def objectPayload (payload : Payload) : Payload :=
  .value (.object (Members.ofList (payload.toItems.filterMap Payload.member?)))

/-- What is read of each kind of value, given what is read of the values in it. -/
def alternatives (value : Reader Payload) : List (Reader Payload) :=
  [(keyword "null" .null).read,
    (firstOf [keyword "true" (.bool true), keyword "false" (.bool false)]).read,
    number.read,
    (string.map fun payload => .value (.string payload.toChars)).read,
    Reader.map arrayPayload (listReading "[" "]" value),
    Reader.map objectPayload (listReading "\x7b" "\x7d" (memberReading value))]

/-- What is read of the body of the rule. -/
def bodyReading (value : Reader Payload) : Reader Payload :=
  Reader.padded (Reader.first (alternatives value))

/-- What is read of a value. -/
def reading : Reader Payload := Reader.recursive bodyReading

section Shrinks

variable {value value' : Reader Payload} {rest : List Char} {limit : Nat}

theorem memberReading_shrinks (h : Shrinks value) : Shrinks (memberReading value) := by
  refine map_shrinks (all_shrinks ?_)
  intro reader hmem
  simp only [List.mem_cons, List.not_mem_nil, or_false] at hmem
  rcases hmem with rfl | rfl | rfl
  · exact read_shrinks _
  · exact read_shrinks _
  · exact h

theorem listReading_shrinks {opening closing : String} (h : Shrinks value) :
    Shrinks (listReading opening closing value) := by
  refine map_shrinks (all_shrinks ?_)
  intro reader hmem
  simp only [List.mem_cons, List.not_mem_nil, or_false] at hmem
  rcases hmem with rfl | rfl | rfl
  · exact read_shrinks _
  · exact Ladder.joinedReading_shrinks (read_shrinks _) h
  · exact read_shrinks _

theorem alternatives_shrinks (h : Shrinks value) : Shrinks (Reader.first (alternatives value)) := by
  refine first_shrinks ?_
  intro reader hmem
  simp only [alternatives, List.mem_cons, List.not_mem_nil, or_false] at hmem
  rcases hmem with rfl | rfl | rfl | rfl | rfl | rfl
  · exact read_shrinks _
  · exact read_shrinks _
  · exact read_shrinks _
  · exact read_shrinks _
  · exact map_shrinks (listReading_shrinks h)
  · exact map_shrinks (listReading_shrinks (memberReading_shrinks h))

theorem bodyReading_shrinks (h : Shrinks value) : Shrinks (bodyReading value) :=
  padded_shrinks (alternatives_shrinks h)

theorem reading_shrinks : Shrinks reading := recursive_shrinks fun _ => bodyReading_shrinks

theorem memberReading_agree (hshrinks : Shrinks value) (h : Agree limit value value') :
    Agree limit (memberReading value) (memberReading value') := by
  have hparts : ∀ reader ∈ [(padded filler string).read, (symbol ":").read, value],
      Shrinks reader := by
    intro reader hmem
    simp only [List.mem_cons, List.not_mem_nil, or_false] at hmem
    rcases hmem with rfl | rfl | rfl
    · exact read_shrinks _
    · exact read_shrinks _
    · exact hshrinks
  exact map_agree (all_agree hparts
    (.cons (fun _ _ => rfl) (.cons (fun _ _ => rfl) (.cons h .nil))))

/-- Behind its first bracket, a list depends on what lies ahead. -/
theorem listReading_congr {opening closing : String} (hopening : opening ≠ "")
    (hshrinks : Shrinks value) (h : Agree (byteLength rest) value value') :
    listReading opening closing value rest = listReading opening closing value' rest := by
  rw [listReading_eq, listReading_eq]
  refine Option.bind_congr fun inner hbehind => ?_
  rw [Ladder.joinedReading_agree (read_shrinks _) hshrinks h inner (behind_lt hopening hbehind)]

theorem bodyReading_congr (hshrinks : Shrinks value) (h : Agree (byteLength rest) value value') :
    bodyReading value rest = bodyReading value' rest := by
  have hskip : Agree (byteLength (skipBlanks rest)) value value' :=
    h.mono (byteLength_skipBlanks_le rest)
  simp only [bodyReading, alternatives, Reader.padded, Reader.first, Reader.map]
  rw [listReading_congr (by decide) hshrinks hskip,
    listReading_congr (by decide) (memberReading_shrinks hshrinks)
      (memberReading_agree hshrinks hskip)]

end Shrinks

theorem reading_eq (rest : List Char) : reading rest = bodyReading reading rest :=
  recursive_eq_of_shrinks (fun _ => bodyReading_shrinks) fun _ _ => bodyReading_congr

/-! ## The grammar reads as the reader does -/

section Descent

variable {fuel : Nat} {rest : List Char}

/-- How deep the calls of a plain part of the grammar are nested apart from the text. -/
theorem size_le : (padded filler string).size ≤ 40 ∧ number.size ≤ 40 ∧
    (string.map fun payload => .value (.string payload.toChars)).size ≤ 40 := by decide

theorem descends_symbol {slack : Nat} (text : String) (hfuel : byteLength rest + 40 < fuel) :
    Descends grammar.rules fuel slack rest (symbol text) (symbol text).read := by
  refine descends_bare (.token filler filler text) ?_
  simp only [symbol, token, Parser.padded, Parser.many, size, sizeAll]
  omega

theorem descends_member (hfuel : byteLength rest + 40 < fuel)
    (hvalue : ∀ shorter, byteLength shorter ≤ byteLength rest →
      Descends grammar.rules fuel 1 shorter value reading) :
    Descends grammar.rules (fuel + 1) 1 rest member (memberReading reading) := by
  have hsize := size_le.1
  apply descends_sequence
  refine descendsAll_cons 1 (descends_bare ⟨rfl, rfl, rfl⟩ (by omega)) ?_
  intro x inner hread
  have hinner := read_shrinks _ _ _ _ hread
  refine ⟨by omega, descendsAll_cons 1 (descends_symbol ":" (by omega)) ?_⟩
  intro x last hread
  have hlast := read_shrinks _ _ _ _ hread
  refine ⟨by omega, descendsAll_cons 1 (hvalue last (by omega)) ?_⟩
  intro x shorter hread
  have hshorter := reading_shrinks _ _ _ hread
  exact ⟨by omega, descendsAll_nil⟩

/-- A list, whose items stand behind its first bracket. -/
theorem descends_list {tailId itemsId : Nat} {opening closing : String} {item : Parser Payload}
    {itemReader : Reader Payload} (hopening : opening ≠ "") (hshrinks : Shrinks itemReader)
    (hfuel : byteLength rest + 40 < fuel)
    (hitem : ∀ shorter, byteLength shorter < byteLength rest → ∀ fuel', fuel ≤ fuel' →
      Descends grammar.rules fuel' 1 shorter item itemReader) :
    Descends grammar.rules (fuel + 6) 1 rest (list tailId itemsId opening closing item)
      (listReading opening closing itemReader) := by
  apply descends_sequence
  refine descendsAll_cons 0 (descends_symbol opening (by omega)) ?_
  intro x inner hread
  have hinner : byteLength inner < byteLength rest := by
    rw [symbol, read_token] at hread
    obtain ⟨inner', hbehind, heq⟩ := Option.map_eq_some_iff.mp hread
    cases heq
    exact behind_lt hopening hbehind
  refine ⟨by omega, descendsAll_cons 0 (descends_joined hshrinks (read_shrinks _) ?_ ?_
    (by omega)) ?_⟩
  · intro shorter hshorter
    exact hitem shorter (by omega)
  · intro shorter hshorter
    exact descends_symbol "," (by omega)
  · intro x last hread
    have hlast := Ladder.joinedReading_shrinks (read_shrinks _) hshrinks _ _ _ hread
    refine ⟨by omega, descendsAll_cons 0 (descends_symbol closing (by omega)) ?_⟩
    intro x shorter hread
    exact ⟨Nat.add_le_add_right (read_shrinks _ _ _ _ hread) _, descendsAll_nil⟩

/-- The body of the rule, given how the rule is read in front of shorter texts. -/
theorem descends_body (hfuel : byteLength rest + 50 < fuel)
    (hvalue : ∀ shorter, byteLength shorter < byteLength rest → ∀ fuel', fuel ≤ fuel' + 10 →
      Descends grammar.rules fuel' 1 shorter value reading) :
    Descends grammar.rules fuel 1 rest body reading := by
  obtain ⟨-, hnumber, hstring⟩ := size_le
  obtain ⟨fuel, rfl⟩ := Nat.exists_eq_add_of_le' (show 10 ≤ fuel by omega)
  refine Descends.congr ?_ (reading_eq rest).symm
  refine descends_padded (alternatives_shrinks reading_shrinks) ?_ (by omega)
  intro shorter hshorter
  refine descends_firstOf
    (.cons ?null (.cons ?bool (.cons ?number (.cons ?string (.cons ?array (.cons ?object .nil))))))
  case null => exact descends_bare ⟨rfl, rfl, rfl⟩ (by simp only [keyword, size]; omega)
  case bool => exact descends_bare ⟨rfl, rfl, rfl⟩ (by simp only [keyword, size, sizeAll]; omega)
  case number => exact descends_bare ⟨rfl, rfl, rfl⟩ (by omega)
  case string => exact descends_bare ⟨rfl, rfl, rfl⟩ (by omega)
  case array =>
    refine descends_convert (descends_list (by decide) reading_shrinks (by omega) ?_)
    intro later hlater fuel' hfuel'
    exact hvalue later (by omega) fuel' (by omega)
  case object =>
    refine descends_convert (descends_list (by decide) (memberReading_shrinks reading_shrinks)
      (by omega) ?_)
    intro later hlater fuel' hfuel'
    obtain ⟨fuel', rfl⟩ := Nat.exists_eq_add_of_le' (show 1 ≤ fuel' by omega)
    exact descends_member (by omega) fun last hlast => hvalue last (by omega) fuel' (by omega)

theorem descends_value (hfuel : 100 * (byteLength rest + 1) ≤ fuel) :
    Descends grammar.rules fuel 1 rest value reading := by
  induction hbytes : byteLength rest using Nat.strongRecOn generalizing rest fuel with
  | ind bytes ih =>
      subst hbytes
      obtain ⟨fuel, rfl⟩ := Nat.exists_eq_add_of_le' (show 1 ≤ fuel by omega)
      refine descends_call (show grammar.rules.find 0 = .body body from rfl)
        (descends_body (by omega) ?_)
      intro shorter hshorter fuel' hfuel'
      exact ih _ hshorter (by omega) rfl

end Descent

/-- The grammar answers every text as the reader does, and comes to rest again. -/
theorem grammar_reads : grammar.Reads reading := by
  intro source engine hrested
  refine yields_parseText (yields_parse ?_)
  have hsize : byteLength source.chars ≤ max engine.horizon source.size := by
    rw [source.size_eq]
    exact Nat.le_max_right _ _
  have hfuel : 100 * (byteLength source.chars + 1) ≤
      Engine.depthBound grammar.rules grammar.entry (max engine.horizon source.size) := by
    have hnodes : 100 ≤ (grammar.rules.size + grammar.entry.size + 3) *
        (grammar.rules.size + grammar.entry.size + 3) *
        (grammar.rules.size + grammar.entry.size + 3) := by decide
    exact Nat.mul_le_mul hnodes (by omega)
  have hrested' := hrested.withHorizon (max engine.horizon source.size)
  refine (descends_value hfuel (.start source) rfl (.of_rested hrested')).mono ?_
  rintro output engine' ⟨hmatches, hsame⟩
  exact ⟨hmatches, hrested'.untouched hsame⟩

end Packrat.Json
