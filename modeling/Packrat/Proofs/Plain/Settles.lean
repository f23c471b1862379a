import Packrat.Proofs.Outcome
import Packrat.Proofs.Plain.Inside

/-!
# Outcomes of plain parsers

A plain parser returns one and the same output at a cursor from every state in which it is idle,
also where the cursor was sent into the middle of a character.  If it has no folds, a right operand
is no different for it, and an operand to its left stays there.
-/

namespace Packrat

open Text (byteLength)

variable {α : Type}

/-! ## What is found at a cursor -/

/-- The output is what was found in front of the cursor. -/
def Cursor.Meets (cursor : Cursor α) : Option (Found α) → Option (Output α) → Prop
  | none, none => True
  | some found, some output =>
      output.payload = found.payload ∧ output.next.source = cursor.source ∧
        output.next.offset + byteLength found.rest = cursor.offset + byteLength cursor.rest ∧
          output.next.left = cursor.left.behind found.kept
  | _, _ => False

namespace Cursor

variable {cursor : Cursor α} {found : Option (Found α)} {output output' : Option (Output α)}

theorem Meets.none_iff : cursor.Meets none output ↔ output = none := by
  cases output <;> simp [Meets]

/-- What was found leaves no choice of the output. -/
theorem Meets.unique (h : cursor.Meets found output) (h' : cursor.Meets found output') :
    output = output' := by
  cases found with
  | none => rw [none_iff.mp h, none_iff.mp h']
  | some found =>
      cases output with
      | none => exact h.elim
      | some output =>
          cases output' with
          | none => exact h'.elim
          | some output' =>
              obtain ⟨hpayload, hsource, hoffset, hleft⟩ := h
              obtain ⟨hpayload', hsource', hoffset', hleft'⟩ := h'
              have hnext : output.next = output'.next := by
                apply Cursor.ext
                · rw [hsource, hsource']
                · omega
                · rw [hleft, hleft']
              cases output
              cases output'
              cases hpayload.trans hpayload'.symm
              cases hnext
              rfl

/-- A cursor stands between two characters or in the middle of one. -/
theorem at_or_inside (cursor : Cursor α) : cursor.At cursor.source cursor.rest ∨ cursor.Inside := by
  by_cases hrest : cursor.rest = []
  · by_cases hend : cursor.atEnd = true
    · refine .inl ⟨rfl, rfl, ?_⟩
      have hle := cursor.offset_le
      rw [atEnd, decide_eq_true_iff] at hend
      rw [hrest, Text.byteLength_nil]
      omega
    · exact .inr ⟨hrest, Bool.eq_false_iff.mpr hend⟩
  · refine .inl ⟨rfl, rfl, ?_⟩
    rw [cursor.rest_eq] at hrest ⊢
    rw [Text.add_byteLength_dropBytes hrest, cursor.source.size_eq]

/-- What was found with something to the left, once that is taken away. -/
theorem Meets.withoutLeft {left : Left α} (h : (cursor.withLeft left).Meets found output) :
    cursor.withoutLeft.Meets found
      (output.map fun output => { output with next := output.next.withoutLeft }) := by
  cases found with
  | none =>
      rw [none_iff.mp h]
      trivial
  | some found =>
      cases output with
      | none => exact h
      | some output =>
          obtain ⟨hpayload, hsource, hoffset, -⟩ := h
          refine ⟨hpayload, hsource, hoffset, ?_⟩
          cases found.kept <;> rfl

theorem meets_of_lands (hat : cursor.At cursor.source cursor.rest)
    (h : Lands cursor.source cursor.left found output) : cursor.Meets found output := by
  cases found with
  | none =>
      obtain rfl := Lands.none_iff.mp h
      trivial
  | some found =>
      obtain ⟨next, rfl, hnext, hleft⟩ := Lands.some_iff.mp h
      exact ⟨rfl, hnext.source_eq, hnext.offset_add.trans hat.offset_add.symm, hleft⟩

theorem meets_staying (hinside : cursor.Inside) {parser : Parser α} {left : LeftContent α} :
    cursor.Meets (parser.means left []) (cursor.staying (parser.means left [])) := by
  cases hmeans : parser.means left [] with
  | none => trivial
  | some found =>
      refine ⟨rfl, rfl, ?_, rfl⟩
      rw [Parser.rest_of_means_nil hmeans, hinside.rest_eq]
      rfl

end Cursor

/--
At every cursor there is a parser whose meaning tells what a plain parser finds there: itself, or
inside a character the one whose checks for the end of the text fail.
-/
theorem Parser.exists_means {parser : Parser α} (hplain : parser.plain = true) (cursor : Cursor α) :
    ∃ parser' : Parser α, parser'.foldFree = parser.foldFree ∧
      ∀ {rules : Rules α} {fuel : Nat} {engine : Engine α} (left : Left α),
        parser.size + (cursor.source.size - cursor.offset) < fuel →
          Idle parser.guards parser.climbs cursor.offset engine →
            Yields (Engine.run rules fuel parser (cursor.withLeft left)) engine
              fun output engine' =>
                (cursor.withLeft left).Meets (parser'.means left.content cursor.rest) output ∧
                  Untouched engine engine' := by
  rcases cursor.at_or_inside with hat | hinside
  · refine ⟨parser, rfl, fun {rules fuel engine} left hfuel hidle => ?_⟩
    have hsum := hat.offset_add
    apply (run_plain rules hplain hfuel (hat.withLeft left) (by omega) hidle).mono
    rintro output engine' ⟨hland, hsame⟩
    exact ⟨Cursor.meets_of_lands (hat.withLeft left) hland, hsame⟩
  · refine ⟨parser.endless, parser.foldFree_endless, fun {rules fuel engine} left hfuel hidle => ?_⟩
    apply (run_inside rules hplain (by omega) (hinside.withLeft left) hidle).mono
    rintro _ engine' ⟨rfl, hsame⟩
    refine ⟨?_, hsame⟩
    rw [hinside.rest_eq]
    exact Cursor.meets_staying (hinside.withLeft left)

/-! ## Outcomes -/

/-- The parser returns the output at the cursor, from every state in which it is idle. -/
structure Parser.Settles (parser : Parser α) (cursor : Cursor α) (output : Option (Output α)) :
    Prop where
  outcome : ∀ rules, parser.outcome rules cursor = .ok output
  runs : ∀ {rules : Rules α} {fuel : Nat} {engine : Engine α},
    parser.size + (cursor.source.size - cursor.offset) < fuel →
      Idle parser.guards parser.climbs cursor.offset engine →
        Yields (Engine.run rules fuel parser cursor) engine fun found engine' =>
          found = output ∧ Untouched engine engine'

namespace Parser

variable {parser : Parser α} {cursor : Cursor α}

/-- A plain parser settles everywhere, on what one meaning says of all left contexts. -/
theorem exists_settles (hplain : parser.plain = true) (cursor : Cursor α) :
    ∃ parser' : Parser α, parser'.foldFree = parser.foldFree ∧ ∀ left : Left α,
      ∃ output, (cursor.withLeft left).Meets (parser'.means left.content cursor.rest) output ∧
        parser.Settles (cursor.withLeft left) output := by
  obtain ⟨parser', hfree, hruns⟩ := exists_means hplain cursor
  refine ⟨parser', hfree, fun left => ?_⟩
  have houtcome : ∀ rules, ∃ output, parser.outcome rules (cursor.withLeft left) = .ok output ∧
      (cursor.withLeft left).Meets (parser'.means left.content cursor.rest) output := by
    intro rules
    have hbound : parser.size + (cursor.source.size - cursor.offset) <
        Engine.depthBound rules parser (max (Engine.fresh : Engine α).horizon cursor.source.size) := by
      apply Engine.add_lt_depthBound
      omega
    apply outcome_of_yields
    apply yields_parse
    exact (hruns left hbound ((Engine.rested_fresh.withHorizon _).idle _ _ _)).mono
      fun _ _ h => h.1
  obtain ⟨output, -, hmeets⟩ := houtcome ⟨{}⟩
  refine ⟨output, hmeets, fun rules => ?_, fun hfuel hidle => ?_⟩
  · obtain ⟨output', houtcome, hmeets'⟩ := houtcome rules
    rw [houtcome, hmeets.unique hmeets']
  · apply (hruns left hfuel hidle).mono
    rintro output' engine' ⟨hmeets', hsame⟩
    exact ⟨hmeets'.unique hmeets, hsame⟩

theorem settles (hplain : parser.plain = true) (cursor : Cursor α) :
    ∃ output, parser.Settles cursor output := by
  obtain ⟨_, -, hsettles⟩ := exists_settles hplain cursor
  obtain ⟨output, -, hsettles⟩ := hsettles cursor.left
  exact ⟨output, hsettles⟩

/-- A parser without folds finds as a right operand what it finds with nothing to its left. -/
theorem settles_rightOperand (hplain : parser.plain = true) (hfree : parser.foldFree = true)
    (hleft : cursor.left = .empty) :
    ∃ output, parser.Settles (cursor.withLeft .rightOperand) output ∧ parser.Settles cursor
      (output.map fun output => { output with next := output.next.withoutLeft }) := by
  obtain ⟨parser', hfree', hsettles⟩ := exists_settles hplain cursor
  obtain ⟨output, hmeets, hoperand⟩ := hsettles .rightOperand
  obtain ⟨output', hmeets', hempty⟩ := hsettles .empty
  have hcursor : cursor.withLeft .empty = cursor := Cursor.ext rfl rfl hleft.symm
  have hmeans : parser'.means (.rightOperand : LeftContent α) cursor.rest =
      parser'.means .empty cursor.rest :=
    means_congr_left parser' (hfree'.trans hfree) _ _ rfl
  refine ⟨output, hoperand, ?_⟩
  have hsame : output' = output.map fun output =>
      { output with next := output.next.withoutLeft } := by
    apply Cursor.Meets.unique hmeets'
    have hwithout := hmeets.withoutLeft
    rw [Left.content, hmeans] at hwithout
    exact hwithout
  rw [← hsame, ← hcursor]
  exact hempty

/-- A parser without folds leaves an operand to its left there. -/
theorem settles_operand (hplain : parser.plain = true) (hfree : parser.foldFree = true)
    (cursor : Cursor α) (tag : Nat) (value : Option α) :
    ∃ output, parser.Settles (cursor.withLeft (.operand tag value)) output ∧
      ∀ found, output = some found → found.next.left.isEmpty = false := by
  obtain ⟨parser', hfree', hsettles⟩ := exists_settles hplain cursor
  obtain ⟨output, hmeets, hsettles⟩ := hsettles (.operand tag value)
  refine ⟨output, hsettles, ?_⟩
  rintro found rfl
  cases hmeans : parser'.means (Left.operand tag value).content cursor.rest with
  | none =>
      rw [hmeans] at hmeets
      exact hmeets.elim
  | some inner =>
      rw [hmeans] at hmeets
      obtain ⟨-, -, -, hnext⟩ := hmeets
      rw [hnext, kept_of_means parser' (hfree'.trans hfree) _ inner hmeans]
      rfl

end Parser

end Packrat
