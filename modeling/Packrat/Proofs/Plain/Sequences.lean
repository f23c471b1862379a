import Packrat.Proofs.Plain.Lands

/-!
# Running sequences

Parts in a row, one part over and over, and folds, whose operands stand around a sequence.
-/

namespace Packrat.Engine

variable {α : Type}
  {call : Call α} {limit fuel : Nat} {rules : Rules α} {parser : Parser α}
  {parsers : List (Parser α)} {cursor : Cursor α} {source : Source} {rest : List Char}
  {engine : Engine α}

/-! ## Parts in a row -/

theorem inSequence_reads (hcall : ∀ parser ∈ parsers, Reads call limit parser)
    (hat : cursor.At source rest) (hlimit : Text.byteLength rest ≤ limit)
    (hidle : Idle (Parser.guardsAll parsers) (Parser.climbsAll parsers) cursor.offset engine) :
    Yields (inSequence call parsers cursor) engine fun result engine' =>
      LandsAll source cursor.left (Parser.meansAll parsers cursor.left.content rest) result ∧
        Untouched engine engine' := by
  induction parsers generalizing engine cursor rest with
  | nil => exact yields_inSequence_nil ⟨⟨rfl, hat, rfl⟩, .refl engine⟩
  | cons parser parsers ih =>
      obtain ⟨hparser, hparsers⟩ := List.forall_mem_cons.mp hcall
      refine yields_inSequence_cons ((hparser hat hlimit (idle_head hidle)).mono ?_)
      rintro output engine' ⟨hland, hsame⟩
      simp only [Parser.meansAll]
      cases hmeans : parser.means cursor.left.content rest with
      | none =>
          rw [hmeans] at hland
          obtain rfl := Lands.none_iff.mp hland
          exact ⟨trivial, hsame⟩
      | some found =>
          rw [hmeans] at hland
          obtain ⟨next, rfl, hnext, hleft⟩ := Lands.some_iff.mp hland
          have hle := Parser.means_le parser _ _ _ hmeans
          have hidle' := ((idle_tail hidle).untouched hsame).ahead
            ((hat.offset_le_iff hnext).mpr hle)
          refine (ih hparsers hnext (Nat.le_trans hle hlimit) hidle').mono ?_
          rintro result engine'' ⟨hresult, hsame'⟩
          rw [hleft, Left.content_behind] at hresult
          exact ⟨hresult.cons, hsame.trans hsame'⟩

theorem sequence_reads {combine : List α → α}
    (hcall : ∀ parser ∈ parsers, Reads call limit parser) :
    Reads (step rules fuel call) limit (.sequence parsers combine) := by
  intro cursor source rest engine hat hlimit hidle
  refine Yields.bind ((inSequence_reads hcall hat hlimit hidle).mono ?_)
  rintro result engine' ⟨hresult, hsame⟩
  rw [Parser.means]
  cases hmeans : Parser.meansAll parsers cursor.left.content rest with
  | none =>
      rw [hmeans] at hresult
      obtain rfl := LandsAll.none_iff.mp hresult
      exact Yields.pure ⟨trivial, hsame⟩
  | some found =>
      obtain ⟨payloads, behind, kept⟩ := found
      rw [hmeans] at hresult
      obtain ⟨next, rfl, hnext, hleft⟩ := LandsAll.some_iff.mp hresult
      exact Yields.pure ⟨⟨rfl, hnext, hleft⟩, hsame⟩

/-! ## One part over and over -/

theorem repeatMatch_reads {parser : Parser α} (hcall : Reads call limit parser)
    (atMost : Option Nat) (left : Left α) {fuel : Nat} {payloads : List α} {count : Nat}
    {kept : Bool} (hat : cursor.At source rest) (hlimit : Text.byteLength rest ≤ limit)
    (hfuel : Text.byteLength rest < fuel) (hleft : cursor.left = left.behind kept)
    (hidle : Idle parser.guards parser.climbs cursor.offset engine)
    {found : List α × Nat × List Char × Bool}
    (hfound :
      Parser.repeatMeans parser.means atMost left.content payloads count rest kept = found) :
    Yields (repeatMatch call parser atMost fuel payloads count cursor) engine fun result engine' =>
      (result.1 = found.1 ∧ result.2.1 = found.2.1 ∧ result.2.2.At source found.2.2.1 ∧
          result.2.2.left = left.behind found.2.2.2) ∧
        Untouched engine engine' := by
  subst hfound
  induction fuel generalizing engine cursor rest payloads count kept with
  | zero => exact absurd hfuel (Nat.not_lt_zero _)
  | succ fuel ih =>
      cases hroom : allows atMost count with
      | false =>
          rw [Parser.repeatMeans_of_full hroom]
          exact yields_repeatMatch_full hroom ⟨⟨rfl, rfl, hat, hleft⟩, .refl engine⟩
      | true =>
          refine yields_repeatMatch_succ hroom ((hcall hat hlimit hidle).mono ?_)
          rintro output engine' ⟨hland, hsame⟩
          rw [hleft, Left.content_behind] at hland
          cases hmeans : parser.means (left.content.behind kept) rest with
          | none =>
              rw [Parser.repeatMeans_of_none hroom hmeans]
              rw [hmeans] at hland
              obtain rfl := Lands.none_iff.mp hland
              exact ⟨⟨rfl, rfl, hat, hleft⟩, hsame⟩
          | some found =>
              rw [Parser.repeatMeans_of_some hroom hmeans]
              rw [hmeans] at hland
              obtain ⟨next, rfl, hnext, hleft'⟩ := Lands.some_iff.mp hland
              rw [Left.behind_behind] at hleft'
              have hle := Parser.means_le parser _ _ _ hmeans
              simp only [hat.offset_lt_iff hnext]
              by_cases hmoved : Text.byteLength found.rest < Text.byteLength rest
              · rw [if_pos hmoved, if_pos hmoved]
                have hidle' := (hidle.untouched hsame).ahead ((hat.offset_le_iff hnext).mpr hle)
                refine (ih hnext (by omega) (by omega) hleft' hidle').mono ?_
                rintro result engine'' ⟨hresult, hsame'⟩
                exact ⟨hresult, hsame.trans hsame'⟩
              · rw [if_neg hmoved, if_neg hmoved]
                exact ⟨⟨rfl, rfl, hnext, hleft'⟩, hsame⟩

theorem repeated_reads {atLeast : Nat} {atMost : Option Nat} {collect : List α → α}
    (hcall : Reads call limit parser) (hfuel : limit < fuel) :
    Reads (step rules fuel call) limit (.repeated parser atLeast atMost collect) := by
  intro cursor source rest engine hat hlimit hidle
  refine yields_repetition ((repeatMatch_reads hcall atMost cursor.left hat hlimit
    (by omega) (show cursor.left = cursor.left.behind true from rfl) hidle rfl).mono ?_)
  rintro ⟨payloads, count, next⟩ engine' ⟨⟨hpayloads, hcount, hnext, hleft⟩, hsame⟩
  refine ⟨?_, hsame⟩
  simp only at hpayloads hcount hnext hleft
  rw [Parser.means]
  simp only [← hpayloads, ← hcount]
  by_cases hfew : count < atLeast
  · rw [if_pos hfew, if_pos hfew]
    trivial
  · rw [if_neg hfew, if_neg hfew]
    exact ⟨rfl, hnext, hleft⟩

/-! ## Folds -/

/-- A fold takes its left operand from the cursor, or else reads a fresh one. -/
theorem leftOperand_reads {first : Parser α} (hcall : Reads call limit first)
    (hat : cursor.At source rest) (hlimit : Text.byteLength rest ≤ limit)
    (hidle : Idle first.guards first.climbs cursor.offset engine) :
    Yields (leftOperand call first cursor) engine fun output engine' =>
      Matches source .empty (Parser.operand first.means cursor.left.content rest) output ∧
        Untouched engine engine' := by
  unfold leftOperand
  cases hleft : cursor.left with
  | rightOperand => exact Yields.pure ⟨trivial, .refl engine⟩
  | empty =>
      refine (hcall hat hlimit hidle).mono ?_
      rintro output engine' ⟨hland, hsame⟩
      rw [hleft] at hland
      exact ⟨hland.matches_pair, hsame⟩
  | operand tag value =>
      cases value with
      | none => exact Yields.pure ⟨trivial, .refl engine⟩
      | some value => exact Yields.pure ⟨⟨rfl, hat.withoutLeft, rfl⟩, .refl engine⟩

theorem rightOperand_reads {last : Parser α} (hcall : Reads call limit last)
    (hat : cursor.At source rest) (hlimit : Text.byteLength rest ≤ limit)
    (hidle : Idle last.guards last.climbs cursor.offset engine) :
    Yields (rightOperand call last cursor) engine fun output engine' =>
      Matches source .empty ((last.means .rightOperand rest).map Found.pair) output ∧
        Untouched engine engine' := by
  refine yields_rightOperand ((hcall (hat.withLeft .rightOperand) hlimit hidle).mono ?_)
  rintro output engine' ⟨hland, hsame⟩
  refine ⟨?_, hsame⟩
  change Lands source .rightOperand (last.means .rightOperand rest) output at hland
  cases hmeans : last.means .rightOperand rest with
  | none =>
      rw [hmeans] at hland
      obtain rfl := Lands.none_iff.mp hland
      trivial
  | some found =>
      rw [hmeans] at hland
      obtain ⟨next, rfl, hnext, -⟩ := Lands.some_iff.mp hland
      exact ⟨rfl, hnext.withoutLeft, rfl⟩

/-- Behind the middle of a fold: the right operand, and what extends the folded payload. -/
theorem foldRight_reads {first last : Parser α} (combine : α → α)
    (hfirst : Reads call limit first) (hlast : Reads call limit last) (left : Left α)
    {before : Engine α} (hsame : Untouched before engine) (hat : cursor.At source rest)
    (hlimit : Text.byteLength rest ≤ limit)
    (hidleFirst : Idle first.guards first.climbs cursor.offset before)
    (hidleLast : Idle last.guards last.climbs cursor.offset before) :
    Yields (rightOperand call last cursor) engine fun found engine' =>
      match found with
      | none =>
          Lands source left ((last.means .rightOperand rest).map fun found =>
            Found.folded (combine found.payload) found.rest
              (first.means (.operand (some (combine found.payload))) found.rest)) none ∧
            Untouched before engine'
      | some output =>
          Yields (call first (output.next.withLeft
              (.operand engine'.nextTag (some (combine output.payload))))) engine'.tagged
            fun extended engine' =>
              Lands source left ((last.means .rightOperand rest).map fun found =>
                  Found.folded (combine found.payload) found.rest
                    (first.means (.operand (some (combine found.payload))) found.rest))
                (some (foldResult (combine output.payload) output.next extended)) ∧
              Untouched before engine' := by
  refine (rightOperand_reads hlast hat hlimit (hidleLast.untouched hsame)).mono ?_
  rintro output engine₁ ⟨hright, hsame₁⟩
  cases hmeans : last.means .rightOperand rest with
  | none =>
      rw [hmeans] at hright
      obtain rfl := Matches.none_iff.mp hright
      exact ⟨trivial, hsame.trans hsame₁⟩
  | some found =>
      rw [hmeans] at hright
      obtain ⟨next, rfl, hnext, hempty⟩ := Matches.some_iff.mp hright
      have hle := Parser.means_le last _ _ _ hmeans
      have hsame' := hsame.trans (hsame₁.trans (.tagged engine₁))
      refine (hfirst (hnext.withLeft (.operand engine₁.nextTag (some (combine found.payload))))
        (Nat.le_trans hle hlimit)
        ((hidleFirst.untouched hsame').ahead ((hat.offset_le_iff hnext).mpr hle))).mono ?_
      rintro extended engine₂ ⟨hextended, hsame₂⟩
      exact ⟨lands_foldResult hnext hempty hextended _, hsame'.trans hsame₂⟩

theorem foldStep_reads {first last : Parser α} {middle : List (Parser α)}
    {combine : List α → α} (hfirst : Reads call limit first)
    (hmiddle : ∀ parser ∈ middle, Reads call limit parser) (hlast : Reads call limit last)
    (hat : cursor.At source rest) (hlimit : Text.byteLength rest ≤ limit)
    (hidle : Idle (Parser.foldLeft first middle last combine).guards
      (Parser.foldLeft first middle last combine).climbs cursor.offset engine) :
    Yields (foldStep call first middle last combine cursor) engine fun output engine' =>
      Lands source cursor.left
          ((Parser.foldLeft first middle last combine).means cursor.left.content rest) output ∧
        Untouched engine engine' := by
  obtain ⟨hidle₁, hidle₂, hidle₃⟩ := idle_foldLeft hidle
  refine yields_foldStep ((leftOperand_reads hfirst hat hlimit hidle₁).mono ?_)
  rintro output engine₁ ⟨hoperand, hsame₁⟩
  rw [Parser.means]
  cases hx : Parser.operand first.means cursor.left.content rest with
  | none =>
      rw [hx] at hoperand
      obtain rfl := Matches.none_iff.mp hoperand
      exact ⟨trivial, hsame₁⟩
  | some operand =>
      obtain ⟨x, rest₁⟩ := operand
      rw [hx] at hoperand
      obtain ⟨next₁, rfl, hat₁, hleft₁⟩ := Matches.some_iff.mp hoperand
      have hle₁ := Parser.operand_le (Parser.means_le first) hx
      have hahead₁ := (hat.offset_le_iff hat₁).mpr hle₁
      refine (inSequence_reads hmiddle hat₁ (Nat.le_trans hle₁ hlimit)
        ((hidle₂.untouched hsame₁).ahead hahead₁)).mono ?_
      rintro result engine₂ ⟨hresult, hsame₂⟩
      rw [hleft₁] at hresult
      simp only [Option.bind_some]
      cases hall : Parser.meansAll middle .empty rest₁ with
      | none =>
          rw [show Left.content (.empty : Left α) = .empty from rfl, hall] at hresult
          obtain rfl := LandsAll.none_iff.mp hresult
          exact ⟨trivial, hsame₁.trans hsame₂⟩
      | some result' =>
          obtain ⟨payloads, rest₂, kept⟩ := result'
          rw [show Left.content (.empty : Left α) = .empty from rfl, hall] at hresult
          obtain ⟨next₂, rfl, hat₂, -⟩ := LandsAll.some_iff.mp hresult
          have hle₂ := Nat.le_trans (Parser.meansAll_le middle _ _ _ hall) hle₁
          have hahead₂ := (hat.offset_le_iff hat₂).mpr hle₂
          exact foldRight_reads (fun payload => combine (x :: payloads ++ [payload])) hfirst hlast
            cursor.left (hsame₁.trans hsame₂) hat₂ (Nat.le_trans hle₂ hlimit)
            (hidle₁.ahead hahead₂) (hidle₃.ahead hahead₂)

end Packrat.Engine
