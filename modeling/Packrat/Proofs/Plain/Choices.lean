import Packrat.Proofs.Plain.Lands

/-!
# Running alternatives

The first match of some parsers, their longest one, and what is left of a parser's matches where
none of some others matches.  A precedence node that is idle is a choice like any other.
-/

namespace Packrat.Engine

variable {α : Type}
  {call : Call α} {limit fuel : Nat} {rules : Rules α} {parser : Parser α}
  {parsers : List (Parser α)} {cursor : Cursor α} {source : Source} {rest : List Char}
  {engine : Engine α}

theorem firstMatch_reads (hcall : ∀ parser ∈ parsers, Reads call limit parser)
    (hat : cursor.At source rest) (hlimit : Text.byteLength rest ≤ limit)
    (hidle : Idle (Parser.guardsAll parsers) (Parser.climbsAll parsers) cursor.offset engine) :
    Yields (firstMatch call parsers cursor) engine fun output engine' =>
      Lands source cursor.left (Parser.meansFirst parsers cursor.left.content rest) output ∧
        Untouched engine engine' := by
  induction parsers generalizing engine with
  | nil => exact yields_firstMatch_nil ⟨trivial, .refl engine⟩
  | cons parser parsers ih =>
      obtain ⟨hparser, hparsers⟩ := List.forall_mem_cons.mp hcall
      refine yields_firstMatch_cons ((hparser hat hlimit (idle_head hidle)).mono ?_)
      rintro output engine' ⟨hland, hsame⟩
      simp only [Parser.meansFirst]
      cases hmeans : parser.means cursor.left.content rest with
      | none =>
          rw [hmeans] at hland
          obtain rfl := Lands.none_iff.mp hland
          refine (ih hparsers ((idle_tail hidle).untouched hsame)).mono ?_
          rintro output engine'' ⟨hland', hsame'⟩
          exact ⟨hland', hsame.trans hsame'⟩
      | some found =>
          rw [hmeans] at hland
          obtain ⟨next, rfl, -, -⟩ := Lands.some_iff.mp hland
          exact ⟨hland, hsame⟩

/-- A precedence node that is idle tries its alternatives like any other choice. -/
theorem attemptAll_reads {id index : Nat} (hcall : ∀ parser ∈ parsers, Reads call limit parser)
    (hat : cursor.At source rest) (hlimit : Text.byteLength rest ≤ limit)
    (hid : id ∉ Parser.climbsAll parsers)
    (hidle : Idle (Parser.guardsAll parsers) (Parser.climbsAll parsers) cursor.offset engine) :
    Yields (attemptAll call id index parsers cursor) engine fun output engine' =>
      Lands source cursor.left (Parser.meansFirst parsers cursor.left.content rest) output ∧
        Untouched engine engine' := by
  induction parsers generalizing engine index with
  | nil => exact yields_attemptAll_nil ⟨trivial, .refl engine⟩
  | cons parser parsers ih =>
      obtain ⟨hparser, hparsers⟩ := List.forall_mem_cons.mp hcall
      have hid₁ : id ∉ parser.climbs := fun hmem => hid (List.mem_append_left _ hmem)
      have hid₂ : id ∉ Parser.climbsAll parsers := fun hmem => hid (List.mem_append_right _ hmem)
      refine yields_attemptAll_cons (yields_attempt
        ((hparser hat hlimit ((idle_head hidle).pushed hid₁ index)).mono ?_))
      rintro output engine' ⟨hland, hsame⟩
      have hsame := hsame.popped
      simp only [Parser.meansFirst]
      cases hmeans : parser.means cursor.left.content rest with
      | none =>
          rw [hmeans] at hland
          obtain rfl := Lands.none_iff.mp hland
          refine (ih hparsers hid₂ ((idle_tail hidle).untouched hsame)).mono ?_
          rintro output engine'' ⟨hland', hsame'⟩
          exact ⟨hland', hsame.trans hsame'⟩
      | some found =>
          rw [hmeans] at hland
          obtain ⟨next, rfl, -, -⟩ := Lands.some_iff.mp hland
          exact ⟨hland, hsame⟩

theorem longestMatch_reads (hcall : ∀ parser ∈ parsers, Reads call limit parser)
    (hat : cursor.At source rest) (hlimit : Text.byteLength rest ≤ limit)
    (hidle : Idle (Parser.guardsAll parsers) (Parser.climbsAll parsers) cursor.offset engine)
    {best : Option (Found α)} {earlier : Option (Output α)}
    (hbest : Lands source cursor.left best earlier) :
    Yields (longestMatch call earlier parsers cursor) engine fun output engine' =>
      Lands source cursor.left (Parser.meansLongest best parsers cursor.left.content rest) output ∧
        Untouched engine engine' := by
  induction parsers generalizing engine best earlier with
  | nil => exact yields_longestMatch_nil ⟨hbest, .refl engine⟩
  | cons parser parsers ih =>
      obtain ⟨hparser, hparsers⟩ := List.forall_mem_cons.mp hcall
      refine yields_longestMatch_cons ((hparser hat hlimit (idle_head hidle)).mono ?_)
      rintro output engine' ⟨hland, hsame⟩
      have hidle' := (idle_tail hidle).untouched hsame
      simp only [Parser.meansLongest]
      cases hmeans : parser.means cursor.left.content rest with
      | none =>
          rw [hmeans] at hland
          obtain rfl := Lands.none_iff.mp hland
          refine (ih hparsers hidle' hbest).mono ?_
          rintro output engine'' ⟨hland', hsame'⟩
          exact ⟨hland', hsame.trans hsame'⟩
      | some found =>
          rw [hmeans] at hland
          obtain ⟨next, rfl, -, -⟩ := Lands.some_iff.mp hland
          refine (ih hparsers hidle' (lands_longer hbest hland)).mono ?_
          rintro output engine'' ⟨hland', hsame'⟩
          exact ⟨hland', hsame.trans hsame'⟩

theorem except_reads (hcall : Reads call limit parser)
    (hexcluded : ∀ parser ∈ parsers, Reads call limit parser) :
    Reads (step rules fuel call) limit (.except parser parsers) := by
  intro cursor source rest engine hat hlimit hidle
  obtain ⟨hidleParser, hidleExcluded⟩ := idle_except hidle
  refine yields_unlessMatch ((firstMatch_reads hexcluded hat hlimit hidleExcluded).mono ?_)
  rintro output engine' ⟨hland, hsame⟩
  rw [Parser.means]
  cases hmeans : Parser.meansFirst parsers cursor.left.content rest with
  | some found =>
      rw [hmeans] at hland
      obtain ⟨next, rfl, -, -⟩ := Lands.some_iff.mp hland
      exact ⟨trivial, hsame⟩
  | none =>
      rw [hmeans] at hland
      obtain rfl := Lands.none_iff.mp hland
      refine (hcall hat hlimit (hidleParser.untouched hsame)).mono ?_
      rintro output engine'' ⟨hland', hsame'⟩
      exact ⟨hland', hsame.trans hsame'⟩

theorem climb_reads {id : Nat} (hcall : ∀ parser ∈ parsers, Reads call limit parser)
    (hid : id ∉ Parser.climbsAll parsers) :
    Reads (step rules fuel call) limit (.climb id parsers) := by
  intro cursor source rest engine hat hlimit hidle
  refine yields_climbMatch_idle (hidle.calm id List.mem_cons_self) ?_
  rw [Parser.means, Left.isOperand_content]
  cases hoperand : cursor.left.isOperand with
  | true => exact ⟨trivial, .refl engine⟩
  | false =>
      refine (attemptAll_reads hcall hat.withoutLeft hlimit hid (idle_climb hidle)).mono ?_
      rintro output engine' ⟨hland, hsame⟩
      exact ⟨hland.forget cursor.left, hsame⟩

end Packrat.Engine
