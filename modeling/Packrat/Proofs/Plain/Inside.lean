import Packrat.Proofs.Mirror.Combinators
import Packrat.Proofs.Plain.Context

/-!
# Plain parsers inside a character

A cursor that was sent into the middle of a character has no character in front of it, and yet is
not at the end of the text.  A plain parser stays where it is there: it finds what it would find at
the end of a text if its checks for the end were to fail.
-/

namespace Packrat

variable {α : Type}

/-- The cursor stands in the middle of a character. -/
structure Cursor.Inside (cursor : Cursor α) : Prop where
  rest_eq : cursor.rest = []
  atEnd_eq : cursor.atEnd = false

theorem Cursor.Inside.withLeft {cursor : Cursor α} (h : cursor.Inside) (left : Left α) :
    (cursor.withLeft left).Inside :=
  ⟨h.rest_eq, h.atEnd_eq⟩

theorem Cursor.Inside.withoutLeft {cursor : Cursor α} (h : cursor.Inside) :
    cursor.withoutLeft.Inside :=
  h.withLeft .empty

/-- What was found without leaving the place of the cursor. -/
def Cursor.staying (cursor : Cursor α) (found : Option (Found α)) : Option (Output α) :=
  found.map fun found => ⟨found.payload, cursor.withLeft (cursor.left.behind found.kept)⟩

/-- Where nothing is to the left, nothing is kept. -/
theorem Cursor.staying_withoutLeft (cursor : Cursor α) (found : Option (Found α)) :
    cursor.withoutLeft.staying found =
      cursor.staying (found.map fun found => { found with kept := false }) := by
  rw [staying, staying, Option.map_map]
  apply Option.map_congr
  intro found _
  cases found.kept <;> rfl

namespace Parser

mutual

/-- The parser, with all its checks for the end of the text failing. -/
def endless : Parser α → Parser α
  | .endOfInput _ => never
  | .except parser excluded => .except parser.endless (endlessAll excluded)
  | .firstOf alternatives => .firstOf (endlessAll alternatives)
  | .longestOf alternatives => .longestOf (endlessAll alternatives)
  | .sequence parts combine => .sequence (endlessAll parts) combine
  | .foldLeft left middle right combine =>
      .foldLeft left.endless (endlessAll middle) right.endless combine
  | .repeated parser atLeast atMost collect => .repeated parser.endless atLeast atMost collect
  | .optional parser wrap => .optional parser.endless wrap
  | .convert parser f => .convert parser.endless f
  | .guarded id parser => .guarded id parser.endless
  | .climb id alternatives => .climb id (endlessAll alternatives)
  | .nested parser => .nested parser.endless
  | .memo id cache parser => .memo id cache parser.endless
  | .clearing id cache parser => .clearing id cache parser.endless
  | .logged name parser => .logged name parser.endless
  | .redirected move parser => .redirected move parser.endless
  | .satisfy accepts payload => .satisfy accepts payload
  | .literal chars payload => .literal chars payload
  | .call rule => .call rule

/-- The parsers of a list, with all their checks for the end of the text failing. -/
def endlessAll : List (Parser α) → List (Parser α)
  | [] => []
  | parser :: parsers => parser.endless :: endlessAll parsers

end

mutual

theorem foldFree_endless : ∀ (parser : Parser α), parser.endless.foldFree = parser.foldFree
  | .satisfy _ _ | .literal _ _ | .endOfInput _ | .call _ | .climb _ _ | .foldLeft _ _ _ _ => by
      simp [endless, foldFree, never, foldFreeAll]
  | .except parser excluded => by
      simp only [endless, foldFree, foldFree_endless parser, foldFreeAll_endlessAll excluded]
  | .firstOf parsers | .longestOf parsers | .sequence parsers _ => by
      simp only [endless, foldFree, foldFreeAll_endlessAll parsers]
  | .repeated parser _ _ _ | .optional parser _ | .convert parser _ | .guarded _ parser
  | .nested parser | .memo _ _ parser | .clearing _ _ parser | .logged _ parser
  | .redirected _ parser => by simp only [endless, foldFree, foldFree_endless parser]

theorem foldFreeAll_endlessAll : ∀ (parsers : List (Parser α)),
    foldFreeAll (endlessAll parsers) = foldFreeAll parsers
  | [] => rfl
  | parser :: parsers => by
      simp only [endlessAll, foldFreeAll, foldFree_endless parser, foldFreeAll_endlessAll parsers]

end

/-- In front of nothing, nothing is taken. -/
theorem rest_of_means_nil {parser : Parser α} {left : LeftContent α} {found : Found α}
    (h : parser.means left [] = some found) : found.rest = [] := by
  have hle := means_le parser left [] found h
  exact Text.byteLength_eq_zero_iff.mp (Nat.le_zero.mp hle)

end Parser

namespace Engine

/--
The call of a parser inside a character finds what the parser means there, from every idle state.
-/
def Stays (call : Call α) (parser : Parser α) : Prop :=
  ∀ ⦃cursor : Cursor α⦄ ⦃engine : Engine α⦄, cursor.Inside →
    Idle parser.guards parser.climbs cursor.offset engine →
      Yields (call parser cursor) engine fun output engine' =>
        output = cursor.staying (parser.endless.means cursor.left.content []) ∧
          Untouched engine engine'

variable {call : Call α} {parser : Parser α} {parsers : List (Parser α)} {cursor : Cursor α}
  {engine : Engine α}

/-! ## Alternatives -/

theorem firstMatch_stays (hcall : ∀ parser ∈ parsers, Stays call parser) (hinside : cursor.Inside)
    (hidle : Idle (Parser.guardsAll parsers) (Parser.climbsAll parsers) cursor.offset engine) :
    Yields (firstMatch call parsers cursor) engine fun output engine' =>
      output = cursor.staying
          (Parser.meansFirst (Parser.endlessAll parsers) cursor.left.content []) ∧
        Untouched engine engine' := by
  induction parsers generalizing engine with
  | nil => exact yields_firstMatch_nil ⟨rfl, .refl engine⟩
  | cons parser parsers ih =>
      obtain ⟨hparser, hparsers⟩ := List.forall_mem_cons.mp hcall
      apply yields_firstMatch_cons
      apply (hparser hinside (idle_head hidle)).mono
      rintro _ engine' ⟨rfl, hsame⟩
      simp only [Parser.endlessAll, Parser.meansFirst]
      cases parser.endless.means cursor.left.content [] with
      | none =>
          apply (ih hparsers ((idle_tail hidle).untouched hsame)).mono
          rintro output engine'' ⟨houtput, hsame'⟩
          exact ⟨houtput, hsame.trans hsame'⟩
      | some found => exact ⟨rfl, hsame⟩

theorem attemptAll_stays {id index : Nat} (hcall : ∀ parser ∈ parsers, Stays call parser)
    (hinside : cursor.Inside) (hid : id ∉ Parser.climbsAll parsers)
    (hidle : Idle (Parser.guardsAll parsers) (Parser.climbsAll parsers) cursor.offset engine) :
    Yields (attemptAll call id index parsers cursor) engine fun output engine' =>
      output = cursor.staying
          (Parser.meansFirst (Parser.endlessAll parsers) cursor.left.content []) ∧
        Untouched engine engine' := by
  induction parsers generalizing engine index with
  | nil => exact yields_attemptAll_nil ⟨rfl, .refl engine⟩
  | cons parser parsers ih =>
      obtain ⟨hparser, hparsers⟩ := List.forall_mem_cons.mp hcall
      have hid₁ : id ∉ parser.climbs := fun hmem => hid (List.mem_append_left _ hmem)
      have hid₂ : id ∉ Parser.climbsAll parsers := fun hmem => hid (List.mem_append_right _ hmem)
      apply yields_attemptAll_cons
      apply yields_attempt
      apply (hparser hinside ((idle_head hidle).pushed hid₁ index)).mono
      rintro _ engine' ⟨rfl, hsame⟩
      have hsame := hsame.popped
      simp only [Parser.endlessAll, Parser.meansFirst]
      cases parser.endless.means cursor.left.content [] with
      | none =>
          apply (ih hparsers hid₂ ((idle_tail hidle).untouched hsame)).mono
          rintro output engine'' ⟨houtput, hsame'⟩
          exact ⟨houtput, hsame.trans hsame'⟩
      | some found => exact ⟨rfl, hsame⟩

/-- Of two findings that take nothing, the earlier one is the longer. -/
theorem longer_staying (cursor : Cursor α) {best : Option (Found α)} {found : Found α}
    (hbest : ∀ earlier, best = some earlier → earlier.rest = []) (hrest : found.rest = []) :
    some (longer (cursor.staying best)
        ⟨found.payload, cursor.withLeft (cursor.left.behind found.kept)⟩) =
      cursor.staying (some (Found.longer best found)) := by
  cases best with
  | none => rfl
  | some earlier =>
      have hearlier := hbest earlier rfl
      simp [Cursor.staying, longer, Found.longer, hearlier, hrest]

theorem rest_longer {best : Option (Found α)} {found : Found α}
    (hbest : ∀ earlier, best = some earlier → earlier.rest = []) (hrest : found.rest = []) :
    (Found.longer best found).rest = [] := by
  cases best with
  | none => exact hrest
  | some earlier =>
      simp only [Found.longer]
      split
      · exact hbest earlier rfl
      · exact hrest

/-- All alternatives are equally long, so the first of them is the longest. -/
theorem longestMatch_stays (hcall : ∀ parser ∈ parsers, Stays call parser)
    (hinside : cursor.Inside) {best : Option (Found α)}
    (hbest : ∀ earlier, best = some earlier → earlier.rest = [])
    (hidle : Idle (Parser.guardsAll parsers) (Parser.climbsAll parsers) cursor.offset engine) :
    Yields (longestMatch call (cursor.staying best) parsers cursor) engine fun output engine' =>
      output = cursor.staying
          (Parser.meansLongest best (Parser.endlessAll parsers) cursor.left.content []) ∧
        Untouched engine engine' := by
  induction parsers generalizing engine best with
  | nil => exact yields_longestMatch_nil ⟨rfl, .refl engine⟩
  | cons parser parsers ih =>
      obtain ⟨hparser, hparsers⟩ := List.forall_mem_cons.mp hcall
      apply yields_longestMatch_cons
      apply (hparser hinside (idle_head hidle)).mono
      rintro _ engine' ⟨rfl, hsame⟩
      have hidle' := (idle_tail hidle).untouched hsame
      simp only [Parser.endlessAll, Parser.meansLongest]
      cases hmeans : parser.endless.means cursor.left.content [] with
      | none =>
          apply (ih hparsers hbest hidle').mono
          rintro output engine'' ⟨houtput, hsame'⟩
          exact ⟨houtput, hsame.trans hsame'⟩
      | some found =>
          have hrest := Parser.rest_of_means_nil hmeans
          have hlonger := longer_staying cursor hbest hrest
          have hnext : ∀ earlier, some (Found.longer best found) = some earlier →
              earlier.rest = [] := by
            rintro _ ⟨⟩
            exact rest_longer hbest hrest
          simp only [Cursor.staying, Option.map_some] at hlonger ⊢
          rw [hlonger]
          apply (ih hparsers hnext hidle').mono
          rintro output engine'' ⟨houtput, hsame'⟩
          exact ⟨houtput, hsame.trans hsame'⟩

/-! ## Sequences and repetition -/

theorem inSequence_stays (hcall : ∀ parser ∈ parsers, Stays call parser) (hinside : cursor.Inside)
    (hidle : Idle (Parser.guardsAll parsers) (Parser.climbsAll parsers) cursor.offset engine) :
    Yields (inSequence call parsers cursor) engine fun result engine' =>
      result = ((Parser.meansAll (Parser.endlessAll parsers) cursor.left.content []).map
          fun (payloads, _, kept) => (payloads, cursor.withLeft (cursor.left.behind kept))) ∧
        Untouched engine engine' := by
  induction parsers generalizing engine cursor with
  | nil => exact yields_inSequence_nil ⟨rfl, .refl engine⟩
  | cons parser parsers ih =>
      obtain ⟨hparser, hparsers⟩ := List.forall_mem_cons.mp hcall
      apply yields_inSequence_cons
      apply (hparser hinside (idle_head hidle)).mono
      rintro _ engine' ⟨rfl, hsame⟩
      simp only [Parser.endlessAll, Parser.meansAll]
      cases hmeans : parser.endless.means cursor.left.content [] with
      | none => exact ⟨rfl, hsame⟩
      | some found =>
          have hrest := Parser.rest_of_means_nil hmeans
          have hnext := hinside.withLeft (cursor.left.behind found.kept)
          simp only [Cursor.staying, Option.map_some]
          apply (ih hparsers hnext ((idle_tail hidle).untouched hsame)).mono
          rintro _ engine'' ⟨rfl, hsame'⟩
          refine ⟨?_, hsame.trans hsame'⟩
          rw [Option.bind_some, hrest, Cursor.left_withLeft, Left.content_behind]
          simp only [Option.map_map]
          apply Option.map_congr
          rintro ⟨payloads, rest, kept⟩ -
          simp only [Function.comp_apply, Left.behind_behind]
          rfl

/-- A match that takes nothing is the last one. -/
theorem repeatMatch_stays {fuel : Nat} {atMost : Option Nat} (hcall : Stays call parser)
    (hinside : cursor.Inside) (hidle : Idle parser.guards parser.climbs cursor.offset engine)
    {found : List α × Nat × List Char × Bool}
    (hfound : Parser.repeatMeans parser.endless.means atMost cursor.left.content [] 0 [] true =
      found) :
    Yields (repeatMatch call parser atMost (fuel + 1) [] 0 cursor) engine fun result engine' =>
      result = (found.1, found.2.1, cursor.withLeft (cursor.left.behind found.2.2.2)) ∧
        Untouched engine engine' := by
  subst hfound
  cases hroom : allows atMost 0 with
  | false =>
      rw [Parser.repeatMeans_of_full hroom]
      exact yields_repeatMatch_full hroom ⟨rfl, .refl engine⟩
  | true =>
      apply yields_repeatMatch_succ hroom
      apply (hcall hinside hidle).mono
      rintro _ engine' ⟨rfl, hsame⟩
      cases hmeans : parser.endless.means cursor.left.content [] with
      | none =>
          rw [Parser.repeatMeans_of_none hroom hmeans]
          exact ⟨rfl, hsame⟩
      | some found =>
          have hrest := Parser.rest_of_means_nil hmeans
          rw [Parser.repeatMeans_of_some hroom hmeans, hrest, if_neg (Nat.lt_irrefl _)]
          exact (if_neg (Nat.lt_irrefl cursor.offset)).mpr ⟨rfl, hsame⟩

theorem repetition_stays {fuel atLeast : Nat} {atMost : Option Nat} {collect : List α → α}
    (hcall : Stays call parser) (hfuel : 0 < fuel) (hinside : cursor.Inside)
    (hidle : Idle parser.guards parser.climbs cursor.offset engine) :
    Yields (repetition call fuel parser atLeast atMost collect cursor) engine
      fun output engine' =>
        output = cursor.staying ((Parser.repeated parser atLeast atMost collect).endless.means
            cursor.left.content []) ∧
          Untouched engine engine' := by
  obtain ⟨fuel, rfl⟩ := Nat.exists_eq_succ_of_ne_zero (Nat.ne_of_gt hfuel)
  apply yields_repetition
  apply (repeatMatch_stays hcall hinside hidle rfl).mono
  rintro _ engine' ⟨rfl, hsame⟩
  refine ⟨?_, hsame⟩
  rw [Parser.endless, Parser.means]
  dsimp only
  split <;> rfl

/-! ## Folds -/

theorem leftOperand_stays (hcall : Stays call parser) (hinside : cursor.Inside)
    (hidle : Idle parser.guards parser.climbs cursor.offset engine) :
    Yields (leftOperand call parser cursor) engine fun output engine' =>
      output = ((Parser.operand parser.endless.means cursor.left.content []).map
          fun (x, _) => ⟨x, cursor.withoutLeft⟩) ∧ Untouched engine engine' := by
  unfold leftOperand
  cases hleft : cursor.left with
  | rightOperand => exact Yields.pure ⟨rfl, .refl engine⟩
  | empty =>
      apply (hcall hinside hidle).mono
      rintro _ engine' ⟨rfl, hsame⟩
      refine ⟨?_, hsame⟩
      rw [Cursor.staying, hleft, Left.content, Parser.operand, Option.map_map]
      apply Option.map_congr
      intro found _
      cases found.kept <;> simp [Found.pair, Left.behind, Cursor.withoutLeft]
  | operand tag value =>
      cases value with
      | none => exact Yields.pure ⟨rfl, .refl engine⟩
      | some value => exact Yields.pure ⟨rfl, .refl engine⟩

theorem rightOperand_stays (hcall : Stays call parser) (hinside : cursor.Inside)
    (hidle : Idle parser.guards parser.climbs cursor.offset engine) :
    Yields (rightOperand call parser cursor) engine fun output engine' =>
      output = ((parser.endless.means .rightOperand []).map
          fun found => ⟨found.payload, cursor.withoutLeft⟩) ∧ Untouched engine engine' := by
  apply yields_rightOperand
  apply (hcall (hinside.withLeft .rightOperand) hidle).mono
  rintro _ engine' ⟨rfl, hsame⟩
  refine ⟨?_, hsame⟩
  rw [Cursor.staying, Option.map_map]
  rfl

/-- What a fold makes of the offer of its folded payload. -/
theorem foldResult_staying {tag : Nat} {folded : α} {found : Option (Found α)} (left : Left α) :
    some (foldResult folded cursor.withoutLeft
        ((cursor.withLeft (.operand tag (some folded))).staying found)) =
      (cursor.withLeft left).staying (some (Found.folded folded [] found)) := by
  cases found with
  | none => rfl
  | some found => cases hkept : found.kept <;> simp [Cursor.staying, foldResult, Found.folded,
      Left.behind, Left.isEmpty, hkept] <;> rfl

/-- Behind the middle of a fold: the right operand, and what extends the folded payload. -/
theorem foldRight_stays {left right : Parser α} (combine : α → α) (hleft : Stays call left)
    (hright : Stays call right) (hinside : cursor.Inside) {before : Engine α}
    (hsame : Untouched before engine)
    (hidleLeft : Idle left.guards left.climbs cursor.offset before)
    (hidleRight : Idle right.guards right.climbs cursor.offset before) :
    Yields (rightOperand call right cursor.withoutLeft) engine fun found engine' =>
      match found with
      | none =>
          none = cursor.staying ((right.endless.means .rightOperand []).map fun found =>
            Found.folded (combine found.payload) found.rest
              (left.endless.means (.operand (some (combine found.payload))) found.rest)) ∧
            Untouched before engine'
      | some output =>
          Yields (call left (output.next.withLeft
              (.operand engine'.nextTag (some (combine output.payload))))) engine'.tagged
            fun extended engine' =>
              some (foldResult (combine output.payload) output.next extended) =
                  cursor.staying ((right.endless.means .rightOperand []).map fun found =>
                    Found.folded (combine found.payload) found.rest
                      (left.endless.means (.operand (some (combine found.payload))) found.rest)) ∧
                Untouched before engine' := by
  apply (rightOperand_stays hright (hinside.withLeft .empty) (hidleRight.untouched hsame)).mono
  rintro _ engine₁ ⟨rfl, hsame₁⟩
  cases hmeans : right.endless.means .rightOperand [] with
  | none => exact ⟨rfl, hsame.trans hsame₁⟩
  | some found =>
      have hrest := Parser.rest_of_means_nil hmeans
      have hsame' := hsame.trans (hsame₁.trans (.tagged engine₁))
      apply (hleft (hinside.withLeft (.operand engine₁.nextTag (some (combine found.payload))))
        (hidleLeft.untouched hsame')).mono
      rintro _ engine₂ ⟨rfl, hsame₂⟩
      refine ⟨?_, hsame'.trans hsame₂⟩
      rw [Option.map_some, hrest]
      exact foldResult_staying cursor.left

theorem foldStep_stays {left right : Parser α} {middle : List (Parser α)} {combine : List α → α}
    (hleft : Stays call left) (hmiddle : ∀ parser ∈ middle, Stays call parser)
    (hright : Stays call right) (hinside : cursor.Inside)
    (hidle : Idle (Parser.foldLeft left middle right combine).guards
      (Parser.foldLeft left middle right combine).climbs cursor.offset engine) :
    Yields (foldStep call left middle right combine cursor) engine fun output engine' =>
      output = cursor.staying
          ((Parser.foldLeft left middle right combine).endless.means cursor.left.content []) ∧
        Untouched engine engine' := by
  obtain ⟨hidle₁, hidle₂, hidle₃⟩ := idle_foldLeft hidle
  apply yields_foldStep
  apply (leftOperand_stays hleft hinside hidle₁).mono
  rintro _ engine₁ ⟨rfl, hsame₁⟩
  rw [Parser.endless, Parser.means]
  cases hoperand : Parser.operand left.endless.means cursor.left.content [] with
  | none => exact ⟨rfl, hsame₁⟩
  | some operand =>
      obtain ⟨x, rest₁⟩ := operand
      have hrest₁ : rest₁ = [] := by
        have hle := Parser.operand_le (Parser.means_le left.endless) hoperand
        exact Text.byteLength_eq_zero_iff.mp (Nat.le_zero.mp hle)
      subst hrest₁
      apply (inSequence_stays hmiddle (hinside.withLeft .empty) (hidle₂.untouched hsame₁)).mono
      rintro _ engine₂ ⟨rfl, hsame₂⟩
      have hempty : (cursor.withLeft .empty).left.content = .empty := rfl
      rw [hempty]
      cases hall : Parser.meansAll (Parser.endlessAll middle) .empty [] with
      | none =>
          refine ⟨?_, hsame₁.trans hsame₂⟩
          simp only [Option.bind_some, hall]
          rfl
      | some result =>
          obtain ⟨payloads, rest₂, kept⟩ := result
          have hrest₂ : rest₂ = [] := by
            have hle := Parser.meansAll_le (Parser.endlessAll middle) _ _ _ hall
            exact Text.byteLength_eq_zero_iff.mp (Nat.le_zero.mp hle)
          subst hrest₂
          have hnext : (cursor.withLeft .empty).withLeft ((Left.empty : Left α).behind kept) =
              cursor.withoutLeft := by
            cases kept <;> rfl
          simp only [Option.bind_some, hall, Option.map_some, Cursor.left_withLeft, hnext]
          exact foldRight_stays (fun payload => combine (x :: payloads ++ [payload])) hleft hright
            hinside (hsame₁.trans hsame₂) hidle₁ hidle₃

/-! ## Steps -/

section Steps

variable {rules : Rules α} {fuel : Nat}

theorem endOfInput_stays {payload : α} : Stays (step rules fuel call) (.endOfInput payload) := by
  intro cursor engine hinside hidle
  refine Yields.pure ⟨?_, .refl engine⟩
  rw [hinside.atEnd_eq]
  rfl

theorem satisfy_stays {accepts : Char → Bool} {payload : Char → α} :
    Stays (step rules fuel call) (.satisfy accepts payload) := by
  intro cursor engine hinside hidle
  refine Yields.pure ⟨?_, .refl engine⟩
  exact takeChar_of_nil hinside.rest_eq

theorem literal_stays {chars : List Char} {payload : α} :
    Stays (step rules fuel call) (.literal chars payload) := by
  intro cursor engine hinside hidle
  refine Yields.pure ⟨?_, .refl engine⟩
  cases chars with
  | nil =>
      have hnext : cursor.consume [] cursor.rest rfl = cursor := Cursor.ext rfl rfl rfl
      exact congrArg (fun next : Cursor α => some (⟨payload, next⟩ : Output α)) hnext
  | cons c cs =>
      have hnone : after? (c :: cs) cursor.rest = none := by
        apply after?_eq_none
        rw [hinside.rest_eq]
        rfl
      rw [takeLiteral, hnone]
      rfl

theorem except_stays (hcall : Stays call parser)
    (hexcluded : ∀ parser ∈ parsers, Stays call parser) :
    Stays (step rules fuel call) (.except parser parsers) := by
  intro cursor engine hinside hidle
  obtain ⟨hidleParser, hidleExcluded⟩ := idle_except hidle
  apply yields_unlessMatch
  apply (firstMatch_stays hexcluded hinside hidleExcluded).mono
  rintro _ engine' ⟨rfl, hsame⟩
  rw [Parser.endless, Parser.means]
  cases Parser.meansFirst (Parser.endlessAll parsers) cursor.left.content [] with
  | some found => exact ⟨rfl, hsame⟩
  | none =>
      apply (hcall hinside (hidleParser.untouched hsame)).mono
      rintro output engine'' ⟨houtput, hsame'⟩
      exact ⟨houtput, hsame.trans hsame'⟩

theorem sequence_stays {combine : List α → α} (hcall : ∀ parser ∈ parsers, Stays call parser) :
    Stays (step rules fuel call) (.sequence parsers combine) := by
  intro cursor engine hinside hidle
  apply Yields.bind
  apply (inSequence_stays hcall hinside hidle).mono
  rintro _ engine' ⟨rfl, hsame⟩
  rw [Parser.endless, Parser.means]
  cases Parser.meansAll (Parser.endlessAll parsers) cursor.left.content [] with
  | none => exact Yields.pure ⟨rfl, hsame⟩
  | some found => exact Yields.pure ⟨rfl, hsame⟩

theorem optional_stays {wrap : Option α → α} (hcall : Stays call parser) :
    Stays (step rules fuel call) (.optional parser wrap) := by
  intro cursor engine hinside hidle
  apply Yields.bind
  apply (hcall hinside hidle).mono
  rintro _ engine' ⟨rfl, hsame⟩
  rw [Parser.endless, Parser.means]
  cases parser.endless.means cursor.left.content [] with
  | none => exact Yields.pure ⟨rfl, hsame⟩
  | some found => exact Yields.pure ⟨rfl, hsame⟩

theorem convert_stays {f : α → Option α} (hcall : Stays call parser) :
    Stays (step rules fuel call) (.convert parser f) := by
  intro cursor engine hinside hidle
  apply Yields.bind
  apply (hcall hinside hidle).mono
  rintro _ engine' ⟨rfl, hsame⟩
  rw [Parser.endless, Parser.means]
  cases parser.endless.means cursor.left.content [] with
  | none => exact Yields.pure ⟨rfl, hsame⟩
  | some found =>
      refine Yields.pure ⟨?_, hsame⟩
      rw [Option.bind_some]
      cases f found.payload <;> rfl

theorem guarded_stays {id : Nat} (hcall : Stays call parser) (hid : id ∉ parser.guards) :
    Stays (step rules fuel call) (.guarded id parser) := by
  intro cursor engine hinside hidle
  have hfree := hidle.free id List.mem_cons_self cursor.offset (Nat.le_refl _)
  apply yields_guardedMatch_free hfree
  apply (hcall hinside ((idle_guarded hidle).entered hid cursor.offset)).mono
  rintro output engine' ⟨houtput, hsame⟩
  exact ⟨houtput, hsame.freed⟩

theorem climb_stays {id : Nat} (hcall : ∀ parser ∈ parsers, Stays call parser)
    (hid : id ∉ Parser.climbsAll parsers) : Stays (step rules fuel call) (.climb id parsers) := by
  intro cursor engine hinside hidle
  apply yields_climbMatch_idle (hidle.calm id List.mem_cons_self)
  rw [Parser.endless, Parser.means, Left.isOperand_content]
  cases hoperand : cursor.left.isOperand with
  | true => exact ⟨rfl, .refl engine⟩
  | false =>
      apply (attemptAll_stays hcall hinside.withoutLeft hid (idle_climb hidle)).mono
      rintro _ engine' ⟨rfl, hsame⟩
      exact ⟨cursor.staying_withoutLeft _, hsame⟩

theorem logged_stays {name : String} (hcall : Stays call parser) :
    Stays (step rules fuel call) (.logged name parser) := by
  intro cursor engine hinside hidle
  apply yields_loggedMatch
  apply (hcall hinside (hidle.untouched (.recorded engine _))).mono
  rintro output engine' ⟨houtput, hsame⟩
  exact ⟨houtput, ((Untouched.recorded engine _).trans hsame).trans (.recorded engine' _)⟩

/-- Inside a character, a plain node stays there if its parts do. -/
theorem step_stays (hplain : parser.plain = true)
    (hparts : ∀ part ∈ parser.children, Stays call part) (hfuel : 0 < fuel) :
    Stays (step rules fuel call) parser := by
  cases parser with
  | satisfy accepts payload => exact satisfy_stays
  | literal chars payload => exact literal_stays
  | endOfInput payload => exact endOfInput_stays
  | except parser excluded =>
      obtain ⟨hparser, hexcluded⟩ := List.forall_mem_cons.mp hparts
      exact except_stays hparser hexcluded
  | firstOf alternatives => exact fun _ _ => firstMatch_stays hparts
  | longestOf alternatives =>
      have hnone : ∀ earlier : Found α, none = some earlier → earlier.rest = [] := by
        intro earlier h
        cases h
      exact fun _ _ hinside hidle => longestMatch_stays hparts hinside hnone hidle
  | sequence parts combine => exact sequence_stays hparts
  | foldLeft left middle right combine =>
      obtain ⟨hleft, hmiddle, hright⟩ := Parser.forall_mem_children_foldLeft.mp hparts
      exact fun _ _ => foldStep_stays hleft hmiddle hright
  | repeated parser atLeast atMost collect =>
      have hparser := hparts parser List.mem_cons_self
      exact fun _ _ hinside hidle => repetition_stays hparser hfuel hinside hidle
  | optional parser wrap => exact optional_stays (hparts parser List.mem_cons_self)
  | convert parser f => exact convert_stays (hparts parser List.mem_cons_self)
  | guarded id parser =>
      exact guarded_stays (hparts parser List.mem_cons_self) (Parser.plain_guarded.mp hplain).2
  | climb id alternatives => exact climb_stays hparts (Parser.plain_climb.mp hplain).2
  | nested parser =>
      have hparser := hparts parser List.mem_cons_self
      exact fun _ _ hinside hidle => hparser hinside hidle
  | logged name parser => exact logged_stays (hparts parser List.mem_cons_self)
  | memo id cache parser | clearing id cache parser | call rule | redirected move parser =>
      cases hplain

end Steps

end Engine

open Engine in
/-- Inside a character, every run of a plain parser stays there and leaves the state as it was. -/
theorem run_inside (rules : Rules α) {fuel : Nat} {parser : Parser α} (hplain : parser.plain = true)
    (hfuel : parser.size < fuel) : Stays (run rules fuel) parser := by
  induction fuel generalizing parser with
  | zero => exact absurd hfuel (Nat.not_lt_zero _)
  | succ fuel ih =>
      have hpos := parser.size_pos
      apply step_stays hplain
      · intro part hpart
        have hsize := Parser.size_lt_of_mem_children hpart
        exact ih (Parser.plain_of_mem_children hplain hpart) (by omega)
      · omega

end Packrat
