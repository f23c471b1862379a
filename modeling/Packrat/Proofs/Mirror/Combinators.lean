import Packrat.Proofs.Mirror.Basic
import Packrat.Proofs.Nodes

/-!
# Combinators that mirror each other

One rule for each piece of the interpreter: where the calls that it makes are mirrored, so is the
piece itself.  `Engine.mirrors_step` puts together those nodes that keep nothing in the engine; for
the others there is a rule each, which leaves it to the runs what states correspond inside them.
-/

namespace Packrat.Engine

variable {α : Type} {bond : Bond α} {call call' call'' : Call α} {engine engine' : Engine α}
  {cursor cursor' : Cursor α} {parser : Parser α} {parsers : List (Parser α)} {id : Nat}
  {post : Option (Output α) → Engine α → Option (Output α) → Engine α → Prop}

/-! ## Characters -/

theorem takeChar_of_nil {accepts : Char → Bool} {payload : Char → α} (hrest : cursor.rest = []) :
    takeChar accepts payload cursor = none := by
  unfold takeChar
  split <;> rename_i hrest'
  · rfl
  · rw [hrest] at hrest'
    cases hrest'

theorem takeChar_of_cons {accepts : Char → Bool} {payload : Char → α} {c : Char} {cs : List Char}
    (hrest : cursor.rest = c :: cs) :
    takeChar accepts payload cursor =
      if accepts c then some ⟨payload c, cursor.consume [c] cs hrest⟩ else none := by
  unfold takeChar
  split <;> rename_i hrest'
  · rw [hrest] at hrest'
    cases hrest'
  · have hsame := hrest
    rw [hrest'] at hsame
    obtain ⟨rfl, rfl⟩ := List.cons.inj hsame
    rfl

theorem same_takeChar (hlike : bond.like cursor cursor') (accepts : Char → Bool)
    (payload : Char → α) :
    Option.Rel bond.Same (takeChar accepts payload cursor) (takeChar accepts payload cursor') := by
  have hrest' := (bond.alike hlike).rest_eq
  cases hrest : cursor.rest with
  | nil =>
      rw [takeChar_of_nil hrest, takeChar_of_nil (hrest'.trans hrest)]
      exact .none
  | cons c cs =>
      rw [takeChar_of_cons hrest, takeChar_of_cons (hrest'.trans hrest)]
      split
      · exact .some ⟨rfl, bond.consume hlike hrest⟩
      · exact .none

theorem same_takeLiteral (hlike : bond.like cursor cursor') (chars : List Char) (payload : α) :
    Option.Rel bond.Same (takeLiteral chars payload cursor)
      (takeLiteral chars payload cursor') := by
  have hrest' := (bond.alike hlike).rest_eq
  have hafter : ∀ {rest rest' : List Char} (_ : rest' = rest),
      (after? chars rest').map (·.1) = (after? chars rest).map (·.1) := by
    rintro rest _ rfl
    rfl
  have hsame := hafter hrest'
  unfold takeLiteral
  cases htail : after? chars cursor.rest with
  | none =>
      rw [htail] at hsame
      rw [Option.map_eq_none_iff.mp hsame]
      exact .none
  | some tail =>
      rw [htail] at hsame
      obtain ⟨⟨rest, hrest⟩, htail', rfl⟩ := Option.map_eq_some_iff.mp hsame
      rw [htail']
      exact .some ⟨rfl, bond.consume hlike tail.2⟩

/-! ## Alternatives -/

theorem mirrors_firstMatch (hcall : ∀ part ∈ parsers, bond.Mirrored call call' call'' part)
    (hlike : bond.like cursor cursor') (h : bond.holds engine engine') :
    Mirrors (firstMatch call parsers cursor) engine (firstMatch call' parsers cursor')
      (firstMatch call'' parsers cursor') engine' bond.Found := by
  induction parsers generalizing engine engine' with
  | nil => exact Mirrors.pure (.none h)
  | cons parser parsers ih =>
      obtain ⟨hhead, htail⟩ := List.forall_mem_cons.mp hcall
      apply Mirrors.bind
      apply (hhead hlike h).mono
      rintro found out found' out' ⟨hholds, hsame⟩
      cases hsame with
      | none => exact ih htail hholds
      | some hsame => exact Mirrors.pure (.some hholds hsame)

theorem same_longer {best best' : Option (Output α)} {output output' : Output α}
    (hbest : Option.Rel bond.Same best best') (h : bond.Same output output') :
    bond.Same (longer best output) (longer best' output') := by
  cases hbest with
  | none => exact h
  | some hearlier =>
      simp only [longer, h.offset_eq, hearlier.offset_eq]
      split
      · exact hearlier
      · exact h

theorem mirrors_longestMatch {best best' : Option (Output α)}
    (hcall : ∀ part ∈ parsers, bond.Mirrored call call' call'' part)
    (hlike : bond.like cursor cursor') (hbest : Option.Rel bond.Same best best')
    (h : bond.holds engine engine') :
    Mirrors (longestMatch call best parsers cursor) engine
      (longestMatch call' best' parsers cursor') (longestMatch call'' best' parsers cursor')
      engine' bond.Found := by
  induction parsers generalizing engine engine' best best' with
  | nil => exact Mirrors.pure ⟨h, hbest⟩
  | cons parser parsers ih =>
      obtain ⟨hhead, htail⟩ := List.forall_mem_cons.mp hcall
      apply Mirrors.bind
      apply (hhead hlike h).mono
      rintro found out found' out' ⟨hholds, hsame⟩
      cases hsame with
      | none => exact ih htail hbest hholds
      | some hsame => exact ih htail (.some (same_longer hbest hsame)) hholds

theorem mirrors_unlessMatch (hparser : bond.Mirrored call call' call'' parser)
    (hexcluded : ∀ part ∈ parsers, bond.Mirrored call call' call'' part)
    (hlike : bond.like cursor cursor') (h : bond.holds engine engine') :
    Mirrors (unlessMatch call parser parsers cursor) engine
      (unlessMatch call' parser parsers cursor') (unlessMatch call'' parser parsers cursor') engine'
      bond.Found := by
  apply Mirrors.bind
  apply (mirrors_firstMatch hexcluded hlike h).mono
  rintro found out found' out' ⟨hholds, hsame⟩
  cases hsame with
  | none => exact hparser hlike hholds
  | some hsame => exact Mirrors.pure (.none hholds)

/-! ## Sequences and repetition -/

/-- Both runs gather the same payloads and go on at cursors that correspond. -/
structure Row (bond : Bond α) (row row' : List α × Cursor α) : Prop where
  payloads_eq : row'.1 = row.1
  next : bond.like row.2 row'.2

theorem mirrors_inSequence (hcall : ∀ part ∈ parsers, bond.Mirrored call call' call'' part)
    (hlike : bond.like cursor cursor') (h : bond.holds engine engine') :
    Mirrors (inSequence call parsers cursor) engine (inSequence call' parsers cursor')
      (inSequence call'' parsers cursor') engine' fun found out found' out' =>
        bond.holds out out' ∧ Option.Rel (Row bond) found found' := by
  induction parsers generalizing engine engine' cursor cursor' with
  | nil => exact Mirrors.pure ⟨h, .some ⟨rfl, hlike⟩⟩
  | cons parser parsers ih =>
      obtain ⟨hhead, htail⟩ := List.forall_mem_cons.mp hcall
      apply Mirrors.bind
      apply (hhead hlike h).mono
      rintro found out found' out' ⟨hholds, hsame⟩
      cases hsame with
      | none => exact Mirrors.pure ⟨hholds, .none⟩
      | some hsame =>
          apply Mirrors.bind
          apply (ih htail hsame.next hholds).mono
          rintro found out found' out' ⟨hholds, hrow⟩
          cases hrow with
          | none => exact Mirrors.pure ⟨hholds, .none⟩
          | some hrow =>
              refine Mirrors.pure ⟨hholds, .some ⟨?_, hrow.next⟩⟩
              rw [hsame.payload_eq, hrow.payloads_eq]

/--
The second bound lets a loop turn as often as the first one, or to the end of the text, which is the
same for all cursors that correspond.
-/
def Turns (bond : Bond α) (cursor : Cursor α) (fuel fuel' : Nat) : Prop :=
  fuel ≤ fuel' ∨ cursor.source.size - cursor.offset < fuel' ∧
    ∀ {next next'}, bond.like next next' → next.source = cursor.source

theorem Turns.ahead {next next' : Cursor α} {fuel fuel' : Nat}
    (h : Turns bond cursor (fuel + 1) (fuel' + 1)) (hlike : bond.like next next')
    (hoffset : cursor.offset < next.offset) : Turns bond next fuel fuel' := by
  rcases h with hfuel | ⟨hahead, hwithin⟩
  · exact Or.inl (Nat.le_of_succ_le_succ hfuel)
  · have hsource := hwithin hlike
    have hle := next.offset_le
    refine Or.inr ⟨?_, fun hlike => (hwithin hlike).trans hsource.symm⟩
    rw [hsource] at hle ⊢
    omega

theorem Turns.exists_succ {fuel fuel' : Nat} (h : Turns bond cursor (fuel + 1) fuel') :
    ∃ fewer, fuel' = fewer + 1 :=
  Nat.exists_eq_succ_of_ne_zero (by rcases h with h | ⟨h, -⟩ <;> omega)

/-- Both runs gather the same payloads, as many of them, and go on at cursors that correspond. -/
structure Loop (bond : Bond α) (loop loop' : List α × Nat × Cursor α) : Prop where
  payloads_eq : loop'.1 = loop.1
  count_eq : loop'.2.1 = loop.2.1
  next : bond.like loop.2.2 loop'.2.2

theorem mirrors_repeatMatch {atMost : Option Nat} {fuel fuel' fuel'' count : Nat}
    {payloads : List α} (hcall : bond.Mirrored call call' call'' parser)
    (hturns : Turns bond cursor fuel fuel') (hturns' : Turns bond cursor fuel fuel'')
    (hlike : bond.like cursor cursor') (h : bond.holds engine engine') :
    Mirrors (repeatMatch call parser atMost fuel payloads count cursor) engine
      (repeatMatch call' parser atMost fuel' payloads count cursor')
      (repeatMatch call'' parser atMost fuel'' payloads count cursor') engine'
      fun loop out loop' out' => bond.holds out out' ∧ Loop bond loop loop' := by
  induction fuel generalizing fuel' fuel'' engine engine' cursor cursor' payloads count with
  | zero => exact Mirrors.of_stop rfl
  | succ fuel ih =>
      obtain ⟨fuel', rfl⟩ := hturns.exists_succ
      obtain ⟨fuel'', rfl⟩ := hturns'.exists_succ
      simp only [repeatMatch]
      cases allows atMost count with
      | false => exact Mirrors.pure ⟨h, rfl, rfl, hlike⟩
      | true =>
          apply Mirrors.bind
          apply (hcall hlike h).mono
          rintro found out found' out' ⟨hholds, hsame⟩
          cases hsame with
          | none => exact Mirrors.pure ⟨hholds, rfl, rfl, hlike⟩
          | @some output output' hsame =>
              simp only [hsame.offset_eq, (bond.alike hlike).offset_eq, hsame.payload_eq]
              by_cases hmoved : cursor.offset < output.next.offset
              · simp only [hmoved, if_true]
                exact ih (hturns.ahead hsame.next hmoved) (hturns'.ahead hsame.next hmoved)
                  hsame.next hholds
              · simp only [hmoved, if_false]
                exact Mirrors.pure ⟨hholds, rfl, rfl, hsame.next⟩

theorem mirrors_repetition {atLeast : Nat} {atMost : Option Nat} {collect : List α → α}
    {fuel fuel' fuel'' : Nat} (hcall : bond.Mirrored call call' call'' parser)
    (hturns : Turns bond cursor fuel fuel') (hturns' : Turns bond cursor fuel fuel'')
    (hlike : bond.like cursor cursor') (h : bond.holds engine engine') :
    Mirrors (repetition call fuel parser atLeast atMost collect cursor) engine
      (repetition call' fuel' parser atLeast atMost collect cursor')
      (repetition call'' fuel'' parser atLeast atMost collect cursor') engine' bond.Found := by
  apply Mirrors.bind
  apply (mirrors_repeatMatch hcall hturns hturns' hlike h).mono
  rintro ⟨payloads, count, next⟩ out ⟨payloads', count', next'⟩ out' ⟨hholds, hloop⟩
  obtain rfl : payloads' = payloads := hloop.payloads_eq
  obtain rfl : count' = count := hloop.count_eq
  by_cases hfew : count' < atLeast
  · simp only [hfew, if_true]
    exact Mirrors.pure (.none hholds)
  · simp only [hfew, if_false]
    exact Mirrors.pure (.some hholds ⟨rfl, hloop.next⟩)

/-! ## Left recursion -/

theorem mirrors_leftOperand (hcall : bond.Mirrored call call' call'' parser)
    (hlike : bond.like cursor cursor') (h : bond.holds engine engine') :
    Mirrors (leftOperand call parser cursor) engine (leftOperand call' parser cursor')
      (leftOperand call'' parser cursor') engine' bond.Found := by
  have hcontent := (bond.alike hlike).content_eq
  unfold leftOperand
  cases hleft : cursor.left with
  | empty =>
      rw [hleft] at hcontent
      rw [Left.content_eq_empty_iff.mp hcontent]
      exact hcall hlike h
  | rightOperand =>
      rw [hleft] at hcontent
      cases hleft' : cursor'.left with
      | rightOperand => exact Mirrors.pure (.none h)
      | _ => rw [hleft'] at hcontent; cases hcontent
  | operand tag value =>
      rw [hleft] at hcontent
      cases hleft' : cursor'.left with
      | operand tag' value' =>
          rw [hleft'] at hcontent
          obtain rfl := LeftContent.operand.inj hcontent
          cases value' with
          | none => exact Mirrors.pure (.none h)
          | some value => exact Mirrors.pure (.some h ⟨rfl, bond.withLeft hlike rfl⟩)
      | _ => rw [hleft'] at hcontent; cases hcontent

theorem mirrors_rightOperand (hcall : bond.Mirrored call call' call'' parser)
    (hlike : bond.like cursor cursor') (h : bond.holds engine engine') :
    Mirrors (rightOperand call parser cursor) engine (rightOperand call' parser cursor')
      (rightOperand call'' parser cursor') engine' bond.Found := by
  apply Mirrors.bind
  apply (hcall (bond.withLeft hlike rfl) h).mono
  rintro found out found' out' ⟨hholds, hsame⟩
  cases hsame with
  | none => exact Mirrors.pure (.none hholds)
  | some hsame =>
      exact Mirrors.pure (.some hholds ⟨hsame.payload_eq, bond.withLeft hsame.next rfl⟩)

/--
What the left operand's parser finds behind a fold has the same payload in both runs, and goes on at
cursors that correspond, unless it leaves something to its left in both.
-/
structure Extension (bond : Bond α) (output output' : Output α) : Prop where
  payload_eq : output'.payload = output.payload
  isEmpty_eq : output'.next.left.isEmpty = output.next.left.isEmpty
  next : output.next.left.isEmpty = true → bond.like output.next output'.next

/-- Where a folded payload is offered to a parser, the two other runs mirror the first one. -/
def Extends (bond : Bond α) (call call' call'' : Call α) (parser : Parser α) : Prop :=
  ∀ {cursor cursor' engine engine'} (value : α), bond.like cursor cursor' →
    bond.holds engine engine' →
      Mirrors (call parser (cursor.withLeft (.operand engine.nextTag (some value)))) engine.tagged
        (call' parser (cursor'.withLeft (.operand engine'.nextTag (some value))))
        (call'' parser (cursor'.withLeft (.operand engine'.nextTag (some value)))) engine'.tagged
        fun found out found' out' =>
          bond.holds out out' ∧ Option.Rel (Extension bond) found found'

/-- A mirrored parser extends alike what it is offered alike. -/
theorem Extends.of_mirrored (h : bond.Mirrored call call' call'' parser)
    (hoffer : ∀ {cursor cursor' engine engine'} (value : α), bond.like cursor cursor' →
      bond.holds engine engine' →
        bond.like (cursor.withLeft (.operand engine.nextTag (some value)))
            (cursor'.withLeft (.operand engine'.nextTag (some value))) ∧
          bond.holds engine.tagged engine'.tagged) :
    Extends bond call call' call'' parser := by
  intro cursor cursor' engine engine' value hlike hholds
  obtain ⟨hoffered, htagged⟩ := hoffer value hlike hholds
  apply (h hoffered htagged).mono
  rintro found out found' out' ⟨hout, hsame⟩
  refine ⟨hout, ?_⟩
  cases hsame with
  | none => exact .none
  | some hsame =>
      exact .some ⟨hsame.payload_eq, (bond.alike hsame.next).isEmpty_eq, fun _ => hsame.next⟩

theorem mirrors_foldStep {left right : Parser α} {middle : List (Parser α)} {combine : List α → α}
    (hleft : bond.Mirrored call call' call'' left)
    (hmiddle : ∀ part ∈ middle, bond.Mirrored call call' call'' part)
    (hright : bond.Mirrored call call' call'' right)
    (hextends : Extends bond call call' call'' left)
    (hlike : bond.like cursor cursor') (h : bond.holds engine engine') :
    Mirrors (foldStep call left middle right combine cursor) engine
      (foldStep call' left middle right combine cursor')
      (foldStep call'' left middle right combine cursor') engine' bond.Found := by
  apply Mirrors.bind
  apply (mirrors_leftOperand hleft hlike h).mono
  rintro _ out _ out' ⟨hholds, hfirst⟩
  cases hfirst with
  | none => exact Mirrors.pure (.none hholds)
  | some hfirst =>
      apply Mirrors.bind
      apply (mirrors_inSequence hmiddle hfirst.next hholds).mono
      rintro _ out _ out' ⟨hholds, hrow⟩
      cases hrow with
      | none => exact Mirrors.pure (.none hholds)
      | some hrow =>
          apply Mirrors.bind
          apply (mirrors_rightOperand hright hrow.next hholds).mono
          rintro _ out _ out' ⟨hholds, hlast⟩
          cases hlast with
          | none => exact Mirrors.pure (.none hholds)
          | some hlast =>
              apply Mirrors.bind
              apply Mirrors.of_eq (freshTag_eq out) (freshTag_eq out')
              simp only [hfirst.payload_eq, hrow.payloads_eq, hlast.payload_eq]
              apply Mirrors.bind
              apply (hextends _ hlast.next hholds).mono
              rintro _ out _ out' ⟨hholds, hextended⟩
              cases hextended with
              | none => exact Mirrors.pure (.some hholds ⟨rfl, hlast.next⟩)
              | some hextended =>
                  simp only [hextended.isEmpty_eq]
                  split
                  · next hempty =>
                      exact Mirrors.pure
                        (.some hholds ⟨hextended.payload_eq, hextended.next hempty⟩)
                  · exact Mirrors.pure (.some hholds ⟨rfl, hlast.next⟩)

/-! ## Nodes that keep something in the engine -/

theorem mirrors_guardedMatch (hoffset : cursor'.offset = cursor.offset)
    (hfree : cursor.offset ∉ engine.active.get id → cursor.offset ∉ engine'.active.get id ∧
      Mirrors (call parser cursor) (engine.entered id cursor.offset) (call' parser cursor')
        (call'' parser cursor') (engine'.entered id cursor.offset) fun found out found' out' =>
          post found (out.freed id cursor.offset) found' (out'.freed id cursor.offset))
    (hbusy : cursor.offset ∈ engine.active.get id →
      cursor.offset ∈ engine'.active.get id ∧ post none engine none engine') :
    Mirrors (guardedMatch call id parser cursor) engine (guardedMatch call' id parser cursor')
      (guardedMatch call'' id parser cursor') engine' post := by
  unfold guardedMatch
  rw [hoffset]
  by_cases hmem : cursor.offset ∈ engine.active.get id
  · obtain ⟨hmem', hpost⟩ := hbusy hmem
    apply Mirrors.bind
    exact Mirrors.of_eq (enter_of_busy hmem) (enter_of_busy hmem') (Mirrors.pure hpost)
  · obtain ⟨hmem', hcall⟩ := hfree hmem
    apply Mirrors.bind
    apply Mirrors.of_eq (enter_of_free hmem) (enter_of_free hmem')
    apply Mirrors.bind
    apply hcall.mono
    intro found out found' out' hpost
    apply Mirrors.bind
    exact Mirrors.of_eq (leave_eq _ _ _) (leave_eq _ _ _) (Mirrors.pure hpost)

theorem mirrors_attempt {index : Nat}
    (h : Mirrors (call parser cursor) (engine.pushed id index) (call' parser cursor')
      (call'' parser cursor') (engine'.pushed id index) fun found out found' out' =>
        post found (out.popped id) found' (out'.popped id)) :
    Mirrors (attempt call id index parser cursor) engine (attempt call' id index parser cursor')
      (attempt call'' id index parser cursor') engine' post := by
  apply Mirrors.bind
  apply Mirrors.of_eq (pushAlternative_eq _ _ _) (pushAlternative_eq _ _ _)
  apply Mirrors.bind
  apply h.mono
  intro found out found' out' hpost
  apply Mirrors.bind
  exact Mirrors.of_eq (popAlternative_eq _ _) (popAlternative_eq _ _) (Mirrors.pure hpost)

theorem mirrors_attemptAll {index : Nat}
    (hattempt : ∀ index, ∀ part ∈ parsers,
      bond.Mirrored (attempt call id index) (attempt call' id index) (attempt call'' id index) part)
    (hlike : bond.like cursor cursor') (h : bond.holds engine engine') :
    Mirrors (attemptAll call id index parsers cursor) engine
      (attemptAll call' id index parsers cursor') (attemptAll call'' id index parsers cursor')
      engine' bond.Found := by
  induction parsers generalizing engine engine' index with
  | nil => exact Mirrors.pure (.none h)
  | cons parser parsers ih =>
      apply Mirrors.bind
      apply (hattempt index parser List.mem_cons_self hlike h).mono
      rintro found out found' out' ⟨hholds, hsame⟩
      cases hsame with
      | none => exact ih (fun index part hpart => hattempt index part (.tail _ hpart)) hholds
      | some hsame => exact Mirrors.pure (.some hholds hsame)

/-- Alternatives in order, none of them if the cursors carry an operand. -/
theorem mirrors_attemptFresh {index : Nat}
    (hattempt : ∀ index, ∀ part ∈ parsers,
      bond.Mirrored (attempt call id index) (attempt call' id index) (attempt call'' id index) part)
    (hlike : bond.like cursor cursor') (h : bond.holds engine engine') :
    Mirrors
      (if cursor.left.isOperand then pure none
        else attemptAll call id index parsers cursor.withoutLeft) engine
      (if cursor'.left.isOperand then pure none
        else attemptAll call' id index parsers cursor'.withoutLeft)
      (if cursor'.left.isOperand then pure none
        else attemptAll call'' id index parsers cursor'.withoutLeft) engine' bond.Found := by
  rw [(bond.alike hlike).isOperand_eq]
  cases cursor.left.isOperand with
  | true => exact Mirrors.pure (.none h)
  | false => exact mirrors_attemptAll hattempt (bond.withLeft hlike rfl) h

/-- The active alternative on the cursors as they are, and where it finds nothing the tighter ones. -/
theorem mirrors_attemptTighter {active : Nat} {alternative : Parser α}
    (hattempt : ∀ index, ∀ part ∈ alternative :: parsers,
      bond.Mirrored (attempt call id index) (attempt call' id index) (attempt call'' id index) part)
    (hlike : bond.like cursor cursor') (h : bond.holds engine engine') :
    Mirrors
      (attempt call id active alternative cursor >>= fun
        | some output => pure (some output)
        | none =>
            if cursor.left.isOperand then pure none
            else attemptAll call id (active + 1) parsers cursor.withoutLeft) engine
      (attempt call' id active alternative cursor' >>= fun
        | some output => pure (some output)
        | none =>
            if cursor'.left.isOperand then pure none
            else attemptAll call' id (active + 1) parsers cursor'.withoutLeft)
      (attempt call'' id active alternative cursor' >>= fun
        | some output => pure (some output)
        | none =>
            if cursor'.left.isOperand then pure none
            else attemptAll call'' id (active + 1) parsers cursor'.withoutLeft)
      engine' bond.Found := by
  apply Mirrors.bind
  apply (hattempt active alternative List.mem_cons_self hlike h).mono
  rintro found out found' out' ⟨hholds, hsame⟩
  cases hsame with
  | some hsame => exact Mirrors.pure (.some hholds hsame)
  | none =>
      apply mirrors_attemptFresh _ hlike hholds
      exact fun index part hpart => hattempt index part (.tail _ hpart)

theorem mirrors_climbMatch {restarts restarts' restarts'' : Parser α → Except Stop Bool}
    (hclimbing : engine'.climbing.get id = engine.climbing.get id)
    (hrestarts : ∀ part ∈ parsers, ∀ answer, restarts part = .ok answer →
      restarts' part = .ok answer ∧ restarts'' part = .ok answer)
    (hattempt : ∀ index, ∀ part ∈ parsers,
      bond.Mirrored (attempt call id index) (attempt call' id index) (attempt call'' id index) part)
    (hlike : bond.like cursor cursor') (h : bond.holds engine engine') :
    Mirrors (climbMatch call restarts id parsers cursor) engine
      (climbMatch call' restarts' id parsers cursor')
      (climbMatch call'' restarts'' id parsers cursor') engine' bond.Found := by
  apply Mirrors.bind
  apply Mirrors.of_eq (innermost?_eq engine id) (innermost?_eq engine' id)
  simp only [hclimbing]
  cases (engine.climbing.get id).head? with
  | none => exact mirrors_attemptFresh hattempt hlike h
  | some active =>
      simp only
      cases hdrop : parsers.drop active with
      | nil => exact Mirrors.pure (.none h)
      | cons alternative tighter =>
          have hmem : ∀ part ∈ alternative :: tighter, part ∈ parsers :=
            fun part hpart => List.mem_of_mem_drop (hdrop ▸ hpart)
          cases hanswer : restarts alternative with
          | error stop =>
              intro found out hfound
              simp only [hanswer] at hfound
              cases hfound
          | ok answer =>
              obtain ⟨hanswer', hanswer''⟩ :=
                hrestarts alternative (hmem _ List.mem_cons_self) answer hanswer
              simp only [hanswer, hanswer', hanswer'']
              apply Mirrors.bind
              apply Mirrors.of_eq (show _ = Except.ok (answer, engine) from rfl)
                (show _ = Except.ok (answer, engine') from rfl)
              cases answer with
              | false =>
                  apply mirrors_attemptTighter _ hlike h
                  exact fun index part hpart => hattempt index part (hmem part hpart)
              | true =>
                  simp only [(bond.alike hlike).isOperand_eq]
                  cases cursor.left.isOperand with
                  | true => exact hattempt active alternative (hmem _ List.mem_cons_self) hlike h
                  | false => exact mirrors_attemptAll hattempt (bond.withLeft hlike rfl) h

theorem mirrors_memoMatch {cache : Nat} {key key' : CacheKey}
    (hkey : key = ⟨id, cursor.offset, cursor.left.key⟩)
    (hkey' : key' = ⟨id, cursor'.offset, cursor'.left.key⟩)
    (hhit : ∀ result, (engine.caches.get cache).entries[key]? = some result →
      ∃ result', (engine'.caches.get cache).entries[key']? = some result' ∧
        post result (engine.counted cache key) result' (engine'.counted cache key'))
    (hmiss : (engine.caches.get cache).entries[key]? = none →
      (engine'.caches.get cache).entries[key']? = none ∧
        Mirrors (call parser cursor) ((engine.counted cache key).stored cache key none)
          (call' parser cursor') (call'' parser cursor')
          ((engine'.counted cache key').stored cache key' none) fun found out found' out' =>
            post found (out.stored cache key found) found' (out'.stored cache key' found')) :
    Mirrors (memoMatch call id cache parser cursor) engine (memoMatch call' id cache parser cursor')
      (memoMatch call'' id cache parser cursor') engine' post := by
  subst hkey hkey'
  apply Mirrors.bind
  apply Mirrors.of_eq (lookup?_eq engine cache _) (lookup?_eq engine' cache _)
  cases hentry : (engine.caches.get cache).entries[(⟨id, cursor.offset, cursor.left.key⟩ :
      CacheKey)]? with
  | some result =>
      obtain ⟨result', hentry', hpost⟩ := hhit result hentry
      rw [hentry']
      exact Mirrors.pure hpost
  | none =>
      obtain ⟨hentry', hcall⟩ := hmiss hentry
      rw [hentry']
      apply Mirrors.bind
      apply Mirrors.of_eq (store_eq _ _ _ _) (store_eq _ _ _ _)
      apply Mirrors.bind
      apply hcall.mono
      intro found out found' out' hpost
      apply Mirrors.bind
      exact Mirrors.of_eq (store_eq _ _ _ _) (store_eq _ _ _ _) (Mirrors.pure hpost)

theorem mirrors_clearingMatch {cache : Nat}
    (h : Mirrors (call parser cursor) (engine.descended id) (call' parser cursor')
      (call'' parser cursor') (engine'.descended id) fun found out found' out' =>
        post found (out.ended id cache) found' (out'.ended id cache)) :
    Mirrors (clearingMatch call id cache parser cursor) engine
      (clearingMatch call' id cache parser cursor') (clearingMatch call'' id cache parser cursor')
      engine' post := by
  apply Mirrors.bind
  apply Mirrors.of_eq (descend_eq _ _) (descend_eq _ _)
  apply Mirrors.bind
  apply h.mono
  intro found out found' out' hpost
  exact Mirrors.of_eq (ended_eq id cache found out) (ended_eq id cache found' out') hpost

theorem mirrors_loggedMatch {name : String}
    (h : ∀ event event', Mirrors (call parser cursor) (engine.recorded event) (call' parser cursor')
      (call'' parser cursor') (engine'.recorded event') fun found out found' out' =>
        ∀ event event', post found (out.recorded event) found' (out'.recorded event')) :
    Mirrors (loggedMatch call name parser cursor) engine (loggedMatch call' name parser cursor')
      (loggedMatch call'' name parser cursor') engine' post := by
  apply Mirrors.bind
  apply Mirrors.of_eq (record_eq _ _) (record_eq _ _)
  apply Mirrors.bind
  apply (h _ _).mono
  intro found out found' out' hpost
  apply Mirrors.bind
  exact Mirrors.of_eq (record_eq _ _) (record_eq _ _) (Mirrors.pure (hpost _ _))

/-! ## Steps -/

variable {rules : Rules α} {fuel fuel' fuel'' : Nat}

theorem mirrors_sequence {combine : List α → α}
    (hparts : ∀ part ∈ parsers, bond.Mirrored call call' call'' part)
    (hlike : bond.like cursor cursor') (h : bond.holds engine engine') :
    Mirrors (step rules fuel call (.sequence parsers combine) cursor) engine
      (step rules fuel' call' (.sequence parsers combine) cursor')
      (step rules fuel'' call'' (.sequence parsers combine) cursor') engine' bond.Found := by
  apply Mirrors.bind
  apply (mirrors_inSequence hparts hlike h).mono
  rintro _ out _ out' ⟨hholds, hrow⟩
  cases hrow with
  | none => exact Mirrors.pure (.none hholds)
  | some hrow =>
      exact Mirrors.pure (.some hholds ⟨congrArg combine hrow.payloads_eq, hrow.next⟩)

theorem mirrors_optional {wrap : Option α → α} (hpart : bond.Mirrored call call' call'' parser)
    (hlike : bond.like cursor cursor') (h : bond.holds engine engine') :
    Mirrors (step rules fuel call (.optional parser wrap) cursor) engine
      (step rules fuel' call' (.optional parser wrap) cursor')
      (step rules fuel'' call'' (.optional parser wrap) cursor') engine' bond.Found := by
  apply Mirrors.bind
  apply (hpart hlike h).mono
  rintro _ out _ out' ⟨hholds, hsame⟩
  cases hsame with
  | none => exact Mirrors.pure (.some hholds ⟨rfl, hlike⟩)
  | some hsame =>
      have hpayload := congrArg (fun payload => wrap (some payload)) hsame.payload_eq
      exact Mirrors.pure (.some hholds ⟨hpayload, hsame.next⟩)

theorem mirrors_convert {f : α → Option α} (hpart : bond.Mirrored call call' call'' parser)
    (hlike : bond.like cursor cursor') (h : bond.holds engine engine') :
    Mirrors (step rules fuel call (.convert parser f) cursor) engine
      (step rules fuel' call' (.convert parser f) cursor')
      (step rules fuel'' call'' (.convert parser f) cursor') engine' bond.Found := by
  apply Mirrors.bind
  apply (hpart hlike h).mono
  rintro _ out _ out' ⟨hholds, hsame⟩
  cases hsame with
  | none => exact Mirrors.pure (.none hholds)
  | @some output output' hsame =>
      simp only [hsame.payload_eq]
      cases f output.payload with
      | none => exact Mirrors.pure (.none hholds)
      | some payload => exact Mirrors.pure (.some hholds ⟨rfl, hsame.next⟩)

/-- A node that keeps nothing in the engine is mirrored where its calls are. -/
theorem mirrors_step (hstateless : parser.Stateless)
    (hcall : ∀ part, rules.Calls parser part → bond.Mirrored call call' call'' part)
    (hextends : ∀ left middle right combine, parser = .foldLeft left middle right combine →
      Extends bond call call' call'' left)
    (hturns : Turns bond cursor fuel fuel') (hturns' : Turns bond cursor fuel fuel'')
    (hlike : bond.like cursor cursor') (h : bond.holds engine engine') :
    Mirrors (step rules fuel call parser cursor) engine (step rules fuel' call' parser cursor')
      (step rules fuel'' call'' parser cursor') engine' bond.Found := by
  have hparts : ∀ part ∈ parser.children, bond.Mirrored call call' call'' part :=
    fun part hpart => hcall part (.child hpart)
  cases parser with
  | satisfy accepts payload => exact Mirrors.pure ⟨h, same_takeChar hlike accepts payload⟩
  | literal chars payload => exact Mirrors.pure ⟨h, same_takeLiteral hlike chars payload⟩
  | endOfInput payload =>
      simp only [step, (bond.alike hlike).atEnd_eq]
      split
      · exact Mirrors.pure (.some h ⟨rfl, hlike⟩)
      · exact Mirrors.pure (.none h)
  | except parser excluded =>
      obtain ⟨hparser, hexcluded⟩ := List.forall_mem_cons.mp hparts
      exact mirrors_unlessMatch hparser hexcluded hlike h
  | firstOf alternatives => exact mirrors_firstMatch hparts hlike h
  | longestOf alternatives => exact mirrors_longestMatch hparts hlike .none h
  | sequence parts combine => exact mirrors_sequence hparts hlike h
  | foldLeft left middle right combine =>
      obtain ⟨hleft, hmiddle, hright⟩ := Parser.forall_mem_children_foldLeft.mp hparts
      exact mirrors_foldStep hleft hmiddle hright (hextends left middle right combine rfl) hlike h
  | repeated parser atLeast atMost collect =>
      exact mirrors_repetition (hparts parser List.mem_cons_self) hturns hturns' hlike h
  | optional parser wrap => exact mirrors_optional (hparts parser List.mem_cons_self) hlike h
  | convert parser f => exact mirrors_convert (hparts parser List.mem_cons_self) hlike h
  | nested parser => exact hparts parser List.mem_cons_self hlike h
  | call rule =>
      simp only [step]
      cases hfind : rules.find rule with
      | missing => exact Mirrors.pure (.none h)
      | body part => exact hcall part (.body hfind) hlike h
      | pending => exact Mirrors.of_stop rfl
  | _ => exact hstateless.elim

end Packrat.Engine
