import Packrat.Proofs.Reuse.Shift

/-!
# Runs with more room

The bound on the depth of calls has no part in what a parser does: a run that returns within it
returns the same with more room.  Nor does a run change how long the longest text was.
-/

namespace Packrat

variable {α : Type} {rules : Rules α} {parser : Parser α} {cursor : Cursor α}
  {engine engine' out : Engine α} {found found' : Option (Output α)} {fuel fuel' horizon : Nat}

theorem Cursor.withLeft_eq_of_eq {cursor cursor' : Cursor α} {left : Left α}
    (h : cursor' = cursor) (_ : left.isOperand = false) :
    cursor'.withLeft left = cursor.withLeft left :=
  h ▸ rfl

theorem Cursor.consume_eq_of_eq {cursor cursor' : Cursor α} {taken rest : List Char}
    (h : cursor' = cursor) (hrest : cursor.rest = taken ++ rest) :
    cursor'.consume taken rest ((Like.of_eq h).rest_eq.trans hrest) =
      cursor.consume taken rest hrest := by
  subst h
  rfl

/-- Two runs on the same cursor and in the same state, with longest texts of the given size. -/
def Bond.identical (horizon : Nat) : Bond α where
  like cursor cursor' := cursor' = cursor
  holds engine engine' := engine = engine' ∧ engine.horizon = horizon
  alike := @Cursor.Like.of_eq α
  withLeft := @Cursor.withLeft_eq_of_eq α
  consume := @Cursor.consume_eq_of_eq α

theorem Bond.identical_found_iff : (Bond.identical horizon).Found found engine found' engine' ↔
    (engine = engine' ∧ engine.horizon = horizon) ∧ found' = found :=
  found_iff_of_eq Iff.rfl

/-- What both states become in the same way changes nothing about what is found. -/
theorem Bond.Found.changed_alike (after : Engine α → Engine α)
    (h : (Bond.identical horizon).Found found engine found' engine')
    (hafter : (after engine).horizon = engine.horizon) :
    (Bond.identical horizon).Found found (after engine) found' (after engine') := by
  obtain ⟨⟨rfl, hhorizon⟩, hsame⟩ := h
  exact ⟨⟨rfl, hafter.trans hhorizon⟩, hsame⟩

/-- A folded payload is offered with the same tag. -/
theorem extends_identical {call call' : Call α}
    (h : (Bond.identical horizon).Mirrored call call' call' parser) :
    Engine.Extends (Bond.identical horizon) call call' call' parser := by
  apply Engine.Extends.of_mirrored h
  rintro _ cursor engine _ value rfl ⟨rfl, hhorizon⟩
  exact ⟨rfl, rfl, hhorizon⟩

/-! ## One step -/

section Step

variable {call call' : Call α} {id cache : Nat}

/-- Every node changes the state alike in both runs, before its call and after it. -/
theorem mirrors_guarded_identical
    (hpart : (Bond.identical horizon).Mirrored call call' call' parser)
    (h : engine.horizon = horizon) :
    Mirrors (Engine.guardedMatch call id parser cursor) engine
      (Engine.guardedMatch call' id parser cursor) (Engine.guardedMatch call' id parser cursor)
      engine (Bond.identical horizon).Found := by
  have hentered : (engine.entered id cursor.offset).horizon = horizon := h
  apply Engine.mirrors_guardedMatch rfl
  · intro hfree
    apply And.intro hfree
    apply (hpart rfl ⟨rfl, hentered⟩).mono
    exact fun _ _ _ _ hfound => hfound.changed_alike (·.freed id cursor.offset) rfl
  · exact fun hbusy => ⟨hbusy, .none ⟨rfl, h⟩⟩

theorem mirrored_attempt_identical {index : Nat}
    (hpart : (Bond.identical horizon).Mirrored call call' call' parser) :
    (Bond.identical horizon).Mirrored (Engine.attempt call id index) (Engine.attempt call' id index)
      (Engine.attempt call' id index) parser := by
  rintro _ cursor engine _ rfl ⟨rfl, h⟩
  have hpushed : (engine.pushed id index).horizon = horizon := h
  apply Engine.mirrors_attempt
  apply (hpart rfl ⟨rfl, hpushed⟩).mono
  exact fun _ _ _ _ hfound => hfound.changed_alike (·.popped id) rfl

theorem mirrors_memo_identical
    (hpart : (Bond.identical horizon).Mirrored call call' call' parser)
    (h : engine.horizon = horizon) :
    Mirrors (Engine.memoMatch call id cache parser cursor) engine
      (Engine.memoMatch call' id cache parser cursor)
      (Engine.memoMatch call' id cache parser cursor) engine (Bond.identical horizon).Found := by
  apply Engine.mirrors_memoMatch rfl rfl
  · intro result hentry
    exact ⟨result, hentry, Bond.identical_found_iff.mpr ⟨⟨rfl, h⟩, rfl⟩⟩
  · intro hentry
    have hstored : ∀ key, ((engine.counted cache key).stored cache key none).horizon = horizon :=
      fun _ => h
    apply And.intro hentry
    apply (hpart rfl ⟨rfl, hstored _⟩).mono
    intro found out found' out' hfound
    obtain ⟨-, rfl⟩ := Bond.identical_found_iff.mp hfound
    exact hfound.changed_alike (·.stored cache _ found') rfl

theorem mirrors_clearing_identical
    (hpart : (Bond.identical horizon).Mirrored call call' call' parser)
    (h : engine.horizon = horizon) :
    Mirrors (Engine.clearingMatch call id cache parser cursor) engine
      (Engine.clearingMatch call' id cache parser cursor)
      (Engine.clearingMatch call' id cache parser cursor) engine
      (Bond.identical horizon).Found := by
  have hdescended : (engine.descended id).horizon = horizon := h
  apply Engine.mirrors_clearingMatch
  apply (hpart rfl ⟨rfl, hdescended⟩).mono
  exact fun _ _ _ _ hfound => hfound.changed_alike (·.ended id cache) (Engine.horizon_ended id)

/-- The two runs record the same events, as the traces are to be the same. -/
theorem mirrors_logged_identical {name : String}
    (hpart : (Bond.identical horizon).Mirrored call call' call' parser)
    (h : engine.horizon = horizon) :
    Mirrors (Engine.loggedMatch call name parser cursor) engine
      (Engine.loggedMatch call' name parser cursor) (Engine.loggedMatch call' name parser cursor)
      engine (Bond.identical horizon).Found := by
  have hrecorded : ∀ event, (engine.recorded event).horizon = horizon := fun _ => h
  apply Mirrors.bind
  apply Mirrors.of_eq (Engine.record_eq _ _) (Engine.record_eq _ _)
  apply Mirrors.bind
  apply (hpart rfl ⟨rfl, hrecorded _⟩).mono
  intro found out found' out' hfound
  obtain ⟨-, rfl⟩ := Bond.identical_found_iff.mp hfound
  apply Mirrors.bind
  apply Mirrors.of_eq (Engine.record_eq _ _) (Engine.record_eq _ _)
  exact Mirrors.pure (hfound.changed_alike (·.recorded _) rfl)

theorem mirrors_step_identical
    (hcalls : ∀ part, (Bond.identical horizon).Mirrored call call' call' part)
    (hle : fuel ≤ fuel') (h : engine.horizon = horizon) :
    Mirrors (Engine.step rules fuel call parser cursor) engine
      (Engine.step rules fuel' call' parser cursor) (Engine.step rules fuel' call' parser cursor)
      engine (Bond.identical horizon).Found := by
  have hholds : (Bond.identical horizon).holds engine engine := ⟨rfl, h⟩
  by_cases hstateless : parser.Stateless
  · apply Engine.mirrors_step hstateless _ _ (.inl hle) (.inl hle) rfl hholds
    · exact fun part _ => hcalls part
    · exact fun left _ _ _ _ => extends_identical (hcalls left)
  cases parser with
  | guarded id part => exact mirrors_guarded_identical (hcalls part) h
  | climb id alternatives =>
      apply Engine.mirrors_climbMatch rfl _ _ rfl hholds
      · intro part _ answer hanswer
        exact ⟨restarts_of_le hle hanswer, restarts_of_le hle hanswer⟩
      · exact fun index part _ => mirrored_attempt_identical (hcalls part)
  | memo id cache part => exact mirrors_memo_identical (hcalls part) h
  | clearing id cache part => exact mirrors_clearing_identical (hcalls part) h
  | logged name part => exact mirrors_logged_identical (hcalls part) h
  | redirected move part =>
      simp only [Engine.step]
      cases move cursor with
      | ok moved => exact hcalls part rfl ⟨rfl, h⟩
      | error fault => exact Mirrors.of_stop rfl
  | _ => exact absurd trivial hstateless

end Step

/-! ## Runs -/

/-- Wherever a run returns, a run with more room does the same. -/
theorem mirrored_run_of_le (hle : fuel ≤ fuel') :
    (Bond.identical horizon).Mirrored (Engine.run rules fuel) (Engine.run rules fuel')
      (Engine.run rules fuel') parser := by
  induction fuel generalizing fuel' parser with
  | zero =>
      intro cursor cursor' engine engine' _ _
      exact Mirrors.of_stop rfl
  | succ fuel ih =>
      cases fuel' with
      | zero => cases hle
      | succ fuel' =>
          have hle := Nat.le_of_succ_le_succ hle
          rintro _ cursor engine _ rfl ⟨rfl, hhorizon⟩
          exact mirrors_step_identical (fun part => ih hle) hle hhorizon

/-- A run that returned returns the same with more room, and knows of no longer texts. -/
theorem run_of_le (hle : fuel ≤ fuel')
    (hrun : Engine.run rules fuel parser cursor engine = .ok (found, out)) :
    Engine.run rules fuel' parser cursor engine = .ok (found, out) ∧
      out.horizon = engine.horizon := by
  have hmirrors : (Bond.identical engine.horizon).Mirrored (Engine.run rules fuel)
      (Engine.run rules fuel') (Engine.run rules fuel') parser := mirrored_run_of_le hle
  obtain ⟨found', out', hrun', hfound⟩ := (hmirrors rfl ⟨rfl, rfl⟩ found out hrun).yields
  obtain ⟨⟨rfl, hhorizon⟩, rfl⟩ := Bond.identical_found_iff.mp hfound
  exact ⟨hrun', hhorizon⟩

end Packrat
