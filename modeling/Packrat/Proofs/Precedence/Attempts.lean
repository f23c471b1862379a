import Packrat.Proofs.Termination.Settling
import Packrat.Proofs.Tracking.Combinators

/-!
# Which alternatives are tried

A precedence node tries all its alternatives where it tries none yet or where the innermost one is a
group, and else that one and tighter ones.  `Rules.Restarts` says what counts as a group, whatever
room there is to find out, and `Rules.Attempts` what the node hands to the alternatives that it
tries.
-/

namespace Packrat

variable {α : Type} {rules : Rules α} {parser part : Parser α} {fuel fuel' : Nat}

/-! ## Groups -/

/-- The parser marks a group itself, or it only wraps one that does. -/
inductive Rules.Restarts (rules : Rules α) : Parser α → Prop
  | nested {parser : Parser α} : Restarts rules (.nested parser)
  | behind {parser part : Parser α} (hwrapped : rules.wrapped? parser = some part)
      (h : Restarts rules part) : Restarts rules parser

namespace Rules

theorem Restarts.of_nested_ok (hbare : rules.wrapped? parser = none)
    (h : Engine.restarts rules (fuel + 1) parser = .ok true) : rules.Restarts parser := by
  cases parser with
  | nested parser => exact .nested
  | call rule =>
      simp only [wrapped?] at hbare
      simp only [Engine.restarts] at h
      cases hfind : rules.find rule with
      | body parser => rw [hfind] at hbare; cases hbare
      | missing => rw [hfind] at h; cases h
      | pending => rw [hfind] at h; cases h
  | convert parser f => cases hbare
  | guarded id parser => cases hbare
  | memo id cache parser => cases hbare
  | clearing id cache parser => cases hbare
  | logged name parser => cases hbare
  | _ => cases h

theorem Restarts.of_ok (h : Engine.restarts rules fuel parser = .ok true) :
    rules.Restarts parser := by
  induction fuel generalizing parser with
  | zero => cases h
  | succ fuel ih =>
      cases hwrapped : rules.wrapped? parser with
      | none => exact .of_nested_ok hwrapped h
      | some part => exact .behind hwrapped (ih ((restarts_of_some hwrapped fuel).symm.trans h))

/-- A group is found wherever there is room to look through all that is wrapped around it. -/
theorem Restarts.restarts_eq (h : rules.Restarts parser) :
    ∃ bound, ∀ fuel, Engine.restarts rules fuel parser =
      if bound < fuel then .ok true else .error .tooDeep := by
  induction h with
  | nested =>
      refine ⟨0, fun fuel => ?_⟩
      cases fuel <;> rfl
  | behind hwrapped _ ih =>
      obtain ⟨bound, hbound⟩ := ih
      refine ⟨bound + 1, fun fuel => ?_⟩
      cases fuel with
      | zero => rfl
      | succ fuel =>
          rw [restarts_of_some hwrapped, hbound]
          simp only [Nat.add_lt_add_iff_right]

theorem not_restarts_of_ok (h : Engine.restarts rules fuel parser = .ok false) :
    ¬ rules.Restarts parser := by
  intro hgroup
  obtain ⟨bound, hbound⟩ := hgroup.restarts_eq
  rw [hbound] at h
  split at h <;> cases h

/-! ## Attempts -/

/--
An alternative that a precedence node tries at a cursor, by its index, and the cursor it is handed.
The alternatives that the node is trying already are given by their indices, innermost first.
-/
inductive Attempts (rules : Rules α) (alternatives : List (Parser α)) (stack : List Nat)
    (cursor : Cursor α) : Nat → Parser α → Cursor α → Prop
  /-- Nothing is handed on to an alternative that the innermost one does not rule out. -/
  | afresh {index : Nat} {part : Parser α} (hget : alternatives[index]? = some part)
      (hplain : cursor.left.isOperand = false)
      (heligible : ∀ active, stack.head? = some active → ∃ alternative,
        alternatives[active]? = some alternative ∧ (rules.Restarts alternative ∨ active < index)) :
      Attempts rules alternatives stack cursor index part cursor.withoutLeft
  /-- The innermost one gets all that the node is handed; a group, only an operand. -/
  | again {index : Nat} {part : Parser α} (hget : alternatives[index]? = some part)
      (hactive : stack.head? = some index)
      (hgroup : rules.Restarts part → cursor.left.isOperand = true) :
      Attempts rules alternatives stack cursor index part cursor

theorem Attempts.getElem?_eq {alternatives : List (Parser α)} {stack : List Nat}
    {cursor next : Cursor α} {index : Nat}
    (h : rules.Attempts alternatives stack cursor index part next) :
    alternatives[index]? = some part := by
  cases h <;> assumption

end Rules

/-- A precedence node keeps what its attempts keep. -/
theorem Engine.tracks_climb {call call' : Call α} {engine : Engine α} {cursor : Cursor α} {id : Nat}
    {alternatives : List (Parser α)} {inv : Engine α → Prop}
    (hattempt : ∀ engine', inv engine' → ∀ index part next,
      rules.Attempts alternatives (engine.climbing.get id) cursor index part next →
        Tracks (fun _ => True) (call part next) (call' part next) (engine'.pushed id index)
          fun _ out => inv (out.popped id))
    (h : inv engine) :
    Tracks (fun _ => True) (step rules fuel call (.climb id alternatives) cursor)
      (step rules fuel call' (.climb id alternatives) cursor) engine fun _ => inv := by
  have htries : ∀ engine', inv engine' → ∀ index part next,
      rules.Attempts alternatives (engine.climbing.get id) cursor index part next →
        Tracks (fun _ => True) (attempt call id index part next) (attempt call' id index part next)
          engine' (Leaves inv fun _ => True) := by
    intro engine' hinv index part next hattempts
    apply tracks_attempt
    apply (hattempt engine' hinv index part next hattempts).mono
    exact fun _ _ hpost => ⟨hpost, fun _ _ => trivial⟩
  suffices hleaves : Tracks (fun _ => True) (step rules fuel call (.climb id alternatives) cursor)
      (step rules fuel call' (.climb id alternatives) cursor) engine (Leaves inv fun _ => True) from
    hleaves.mono fun _ _ => And.left
  refine tracks_climbMatch (fun _ _ _ _ => ⟨rfl, fun _ _ => trivial⟩) ?_ ?_ h
  · intro hplain engine' hinv index part hget heligible
    apply htries engine' hinv
    refine .afresh hget hplain fun active hactive => ?_
    obtain ⟨alternative, halternative, hrestarts⟩ := heligible active hactive
    exact ⟨alternative, halternative, hrestarts.imp .of_ok And.right⟩
  · intro active alternative hactive hget hgroup
    apply htries engine h
    refine .again hget hactive fun hrestarts => ?_
    rcases hgroup with ⟨-, hoperand⟩ | hanswer
    · exact hoperand
    · exact absurd hrestarts (Rules.not_restarts_of_ok hanswer)

end Packrat
