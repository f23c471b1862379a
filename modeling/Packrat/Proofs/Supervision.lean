import Packrat.Proofs.Tracking.Combinators

/-!
# Supervised runs

A supervisor looks at every call of a run, at its cursor and at its outcome, and sounds an alarm
where the outcome is not fine.  It also knows where the operand that the cursor carries was put
there.  A statement about all calls of a run is the statement that supervision changes nothing,
whatever the alarm would be.
-/

namespace Packrat

variable {α : Type}

/--
The offset at which what stands to the left of `next` was put there, for a call at `next` out of one
at `cursor`.  An operand that is carried on keeps its place.
-/
def handed (place : Nat) (cursor next : Cursor α) : Nat :=
  if next.left.isOperand && next.left.key == cursor.left.key then place else next.offset

theorem handed_of_plain {place : Nat} {cursor next : Cursor α}
    (h : next.left.isOperand = false) : handed place cursor next = next.offset := by
  simp [handed, h]

theorem handed_of_carried {place : Nat} {cursor next : Cursor α}
    (hoperand : next.left.isOperand = true) (hleft : next.left = cursor.left) :
    handed place cursor next = place := by
  rw [hleft] at hoperand
  simp [handed, hleft, hoperand]

theorem handed_of_new {place : Nat} {cursor next : Cursor α}
    (h : next.left.key ≠ cursor.left.key) : handed place cursor next = next.offset := by
  simp [handed, h]

/-- Tells for every call whether its outcome is fine. -/
structure Supervisor (α : Type) where
  fine : (place : Nat) → Parser α → Cursor α → Option (Output α) → Bool

namespace Supervisor

/-- The supervisor to whom every outcome is fine. -/
def idle : Supervisor α := ⟨fun _ _ _ _ => true⟩

/-- Runs a parser under supervision; a call with an outcome that is not fine sounds the alarm. -/
def run (supervisor : Supervisor α) (alarm : Stop) (rules : Rules α) : Nat → Nat → Call α
  | 0, _, _, _ => throw .tooDeep
  | fuel + 1, place, parser, cursor => do
      let result ← Engine.step rules fuel
        (fun part next => supervisor.run alarm rules fuel (handed place cursor next) part next)
        parser cursor
      if supervisor.fine place parser cursor result then return result else throw alarm

variable {supervisor supervisor' : Supervisor α} {alarm : Stop} {rules : Rules α}
  {fuel place : Nat} {parser : Parser α} {cursor : Cursor α} {allowed : Stop → Prop}
  {engine : Engine α} {post : Option (Output α) → Engine α → Prop}

/-- Supervision by one to whom everything is fine changes nothing. -/
theorem run_idle : (idle : Supervisor α).run alarm rules fuel place = Engine.run rules fuel := by
  induction fuel generalizing place with
  | zero => rfl
  | succ fuel ih =>
      funext parser cursor
      have hcalls : (fun part next => (idle : Supervisor α).run alarm rules fuel
          (handed place cursor next) part next) = Engine.run rules fuel := by
        funext part next
        rw [ih]
      rw [run, hcalls]
      exact bind_pure _

/-- Two supervisors who judge a call alike let it go the same way. -/
theorem tracks_run_succ
    (halarm : ∀ result, supervisor'.fine place parser cursor result = false → allowed alarm)
    (h : Tracks allowed
      (Engine.step rules fuel
        (fun part next => supervisor.run alarm rules fuel (handed place cursor next) part next)
        parser cursor)
      (Engine.step rules fuel
        (fun part next => supervisor'.run alarm rules fuel (handed place cursor next) part next)
        parser cursor) engine
      fun result engine' =>
        supervisor.fine place parser cursor result = supervisor'.fine place parser cursor result ∧
          (supervisor'.fine place parser cursor result = true → post result engine')) :
    Tracks allowed (supervisor.run alarm rules (fuel + 1) place parser cursor)
      (supervisor'.run alarm rules (fuel + 1) place parser cursor) engine post := by
  refine Tracks.bind (h.mono fun result engine' hpost => ?_)
  obtain ⟨hsame, hpost⟩ := hpost
  rw [hsame]
  cases hfine : supervisor'.fine place parser cursor result with
  | true => exact Tracks.pure (hpost hfine)
  | false => exact Tracks.throw (halarm result hfine)

end Supervisor

end Packrat
