import Packrat.Proofs.Ladder.Climb

/-!
# The textbook form of a ladder

Where no operator of a left-associative level is a beginning of another one of the level, there is
nothing to choose: the grammar answers as recursive descent with plain folds does, cached or not.
-/

namespace Packrat

open Text (byteLength)

variable {α : Type}

namespace Level

/-- What a level reads whose left-associative operators are plainly folded. -/
def descent : Level α → Reader α → Reader α
  | left _ operators, next => .leftAssociative (operators.map (·.binary)) next
  | right operator signs, next => .rightAssociative operator.binary (signs.map (·.unary)) next
  | prefixed _ operators, next => .prefixed (operators.map (·.unary)) next

theorem descent_shrinks (level : Level α) {next : Reader α} (h : Reader.Shrinks next) :
    Reader.Shrinks (level.descent next) := by
  cases level with
  | left wrapped operators => exact Reader.leftAssociative_shrinks h
  | right operator signs => exact Reader.rightAssociative_shrinks h
  | prefixed wrapped operators => exact Reader.prefixed_shrinks h

theorem descent_agree (level : Level α) {next next' : Reader α} {limit : Nat}
    (hshrinks : Reader.Shrinks next) (h : Reader.Agree limit next next') :
    Reader.Agree limit (level.descent next) (level.descent next') := by
  cases level with
  | left wrapped operators => exact Reader.leftAssociative_agree hshrinks h
  | right operator signs => exact Reader.rightAssociative_agree hshrinks h
  | prefixed wrapped operators => exact Reader.prefixed_agree h

/-- No left-associative operator of the level is a beginning of another one. -/
def Apart : Level α → Prop
  | left _ operators => Reader.Apart (operators.map (·.binary))
  | _ => True

/-- Operators that are apart leave nothing to choose. -/
theorem reading_eq_descent {choice : Choice} {level : Level α} (hapart : level.Apart)
    {next : Reader α} (hshrinks : Reader.Shrinks next) :
    level.reading choice next = level.descent next := by
  cases level with
  | left wrapped operators =>
      funext rest
      exact Reader.leftChosen_eq_leftAssociative hshrinks fun shorter _ =>
        Reader.length_fitting_le_one hapart next shorter
  | right operator signs => rfl
  | prefixed wrapped operators => rfl

end Level

namespace Ladder

/-- What levels that are plainly folded read, given what is read above them. -/
def descents (levels : List (Level α)) (bare : Reader α) : Reader α :=
  levels.foldr Level.descent bare

theorem strata_eq_descents {choice : Choice} {levels : List (Level α)} {next : Reader α}
    (hapart : ∀ level ∈ levels, level.Apart) (hshrinks : Reader.Shrinks next) :
    strata choice levels next = descents levels next := by
  induction levels with
  | nil => rfl
  | cons level levels ih =>
      obtain ⟨hhead, htail⟩ := List.forall_mem_cons.mp hapart
      change level.reading choice (strata choice levels next) = level.descent (descents levels next)
      rw [← ih htail]
      exact Level.reading_eq_descent hhead (strata_shrinks hshrinks)

section Recursion

variable {levels : List (Level α)} {primaries : List (Primary α)} {next next' : Reader α}
  {limit : Nat}

theorem descents_shrinks (h : Reader.Shrinks next) : Reader.Shrinks (descents levels next) := by
  induction levels with
  | nil => exact h
  | cons level levels ih => exact Level.descent_shrinks level ih

theorem descents_agree (hshrinks : Reader.Shrinks next) (h : Reader.Agree limit next next') :
    Reader.Agree limit (descents levels next) (descents levels next') := by
  induction levels with
  | nil => exact h
  | cons level levels ih => exact Level.descent_agree level (descents_shrinks hshrinks) ih

/-- Recursive descent satisfies the equation that it is defined by. -/
theorem recursive_descents (levels : List (Level α))
    (hproper : ∀ primary ∈ primaries, primary.Proper) :
    (Reader.recursive fun expression => descents levels (bare primaries expression)) =
      descents levels (bare primaries
        (.recursive fun expression => descents levels (bare primaries expression))) := by
  funext rest
  refine Reader.recursive_eq_of_shrinks (fun _ h => descents_shrinks (bare_shrinks hproper h))
    fun expression expression' hshrinks h => ?_
  refine descents_agree (bare_shrinks hproper hshrinks) (fun shorter hshorter => ?_) rest
    (Nat.lt_succ_self _)
  exact bare_congr hproper hshrinks (h.mono (Nat.le_of_lt_succ hshorter))

end Recursion

/-- A grammar whose operators are apart answers as recursive descent with plain folds does. -/
theorem reads_descent {ladder : Ladder α}
    (hproper : ∀ primary ∈ ladder.primaries, primary.Proper)
    (hruns : ∀ primary ∈ ladder.primaries, primary.Runs ladder)
    (hapart : ∀ level ∈ ladder.levels, level.Apart) :
    ladder.grammar.Reads (.recursive fun expression =>
      descents ladder.levels (bare ladder.primaries expression)) := by
  have hreads := reads_grammar hproper hruns
  rwa [expression, Reader.recursive_congr_of_shrinks
    (fun _ h => strata_shrinks (bare_shrinks hproper h))
    fun _ h => strata_eq_descents hapart (bare_shrinks hproper h)] at hreads

end Ladder

end Packrat
