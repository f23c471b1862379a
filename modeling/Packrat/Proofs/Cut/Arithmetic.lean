import Packrat.Proofs.Arithmetic
import Packrat.Proofs.Reader.FirmLevels

/-!
# Arithmetic in front of other texts

The evaluation of a formula is firm: what it reads of a text, it reads again when the text is cut
behind it.
-/

namespace Packrat.Arithmetic

open Reader
open Text (byteLength)

/-! ## Numbers -/

theorem digitRun_token : Token Char.isDigit Char.isDigit digitRun := by
  intro rest x shorter hread
  obtain ⟨hne, heq⟩ := Option.ite_none_left_eq_some.mp hread
  cases heq
  obtain ⟨c, cs, hcs, hrest, hdigits⟩ := exists_run hne
  refine ⟨c, cs, hrest, hdigits c (List.mem_cons_self ..), fun other hother => ?_⟩
  rw [← List.cons_append, digitRun, hother.takeWhile_append hdigits,
    hother.dropWhile_append hdigits, if_neg (List.cons_ne_nil _ _), hcs]

/-- A point with digits behind it does not begin where neither stands. -/
theorem pointRun_token : Token (· == '.') Char.isDigit pointRun := by
  intro rest x shorter hread
  unfold pointRun at hread
  split at hread
  · next rest =>
      obtain ⟨⟨digits, behind⟩, hdigits, heq⟩ := Option.map_eq_some_iff.mp hread
      cases heq
      obtain ⟨c, cs, rfl, -, hfirm⟩ := digitRun_token _ _ _ hdigits
      refine ⟨'.', c :: cs, rfl, rfl, fun other hother => ?_⟩
      rw [pointRun, List.cons_append, hfirm other hother]
      rfl
  · cases hread

/-- What goes on with a number. -/
def continues (c : Char) : Bool := c.isDigit || c == '.'

theorem literal_token : Token Char.isDigit continues literal := by
  intro rest x shorter hread
  obtain ⟨⟨digits, behind⟩, hdigits, heq⟩ := Option.map_eq_some_iff.mp hread
  obtain ⟨c, cs, rfl, hc, hfirm⟩ := digitRun_token _ _ _ hdigits
  dsimp only at heq
  cases hpoint : pointRun behind with
  | none =>
      rw [hpoint] at heq
      cases heq
      refine ⟨c, cs, rfl, hc, fun other hother => ?_⟩
      have hstop : Unlike Char.isDigit other :=
        hother.mono fun d hd => by rw [continues, hd, Bool.true_or]
      have hnone : pointRun other = none := by
        cases hread : pointRun other with
        | none => rfl
        | some found =>
            obtain ⟨d, ds, rfl, hd, -⟩ := pointRun_token _ _ _ hread
            have hfalse := unlike_cons.mp hother
            rw [continues, eq_of_beq hd] at hfalse
            cases hfalse
      rw [literal, hfirm other hstop, Option.map_some]
      dsimp only
      rw [hnone]
  | some found =>
      obtain ⟨fraction, behind'⟩ := found
      rw [hpoint] at heq
      cases heq
      obtain ⟨d, ds, rfl, hd, hfirm'⟩ := pointRun_token _ _ _ hpoint
      refine ⟨c, cs ++ d :: ds, by simp, hc, fun other hother => ?_⟩
      have hstop : Unlike Char.isDigit other :=
        hother.mono fun e he => by rw [continues, he, Bool.true_or]
      have hpoint' : Unlike Char.isDigit (d :: (ds ++ other)) := by
        rw [eq_of_beq hd]
        exact unlike_cons.mpr rfl
      rw [literal, List.append_assoc, List.cons_append, hfirm _ hpoint', Option.map_some]
      dsimp only
      rw [hfirm' other hstop]

/-! ## Formulas -/

/-- What goes on with a number, or with operands that some operators are between. -/
def goesOn (operators : List Char) (c : Char) : Bool := continues c || operators.any (c == ·)

theorem goesOn_append (operators operators' : List Char) (c : Char)
    (h : (goesOn operators c || operators'.any (c == ·)) = true) :
    goesOn (operators ++ operators') c = true := by
  simpa [goesOn, or_assoc] using h

theorem continues_of_isBlank (c : Char) (h : Text.isBlank c = true) : continues c = false := by
  refine Bool.eq_false_iff.mpr fun hc => ?_
  have hvisible : Text.isBlank c = false := by
    rcases Bool.or_eq_true_iff.mp hc with hdigit | hpoint
    · have hrange := isDigit_iff_toNat.mp hdigit
      exact isBlank_eq_false (by omega) (by omega)
    · rw [eq_of_beq hpoint]
      decide
  rw [h] at hvisible
  cases hvisible

/-- What stands above the operators, with what it begins with. -/
def barest (sum : Reader Float) : List ((Char → Bool) × Reader Float) :=
  [((· == '('), .between "(" ")" sum), (Char.isDigit, .padded literal)]

/-- What stands above the operators. -/
def bareOf (sum : Reader Float) : Reader Float := .first ((barest sum).map Prod.snd)

/-- What a formula without a sign begins with. -/
def begins (c : Char) : Bool := c == '(' || (c.isDigit || false)

section Sums

variable {sum : Reader Float} {limit : Nat} {goes : Char → Bool}

theorem heads_barest (sum : Reader Float) : ∀ item ∈ barest sum, Heads item.1 item.2 := by
  refine List.forall_mem_cons.mpr ⟨heads_between (show "(" ≠ "" by decide), ?_⟩
  exact List.forall_mem_singleton.mpr literal_token.heads_padded

theorem heads_bareOf (sum : Reader Float) : Heads begins (bareOf sum) :=
  heads_first (heads_barest sum)

theorem firm_bareOf (h : Firm limit goes sum) (hclosing : goes ')' = false) :
    Firm (limit + 1) continues (bareOf sum) := by
  refine firm_first ?_ (heads_barest sum) ?_
  · refine List.forall_mem_cons.mpr ⟨?_, List.forall_mem_singleton.mpr
      (literal_token.firm_padded continues_of_isBlank)⟩
    exact (firm_between (show "(" ≠ "" by decide) (show ")" ≠ "" by decide)
      (fun rest hrest _ => h rest hrest) hclosing).mono fun c hc => nomatch hc
  · refine List.pairwise_pair.mpr fun c hc => ?_
    rw [eq_of_beq hc]
    rfl

theorem bareOf_shrinks (h : Shrinks sum) : Shrinks (bareOf sum) := by
  apply shrinks_of_map (f := Payload.number)
  rw [bareOf, barest, List.map_cons, List.map_cons, List.map_nil, ← bare_eq false]
  exact Ladder.bare_shrinks (proper false) (map_shrinks h)

/-- A formula is firm if the formulas in its groups are, each level on top of the next one. -/
theorem firm_sumOf (hshrinks : Shrinks sum)
    (h : Firm limit (goesOn ['^', '*', '/', '+', '-']) sum) :
    Firm (limit + 1) (goesOn ['^', '*', '/', '+', '-']) (sumOf sum) := by
  have hbare : Firm (limit + 1) continues (bareOf sum) := firm_bareOf h (by decide)
  have hheads := heads_bareOf sum
  have hfront : raised.front = '^' := rfl
  have hpower : Firm (limit + 1) (goesOn ['^'])
      (rightAssociative raised [negative] (bareOf sum)) :=
    firm_rightAssociative (bareOf_shrinks hshrinks) hbare hheads (by decide) (by decide)
      (by decide) fun c hc => by simpa [goesOn, hfront] using hc
  have hsigned : Firm (limit + 1) (goesOn ['^'])
      (prefixed [negative] (rightAssociative raised [negative] (bareOf sum))) :=
    firm_prefixed hpower (heads_rightAssociative (bareOf_shrinks hshrinks) hheads) (by decide)
      (by decide)
  have hproduct : Firm (limit + 1) (goesOn ['^', '*', '/']) (Reader.leftAssociative [times, divided]
      (prefixed [negative] (rightAssociative raised [negative] (bareOf sum)))) :=
    firm_leftAssociative hsigned (by decide) (by decide) (goesOn_append ['^'] ['*', '/'])
  exact firm_leftAssociative hproduct (show ([plus, minus].map Binary.front).Nodup by decide)
    (by decide) (goesOn_append ['^', '*', '/'] ['+', '-'])

end Sums

theorem evaluation_shrinks : Shrinks evaluation :=
  recursive_shrinks fun _ h => leftAssociative_shrinks (leftAssociative_shrinks
    (prefixed_shrinks (rightAssociative_shrinks (bareOf_shrinks h))))

/-- A formula that a text begins with is evaluated in the same way when the text ends behind it. -/
theorem evaluation_honest : Honest evaluation := by
  have hfirm : ∀ limit, Firm limit (goesOn ['^', '*', '/', '+', '-']) evaluation := by
    intro limit
    induction limit with
    | zero => exact firm_zero _ _
    | succ limit ih =>
        rw [evaluation_eq]
        exact firm_sumOf evaluation_shrinks ih
  exact honest_of_firm hfirm

end Packrat.Arithmetic
