import Packrat.Proofs.Reader.Basic

/-!
# Levels with one operator or none

What the levels of a table read where none of their operators stands behind an operand, and where
just one of them does.
-/

namespace Packrat.Reader

open Text (byteLength)

variable {β : Type}

section First

variable {readers : List (Reader β)} {rest : List Char} {found : β × List Char}

theorem first_eq_none (h : ∀ reader ∈ readers, reader rest = none) : first readers rest = none := by
  induction readers with
  | nil => rfl
  | cons reader readers ih =>
      obtain ⟨hreader, hreaders⟩ := List.forall_mem_cons.mp h
      rw [first, hreader, Option.none_or, ih hreaders]

/-- Readers that read one thing or nothing read it together if one of them does. -/
theorem first_eq_some (h : ∀ reader ∈ readers, reader rest = none ∨ reader rest = some found)
    (hread : ∃ reader ∈ readers, reader rest = some found) : first readers rest = some found := by
  induction readers with
  | nil =>
      obtain ⟨_, hmem, -⟩ := hread
      cases hmem
  | cons reader readers ih =>
      obtain ⟨hreader, hreaders⟩ := List.forall_mem_cons.mp h
      rw [first]
      rcases hreader with hnone | hsome
      · rw [hnone, Option.none_or]
        apply ih hreaders
        obtain ⟨other, hmem, hother⟩ := hread
        cases hmem with
        | head =>
            rw [hnone] at hother
            cases hother
        | tail _ hmem => exact ⟨other, hmem, hother⟩
      · rw [hsome, Option.some_or]

end First

variable {operand : Reader β} {rest middle inner shorter : List Char} {x y : β}

/-! ## Operators between operands -/

section Binary

variable {operators : List (Binary β)} {operator : Binary β}

theorem joined_of_free (h : ∀ operator ∈ operators, behind operator.symbol rest = none) :
    joined operators operand x rest = none := by
  apply first_eq_none
  intro reader hmem
  obtain ⟨operator, hoperator, rfl⟩ := List.mem_map.mp hmem
  rw [Binary.after, h operator hoperator, Option.bind_none]

theorem joined_of_behind (hmem : operator ∈ operators)
    (hothers : ∀ other ∈ operators, other ≠ operator → behind other.symbol rest = none)
    (hbehind : behind operator.symbol rest = some inner)
    (hread : operand inner = some (y, shorter)) :
    joined operators operand x rest = some (operator.join x y, shorter) := by
  have hafter : operator.after operand x rest = some (operator.join x y, shorter) := by
    rw [Binary.after, hbehind, Option.bind_some, hread]
    rfl
  apply first_eq_some
  · intro reader hreader
    obtain ⟨other, hother, rfl⟩ := List.mem_map.mp hreader
    by_cases heq : other = operator
    · subst heq
      exact .inr hafter
    · rw [Binary.after, hothers other hother heq, Option.bind_none]
      exact .inl rfl
  · exact ⟨_, List.mem_map_of_mem hmem, hafter⟩

theorem leftAssociative_of_free (hread : operand rest = some (x, shorter))
    (h : ∀ operator ∈ operators, behind operator.symbol shorter = none) :
    leftAssociative operators operand rest = some (x, shorter) := by
  rw [leftAssociative, hread, Option.map_some]
  exact congrArg some (foldFrom_of_none (joined_of_free h))

/-- One operator between two operands. -/
theorem leftAssociative_of_behind (operator : Binary β) (hshrinks : Shrinks operand)
    (hread : operand rest = some (x, middle)) (hmem : operator ∈ operators)
    (hothers : ∀ other ∈ operators, other ≠ operator → behind other.symbol middle = none)
    (hbehind : behind operator.symbol middle = some inner)
    (hright : operand inner = some (y, shorter))
    (h : ∀ operator ∈ operators, behind operator.symbol shorter = none) :
    leftAssociative operators operand rest = some (operator.join x y, shorter) := by
  have hjoined : joined operators operand x middle = some (operator.join x y, shorter) :=
    joined_of_behind hmem hothers hbehind hright
  rw [leftAssociative, hread, Option.map_some]
  apply congrArg some
  dsimp only
  rw [foldFrom_of_some hjoined (joined_lt hshrinks _ _ _ _ hjoined)]
  exact foldFrom_of_none (joined_of_free h)

theorem rightAssociative_of_free (operator : Binary β) {signs : List (Unary β)}
    (hshrinks : Shrinks operand) (hread : operand rest = some (x, shorter))
    (h : behind operator.symbol shorter = none) :
    rightAssociative operator signs operand rest = some (x, shorter) := by
  have hafter : ∀ operand : Reader β, operator.after operand x shorter = none := by
    intro operand
    rw [Binary.after, h, Option.bind_none]
  rw [rightAssociative_eq hshrinks, hread, Option.map_some]
  dsimp only
  rw [hafter]
  rfl

/-- One operator between two operands, with no signs in front of the right one. -/
theorem rightAssociative_of_behind (operator : Binary β) (hshrinks : Shrinks operand)
    (hread : operand rest = some (x, middle)) (hbehind : behind operator.symbol middle = some inner)
    (hright : rightAssociative operator [] operand inner = some (y, shorter)) :
    rightAssociative operator [] operand rest = some (operator.join x y, shorter) := by
  have hafter : operator.after (signed [] (rightAssociative operator [] operand)
      (rightAssociative operator [] operand)) x middle = some (operator.join x y, shorter) := by
    rw [Binary.after, hbehind, Option.bind_some, signed, List.map_nil, List.nil_append, first,
      hright]
    rfl
  rw [rightAssociative_eq hshrinks, hread, Option.map_some]
  dsimp only
  rw [hafter]
  rfl

end Binary

/-! ## Operators in front of operands -/

section Unary

variable {operators : List (Unary β)} {operator : Unary β}

theorem prefixed_of_free (h : ∀ operator ∈ operators, behind operator.symbol rest = none) :
    prefixed operators operand rest = operand rest := by
  rw [prefixed_eq, signed, first_append, first_eq_none, Option.none_or, first, first,
    Option.or_none]
  intro reader hmem
  obtain ⟨operator, hoperator, rfl⟩ := List.mem_map.mp hmem
  rw [Unary.before, h operator hoperator, Option.bind_none]

theorem prefixed_of_behind (operator : Unary β) (hmem : operator ∈ operators)
    (hothers : ∀ other ∈ operators, other ≠ operator → behind other.symbol rest = none)
    (hbehind : behind operator.symbol rest = some inner)
    (hread : prefixed operators operand inner = some (x, shorter)) :
    prefixed operators operand rest = some (operator.apply x, shorter) := by
  have hbefore : operator.before (prefixed operators operand) rest =
      some (operator.apply x, shorter) := by
    rw [Unary.before, hbehind, Option.bind_some, hread]
    rfl
  have hfirst : first (operators.map (Unary.before · (prefixed operators operand))) rest =
      some (operator.apply x, shorter) := by
    apply first_eq_some
    · intro reader hreader
      obtain ⟨other, hother, rfl⟩ := List.mem_map.mp hreader
      by_cases heq : other = operator
      · subst heq
        exact .inr hbefore
      · rw [Unary.before, hothers other hother heq, Option.bind_none]
        exact .inl rfl
    · exact ⟨_, List.mem_map_of_mem hmem, hbefore⟩
  rw [prefixed_eq, signed, first_append, hfirst, Option.some_or]

end Unary

end Packrat.Reader
