import Packrat.Proofs.Expression
import Packrat.Proofs.Reader.Blank
import Packrat.Proofs.Reader.Levels

/-!
# Single operators

What recursive descent makes of an operand with no operator behind it, of two operands with one
operator between them, and of an operator in front of an operand.  The first characters of the
operators tell them apart, so the levels do not get into each other's way.
-/

namespace Packrat.Expression

open Reader

/-! ## Symbols -/

/-- The first character of an operator. -/
def BinaryOp.head : BinaryOp → Char
  | or => '|'
  | and => '&'
  | eq => '='
  | notEq => '!'
  | add => '+'
  | sub => '-'
  | mul => '*'
  | div => '/'
  | rem => '%'
  | pow => '^'

/-- The first character of an operator. -/
def UnaryOp.head : UnaryOp → Char
  | not => '!'
  | neg => '-'

theorem BinaryOp.symbol_eq (op : BinaryOp) : ∃ cs, op.symbol.toList = op.head :: cs := by
  cases op <;> exact ⟨_, rfl⟩

theorem UnaryOp.symbol_eq (op : UnaryOp) : op.symbol.toList = [op.head] := by
  cases op <;> rfl

theorem BinaryOp.head_ne {op other : BinaryOp} (h : other ≠ op) :
    (op.head == other.head) = false := by
  cases op <;> cases other <;> first | rfl | exact absurd rfl h

theorem UnaryOp.head_ne {op other : UnaryOp} (h : other ≠ op) :
    (op.head == other.head) = false := by
  cases op <;> cases other <;> first | rfl | exact absurd rfl h

theorem BinaryOp.head_visible (op : BinaryOp) : Text.isBlank op.head = false := by
  cases op <;> decide

theorem UnaryOp.head_visible (op : UnaryOp) : Text.isBlank op.head = false := by
  cases op <;> decide

/-- An operator stands in front of what is written behind it. -/
theorem BinaryOp.behind_self (op : BinaryOp) (rest : List Char) :
    behind op.symbol (op.symbol.toList ++ rest) = some (skipBlanks rest) := by
  obtain ⟨cs, hcs⟩ := op.symbol_eq
  exact behind_append hcs op.head_visible

theorem UnaryOp.behind_self (op : UnaryOp) (rest : List Char) :
    behind op.symbol (op.symbol.toList ++ rest) = some (skipBlanks rest) :=
  behind_append op.symbol_eq op.head_visible

/-- No other operator stands there. -/
theorem BinaryOp.behind_other {op other : BinaryOp} (h : other ≠ op) (rest : List Char) :
    behind other.symbol (op.symbol.toList ++ rest) = none := by
  obtain ⟨cs, hcs⟩ := op.symbol_eq
  obtain ⟨cs', hcs'⟩ := other.symbol_eq
  apply behind_eq_none hcs'
  rw [hcs, List.cons_append, skip_cons op.head_visible, unlike_cons]
  exact BinaryOp.head_ne h

theorem UnaryOp.behind_other {op other : UnaryOp} (h : other ≠ op) (rest : List Char) :
    behind other.symbol (op.symbol.toList ++ rest) = none := by
  apply behind_eq_none other.symbol_eq
  rw [op.symbol_eq, List.cons_append, skip_cons op.head_visible, unlike_cons]
  exact UnaryOp.head_ne h

/-- No operator between operands stands in front of the text. -/
def Free (rest : List Char) : Prop := ∀ op : BinaryOp, behind op.symbol rest = none

/-- No operator that takes one operand stands in front of the text. -/
def Unsigned (rest : List Char) : Prop := ∀ op : UnaryOp, behind op.symbol rest = none

theorem unsigned_cons {c : Char} {cs : List Char} (hblank : Text.isBlank c = false)
    (h : ∀ op : UnaryOp, c ≠ op.head) : Unsigned (c :: cs) := by
  intro op
  apply behind_eq_none op.symbol_eq
  rw [skip_cons hblank, unlike_cons]
  exact beq_eq_false_iff_ne.mpr (h op)

theorem free_nil : Free [] := by
  intro op
  obtain ⟨cs, hcs⟩ := op.symbol_eq
  exact behind_eq_none hcs (unlike_nil _)

theorem free_cons {c : Char} {cs : List Char} (hblank : Text.isBlank c = false)
    (h : ∀ op : BinaryOp, c ≠ op.head) : Free (c :: cs) := by
  intro op
  obtain ⟨cs', hcs'⟩ := op.symbol_eq
  apply behind_eq_none hcs'
  rw [skip_cons hblank, unlike_cons]
  exact beq_eq_false_iff_ne.mpr (h op)

/-! ## Levels -/

/-- The operators that associate to the left, from loosest to tightest. -/
def leftLevels : List (List BinaryOp) :=
  [[.or], [.and], [.eq, .notEq], [.add, .sub], [.mul, .div, .rem]]

/-- What stands between the operators that associate to the left. -/
def signedOf (bare : Reader Expr) : Reader Expr :=
  .prefixed [UnaryOp.not.reader, UnaryOp.neg.reader] (.rightAssociative BinaryOp.pow.reader [] bare)

theorem orOf_eq (expression : Reader Expr) :
    orOf expression = leftLevels.foldr chainOf (signedOf (atomOf expression)) :=
  rfl

/-- Every operator but the power has its place in one level. -/
theorem exists_level {op : BinaryOp} (h : op ≠ .pow) :
    ∃ looser ops tighter, leftLevels = looser ++ ops :: tighter ∧ op ∈ ops ∧
      ∀ others ∈ tighter, op ∉ others := by
  have hmem : ∃ ops ∈ leftLevels, op ∈ ops := by
    cases op <;> first | exact absurd rfl h | simp [leftLevels]
  have hnodup : leftLevels.flatten.Nodup := by decide
  obtain ⟨ops, hops, hop⟩ := hmem
  obtain ⟨looser, tighter, hlevels⟩ := List.append_of_mem hops
  refine ⟨looser, ops, tighter, hlevels, hop, ?_⟩
  rw [hlevels, List.flatten_append, List.flatten_cons, List.nodup_append, List.nodup_append]
    at hnodup
  intro others hothers hmem
  exact hnodup.2.1.2.2 op hop op (List.mem_flatten.mpr ⟨others, hothers, hmem⟩) rfl

section Levels

variable {operand : Reader Expr} {rest middle inner shorter : List Char} {x y : Expr}

theorem chainOf_shrinks {ops : List BinaryOp} (h : Shrinks operand) :
    Shrinks (chainOf ops operand) :=
  leftAssociative_shrinks h

theorem foldr_chainOf_shrinks (levels : List (List BinaryOp)) (h : Shrinks operand) :
    Shrinks (levels.foldr chainOf operand) := by
  induction levels with
  | nil => exact h
  | cons ops levels ih => exact chainOf_shrinks ih

theorem signedOf_shrinks (h : Shrinks operand) : Shrinks (signedOf operand) :=
  prefixed_shrinks (rightAssociative_shrinks h)

theorem chainOf_of_free {ops : List BinaryOp} (hread : operand rest = some (x, shorter))
    (hfree : ∀ op ∈ ops, behind op.symbol shorter = none) :
    chainOf ops operand rest = some (x, shorter) := by
  apply leftAssociative_of_free hread
  intro operator hmem
  obtain ⟨op, hop, rfl⟩ := List.mem_map.mp hmem
  exact hfree op hop

theorem chainOf_of_behind {ops : List BinaryOp} {op : BinaryOp} (hshrinks : Shrinks operand)
    (hread : operand rest = some (x, middle)) (hmem : op ∈ ops)
    (hothers : ∀ other, other ≠ op → behind other.symbol middle = none)
    (hbehind : behind op.symbol middle = some inner) (hright : operand inner = some (y, shorter))
    (hfree : Free shorter) : chainOf ops operand rest = some (.binary op x y, shorter) := by
  refine leftAssociative_of_behind op.reader hshrinks hread
    (List.mem_map_of_mem hmem) ?_ hbehind hright ?_
  · intro operator hoperator hne
    obtain ⟨other, -, rfl⟩ := List.mem_map.mp hoperator
    exact hothers other fun heq => hne (congrArg BinaryOp.reader heq)
  · intro operator hoperator
    obtain ⟨other, -, rfl⟩ := List.mem_map.mp hoperator
    exact hfree other

/-- Levels none of whose operators comes next pass their operand on. -/
theorem foldr_chainOf_of_free {levels : List (List BinaryOp)}
    (hread : operand rest = some (x, shorter))
    (hfree : ∀ ops ∈ levels, ∀ op ∈ ops, behind op.symbol shorter = none) :
    levels.foldr chainOf operand rest = some (x, shorter) := by
  induction levels with
  | nil => exact hread
  | cons ops levels ih =>
      obtain ⟨hops, hlevels⟩ := List.forall_mem_cons.mp hfree
      exact chainOf_of_free (ih hlevels) hops

theorem signedOf_of_unsigned (h : Unsigned rest) :
    signedOf operand rest = rightAssociative BinaryOp.pow.reader [] operand rest := by
  apply prefixed_of_free
  intro operator hmem
  simp only [List.mem_cons, List.not_mem_nil, or_false] at hmem
  rcases hmem with rfl | rfl
  · exact h .not
  · exact h .neg

theorem signedOf_of_atom (hshrinks : Shrinks operand) (hunsigned : Unsigned rest)
    (hread : operand rest = some (x, shorter)) (h : behind BinaryOp.pow.symbol shorter = none) :
    signedOf operand rest = some (x, shorter) := by
  rw [signedOf_of_unsigned hunsigned]
  exact rightAssociative_of_free BinaryOp.pow.reader hshrinks hread h

/-- An operator in front of an operand. -/
theorem signedOf_of_behind {op : UnaryOp}
    (hothers : ∀ other, other ≠ op → behind other.symbol rest = none)
    (hbehind : behind op.symbol rest = some inner)
    (hread : signedOf operand inner = some (x, shorter)) :
    signedOf operand rest = some (.unary op x, shorter) := by
  refine prefixed_of_behind op.reader ?_ ?_ hbehind hread
  · cases op <;> simp
  · intro operator hmem hne
    simp only [List.mem_cons, List.not_mem_nil, or_false] at hmem
    rcases hmem with rfl | rfl
    · exact hothers .not fun heq => hne (congrArg UnaryOp.reader heq)
    · exact hothers .neg fun heq => hne (congrArg UnaryOp.reader heq)

end Levels

/-! ## Expressions -/

section Expressions

variable {expression : Reader Expr} {rest middle inner shorter : List Char} {x y : Expr}

theorem atomOf_shrinks (h : Shrinks expression) : Shrinks (atomOf expression) := by
  apply shrinks_of_map (f := Payload.expr)
  rw [← bare_eq false]
  exact Ladder.bare_shrinks (proper false) (map_shrinks h)

theorem tree_shrinks : Shrinks tree :=
  recursive_shrinks fun _ h =>
    foldr_chainOf_shrinks leftLevels (signedOf_shrinks (atomOf_shrinks h))

/-- An operand alone is read by every level. -/
theorem orOf_of_atom (hshrinks : Shrinks expression) (hunsigned : Unsigned rest)
    (hread : atomOf expression rest = some (x, shorter)) (hfree : Free shorter) :
    orOf expression rest = some (x, shorter) := by
  rw [orOf_eq]
  apply foldr_chainOf_of_free
  · exact signedOf_of_atom (atomOf_shrinks hshrinks) hunsigned hread (hfree .pow)
  · exact fun _ _ op _ => hfree op

/-- Where neither an operand nor an operator in front of one stands, nothing is read. -/
theorem orOf_eq_none (hshrinks : Shrinks expression) (hunsigned : Unsigned rest)
    (h : atomOf expression rest = none) : orOf expression rest = none := by
  have hsigned : signedOf (atomOf expression) rest = none := by
    rw [signedOf_of_unsigned hunsigned, rightAssociative_eq (atomOf_shrinks hshrinks), h,
      Option.map_none]
  rw [orOf_eq]
  induction leftLevels with
  | nil => exact hsigned
  | cons ops levels ih => rw [List.foldr_cons, chainOf, Reader.leftAssociative, ih, Option.map_none]

/-- An operator in front of an operand. -/
theorem orOf_of_unary {op : UnaryOp} (hshrinks : Shrinks expression)
    (hothers : ∀ other, other ≠ op → behind other.symbol rest = none)
    (hbehind : behind op.symbol rest = some inner) (hunsigned : Unsigned inner)
    (hread : atomOf expression inner = some (x, shorter)) (hfree : Free shorter) :
    orOf expression rest = some (.unary op x, shorter) := by
  rw [orOf_eq]
  apply foldr_chainOf_of_free
  · apply signedOf_of_behind hothers hbehind
    exact signedOf_of_atom (atomOf_shrinks hshrinks) hunsigned hread (hfree .pow)
  · exact fun _ _ op _ => hfree op

/-- A power of two operands. -/
theorem signedOf_of_pow (hshrinks : Shrinks expression) (hunsigned : Unsigned rest)
    (hleft : atomOf expression rest = some (x, middle))
    (hbehind : behind BinaryOp.pow.symbol middle = some inner)
    (hright : atomOf expression inner = some (y, shorter)) (hfree : Free shorter) :
    signedOf (atomOf expression) rest = some (.binary .pow x y, shorter) := by
  have hatom := atomOf_shrinks hshrinks
  rw [signedOf_of_unsigned hunsigned]
  have hpower : rightAssociative BinaryOp.pow.reader [] (atomOf expression) inner =
      some (y, shorter) :=
    rightAssociative_of_free BinaryOp.pow.reader hatom hright (hfree .pow)
  exact rightAssociative_of_behind BinaryOp.pow.reader hatom hleft hbehind hpower

/-- An operator between two operands. -/
theorem orOf_of_binary {op : BinaryOp} (hshrinks : Shrinks expression) (hunsigned : Unsigned rest)
    (hleft : atomOf expression rest = some (x, middle))
    (hothers : ∀ other, other ≠ op → behind other.symbol middle = none)
    (hbehind : behind op.symbol middle = some inner) (hunsigned' : Unsigned inner)
    (hright : atomOf expression inner = some (y, shorter)) (hfree : Free shorter) :
    orOf expression rest = some (.binary op x y, shorter) := by
  have hatom := atomOf_shrinks hshrinks
  rw [orOf_eq]
  by_cases hpow : op = .pow
  · subst hpow
    apply foldr_chainOf_of_free
    · exact signedOf_of_pow hshrinks hunsigned hleft hbehind hright hfree
    · exact fun _ _ op _ => hfree op
  · obtain ⟨looser, ops, tighter, hlevels, hop, htighter⟩ := exists_level hpow
    rw [hlevels, List.foldr_append, List.foldr_cons]
    have hsigned := signedOf_shrinks hatom
    -- Operators of tighter levels are others, so both operands pass these levels.
    have hoperand :
        tighter.foldr chainOf (signedOf (atomOf expression)) rest = some (x, middle) := by
      apply foldr_chainOf_of_free
      · exact signedOf_of_atom hatom hunsigned hleft (hothers .pow fun heq => hpow heq.symm)
      · intro others hmem other hother
        apply hothers
        rintro rfl
        exact htighter others hmem hother
    have hoperand' : tighter.foldr chainOf (signedOf (atomOf expression)) inner =
        some (y, shorter) := by
      apply foldr_chainOf_of_free
      · exact signedOf_of_atom hatom hunsigned' hright (hfree .pow)
      · exact fun _ _ op _ => hfree op
    apply foldr_chainOf_of_free
    · exact chainOf_of_behind (foldr_chainOf_shrinks tighter hsigned) hoperand hop hothers hbehind
        hoperand' hfree
    · exact fun _ _ op _ => hfree op

end Expressions

end Packrat.Expression
