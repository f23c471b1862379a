import Packrat.Grammar
import Packrat.Proofs.Frame
import Packrat.Proofs.Plain.Lexeme
import Packrat.Proofs.Reader.Overlap

/-!
# Ladders

A ladder is a grammar of operators: levels of left-associative, right-associative and prefix
operators from loosest to tightest, above which stand rules that are no operators.  It is written
with calls of the whole grammar wherever an operand stands, and it is meant as recursive descent
from each level to the next tighter one; `Ladder.grammar` is the first, `Ladder.reads` the second.
-/

namespace Packrat

open Text (byteLength)

variable {α : Type}

/-! ## Operators -/

/-- An operator between two operands, with the numbers of its guard and of its stored results. -/
structure Infix (α : Type) where
  text : String
  payload : α
  combine : List α → α
  nonempty : text ≠ ""
  guard : Nat
  memo : Nat
  name : String

/-- An operator in front of its operand. -/
structure Sign (α : Type) where
  text : String
  payload : α
  combine : List α → α
  nonempty : text ≠ ""

/-- An operator in front of its operand that is a rule of its own. -/
structure Prefix (α : Type) extends Sign α where
  memo : Nat
  name : String

/-- The operators of one precedence; several ones, or one if it is `wrapped`, are alternatives. -/
inductive Level (α : Type) where
  | left (wrapped : Bool) (operators : List (Infix α))
  /-- Signs may stand in front of the right operand. -/
  | right (operator : Infix α) (signs : List (Sign α))
  | prefixed (wrapped : Bool) (operators : List (Prefix α))

/-- A rule above the operators, and what it reads where whole expressions are read by a reader. -/
structure Primary (α : Type) where
  memo : Nat
  name : String
  parser : Parser α
  reading : Reader α → Reader α

namespace Infix

/-- The operator as recursive descent has it. -/
def binary (operator : Infix α) : Reader.Binary α where
  symbol := operator.text
  join x y := operator.combine [x, operator.payload, y]
  nonempty := operator.nonempty

def symbol (filler : α) (operator : Infix α) : Parser α :=
  .token filler operator.text operator.payload

/-- Two expressions around the operator, folded to the left. -/
def folded (filler : α) (operator : Infix α) : Parser α :=
  .foldedLeft operator.guard (.call 0) [operator.symbol filler] (.call 0) operator.combine

end Infix

namespace Sign

/-- The operator as recursive descent has it. -/
def unary (sign : Sign α) : Reader.Unary α where
  symbol := sign.text
  apply x := sign.combine [sign.payload, x]
  nonempty := sign.nonempty

/-- An expression behind the operator. -/
def parser (filler : α) (sign : Sign α) : Parser α :=
  .sequence [.token filler sign.text sign.payload, .call 0] sign.combine

end Sign

/-- An expression with one of the signs in front of it, or without one. -/
def Parser.signedCall (filler : α) : List (Sign α) → Parser α
  | [] => .call 0
  | sign :: signs => .firstOf ((sign :: signs).map (·.parser filler) ++ [.call 0])

/-- Alternatives; a single one stands for itself unless it is wrapped. -/
def Parser.anyOf (wrapped : Bool) : List (Parser α) → Parser α
  | [parser] => if wrapped then .firstOf [parser] else parser
  | parsers => .firstOf parsers

namespace Level

/-- The guards of the level. -/
def guards : Level α → List Nat
  | left _ operators => operators.map (·.guard)
  | right operator _ => [operator.guard]
  | prefixed _ _ => []

/-- The numbers of the rules of the level. -/
def memos : Level α → List Nat
  | left _ operators => operators.map (·.memo)
  | right operator _ => [operator.memo]
  | prefixed _ operators => operators.map (·.memo)

/-- What the level reads, given what the next tighter one reads. -/
def reading (choice : Choice) : Level α → Reader α → Reader α
  | left _ operators, next => Reader.leftChosen choice (operators.map (·.binary)) next
  | right operator signs, next =>
      Reader.rightAssociative operator.binary (signs.map (·.unary)) next
  | prefixed _ operators, next => Reader.prefixed (operators.map (·.unary)) next

end Level

/-- A rule above the operators looks at shorter texts only where it reads an expression. -/
structure Primary.Proper (primary : Primary α) : Prop where
  shrinks : ∀ expression, Reader.Shrinks expression → Reader.Shrinks (primary.reading expression)
  ahead : ∀ rest expression expression', Reader.Shrinks expression →
    Reader.Agree (byteLength rest) expression expression' →
      primary.reading expression rest = primary.reading expression' rest

/-! ## Grammars -/

/--
A grammar of operators.  No number is given to two guards or to two rules; `around` holds the
guards that rules above the operators put around the expressions in them.
-/
structure Ladder (α : Type) where
  node : Nat
  cached : Bool
  traced : Bool
  filler : α
  levels : List (Level α)
  primaries : List (Primary α)
  around : List Nat
  guards_nodup : (levels.flatMap Level.guards ++ around).Nodup
  memos_nodup : (levels.flatMap Level.memos ++ primaries.map (·.memo)).Nodup

namespace Ladder

/-- A rule of the grammar, which is cached and whose calls are recorded on demand. -/
def rule (ladder : Ladder α) (memo : Nat) (name : String) (parser : Parser α) : Parser α :=
  let parser := if ladder.traced then .logged name parser else parser
  if ladder.cached then .memo memo 0 parser else parser

def infixRule (ladder : Ladder α) (operator : Infix α) : Parser α :=
  ladder.rule operator.memo operator.name (operator.folded ladder.filler)

def prefixRule (ladder : Ladder α) (operator : Prefix α) : Parser α :=
  ladder.rule operator.memo operator.name (operator.toSign.parser ladder.filler)

def primaryRule (ladder : Ladder α) (primary : Primary α) : Parser α :=
  ladder.rule primary.memo primary.name primary.parser

/-- The alternative of the precedence node that a level is. -/
def levelRule (ladder : Ladder α) : Level α → Parser α
  | .left wrapped operators => .anyOf wrapped (operators.map ladder.infixRule)
  | .right operator signs =>
      ladder.rule operator.memo operator.name
        (.inOrder operator.guard (.call 0)
          [operator.symbol ladder.filler, .signedCall ladder.filler signs] operator.combine)
  | .prefixed wrapped operators => .anyOf wrapped (operators.map ladder.prefixRule)

/-- The alternatives from loosest to tightest. -/
def rungs (ladder : Ladder α) : List (Parser α) :=
  ladder.levels.map ladder.levelRule ++ ladder.primaries.map ladder.primaryRule

def rules (ladder : Ladder α) : Rules α := .ofBodies [.climb ladder.node ladder.rungs]

/-- The grammar; if it is cached, its cache is emptied after each parse. -/
def grammar (ladder : Ladder α) : Grammar α where
  rules := ladder.rules
  entry := if ladder.cached then .clearing 0 0 (.call 0) else .call 0

/-! ## Recursive descent -/

/-- With a cache, the last of the operators that fit goes first; without one, it depends. -/
def choice (ladder : Ladder α) : Choice := if ladder.cached then .last else .firstOfOdd

/-- What the levels of a list read, given what is read above them. -/
def strata (choice : Choice) (levels : List (Level α)) (bare : Reader α) : Reader α :=
  levels.foldr (fun level next => level.reading choice next) bare

/-- What the first of the rules reads that reads anything. -/
def bare (primaries : List (Primary α)) (expression : Reader α) : Reader α :=
  .first (primaries.map fun primary => primary.reading expression)

/-- What the grammar reads. -/
def expression (ladder : Ladder α) : Reader α :=
  .recursive fun expression =>
    strata ladder.choice ladder.levels (bare ladder.primaries expression)

/-- What the alternatives from a given one on read. -/
def reads (ladder : Ladder α) (i : Nat) : Reader α :=
  strata ladder.choice (ladder.levels.drop i)
    (bare (ladder.primaries.drop (i - ladder.levels.length)) ladder.expression)

/-! ## Equations of recursive descent -/

section Reading

variable {choice : Choice} {levels : List (Level α)} {next next' : Reader α} {limit : Nat}

theorem reading_shrinks (level : Level α) (h : Reader.Shrinks next) :
    Reader.Shrinks (level.reading choice next) := by
  cases level with
  | left wrapped operators => exact Reader.leftChosen_shrinks h
  | right operator signs => exact Reader.rightAssociative_shrinks h
  | prefixed wrapped operators => exact Reader.prefixed_shrinks h

theorem reading_agree (level : Level α) (hshrinks : Reader.Shrinks next)
    (h : Reader.Agree limit next next') :
    Reader.Agree limit (level.reading choice next) (level.reading choice next') := by
  cases level with
  | left wrapped operators => exact Reader.leftChosen_agree hshrinks h
  | right operator signs => exact Reader.rightAssociative_agree hshrinks h
  | prefixed wrapped operators => exact Reader.prefixed_agree h

theorem strata_shrinks (h : Reader.Shrinks next) :
    Reader.Shrinks (strata choice levels next) := by
  induction levels with
  | nil => exact h
  | cons level levels ih => exact reading_shrinks level ih

theorem strata_agree (hshrinks : Reader.Shrinks next) (h : Reader.Agree limit next next') :
    Reader.Agree limit (strata choice levels next) (strata choice levels next') := by
  induction levels with
  | nil => exact h
  | cons level levels ih => exact reading_agree level (strata_shrinks hshrinks) ih

end Reading

section Bare

variable {primaries : List (Primary α)} {expression expression' : Reader α} {limit : Nat}

theorem bare_shrinks (hproper : ∀ primary ∈ primaries, primary.Proper)
    (h : Reader.Shrinks expression) : Reader.Shrinks (bare primaries expression) := by
  refine Reader.first_shrinks fun reader hmem => ?_
  obtain ⟨primary, hprimary, rfl⟩ := List.mem_map.mp hmem
  exact (hproper primary hprimary).shrinks expression h

theorem bare_congr {rest : List Char} (hproper : ∀ primary ∈ primaries, primary.Proper)
    (hshrinks : Reader.Shrinks expression)
    (h : Reader.Agree (byteLength rest) expression expression') :
    bare primaries expression rest = bare primaries expression' rest := by
  induction primaries with
  | nil => rfl
  | cons primary primaries ih =>
      obtain ⟨hhead, htail⟩ := List.forall_mem_cons.mp hproper
      simp only [bare, List.map_cons, Reader.first] at ih ⊢
      rw [hhead.ahead rest _ _ hshrinks h, ih htail]

end Bare

variable {ladder : Ladder α}

theorem expression_shrinks (hproper : ∀ primary ∈ ladder.primaries, primary.Proper) :
    Reader.Shrinks ladder.expression :=
  Reader.recursive_shrinks fun _ h => strata_shrinks (bare_shrinks hproper h)

/-- The grammar reads what its loosest level reads. -/
theorem reads_zero (hproper : ∀ primary ∈ ladder.primaries, primary.Proper) :
    ladder.reads 0 = ladder.expression := by
  funext rest
  rw [reads, List.drop_zero, Nat.zero_sub, List.drop_zero]
  refine Eq.symm (Reader.recursive_eq_of_shrinks
    (fun _ h => strata_shrinks (bare_shrinks hproper h)) fun reader reader' hshrinks h => ?_)
  refine strata_agree (bare_shrinks hproper hshrinks) (fun shorter hshorter => ?_) rest
    (Nat.lt_succ_self _)
  exact bare_congr hproper hshrinks (h.mono (Nat.le_of_lt_succ hshorter))

theorem reads_shrinks (hproper : ∀ primary ∈ ladder.primaries, primary.Proper) (i : Nat) :
    Reader.Shrinks (ladder.reads i) :=
  strata_shrinks (bare_shrinks (fun primary hmem => hproper primary (List.mem_of_mem_drop hmem))
    (expression_shrinks hproper))

theorem reads_level {i : Nat} {level : Level α} (hlevel : ladder.levels[i]? = some level) :
    ladder.reads i = level.reading ladder.choice (ladder.reads (i + 1)) := by
  obtain ⟨hlt, rfl⟩ := List.getElem?_eq_some_iff.mp hlevel
  rw [reads, List.drop_eq_getElem_cons hlt, reads, Nat.sub_eq_zero_of_le (Nat.le_of_lt hlt),
    Nat.sub_eq_zero_of_le hlt]
  rfl

theorem reads_primary {k : Nat} {primary : Primary α}
    (hprimary : ladder.primaries[k]? = some primary) (rest : List Char) :
    ladder.reads (ladder.levels.length + k) rest =
      (primary.reading ladder.expression rest).or
        (ladder.reads (ladder.levels.length + k + 1) rest) := by
  obtain ⟨hlt, rfl⟩ := List.getElem?_eq_some_iff.mp hprimary
  rw [reads, reads, List.drop_eq_nil_of_le (Nat.le_add_right _ _),
    List.drop_eq_nil_of_le (Nat.le_add_right_of_le (Nat.le_add_right _ _)), Nat.add_sub_cancel_left,
    Nat.add_assoc, Nat.add_sub_cancel_left, List.drop_eq_getElem_cons hlt]
  rfl

theorem reads_end {i : Nat} (hi : ladder.levels.length + ladder.primaries.length ≤ i)
    (rest : List Char) : ladder.reads i rest = none := by
  rw [reads, List.drop_eq_nil_of_le (by omega), List.drop_eq_nil_of_le (by omega)]
  rfl

/-! ## Alternatives -/

theorem rungs_level {i : Nat} {level : Level α} (hlevel : ladder.levels[i]? = some level) :
    ladder.rungs[i]? = some (ladder.levelRule level) := by
  obtain ⟨hlt, -⟩ := List.getElem?_eq_some_iff.mp hlevel
  rw [rungs, List.getElem?_append_left (by simpa using hlt), List.getElem?_map, hlevel]
  rfl

theorem rungs_primary {k : Nat} {primary : Primary α}
    (hprimary : ladder.primaries[k]? = some primary) :
    ladder.rungs[ladder.levels.length + k]? = some (ladder.primaryRule primary) := by
  rw [rungs, List.getElem?_append_right (by simp), List.getElem?_map, List.length_map,
    Nat.add_sub_cancel_left, hprimary]
  rfl

@[simp] theorem length_rungs :
    ladder.rungs.length = ladder.levels.length + ladder.primaries.length := by
  simp [rungs]

end Ladder

end Packrat
