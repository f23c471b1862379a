import Packrat.Proofs.Reader.Basic

/-!
# Operators that overlap

Several operators of one level fit at one place if one is a beginning of another: both `+` and `+-`
fit in front of `+-b`.  Which of them a level goes on with is then a choice of its own; where at
most one fits, all choices agree, and the level is the plain fold of its operands.
-/

namespace Packrat

open Text (byteLength)

/-- How to choose among the operators that fit behind the first operand of a level. -/
inductive Choice where
  /-- The last one. -/
  | last
  /-- The first one if their number is odd, and none of them if it is even. -/
  | firstOfOdd
  deriving DecidableEq, Repr

namespace Choice

variable {ι κ : Type}

def pick : Choice → List ι → Option ι
  | .last, fitting => fitting.getLast?
  | .firstOfOdd, fitting => if fitting.length % 2 = 1 then fitting.head? else none

theorem mem_of_pick (choice : Choice) {fitting : List ι} {item : ι}
    (h : choice.pick fitting = some item) : item ∈ fitting := by
  cases choice with
  | last => exact List.mem_of_getLast? h
  | firstOfOdd => exact List.mem_of_head? (Option.ite_none_right_eq_some.mp h).2

/-- There is no choice to make among less than two. -/
theorem pick_of_length_le_one (choice : Choice) {fitting : List ι} (h : fitting.length ≤ 1) :
    choice.pick fitting = fitting.head? := by
  cases choice with
  | last =>
      match fitting with
      | [] => rfl
      | [_] => rfl
      | _ :: _ :: _ => exact absurd h (by simp)
  | firstOfOdd =>
      match fitting with
      | [] => rfl
      | [_] => rfl
      | _ :: _ :: _ => exact absurd h (by simp)

end Choice

namespace Reader

variable {β : Type}

/-- The operators behind which there is an operand. -/
def fitting (operators : List (Binary β)) (operand : Reader β) (rest : List Char) :
    List (Binary β) :=
  operators.filter fun operator => ((behind operator.symbol rest).bind operand).isSome

/-- The fold of a level that goes on with a given operator. -/
def chain (operators : List (Binary β)) (operand : Reader β) (operator : Binary β) (x : β) :
    Reader β := fun rest =>
  (operator.after operand x rest).map fun (y, rest) => foldFrom (joined operators operand) y rest

/-- The fold of a level that goes on with the chosen operator, if one is chosen. -/
def chosen (choice : Choice) (operators : List (Binary β)) (operand : Reader β) (x : β) :
    Reader β := fun rest =>
  (choice.pick (fitting operators operand rest)).bind fun operator =>
    chain operators operand operator x rest

/-- Operands with operators between them, the first of which is chosen. -/
def leftChosen (choice : Choice) (operators : List (Binary β)) (operand : Reader β) : Reader β :=
  fun rest => (operand rest).map fun (x, rest) =>
    (chosen choice operators operand x rest).getD (x, rest)

/-- The operators of a level apart from each other: none is a beginning of another. -/
def Apart (operators : List (Binary β)) : Prop :=
  operators.Pairwise fun operator other =>
    ¬ operator.symbol.toList <+: other.symbol.toList ∧
      ¬ other.symbol.toList <+: operator.symbol.toList

variable {operators : List (Binary β)} {operand operand' : Reader β} {rest : List Char}

theorem isSome_after {operator : Binary β} (x : β) :
    (operator.after operand x rest).isSome =
      ((behind operator.symbol rest).bind operand).isSome := by
  rw [Binary.after]
  cases behind operator.symbol rest with
  | none => rfl
  | some rest => simp

/-- A step of a fold takes the first operator that fits. -/
theorem joined_eq_head (x : β) :
    joined operators operand x rest =
      (fitting operators operand rest).head?.bind fun operator =>
        operator.after operand x rest := by
  induction operators with
  | nil => rfl
  | cons operator operators ih =>
      simp only [joined, List.map_cons, first] at ih ⊢
      simp only [fitting, List.filter_cons]
      rw [ih, ← isSome_after x]
      cases hafter : operator.after operand x rest with
      | none => simp [fitting]
      | some found => simp [hafter]

/-- Where no choice is to be made, a level is the fold of its operands. -/
theorem leftChosen_eq_leftAssociative {choice : Choice} (hshrinks : Shrinks operand)
    (hfew : ∀ shorter, byteLength shorter ≤ byteLength rest →
      (fitting operators operand shorter).length ≤ 1) :
    leftChosen choice operators operand rest = leftAssociative operators operand rest := by
  refine Option.map_congr fun (x, rest') hread => ?_
  have hpick := choice.pick_of_length_le_one (hfew rest' (hshrinks _ _ _ hread))
  have hchosen : chosen choice operators operand x rest' =
      (joined operators operand x rest').map fun (y, rest) =>
        foldFrom (joined operators operand) y rest := by
    rw [joined_eq_head, chosen, hpick]
    cases (fitting operators operand rest').head? <;> rfl
  dsimp only
  rw [hchosen]
  cases hjoined : joined operators operand x rest' with
  | none => rw [foldFrom_of_none hjoined]; rfl
  | some found =>
      rw [foldFrom_of_some hjoined (joined_lt hshrinks _ _ _ _ hjoined)]
      rfl

/-- Of operators that are apart from each other, at most one fits. -/
theorem length_fitting_le_one (hapart : Apart operators) (operand : Reader β)
    (rest : List Char) : (fitting operators operand rest).length ≤ 1 := by
  have hpairs : Apart (fitting operators operand rest) := hapart.sublist List.filter_sublist
  have hbegins : ∀ operator ∈ fitting operators operand rest,
      operator.symbol.toList <+: skipBlanks rest := by
    intro operator hmem
    obtain ⟨found, hfound⟩ := Option.isSome_iff_exists.mp (List.mem_filter.mp hmem).2
    obtain ⟨shorter, hbehind, -⟩ := Option.bind_eq_some_iff.mp hfound
    simp only [behind, Option.ite_none_right_eq_some] at hbehind
    exact List.isPrefixOf_iff_prefix.mp hbehind.1
  generalize fitting operators operand rest = fits at hpairs hbegins
  cases hpairs with
  | nil => exact Nat.zero_le _
  | @cons x others hhead _ =>
      cases others with
      | nil => exact Nat.le_refl _
      | cons y others =>
          obtain ⟨hxy, hyx⟩ := hhead y List.mem_cons_self
          rcases List.prefix_or_prefix_of_prefix (hbegins x List.mem_cons_self)
            (hbegins y (List.mem_cons_of_mem _ List.mem_cons_self)) with h | h
          · exact absurd h hxy
          · exact absurd h hyx

/-! ## What is read lies ahead, and depends on what lies ahead -/

theorem chosen_le {choice : Choice} (hshrinks : Shrinks operand) {x y : β} {shorter : List Char}
    (h : chosen choice operators operand x rest = some (y, shorter)) :
    byteLength shorter < byteLength rest := by
  obtain ⟨operator, -, hchain⟩ := Option.bind_eq_some_iff.mp h
  obtain ⟨⟨z, rest'⟩, hafter, heq⟩ := Option.map_eq_some_iff.mp hchain
  exact Nat.lt_of_le_of_lt (foldFrom_joined_le hshrinks heq) (Binary.after_lt hshrinks hafter)

theorem leftChosen_shrinks {choice : Choice} (hshrinks : Shrinks operand) :
    Shrinks (leftChosen choice operators operand) := by
  intro rest x shorter hread
  obtain ⟨⟨y, rest'⟩, hinner, heq⟩ := Option.map_eq_some_iff.mp hread
  refine Nat.le_trans ?_ (hshrinks _ _ _ hinner)
  dsimp only at heq
  cases hchosen : chosen choice operators operand y rest' with
  | none =>
      rw [hchosen] at heq
      cases heq
      exact Nat.le_refl _
  | some found =>
      rw [hchosen] at heq
      cases heq
      exact Nat.le_of_lt (chosen_le hshrinks hchosen)

theorem fitting_congr (h : Agree (byteLength rest) operand operand') :
    fitting operators operand rest = fitting operators operand' rest := by
  refine List.filter_congr fun operator _ => ?_
  refine congrArg Option.isSome (Option.bind_congr fun shorter hbehind => ?_)
  exact h shorter (behind_lt operator.nonempty hbehind)

theorem leftChosen_agree {choice : Choice} {limit : Nat} (hshrinks : Shrinks operand)
    (h : Agree limit operand operand') :
    Agree limit (leftChosen choice operators operand) (leftChosen choice operators operand') := by
  intro rest hrest
  rw [leftChosen, leftChosen, ← h rest hrest]
  refine Option.map_congr fun (x, rest') hread => ?_
  have hlt := Nat.lt_of_le_of_lt (hshrinks _ _ _ hread) hrest
  have hahead := h.mono (Nat.le_of_lt hlt)
  refine congrArg (fun found : Option (β × List Char) => found.getD (x, rest')) ?_
  rw [chosen, chosen, ← fitting_congr hahead]
  refine Option.bind_congr fun operator _ => ?_
  rw [chain, chain, ← Binary.after_congr hahead]
  refine Option.map_congr fun (y, rest'') hafter => ?_
  have hlt' := Binary.after_lt hshrinks hafter
  exact foldFrom_congr fun z shorter hshorter =>
    joined_congr (hahead.mono (Nat.le_of_lt (Nat.lt_of_le_of_lt hshorter hlt'))) z

end Reader

end Packrat
