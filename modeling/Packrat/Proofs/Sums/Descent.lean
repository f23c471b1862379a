import Packrat.Proofs.Sums.Run

/-!
# Sums by recursive descent

Recursive descent reads factors with the operator between them and folds them from the left; a
factor is an atom or a sum in brackets, and every bracket holds a sum of its own.  A grammar of sums
answers like this as long as a bracket stands around the first operand of a sum only.  The content
of any other bracket is read with what stands to the left of the bracket: of `a+(b+c)` the grammar
reads no more than `a`.
-/

namespace Packrat

open Text (byteLength)

variable {α : Type}

namespace Sums

/-! ## The reference -/

section Reference

variable (sums : Sums α)

/-- What `inner` reads in brackets. -/
def bracketOf (inner : Reader α) : Reader α := fun rest =>
  (Reading.behind? sums.opening rest).bind fun rest =>
    (inner rest).bind fun (x, rest) =>
      (Reading.behind? sums.closing rest).map fun rest =>
        (sums.group [sums.opened, x, sums.closed], rest)

/-- What `inner` reads in brackets, or an atom. -/
def factorOf (inner : Reader α) : Reader α := fun rest =>
  (sums.bracketOf inner rest).or (sums.atom.read rest)

/-- The operator and a factor behind it, joined with what stands in front of them. -/
def joinedOf (inner : Reader α) (x : α) : Reader α := fun rest =>
  (Reading.behind? sums.operator rest).bind fun rest =>
    (sums.factorOf inner rest).map fun (y, rest) => (sums.join [x, sums.sign, y], rest)

/-- Factors with operators between them, folded from the left. -/
def descentOf (inner : Reader α) : Reader α := fun rest =>
  (sums.factorOf inner rest).map fun (x, rest) => Reader.foldFrom (sums.joinedOf inner) x rest

/-- A sum by recursive descent; what stands in brackets is a sum again. -/
def descent : Reader α := .recursive sums.descentOf

/-- An atom in any number of brackets. -/
def nested : Reader α := .recursive sums.factorOf

end Reference

variable {sums : Sums α} {inner inner' : Reader α} {rest shorter : List Char} {x y : α}

theorem bracketOf_congr (h : Reader.Agree (byteLength rest) inner inner') :
    sums.bracketOf inner rest = sums.bracketOf inner' rest := by
  apply Option.bind_congr
  intro rest₁ hopening
  rw [h rest₁ (Reading.behind?_lt sums.opening_ne hopening)]

theorem factorOf_congr (h : Reader.Agree (byteLength rest) inner inner') :
    sums.factorOf inner rest = sums.factorOf inner' rest := by
  rw [factorOf, factorOf, bracketOf_congr h]

theorem joinedOf_congr (h : Reader.Agree (byteLength rest) inner inner') :
    sums.joinedOf inner x rest = sums.joinedOf inner' x rest := by
  apply Option.bind_congr
  intro rest₁ hoperator
  have hle := Nat.le_of_lt (Reading.behind?_lt sums.operator_ne hoperator)
  rw [factorOf_congr (h.mono hle)]

theorem nested_eq (rest : List Char) : sums.nested rest = sums.factorOf sums.nested rest :=
  Reader.recursive_eq fun _ _ h => factorOf_congr h

theorem factorOf_shrinks (hinner : Reader.Shrinks inner) : Reader.Shrinks
    (sums.factorOf inner) := by
  intro rest x shorter hread
  rcases Option.or_eq_some_iff.mp hread with hbracket | ⟨-, hatom⟩
  · obtain ⟨rest₁, hopening, hbracket⟩ := Option.bind_eq_some_iff.mp hbracket
    obtain ⟨⟨y, rest₂⟩, hinside, hbracket⟩ := Option.bind_eq_some_iff.mp hbracket
    obtain ⟨rest₃, hclosing, heq⟩ := Option.map_eq_some_iff.mp hbracket
    cases heq
    have hsum := Reading.behind?_add hopening
    have hsum' := Reading.behind?_add hclosing
    have hle := hinner _ _ _ hinside
    omega
  · exact Parser.read_shrinks _ _ _ _ hatom

/-- A step of the fold takes the operator at least. -/
theorem joinedOf_lt (hinner : Reader.Shrinks inner)
    (hread : sums.joinedOf inner x rest = some (y, shorter)) :
    byteLength shorter < byteLength rest := by
  obtain ⟨rest₁, hoperator, hread⟩ := Option.bind_eq_some_iff.mp hread
  obtain ⟨⟨z, rest₂⟩, hfactor, heq⟩ := Option.map_eq_some_iff.mp hread
  cases heq
  exact Nat.lt_of_le_of_lt (factorOf_shrinks hinner _ _ _ hfactor)
    (Reading.behind?_lt sums.operator_ne hoperator)

theorem descentOf_shrinks (hinner : Reader.Shrinks inner) :
    Reader.Shrinks (sums.descentOf inner) := by
  intro rest x shorter hread
  obtain ⟨⟨y, rest₁⟩, hfactor, heq⟩ := Option.map_eq_some_iff.mp hread
  have hle : byteLength (Reader.foldFrom (sums.joinedOf inner) y rest₁).2 ≤ byteLength rest₁ :=
    Reader.foldFrom_le (fun _ _ _ _ hstep => joinedOf_lt hinner hstep) y rest₁
  dsimp only at heq
  rw [heq] at hle
  exact Nat.le_trans hle (factorOf_shrinks hinner _ _ _ hfactor)

theorem descent_shrinks : Reader.Shrinks sums.descent :=
  Reader.recursive_shrinks fun _ => descentOf_shrinks

/-- Recursive descent satisfies the equation that it is defined by. -/
theorem descent_eq (rest : List Char) : sums.descent rest = sums.descentOf sums.descent rest := by
  apply Reader.recursive_eq_of_shrinks fun _ => descentOf_shrinks
  intro inner inner' hinner h
  rw [descentOf, descentOf, ← factorOf_congr h]
  apply Option.map_congr
  rintro ⟨x, rest₁⟩ hfactor
  have hle := factorOf_shrinks hinner _ _ _ hfactor
  apply Reader.foldFrom_congr
  intro y rest₂ hshorter
  exact joinedOf_congr (h.mono (Nat.le_trans hshorter hle))

/-! ## Brackets around first operands -/

/-- What stands to its left makes no difference to the atom, which leaves it there. -/
def Blind (sums : Sums α) : Prop :=
  ∀ left rest, sums.atom.means left rest =
    (sums.atom.read rest).map fun (x, rest) => ⟨x, rest, true⟩

/-- Operators with atoms behind them; no bracket is opened behind any of these. -/
inductive Bare (sums : Sums α) : List Char → Prop where
  | done {rest : List Char} (hoperator : Reading.behind? sums.operator rest = none) : Bare sums rest
  | stuck {rest shorter : List Char} (hoperator : Reading.behind? sums.operator rest = some shorter)
      (hopening : Reading.behind? sums.opening shorter = none)
      (hatom : sums.atom.read shorter = none) : Bare sums rest
  | joined {rest shorter further : List Char} {y : α}
      (hoperator : Reading.behind? sums.operator rest = some shorter)
      (hopening : Reading.behind? sums.opening shorter = none)
      (hatom : sums.atom.read shorter = some (y, further))
      (hbehind : Reading.behind? sums.opening further = none) (htail : Bare sums further) :
      Bare sums rest

/-- Brackets are opened in front of a sum only, one behind another. -/
inductive Fronted (sums : Sums α) : List Char → Prop where
  | atom {rest : List Char} (hopening : Reading.behind? sums.opening rest = none)
      (htail : ∀ x behind, sums.atom.read rest = some (x, behind) → Bare sums behind) :
      Fronted sums rest
  | bracket {rest inside : List Char} (hopening : Reading.behind? sums.opening rest = some inside)
      (hinside : Fronted sums inside)
      (htail : ∀ x behind, sums.factorOf sums.descent rest = some (x, behind) → Bare sums behind) :
      Fronted sums rest

/-- Where no bracket is opened, an operand is an atom. -/
theorem operandOf_bare {inner : Reading α} (left : LeftContent α)
    (hopening : Reading.behind? sums.opening rest = none) :
    sums.operandOf inner left rest = sums.atom.means left rest := by
  rw [operandOf, groupOf_eq, hopening, Option.bind_none, Option.none_or]

theorem factorOf_bare (hopening : Reading.behind? sums.opening rest = none) :
    sums.factorOf inner rest = sums.atom.read rest := by
  rw [factorOf, bracketOf, hopening, Option.bind_none, Option.none_or]

/-- An operand is a factor, of what is read in its brackets. -/
theorem operandOf_pair {inside : Reading α} {left : LeftContent α}
    (hatom : (sums.atom.means left rest).map Found.pair = sums.atom.read rest)
    (hinside : ∀ shorter, byteLength shorter < byteLength rest →
      (inside left shorter).map Found.pair = inner shorter) :
    (sums.operandOf inside left rest).map Found.pair = sums.factorOf inner rest := by
  rw [operandOf, Option.map_or, hatom, groupOf_eq, factorOf, bracketOf]
  cases hopening : Reading.behind? sums.opening rest with
  | none => rfl
  | some shorter =>
      rw [Option.bind_some, Option.bind_some,
        ← hinside shorter (Reading.behind?_lt sums.opening_ne hopening)]
      cases inside left shorter with
      | none => rfl
      | some found =>
          simp only [Option.bind_some, Option.map_some, Option.map_map, Found.pair]
          rfl

/-- With nothing to the left, an operand is a factor. -/
theorem operandOf_empty (rest : List Char) :
    (sums.operandOf sums.reading .empty rest).map Found.pair = sums.factorOf sums.reader rest :=
  operandOf_pair rfl fun _ _ => rfl

/-- As a right operand, an atom in any number of brackets is found. -/
theorem reading_rightOperand_pair (hblind : sums.Blind) (rest : List Char) :
    (sums.reading .rightOperand rest).map Found.pair = sums.nested rest := by
  induction hbytes : byteLength rest using Nat.strongRecOn generalizing rest with
  | ind bytes ih =>
      subst hbytes
      have hatom : (sums.atom.means .rightOperand rest).map Found.pair = sums.atom.read rest := by
        rw [hblind]
        cases sums.atom.read rest <;> rfl
      rw [reading_rightOperand, nested_eq]
      exact operandOf_pair hatom fun shorter hlt => ih _ hlt shorter rfl

/-- A sum always takes up the operand that it begins with. -/
theorem sumOf_takes {inner : Reading α} {left : LeftContent α} {found : Found α}
    (h : sums.sumOf inner left rest = some found) : found.kept = false := by
  obtain ⟨operand, -, h⟩ := Option.bind_eq_some_iff.mp h
  obtain ⟨shorter, -, h⟩ := Option.bind_eq_some_iff.mp h
  obtain ⟨right, -, rfl⟩ := Option.map_eq_some_iff.mp h
  unfold Found.folded
  split
  · split
    · rfl
    · exact Bool.eq_false_iff.mpr ‹_›
  · rfl

/-- Where no bracket is opened, a fold goes on by a sum from its payload or not at all. -/
theorem folded_pair (hblind : sums.Blind)
    (hopening : Reading.behind? sums.opening rest = none) (x : α) :
    (Found.folded x rest (sums.reading (.operand (some x)) rest)).pair =
      ((sums.sumOf sums.reading (.operand (some x)) rest).map Found.pair).getD (x, rest) := by
  rw [reading_eq, expressionOf, operandOf_bare _ hopening, hblind]
  cases hsum : sums.sumOf sums.reading (.operand (some x)) rest with
  | none => cases sums.atom.read rest <;> rfl
  | some found =>
      rw [Option.some_or, Found.folded, sumOf_takes hsum]
      rfl

/-- A sum from a payload joins it to the right operand behind the operator, and goes on. -/
theorem sumOf_operand (inner : Reading α) (x : α) (rest : List Char) :
    sums.sumOf inner (.operand (some x)) rest =
      (Reading.behind? sums.operator rest).bind fun rest => sums.rightOf inner x rest :=
  rfl

/-- Over atoms, sums from a payload are the fold that goes on from it. -/
theorem Bare.sumOf_eq_foldFrom (hblind : sums.Blind) (h : sums.Bare rest) (x : α) :
    ((sums.sumOf sums.reading (.operand (some x)) rest).map Found.pair).getD (x, rest) =
      Reader.foldFrom (sums.joinedOf sums.descent) x rest := by
  induction h generalizing x with
  | @done rest hoperator =>
      have hstep : sums.joinedOf sums.descent x rest = none := by
        rw [joinedOf, hoperator, Option.bind_none]
      rw [Reader.foldFrom_of_none hstep, sumOf_operand, hoperator]
      rfl
  | @stuck rest shorter hoperator hopening hatom =>
      have hstep : sums.joinedOf sums.descent x rest = none := by
        rw [joinedOf, hoperator, Option.bind_some, factorOf_bare hopening, hatom, Option.map_none]
      have hright : sums.reading .rightOperand shorter = none := by
        rw [reading_rightOperand, operandOf_bare _ hopening, hblind, hatom, Option.map_none]
      rw [Reader.foldFrom_of_none hstep, sumOf_operand, hoperator, Option.bind_some, rightOf,
        hright]
      rfl
  | @joined rest shorter further y hoperator hopening hatom hbehind htail ih =>
      have hstep : sums.joinedOf sums.descent x rest =
          some (sums.join [x, sums.sign, y], further) := by
        rw [joinedOf, hoperator, Option.bind_some, factorOf_bare hopening, hatom, Option.map_some]
      have hright : sums.reading .rightOperand shorter = some ⟨y, further, true⟩ := by
        rw [reading_rightOperand, operandOf_bare _ hopening, hblind, hatom, Option.map_some]
      rw [Reader.foldFrom_of_some hstep (joinedOf_lt descent_shrinks hstep), ← ih,
        ← folded_pair hblind hbehind, sumOf_operand, hoperator, Option.bind_some, rightOf, hright]
      rfl

/-- An operand with nothing to its left is joined to what stands behind it, or stands alone. -/
theorem reader_eq (rest : List Char) :
    sums.reader rest = (sums.factorOf sums.reader rest).map fun (x, behind) =>
      ((sums.sumOf sums.reading (.operand (some x)) behind).map Found.pair).getD (x, behind) := by
  rw [← operandOf_empty, reader, reading_eq, expressionOf]
  cases hoperand : sums.operandOf sums.reading .empty rest with
  | none =>
      rw [sumOf, Parser.operand, hoperand]
      rfl
  | some found =>
      have hsum : sums.sumOf sums.reading .empty rest =
          sums.sumOf sums.reading (.operand (some found.payload)) found.rest := by
        rw [sumOf, Parser.operand, hoperand]
        rfl
      rw [hsum, Option.map_or, Option.map_some, Option.map_some, Found.pair]
      dsimp only
      cases (sums.sumOf sums.reading (.operand (some found.payload)) found.rest).map Found.pair <;>
        rfl

/-- The grammar folds as recursive descent does if the two begin with the same factor. -/
theorem reader_eq_of_tails (hblind : sums.Blind)
    (hfactor : sums.factorOf sums.reader rest = sums.factorOf sums.descent rest)
    (htail : ∀ x behind, sums.factorOf sums.descent rest = some (x, behind) → sums.Bare behind) :
    sums.reader rest = sums.descent rest := by
  rw [reader_eq, descent_eq, descentOf, hfactor]
  apply Option.map_congr
  rintro ⟨x, behind⟩ hread
  exact (htail x behind hread).sumOf_eq_foldFrom hblind x

/-- With brackets around first operands only, the grammar reads as recursive descent does. -/
theorem Fronted.reader_eq_descent (hblind : sums.Blind) (h : sums.Fronted rest) :
    sums.reader rest = sums.descent rest := by
  induction h with
  | @atom rest hopening htail =>
      have hfactor : sums.factorOf sums.reader rest = sums.factorOf sums.descent rest := by
        rw [factorOf_bare hopening, factorOf_bare hopening]
      exact reader_eq_of_tails hblind hfactor fun x behind hread =>
        htail x behind (by rwa [factorOf_bare hopening] at hread)
  | @bracket rest inside hopening hinside htail ih =>
      have hfactor : sums.factorOf sums.reader rest = sums.factorOf sums.descent rest := by
        rw [factorOf, factorOf, bracketOf, bracketOf, hopening, Option.bind_some, Option.bind_some,
          ih]
      exact reader_eq_of_tails hblind hfactor htail

/-! ## Answers -/

/--
A grammar of sums answers as it reads.  Where the context of an atom makes no difference to it, a
right operand is an atom in any number of brackets and never a sum in brackets, and recursive
descent reads the same as long as brackets stand around first operands only.
-/
theorem answers_as_fronted_descent (sums : Sums α) :
    sums.grammar.Answers sums.reader ∧
      (sums.Blind →
        (∀ rest, (sums.reading .rightOperand rest).map Found.pair = sums.nested rest) ∧
          ∀ rest, sums.Fronted rest → sums.reader rest = sums.descent rest) := by
  refine ⟨sums.reads.answers, fun hblind => ⟨?_, ?_⟩⟩
  · exact reading_rightOperand_pair hblind
  · intro rest hfronted
    exact hfronted.reader_eq_descent hblind

/-- Sums of letters, with square brackets around every sum that was folded. -/
def ofLetters : Sums String where
  sumGuard := 0
  groupGuard := 1
  operator := ['+']
  opening := ['(']
  closing := [')']
  sign := "+"
  opened := "("
  closed := ")"
  join payloads := "[" ++ String.join payloads ++ "]"
  group := String.join
  atom := .satisfy Char.isLower String.singleton
  operator_ne := by decide
  opening_ne := by decide
  atom_plain := rfl
  guards_ne := by decide
  sumGuard_unused := by simp [Parser.guards]

theorem ofLetters_blind : ofLetters.Blind := by
  intro left rest
  cases rest with
  | nil => rfl
  | cons c rest =>
      rw [ofLetters, Parser.read, Parser.means, Parser.means]
      dsimp only
      split <;> rfl

theorem ofLetters_fronted : ofLetters.Fronted "(a+b)+c".toList := by
  have hinside : ofLetters.Fronted "a+b)+c".toList := by
    apply Fronted.atom rfl
    intro x behind hread
    obtain ⟨-, rfl⟩ : "a" = x ∧ "+b)+c".toList = behind := by
      simpa [ofLetters, Parser.read_satisfy] using hread
    exact .joined rfl rfl rfl rfl (.done rfl)
  apply Fronted.bracket rfl hinside
  intro x behind hread
  have hfactor : ofLetters.factorOf ofLetters.descent "(a+b)+c".toList =
      some ("([a+b])", "+c".toList) := by
    decide +kernel
  obtain ⟨-, rfl⟩ := Prod.mk.inj (Option.some.inj (hfactor.symm.trans hread))
  exact .joined rfl rfl rfl rfl (.done rfl)

/-- The brackets of `(a+b)+c` are read as a sum, and those of `a+(b+c)` are not read at all. -/
theorem ofLetters_answers :
    ofLetters.grammar.Answers ofLetters.reader ∧
      ofLetters.reader "(a+b)+c".toList = ofLetters.descent "(a+b)+c".toList ∧
      ofLetters.reader.answer "(a+b)+c".toList = .ok "[([a+b])+c]" ∧
      (ofLetters.reading .rightOperand "(b+c)".toList).map Found.pair =
        ofLetters.nested "(b+c)".toList ∧
      ofLetters.reader.answer "a+(b+c)".toList = .error (.leftover 1 "a") ∧
      ofLetters.descent.answer "a+(b+c)".toList = .ok "[a+([b+c])]" := by
  obtain ⟨hanswers, hblind⟩ := answers_as_fronted_descent ofLetters
  obtain ⟨hright, hfronted⟩ := hblind ofLetters_blind
  refine ⟨hanswers, hfronted _ ofLetters_fronted, ?_, hright _, ?_, ?_⟩
  · decide +kernel
  · decide +kernel
  · decide +kernel

end Sums

end Packrat
