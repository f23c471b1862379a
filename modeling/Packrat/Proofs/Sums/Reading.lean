import Packrat.Grammar
import Packrat.Proofs.Plain.Lexeme

/-!
# Sums of atoms and groups

A sum is a left-associative rule over atoms and over sums in brackets.  What stands to the left of a
cursor stays with it behind an opening bracket, so the sum inside a group is read with what stands
to the left of the group: freely in a first operand, as nothing but an operand in a right one, and
as the rest of a fold behind one.
-/

namespace Packrat

open Text (byteLength)

variable {α : Type}

/-! ## Readings in context -/

/-- What is found in front of some characters, depending on what stands to their left. -/
abbrev Reading (α : Type) := LeftContent α → List Char → Option (Found α)

namespace Reading

/-- What stands behind a fixed text. -/
def behind? (text rest : List Char) : Option (List Char) :=
  if text.isPrefixOf rest then some (rest.drop text.length) else none

/-- Finds a fixed text, whatever stands to the left. -/
def literal (text : List Char) (payload : α) : Reading α := fun _ rest =>
  (behind? text rest).map fun rest => ⟨payload, rest, true⟩

/-- What is found one after another. -/
def all : List (Reading α) → LeftContent α → List Char → Option (List α × List Char × Bool)
  | [], _, rest => some ([], rest, true)
  | reading :: readings, left, rest =>
      (reading left rest).bind fun found =>
        (all readings (left.behind found.kept) found.rest).map fun (payloads, rest, kept) =>
          (found.payload :: payloads, rest, found.kept && kept)

/-- The reading on texts that are shorter than the given one; it finds nothing on others. -/
def below (rest : List Char) (reading : Reading α) : Reading α := fun left shorter =>
  if byteLength shorter < byteLength rest then reading left shorter else none

/-- The reading that is made from itself; it comes up again in front of shorter texts only. -/
def recursive (body : Reading α → Reading α) (left : LeftContent α) (rest : List Char) :
    Option (Found α) :=
  body (fun left shorter =>
    if _h : byteLength shorter < byteLength rest then recursive body left shorter else none) left
    rest
termination_by byteLength rest

/-- What is behind a finding is never longer than what was in front of it. -/
def Shrinks (reading : Reading α) : Prop :=
  ∀ left rest found, reading left rest = some found → byteLength found.rest ≤ byteLength rest

/-- Readings that agree on all texts of less than `limit` bytes. -/
def Agree (limit : Nat) (reading reading' : Reading α) : Prop :=
  ∀ left rest, byteLength rest < limit → reading left rest = reading' left rest

variable {body : Reading α → Reading α} {reading reading' : Reading α}
  {text rest shorter : List Char}

theorem behind?_add (h : behind? text rest = some shorter) :
    byteLength text + byteLength shorter = byteLength rest := by
  obtain ⟨hstarts, hdrop⟩ := Option.ite_none_right_eq_some.mp h
  obtain ⟨tail, rfl⟩ := List.isPrefixOf_iff_prefix.mp hstarts
  rw [List.drop_left] at hdrop
  rw [Text.byteLength_append, Option.some.inj hdrop]

theorem behind?_lt (htext : text ≠ []) (h : behind? text rest = some shorter) :
    byteLength shorter < byteLength rest := by
  have hsum := Reading.behind?_add h
  have hpos : byteLength text ≠ 0 := fun hzero => htext (Text.byteLength_eq_zero_iff.mp hzero)
  omega

theorem recursive_eq_below (body : Reading α → Reading α) (left : LeftContent α)
    (rest : List Char) :
    recursive body left rest = body (below rest (recursive body)) left rest := by
  rw [recursive]
  rfl

theorem below_shrinks {rest : List Char} (h : reading.Shrinks) : (below rest reading).Shrinks := by
  intro left shorter found hread
  exact h left shorter found (Option.ite_none_right_eq_some.mp hread).2

/-- A body that keeps readings ahead makes a reading that stays ahead. -/
theorem recursive_shrinks (hbody : ∀ reading : Reading α, reading.Shrinks →
    (body reading).Shrinks) :
    Shrinks (recursive body) := by
  intro left rest
  induction hbytes : byteLength rest using Nat.strongRecOn generalizing left rest with
  | ind bytes ih =>
      subst hbytes
      intro found hread
      rw [recursive_eq_below] at hread
      refine hbody _ ?_ left rest found hread
      intro left' shorter found' hread'
      obtain ⟨hlt, hread'⟩ := Option.ite_none_right_eq_some.mp hread'
      exact ih _ hlt left' shorter rfl found' hread'

/-- The equation of recursion, for a body that does so with readings that stay ahead. -/
theorem recursive_eq {left : LeftContent α} {rest : List Char}
    (hshrinks : ∀ reading : Reading α, reading.Shrinks → (body reading).Shrinks)
    (hbody : ∀ reading reading' : Reading α, reading.Shrinks →
      Agree (byteLength rest) reading reading' → body reading left rest = body reading' left rest) :
    recursive body left rest = body (recursive body) left rest := by
  rw [recursive_eq_below]
  apply hbody
  · exact below_shrinks (recursive_shrinks hshrinks)
  · intro left shorter hlt
    exact if_pos hlt

end Reading

/-! ## The grammar -/

/-- The parts of a grammar of sums.  Its two guards are instances of their own. -/
structure Sums (α : Type) where
  sumGuard : Nat
  groupGuard : Nat
  operator : List Char
  opening : List Char
  closing : List Char
  /-- The payloads of the operator and of the brackets. -/
  sign : α
  opened : α
  closed : α
  join : List α → α
  group : List α → α
  atom : Parser α
  operator_ne : operator ≠ []
  opening_ne : opening ≠ []
  atom_plain : atom.plain = true
  guards_ne : sumGuard ≠ groupGuard
  sumGuard_unused : sumGuard ∉ atom.guards

namespace Sums

variable (sums : Sums α)

/-- A sum, a sum in brackets or an atom. -/
def expression : Parser α :=
  .firstOf
    [ .foldedLeft sums.sumGuard (.call 0) [.literal sums.operator sums.sign] (.call 0) sums.join,
      .inOrder sums.groupGuard (.literal sums.opening sums.opened)
        [.call 0, .literal sums.closing sums.closed] sums.group,
      sums.atom ]

def grammar : Grammar α := ⟨.ofBodies [sums.expression], .call 0⟩

/-! ## What it finds -/

/-- What `inner` finds in brackets. -/
def groupOf (inner : Reading α) : Reading α := fun left rest =>
  (Reading.all [.literal sums.opening sums.opened, inner, .literal sums.closing sums.closed] left
    rest).map fun (payloads, rest, kept) => ⟨sums.group payloads, rest, kept⟩

/-- A group or an atom. -/
def operandOf (inner : Reading α) : Reading α := fun left rest =>
  (sums.groupOf inner left rest).or (sums.atom.means left rest)

/--
Behind an operand and the operator: what `inner` finds to go on from these and the right operand, or
else these alone.
-/
def rightOf (inner : Reading α) (x : α) (rest : List Char) : Option (Found α) :=
  (inner .rightOperand rest).map fun found =>
    Found.folded (sums.join [x, sums.sign, found.payload]) found.rest
      (inner (.operand (some (sums.join [x, sums.sign, found.payload]))) found.rest)

/-- An operand with the operator behind it, and what they are joined with. -/
def sumOf (inner : Reading α) : Reading α := fun left rest =>
  (Parser.operand (sums.operandOf inner) left rest).bind fun (x, rest) =>
    (Reading.behind? sums.operator rest).bind fun rest => sums.rightOf inner x rest

/-- A sum, or else an operand alone. -/
def expressionOf (inner : Reading α) : Reading α := fun left rest =>
  (sums.sumOf inner left rest).or (sums.operandOf inner left rest)

/-- What the grammar finds, in every context. -/
def reading : Reading α := Reading.recursive sums.expressionOf

/-- What the grammar reads where nothing stands to the left. -/
def reader : Reader α := fun rest => (sums.reading .empty rest).map Found.pair

variable {sums} {inner inner' : Reading α} {left : LeftContent α} {rest : List Char}

/-- A group is the sum between its brackets. -/
theorem groupOf_eq (inner : Reading α) (left : LeftContent α) (rest : List Char) :
    sums.groupOf inner left rest =
      (Reading.behind? sums.opening rest).bind fun rest =>
        (inner left rest).bind fun inside =>
          (Reading.behind? sums.closing inside.rest).map fun rest =>
            ⟨sums.group [sums.opened, inside.payload, sums.closed], rest, inside.kept⟩ := by
  simp only [groupOf, Reading.all, Reading.literal]
  cases Reading.behind? sums.opening rest with
  | none => rfl
  | some rest₁ =>
      simp only [Option.map_some, Option.bind_some, LeftContent.behind, if_true]
      cases inner left rest₁ with
      | none => rfl
      | some inside =>
          simp only [Option.bind_some]
          cases Reading.behind? sums.closing inside.rest with
          | none => rfl
          | some rest₂ => simp

theorem groupOf_shrinks (hinner : inner.Shrinks) : (sums.groupOf inner).Shrinks := by
  intro left rest found hread
  rw [groupOf_eq] at hread
  obtain ⟨rest₁, hopening, hread⟩ := Option.bind_eq_some_iff.mp hread
  obtain ⟨inside, hinside, hread⟩ := Option.bind_eq_some_iff.mp hread
  obtain ⟨rest₂, hclosing, rfl⟩ := Option.map_eq_some_iff.mp hread
  have hsum := Reading.behind?_add hopening
  have hsum' := Reading.behind?_add hclosing
  have hle := hinner _ _ _ hinside
  change byteLength rest₂ ≤ byteLength rest
  omega

theorem operandOf_shrinks (hinner : inner.Shrinks) : (sums.operandOf inner).Shrinks := by
  intro left rest found hread
  rcases Option.or_eq_some_iff.mp hread with hgroup | ⟨-, hatom⟩
  · exact groupOf_shrinks hinner _ _ _ hgroup
  · exact Parser.means_le _ _ _ _ hatom

theorem rightOf_le (hinner : inner.Shrinks) {x : α} {found : Found α}
    (hread : sums.rightOf inner x rest = some found) : byteLength found.rest ≤ byteLength rest := by
  obtain ⟨right, hright, rfl⟩ := Option.map_eq_some_iff.mp hread
  apply Parser.folded_le
  · exact hinner _ _ _ hright
  · intro extended hextended
    exact hinner _ _ _ hextended

theorem sumOf_shrinks (hinner : inner.Shrinks) : (sums.sumOf inner).Shrinks := by
  intro left rest found hread
  obtain ⟨⟨x, rest₁⟩, hoperand, hread⟩ := Option.bind_eq_some_iff.mp hread
  obtain ⟨rest₂, hoperator, hread⟩ := Option.bind_eq_some_iff.mp hread
  have hle : byteLength rest₁ ≤ byteLength rest :=
    Parser.operand_le (operandOf_shrinks hinner) hoperand
  have hlt := Reading.behind?_lt sums.operator_ne hoperator
  have hle' := rightOf_le hinner hread
  omega

theorem expressionOf_shrinks (hinner : inner.Shrinks) : (sums.expressionOf inner).Shrinks := by
  intro left rest found hread
  rcases Option.or_eq_some_iff.mp hread with hsum | ⟨-, hoperand⟩
  · exact sumOf_shrinks hinner _ _ _ hsum
  · exact operandOf_shrinks hinner _ _ _ hoperand

theorem reading_shrinks : sums.reading.Shrinks :=
  Reading.recursive_shrinks fun _ => expressionOf_shrinks

theorem groupOf_congr (h : Reading.Agree (byteLength rest) inner inner') :
    sums.groupOf inner left rest = sums.groupOf inner' left rest := by
  rw [groupOf_eq, groupOf_eq]
  cases hopening : Reading.behind? sums.opening rest with
  | none => rfl
  | some rest₁ => simp only [Option.bind_some, h left rest₁
    (Reading.behind?_lt sums.opening_ne hopening)]

theorem operandOf_congr (h : Reading.Agree (byteLength rest) inner inner') :
    sums.operandOf inner left rest = sums.operandOf inner' left rest := by
  rw [operandOf, operandOf, groupOf_congr h]

theorem operand_congr (h : Reading.Agree (byteLength rest) inner inner') :
    Parser.operand (sums.operandOf inner) left rest =
      Parser.operand (sums.operandOf inner') left rest := by
  cases left with
  | empty => rw [Parser.operand, Parser.operand, operandOf_congr h]
  | rightOperand => rfl
  | operand value => rfl

theorem rightOf_congr (hinner : inner.Shrinks) {limit : Nat} (h : Reading.Agree limit inner inner')
    (hlt : byteLength rest < limit) (x : α) :
    sums.rightOf inner x rest = sums.rightOf inner' x rest := by
  rw [rightOf, rightOf, ← h .rightOperand rest hlt]
  apply Option.map_congr
  intro right hright
  have hlt' := Nat.lt_of_le_of_lt (hinner _ _ _ hright) hlt
  rw [h _ right.rest hlt']

theorem sumOf_congr (hinner : inner.Shrinks) (h : Reading.Agree (byteLength rest) inner inner') :
    sums.sumOf inner left rest = sums.sumOf inner' left rest := by
  rw [sumOf, sumOf, ← operand_congr h]
  cases hoperand : Parser.operand (sums.operandOf inner) left rest with
  | none => rfl
  | some operand =>
      obtain ⟨x, rest₁⟩ := operand
      simp only [Option.bind_some]
      cases hoperator : Reading.behind? sums.operator rest₁ with
      | none => rfl
      | some rest₂ =>
          have hle := Parser.operand_le (operandOf_shrinks hinner) hoperand
          have hlt := Nat.lt_of_lt_of_le (Reading.behind?_lt sums.operator_ne hoperator) hle
          exact rightOf_congr hinner h hlt x

/-- A sum is made of operands and of sums in front of shorter texts. -/
theorem reading_eq (left : LeftContent α) (rest : List Char) :
    sums.reading left rest = sums.expressionOf sums.reading left rest := by
  apply Reading.recursive_eq fun _ => expressionOf_shrinks
  intro inner inner' hinner h
  rw [expressionOf, expressionOf, sumOf_congr hinner h, operandOf_congr h]

/-- As a right operand, a group or an atom is found and no sum. -/
theorem reading_rightOperand (rest : List Char) :
    sums.reading .rightOperand rest = sums.operandOf sums.reading .rightOperand rest := by
  rw [reading_eq]
  rfl

end Sums

end Packrat
