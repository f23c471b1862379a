import Packrat.Text.Classes
import Packrat.Text.Encoding

/-!
# Recursive descent

Readers are the textbook form of recursive descent: functions from the characters in front of them
to a value and the characters behind it.  They know no state, no guards and no caches, and the
levels of a precedence table are put together from them one inside the other.
-/

namespace Packrat

open Text (byteLength)

/-- Reads a value off the front of a text; what stands behind the value comes with it. -/
abbrev Reader (β : Type) := List Char → Option (β × List Char)

namespace Reader

variable {β γ : Type}

/-! ## Pieces -/

/-- Changes every value. -/
def map (f : β → γ) (reader : Reader β) : Reader γ := fun rest =>
  (reader rest).map (Prod.map f id)

/-- The first reader that reads anything. -/
def first : List (Reader β) → Reader β
  | [], _ => none
  | reader :: readers, rest => (reader rest).or (first readers rest)

/-- The text behind white space. -/
def skipBlanks (rest : List Char) : List Char := rest.dropWhile Text.isBlank

/-- What stands behind a symbol that has white space on both sides. -/
def behind (symbol : String) (rest : List Char) : Option (List Char) :=
  if symbol.toList.isPrefixOf (skipBlanks rest) then
    some (skipBlanks ((skipBlanks rest).drop symbol.toList.length))
  else none

/-- The reader, with white space on both sides. -/
def padded (reader : Reader β) : Reader β := fun rest =>
  (reader (skipBlanks rest)).map (Prod.map id skipBlanks)

/-- The reader between two symbols. -/
def between (opening closing : String) (reader : Reader β) : Reader β := fun rest =>
  (behind opening rest).bind fun rest =>
    (reader rest).bind fun (x, rest) => (behind closing rest).map (x, ·)

/-- The reader on texts that are shorter than the given one; it reads nothing on others. -/
def below (rest : List Char) (reader : Reader β) : Reader β := fun shorter =>
  if byteLength shorter < byteLength rest then reader shorter else none

/-- The reader that is made from itself; it comes up again in front of shorter texts only. -/
def recursive (body : Reader β → Reader β) (rest : List Char) : Option (β × List Char) :=
  body (fun shorter =>
    if _h : byteLength shorter < byteLength rest then recursive body shorter else none) rest
termination_by byteLength rest

/-- Goes on from a value as long as there is a step to take. -/
def foldFrom (step : β → Reader β) (x : β) (rest : List Char) : β × List Char :=
  match step x rest with
  | none => (x, rest)
  | some (y, shorter) =>
      if byteLength shorter < byteLength rest then foldFrom step y shorter else (y, shorter)
termination_by byteLength rest

/-! ## Operators -/

/-- An operator between two operands. -/
structure Binary (β : Type) where
  symbol : String
  join : β → β → β
  nonempty : symbol ≠ ""

/-- An operator in front of its operand. -/
structure Unary (β : Type) where
  symbol : String
  apply : β → β
  nonempty : symbol ≠ ""

/-- Joins a left operand with the right one that is read behind the operator. -/
def Binary.after (operator : Binary β) (operand : Reader β) (x : β) : Reader β := fun rest =>
  (behind operator.symbol rest).bind fun rest =>
    (operand rest).map (Prod.map (operator.join x) id)

/-- Reads an operand behind the operator. -/
def Unary.before (operator : Unary β) (operand : Reader β) : Reader β := fun rest =>
  (behind operator.symbol rest).bind fun rest => (operand rest).map (Prod.map operator.apply id)

/-- One of the operators in front of an operand, or else what `bare` reads. -/
def signed (operators : List (Unary β)) (operand bare : Reader β) : Reader β :=
  first (operators.map (·.before operand) ++ [bare])

/-! ## Levels -/

/-- The first operator with an operand behind it. -/
def joined (operators : List (Binary β)) (operand : Reader β) (x : β) : Reader β :=
  first (operators.map fun operator => operator.after operand x)

/-- Operands with operators between them, joined from the left. -/
def leftAssociative (operators : List (Binary β)) (operand : Reader β) : Reader β := fun rest =>
  (operand rest).map fun (x, rest) => foldFrom (joined operators operand) x rest

/-- Operands with an operator between them, joined from the right; signs may stand behind it. -/
def rightAssociative (operator : Binary β) (signs : List (Unary β)) (operand : Reader β) :
    Reader β :=
  recursive fun power rest =>
    (operand rest).map fun (x, rest) =>
      (operator.after (signed signs power power) x rest).getD (x, rest)

/-- Any number of operators in front of an operand. -/
def prefixed (operators : List (Unary β)) (operand : Reader β) : Reader β :=
  recursive fun same => signed operators same operand

/-! ## Equations -/

theorem recursive_eq_below (body : Reader β → Reader β) (rest : List Char) :
    recursive body rest = body (below rest (recursive body)) rest := by
  rw [recursive]
  rfl

/-- Readers that agree on all texts of less than `limit` bytes. -/
def Agree (limit : Nat) (reader reader' : Reader β) : Prop :=
  ∀ rest, byteLength rest < limit → reader rest = reader' rest

theorem Agree.mono {limit limit' : Nat} {reader reader' : Reader β}
    (h : Agree limit reader reader') (hle : limit' ≤ limit) : Agree limit' reader reader' :=
  fun rest hrest => h rest (Nat.lt_of_lt_of_le hrest hle)

theorem agree_below (rest : List Char) (reader : Reader β) :
    Agree (byteLength rest) (below rest reader) reader :=
  fun _ hshorter => if_pos hshorter

/-- A body that looks at shorter texts only gives the equation of recursion. -/
theorem recursive_eq {body : Reader β → Reader β} {rest : List Char}
    (hbody : ∀ reader reader', Agree (byteLength rest) reader reader' →
      body reader rest = body reader' rest) :
    recursive body rest = body (recursive body) rest := by
  rw [recursive_eq_below]
  exact hbody _ _ (agree_below rest _)

/-- Bodies that agree make readers that agree. -/
theorem recursive_congr {body body' : Reader β → Reader β} {limit : Nat}
    (hbody : ∀ rest, byteLength rest < limit → ∀ reader reader',
      Agree (byteLength rest) reader reader' → body reader rest = body' reader' rest) :
    Agree limit (recursive body) (recursive body') := by
  intro rest hrest
  induction hbytes : byteLength rest using Nat.strongRecOn generalizing rest with
  | ind bytes ih =>
      subst hbytes
      rw [recursive_eq_below, recursive_eq_below]
      refine hbody rest hrest _ _ fun shorter hshorter => ?_
      rw [below, below, if_pos hshorter, if_pos hshorter]
      exact ih _ hshorter shorter (Nat.lt_trans hshorter hrest) rfl

section Fold

variable {step : β → Reader β} {x y : β} {rest shorter : List Char}

theorem foldFrom_of_none (h : step x rest = none) : foldFrom step x rest = (x, rest) := by
  rw [foldFrom, h]

theorem foldFrom_of_some (h : step x rest = some (y, shorter))
    (hlt : byteLength shorter < byteLength rest) :
    foldFrom step x rest = foldFrom step y shorter := by
  rw [foldFrom, h]
  exact if_pos hlt

theorem foldFrom_le (hstep : ∀ x rest y shorter, step x rest = some (y, shorter) →
    byteLength shorter < byteLength rest) (x : β) (rest : List Char) :
    byteLength (foldFrom step x rest).2 ≤ byteLength rest := by
  fun_induction foldFrom step x rest with
  | case1 => exact Nat.le_refl _
  | case2 x rest y shorter h hlt ih => exact Nat.le_trans ih (Nat.le_of_lt hlt)
  | case3 x rest y shorter h hlt => exact Nat.le_of_lt (hstep _ _ _ _ h)

/-- Where a fold ends, there is no step left to take. -/
theorem foldFrom_end (hstep : ∀ x rest y shorter, step x rest = some (y, shorter) →
    byteLength shorter < byteLength rest) (x : β) (rest : List Char) :
    step (foldFrom step x rest).1 (foldFrom step x rest).2 = none := by
  fun_induction foldFrom step x rest with
  | case1 x rest h => exact h
  | case2 x rest y shorter h hlt ih => exact ih
  | case3 x rest y shorter h hlt => exact absurd (hstep _ _ _ _ h) hlt

theorem foldFrom_congr {step' : β → Reader β}
    (h : ∀ x shorter, byteLength shorter ≤ byteLength rest → step x shorter = step' x shorter) :
    foldFrom step x rest = foldFrom step' x rest := by
  fun_induction foldFrom step x rest with
  | case1 x rest hnone =>
      rw [foldFrom_of_none]
      rw [← h x rest (Nat.le_refl _), hnone]
  | case2 x rest y shorter hsome hlt ih =>
      rw [foldFrom_of_some (by rw [← h x rest (Nat.le_refl _), hsome]) hlt]
      exact ih fun x shorter' hle => h x shorter' (Nat.le_trans hle (Nat.le_of_lt hlt))
  | case3 x rest y shorter hsome hlt =>
      rw [foldFrom, ← h x rest (Nat.le_refl _), hsome]
      exact (if_neg hlt).symm

end Fold

theorem first_append (readers readers' : List (Reader β)) (rest : List Char) :
    first (readers ++ readers') rest = (first readers rest).or (first readers' rest) := by
  induction readers with
  | nil => rfl
  | cons reader readers ih => rw [List.cons_append, first, first, ih, Option.or_assoc]

/-- Readers that are left out might as well read nothing. -/
theorem first_filter {ι : Type} (p : ι → Bool) (items : List ι) (reader : ι → Reader β)
    (rest : List Char) :
    first ((items.filter p).map reader) rest =
      first (items.map fun item => if p item then reader item else fun _ => none) rest := by
  induction items with
  | nil => rfl
  | cons item items ih =>
      rw [List.filter_cons, List.map_cons, first, ← ih]
      split <;> rfl

/-- What is read is gone on from where that leads anywhere. -/
theorem map_getD_eq_or {found : Option (β × List Char)} (further : β × List Char →
    Option (β × List Char)) :
    (found.map fun pair => (further pair).getD pair) = (found.bind further).or found := by
  cases found with
  | none => rfl
  | some pair => cases h : further pair <;> simp [h]

/-! ## What is read lies ahead -/

/-- What is behind a value is never longer than what was in front of the reader. -/
def Shrinks (reader : Reader β) : Prop :=
  ∀ rest x shorter, reader rest = some (x, shorter) → byteLength shorter ≤ byteLength rest

theorem byteLength_dropWhile_le (accepts : Char → Bool) (rest : List Char) :
    byteLength (rest.dropWhile accepts) ≤ byteLength rest := by
  induction rest with
  | nil => exact Nat.le_refl _
  | cons c cs ih =>
      rw [List.dropWhile_cons]
      split
      · exact Nat.le_trans ih (Nat.le_add_left _ _)
      · exact Nat.le_refl _

theorem byteLength_skipBlanks_le (rest : List Char) :
    byteLength (skipBlanks rest) ≤ byteLength rest :=
  byteLength_dropWhile_le _ rest

/-- A symbol takes its own bytes at least. -/
theorem behind_add_le {symbol : String} {rest shorter : List Char}
    (h : behind symbol rest = some shorter) :
    byteLength symbol.toList + byteLength shorter ≤ byteLength rest := by
  simp only [behind, Option.ite_none_right_eq_some, Option.some.injEq] at h
  obtain ⟨hstarts, rfl⟩ := h
  obtain ⟨tail, htail⟩ := List.isPrefixOf_iff_prefix.mp hstarts
  have hrest := byteLength_skipBlanks_le rest
  have htailLe := byteLength_skipBlanks_le tail
  rw [← htail, Text.byteLength_append] at hrest
  rw [← htail, List.drop_left]
  omega

theorem behind_le {symbol : String} {rest shorter : List Char}
    (h : behind symbol rest = some shorter) : byteLength shorter ≤ byteLength rest :=
  Nat.le_of_add_left_le (behind_add_le h)

/-- A symbol takes at least one byte. -/
theorem behind_lt {symbol : String} (hsymbol : symbol ≠ "") {rest shorter : List Char}
    (h : behind symbol rest = some shorter) : byteLength shorter < byteLength rest := by
  have hle := behind_add_le h
  have hpos : 0 < byteLength symbol.toList := by
    refine Nat.pos_of_ne_zero fun hzero => hsymbol ?_
    exact String.toList_eq_nil_iff.mp (Text.byteLength_eq_zero_iff.mp hzero)
  omega

theorem between_lt {opening closing : String} {reader : Reader β} (hopening : opening ≠ "")
    (h : Shrinks reader) {x : β} {rest shorter : List Char}
    (hread : between opening closing reader rest = some (x, shorter)) :
    byteLength shorter < byteLength rest := by
  obtain ⟨inner, hbehind, hread⟩ := Option.bind_eq_some_iff.mp hread
  obtain ⟨⟨y, behind⟩, hinner, hread⟩ := Option.bind_eq_some_iff.mp hread
  obtain ⟨shorter', hclosing, heq⟩ := Option.map_eq_some_iff.mp hread
  cases heq
  have hlt := behind_lt hopening hbehind
  have hle := h _ _ _ hinner
  have hle' := behind_le hclosing
  omega

theorem padded_lt {reader : Reader β} (h : ∀ rest x shorter, reader rest = some (x, shorter) →
      byteLength shorter < byteLength rest) {x : β} {rest shorter : List Char}
    (hread : padded reader rest = some (x, shorter)) : byteLength shorter < byteLength rest := by
  obtain ⟨⟨x', shorter'⟩, hinner, heq⟩ := Option.map_eq_some_iff.mp hread
  cases heq
  exact Nat.lt_of_le_of_lt (byteLength_skipBlanks_le _)
    (Nat.lt_of_lt_of_le (h _ _ _ hinner) (byteLength_skipBlanks_le _))

theorem first_shrinks {readers : List (Reader β)} (h : ∀ reader ∈ readers, Shrinks reader) :
    Shrinks (first readers) := by
  induction readers with
  | nil =>
      intro rest x shorter hread
      cases hread
  | cons reader readers ih =>
      intro rest x shorter hread
      obtain ⟨hreader, hreaders⟩ := List.forall_mem_cons.mp h
      rcases Option.or_eq_some_iff.mp hread with hread | ⟨-, hread⟩
      · exact hreader _ _ _ hread
      · exact ih hreaders _ _ _ hread

theorem below_shrinks {reader : Reader β} {rest : List Char} (h : Shrinks reader) :
    Shrinks (below rest reader) := by
  intro longer x shorter hread
  exact h _ _ _ (Option.ite_none_right_eq_some.mp hread).2

/-- A body that keeps readers ahead makes a reader that stays ahead. -/
theorem recursive_shrinks {body : Reader β → Reader β}
    (hbody : ∀ reader, Shrinks reader → Shrinks (body reader)) : Shrinks (recursive body) := by
  intro rest
  induction hbytes : byteLength rest using Nat.strongRecOn generalizing rest with
  | ind bytes ih =>
      subst hbytes
      intro x shorter hread
      rw [recursive_eq_below] at hread
      refine hbody _ ?_ rest x shorter hread
      intro longer y shorter' hread'
      obtain ⟨hlt, hread'⟩ := Option.ite_none_right_eq_some.mp hread'
      exact ih _ hlt longer rfl y shorter' hread'

/-- The equation of recursion, for a body that does so with readers that stay ahead. -/
theorem recursive_eq_of_shrinks {body : Reader β → Reader β} {rest : List Char}
    (hshrinks : ∀ reader, Shrinks reader → Shrinks (body reader))
    (hbody : ∀ reader reader', Shrinks reader → Agree (byteLength rest) reader reader' →
      body reader rest = body reader' rest) :
    recursive body rest = body (recursive body) rest := by
  rw [recursive_eq_below]
  exact hbody _ _ (below_shrinks (recursive_shrinks hshrinks)) (agree_below rest _)

/-- Only what bodies make of readers that stay ahead counts. -/
theorem recursive_congr_of_shrinks {body body' : Reader β → Reader β}
    (hbody : ∀ reader, Shrinks reader → Shrinks (body reader))
    (h : ∀ reader, Shrinks reader → body reader = body' reader) :
    recursive body = recursive body' := by
  funext rest
  induction hbytes : byteLength rest using Nat.strongRecOn generalizing rest with
  | ind bytes ih =>
      subst hbytes
      have hbelow : below rest (recursive body) = below rest (recursive body') := by
        funext shorter
        rw [below, below]
        split
        · next hlt => exact ih _ hlt shorter rfl
        · rfl
      rw [recursive_eq_below, recursive_eq_below body', ← hbelow]
      exact congrFun (h _ (below_shrinks (recursive_shrinks hbody))) rest

theorem Binary.after_lt {operator : Binary β} {operand : Reader β} (h : Shrinks operand)
    {x y : β} {rest shorter : List Char}
    (hread : operator.after operand x rest = some (y, shorter)) :
    byteLength shorter < byteLength rest := by
  obtain ⟨rest', hbehind, hread⟩ := Option.bind_eq_some_iff.mp hread
  obtain ⟨⟨z, shorter'⟩, hinner, heq⟩ := Option.map_eq_some_iff.mp hread
  cases heq
  exact Nat.lt_of_le_of_lt (h _ _ _ hinner) (behind_lt operator.nonempty hbehind)

theorem Unary.before_lt {operator : Unary β} {operand : Reader β} (h : Shrinks operand)
    {x : β} {rest shorter : List Char} (hread : operator.before operand rest = some (x, shorter)) :
    byteLength shorter < byteLength rest := by
  obtain ⟨rest', hbehind, hread⟩ := Option.bind_eq_some_iff.mp hread
  obtain ⟨⟨z, shorter'⟩, hinner, heq⟩ := Option.map_eq_some_iff.mp hread
  cases heq
  exact Nat.lt_of_le_of_lt (h _ _ _ hinner) (behind_lt operator.nonempty hbehind)

theorem signed_shrinks {operators : List (Unary β)} {operand bare : Reader β}
    (h : Shrinks operand) (hbare : Shrinks bare) : Shrinks (signed operators operand bare) := by
  refine first_shrinks fun reader hmem => ?_
  rcases List.mem_append.mp hmem with hmem | hmem
  · obtain ⟨operator, -, rfl⟩ := List.mem_map.mp hmem
    exact fun rest x shorter hread => Nat.le_of_lt (Unary.before_lt h hread)
  · obtain rfl := List.mem_singleton.mp hmem
    exact hbare

/-- Every step of a fold to the left moves on. -/
theorem joined_lt {operators : List (Binary β)} {operand : Reader β} (h : Shrinks operand)
    (x : β) (rest : List Char) (y : β) (shorter : List Char)
    (hread : joined operators operand x rest = some (y, shorter)) :
    byteLength shorter < byteLength rest := by
  induction operators with
  | nil => cases hread
  | cons operator operators ih =>
      rcases Option.or_eq_some_iff.mp hread with hread | ⟨-, hread⟩
      · exact Binary.after_lt h hread
      · exact ih hread

theorem foldFrom_joined_le {operators : List (Binary β)} {operand : Reader β}
    (h : Shrinks operand) {x y : β} {rest shorter : List Char}
    (hfold : foldFrom (joined operators operand) x rest = (y, shorter)) :
    byteLength shorter ≤ byteLength rest := by
  have hle : byteLength (foldFrom (joined operators operand) x rest).2 ≤ byteLength rest :=
    foldFrom_le (joined_lt h) x rest
  rwa [hfold] at hle

/-- No operator of a level goes on where the level's fold ends. -/
theorem foldFrom_joined_end {operators : List (Binary β)} {operand : Reader β}
    (h : Shrinks operand) {x y : β} {rest shorter : List Char}
    (hfold : foldFrom (joined operators operand) x rest = (y, shorter)) :
    joined operators operand y shorter = none := by
  have hend : joined operators operand (foldFrom (joined operators operand) x rest).1
      (foldFrom (joined operators operand) x rest).2 = none :=
    foldFrom_end (joined_lt h) x rest
  rwa [hfold] at hend

theorem leftAssociative_shrinks {operators : List (Binary β)} {operand : Reader β}
    (h : Shrinks operand) : Shrinks (leftAssociative operators operand) := by
  intro rest x shorter hread
  obtain ⟨⟨y, rest'⟩, hinner, heq⟩ := Option.map_eq_some_iff.mp hread
  exact Nat.le_trans (foldFrom_joined_le h heq) (h _ _ _ hinner)

theorem rightAssociative_shrinks {operator : Binary β} {signs : List (Unary β)}
    {operand : Reader β} (h : Shrinks operand) :
    Shrinks (rightAssociative operator signs operand) := by
  refine recursive_shrinks fun power hpower rest x shorter hread => ?_
  obtain ⟨⟨y, rest'⟩, hinner, heq⟩ := Option.map_eq_some_iff.mp hread
  refine Nat.le_trans ?_ (h _ _ _ hinner)
  dsimp only at heq
  cases hafter : operator.after (signed signs power power) y rest' with
  | none =>
      rw [hafter] at heq
      cases heq
      exact Nat.le_refl _
  | some found =>
      rw [hafter] at heq
      cases heq
      exact Nat.le_of_lt (Binary.after_lt (signed_shrinks hpower hpower) hafter)

theorem prefixed_shrinks {operators : List (Unary β)} {operand : Reader β}
    (h : Shrinks operand) : Shrinks (prefixed operators operand) :=
  recursive_shrinks fun _ hsame => signed_shrinks hsame h

/-! ## What is read depends on what lies ahead -/

section Agreement

variable {operand operand' bare bare' : Reader β} {rest : List Char} {limit : Nat}

theorem Binary.after_congr {operator : Binary β} (h : Agree (byteLength rest) operand operand')
    (x : β) : operator.after operand x rest = operator.after operand' x rest := by
  refine Option.bind_congr fun rest' hbehind => ?_
  rw [h rest' (behind_lt operator.nonempty hbehind)]

theorem between_congr {opening closing : String} (hopening : opening ≠ "")
    (h : Agree (byteLength rest) operand operand') :
    between opening closing operand rest = between opening closing operand' rest := by
  refine Option.bind_congr fun rest' hbehind => ?_
  rw [h rest' (behind_lt hopening hbehind)]

theorem Unary.before_congr {operator : Unary β} (h : Agree (byteLength rest) operand operand') :
    operator.before operand rest = operator.before operand' rest := by
  refine Option.bind_congr fun rest' hbehind => ?_
  rw [h rest' (behind_lt operator.nonempty hbehind)]

theorem signed_congr {operators : List (Unary β)} (h : Agree (byteLength rest) operand operand')
    (hbare : bare rest = bare' rest) :
    signed operators operand bare rest = signed operators operand' bare' rest := by
  induction operators with
  | nil =>
      simp only [signed, List.map_nil, List.nil_append, first, Option.or_none]
      exact hbare
  | cons operator operators ih =>
      simp only [signed, List.map_cons, List.cons_append, first] at ih ⊢
      rw [Unary.before_congr h, ih]

theorem joined_congr {operators : List (Binary β)} (h : Agree (byteLength rest) operand operand')
    (x : β) : joined operators operand x rest = joined operators operand' x rest := by
  induction operators with
  | nil => rfl
  | cons operator operators ih =>
      simp only [joined, List.map_cons, first] at ih ⊢
      rw [Binary.after_congr h, ih]

theorem leftAssociative_agree {operators : List (Binary β)} (hshrinks : Shrinks operand)
    (h : Agree limit operand operand') :
    Agree limit (leftAssociative operators operand) (leftAssociative operators operand') := by
  intro rest hrest
  rw [leftAssociative, leftAssociative, ← h rest hrest]
  refine Option.map_congr fun (x, rest') hread => ?_
  have hle := Nat.lt_of_le_of_lt (hshrinks _ _ _ hread) hrest
  exact foldFrom_congr fun x shorter hshorter =>
    joined_congr (h.mono (Nat.le_of_lt (Nat.lt_of_le_of_lt hshorter hle))) x

theorem rightAssociative_body_congr {operator : Binary β} {signs : List (Unary β)}
    (hshrinks : Shrinks operand) {power power' : Reader β}
    (h : Agree (byteLength rest) power power') (hoperand : operand rest = operand' rest) :
    ((operand rest).map fun (x, rest) =>
        (operator.after (signed signs power power) x rest).getD (x, rest)) =
      (operand' rest).map fun (x, rest) =>
        (operator.after (signed signs power' power') x rest).getD (x, rest) := by
  rw [← hoperand]
  refine Option.map_congr fun (x, rest') hread => ?_
  have hle := hshrinks _ _ _ hread
  have hsigned : Agree (byteLength rest') (signed signs power power)
      (signed signs power' power') := by
    intro shorter hshorter
    have hlt := Nat.lt_of_lt_of_le hshorter hle
    exact signed_congr (h.mono (Nat.le_of_lt hlt)) (h shorter hlt)
  exact congrArg (·.getD (x, rest')) (Binary.after_congr hsigned x)

theorem rightAssociative_eq {operator : Binary β} {signs : List (Unary β)}
    (hshrinks : Shrinks operand) :
    rightAssociative operator signs operand rest =
      (operand rest).map fun (x, rest) =>
        (operator.after (signed signs (rightAssociative operator signs operand)
          (rightAssociative operator signs operand)) x rest).getD (x, rest) :=
  recursive_eq fun _ _ h => rightAssociative_body_congr hshrinks h rfl

theorem rightAssociative_agree {operator : Binary β} {signs : List (Unary β)}
    (hshrinks : Shrinks operand) (h : Agree limit operand operand') :
    Agree limit (rightAssociative operator signs operand)
      (rightAssociative operator signs operand') :=
  recursive_congr fun rest hrest _ _ hsame =>
    rightAssociative_body_congr hshrinks hsame (h rest hrest)

theorem prefixed_eq {operators : List (Unary β)} :
    prefixed operators operand rest =
      signed operators (prefixed operators operand) operand rest :=
  recursive_eq fun _ _ h => signed_congr h rfl

theorem prefixed_agree {operators : List (Unary β)} (h : Agree limit operand operand') :
    Agree limit (prefixed operators operand) (prefixed operators operand') :=
  recursive_congr fun rest hrest _ _ hsame => signed_congr hsame (h rest hrest)

end Agreement

end Reader

end Packrat
