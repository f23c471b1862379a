import Packrat.Proofs.Expression
import Packrat.Proofs.Reader.Blank

/-!
# Written tokens

Names, numbers and texts are read back from what is written for them, and the first character of
an operand tells which of the alternatives above the operators reads it.
-/

namespace Packrat.Expression

open Reader
open Text (byteLength)

variable {rest : List Char}

/-! ## Names -/

/-- A letter or underscore with letters, underscores and digits behind it. -/
inductive IsName : List Char → Prop where
  | mk {c : Char} {cs : List Char} (hc : isLetter c = true)
      (hcs : ∀ d ∈ cs, isLetterOrDigit d = true) : IsName (c :: cs)

theorem nameRun_append {name : List Char} (h : IsName name) (hrest : Unlike isLetterOrDigit rest) :
    nameRun (name ++ rest) = some (name, rest) := by
  cases h with
  | mk hc hcs =>
      rw [List.cons_append, nameRun, if_pos hc, hrest.takeWhile_append hcs,
        hrest.dropWhile_append hcs]

/-! ## Numbers -/

/-- The digits of a number of 63 bits denote it. -/
theorem int64OfDigits?_toDigits {n : Int64} (h : 0 ≤ n) :
    int64OfDigits? (Nat.toDigits 10 n.toInt.toNat) = some n := by
  have hpos : 0 ≤ n.toInt := Int64.le_iff_toInt_le.mp h
  have hnat : (n.toInt.toNat : Int) = n.toInt := Int.toNat_of_nonneg hpos
  have hmax : n.toInt ≤ Int64.maxValue.toInt := Int64.toInt_le n
  rw [int64OfDigits?, Nat.ofDigitChars_ten_toDigits, hnat, if_pos hmax]
  rw [← Int64.ofInt_eq_ofNat, hnat, Int64.ofInt_toInt]

theorem toList_toString {n : Int64} (h : 0 ≤ n) :
    (toString n.toInt).toList = Nat.toDigits 10 n.toInt.toNat := by
  have hpos : 0 ≤ n.toInt := Int64.le_iff_toInt_le.mp h
  rw [Int.toString_eq_repr, Int.repr_eq_if, if_pos hpos, Nat.toList_repr]

theorem isDigit_of_mem_toDigits {n : Nat} {c : Char} (h : c ∈ Nat.toDigits 10 n) :
    c.isDigit = true :=
  Nat.isDigit_of_mem_toDigits (by decide) (by decide) h

theorem toString_cons {n : Int64} (h : 0 ≤ n) :
    ∃ c cs, (toString n.toInt).toList = c :: cs ∧ c.isDigit = true := by
  have hne : Nat.toDigits 10 n.toInt.toNat ≠ [] := Nat.toDigits_ne_nil
  obtain ⟨c, cs, hcs⟩ := List.exists_cons_of_ne_nil hne
  refine ⟨c, cs, by rw [toList_toString h, hcs], ?_⟩
  apply isDigit_of_mem_toDigits (n := n.toInt.toNat)
  rw [hcs]
  exact List.mem_cons_self ..

theorem integerRun_append {n : Int64} (h : 0 ≤ n) (hrest : Unlike Char.isDigit rest) :
    integerRun ((toString n.toInt).toList ++ rest) = some (n, rest) := by
  have hdigits : ∀ c ∈ Nat.toDigits 10 n.toInt.toNat, c.isDigit = true :=
    fun _ => isDigit_of_mem_toDigits
  rw [toList_toString h, integerRun, hrest.takeWhile_append hdigits,
    hrest.dropWhile_append hdigits, if_neg Nat.toDigits_ne_nil, int64OfDigits?_toDigits h]
  rfl

/-! ## Texts -/

/-- A character that can be seen, or the space. -/
def isPlain (c : Char) : Bool := 0x20 ≤ c.toNat && c.toNat ≤ 0x7e

theorem isPlain_iff {c : Char} : isPlain c = true ↔ 0x20 ≤ c.toNat ∧ c.toNat ≤ 0x7e := by
  simp [isPlain]

theorem isExtending_of_isPlain {c : Char} (h : isPlain c = true) : Text.isExtending c = false := by
  have hrange := isPlain_iff.mp h
  have hlow : ¬ 0x300 ≤ c.toNat := by omega
  simp [Text.isExtending, hlow]

theorem isPrintable_of_isPlain {c : Char} (h : isPlain c = true) : Text.isPrintable c = true := by
  have hrange := isPlain_iff.mp h
  have hlow : c.toNat < 0x7f := by omega
  simp [Text.isPrintable, hlow, hrange.1]

/-- Only the quote and the backslash are written in another way. -/
theorem quotedChar_of_isPlain {c : Char} (h : isPlain c = true) :
    Text.quotedChar '"' c = if c = '"' ∨ c = '\\' then ['\\', c] else [c] := by
  have hne : ∀ d : Char, isPlain d = false → c ≠ d := by
    rintro d hd rfl
    rw [h] at hd
    cases hd
  rw [Text.quotedChar, if_neg (hne _ rfl), if_neg (hne _ rfl), if_neg (hne _ rfl),
    if_neg (hne _ rfl), isExtending_of_isPlain h, isPrintable_of_isPlain h]
  by_cases hbackslash : c = '\\'
  · subst hbackslash
    rfl
  · by_cases hquote : c = '"'
    · subst hquote
      rfl
    · simp [hbackslash, hquote]

theorem quotedChar_append {c : Char} (h : isPlain c = true) :
    quotedChar (Text.quotedChar '"' c ++ rest) = some (c, rest) := by
  rw [quotedChar_of_isPlain h]
  by_cases hquote : c = '"'
  · subst hquote
    rfl
  · by_cases hbackslash : c = '\\'
    · subst hbackslash
      rfl
    · simp [quotedChar, hquote, hbackslash]

theorem many_quotedChar_append {chars : List Char} (h : ∀ c ∈ chars, isPlain c = true) :
    many quotedChar (chars.flatMap (Text.quotedChar '"') ++ '"' :: rest) =
      (chars, '"' :: rest) := by
  induction chars with
  | nil => exact many_of_none rfl
  | cons c chars ih =>
      obtain ⟨hc, hchars⟩ := List.forall_mem_cons.mp h
      have hne : Text.quotedChar '"' c ≠ [] := by
        rw [quotedChar_of_isPlain hc]
        split <;> exact List.cons_ne_nil _ _
      have hpos : byteLength (Text.quotedChar '"' c) ≠ 0 := fun hzero =>
        hne (Text.byteLength_eq_zero_iff.mp hzero)
      rw [List.flatMap_cons, List.append_assoc, many_of_some (quotedChar_append hc), ih hchars]
      · rfl
      · rw [Text.byteLength_append (Text.quotedChar '"' c)]
        omega

theorem toList_quoted (chars : List Char) :
    (Text.quoted (String.ofList chars)).toList =
      '"' :: (chars.flatMap (Text.quotedChar '"') ++ ['"']) := by
  rw [Text.quoted, String.toList_ofList, String.toList_ofList]
  rfl

theorem stringRun_append {chars : List Char} (h : ∀ c ∈ chars, isPlain c = true) :
    stringRun ((Text.quoted (String.ofList chars)).toList ++ rest) = some (chars, rest) := by
  rw [toList_quoted, List.cons_append, List.append_assoc, stringRun]
  simp [many_quotedChar_append h]

end Packrat.Expression
