import Packrat.Proofs.Reader.Exact

/-!
# White space and symbols

What is skipped in front of a token, and what stands behind a symbol.
-/

namespace Packrat.Reader

/-! ## White space -/

theorem skip_of_unlike {rest : List Char} (h : Unlike Text.isBlank rest) :
    skipBlanks rest = rest := by
  cases rest with
  | nil => rfl
  | cons c rest => exact List.dropWhile_cons_of_neg (by simp [unlike_cons.mp h])

theorem skip_cons {c : Char} (hc : Text.isBlank c = false) (rest : List Char) :
    skipBlanks (c :: rest) = c :: rest :=
  skip_of_unlike (unlike_cons.mpr hc)

theorem unlike_skipBlanks (rest : List Char) : Unlike Text.isBlank (skipBlanks rest) :=
  unlike_dropWhile _ rest

@[simp] theorem skip_skipBlanks (rest : List Char) :
    skipBlanks (skipBlanks rest) = skipBlanks rest :=
  skip_of_unlike (unlike_skipBlanks rest)

theorem takeWhile_append_skipBlanks (rest : List Char) :
    rest = rest.takeWhile Text.isBlank ++ skipBlanks rest :=
  List.takeWhile_append_dropWhile.symm

/-- Between the space and the next blank lies everything that tokens are made of. -/
theorem isBlank_eq_false {c : Char} (hlow : 33 ≤ c.toNat) (hhigh : c.toNat ≤ 132) :
    Text.isBlank c = false := by
  refine Bool.eq_false_iff.mpr fun h => ?_
  obtain ⟨range, hmem, hrange⟩ := Text.CharRanges.contains_iff.mp h
  simp only [Text.blankRanges, List.mem_cons, List.not_mem_nil, or_false] at hmem
  rcases hmem with rfl | rfl | rfl | rfl | rfl | rfl | rfl | rfl | rfl | rfl <;>
    dsimp only at hrange <;> omega

theorem isDigit_iff_toNat {c : Char} : c.isDigit = true ↔ 48 ≤ c.toNat ∧ c.toNat ≤ 57 := by
  simp only [Char.isDigit, Bool.and_eq_true, decide_eq_true_eq, ge_iff_le,
    UInt32.le_iff_toNat_le]
  exact Iff.rfl

/-! ## Symbols -/

section Symbols

variable {symbol : String} {c : Char} {cs rest : List Char}

theorem behind_skipBlanks (symbol : String) (rest : List Char) :
    behind symbol (skipBlanks rest) = behind symbol rest := by
  rw [behind, behind, skip_skipBlanks]

theorem behind_append (hsymbol : symbol.toList = c :: cs) (hc : Text.isBlank c = false) :
    behind symbol (symbol.toList ++ rest) = some (skipBlanks rest) := by
  rw [behind, hsymbol, List.cons_append, skip_cons hc]
  simp

theorem behind_cons (hsymbol : symbol.toList = [c]) (hc : Text.isBlank c = false) :
    behind symbol (c :: rest) = some (skipBlanks rest) := by
  have happend : behind symbol (symbol.toList ++ rest) = some (skipBlanks rest) :=
    behind_append hsymbol hc
  rwa [hsymbol] at happend

/-- A symbol does not stand in front of a text that begins otherwise. -/
theorem behind_eq_none (hsymbol : symbol.toList = c :: cs)
    (h : Unlike (· == c) (skipBlanks rest)) : behind symbol rest = none := by
  cases hbehind : behind symbol rest with
  | none => rfl
  | some shorter =>
      rw [behind, hsymbol] at hbehind
      obtain ⟨hstarts, -⟩ := Option.ite_none_right_eq_some.mp hbehind
      obtain ⟨tail, htail⟩ := List.isPrefixOf_iff_prefix.mp hstarts
      rw [← htail] at h
      simp at h

/-- A reader between two symbols of one character each. -/
theorem between_cons {β : Type} {opening closing : String} {reader : Reader β} {d : Char} {x : β}
    {text : List Char} (hopening : opening.toList = [c]) (hclosing : closing.toList = [d])
    (hc : Text.isBlank c = false) (hd : Text.isBlank d = false)
    (hread : reader (skipBlanks text) = some (x, d :: rest)) :
    between opening closing reader (c :: text) = some (x, skipBlanks rest) := by
  rw [between, behind_cons hopening hc, Option.bind_some, hread, Option.bind_some]
  dsimp only
  rw [behind_cons hclosing hd]
  rfl

end Symbols

end Packrat.Reader
