import Mathlib.Tactic.IntervalCases
import Mathlib.Tactic.SplitIfs
import Packrat.Proofs.Decimal.Shortest
import Packrat.Proofs.Decimal.Values
import Packrat.Proofs.Json.Strings

/-!
# Written numbers and strings

The text that is written for a number is a literal, and the text that is written for a string is
that string in quotes.
-/

namespace Packrat.Json

/-! ## Digits -/

instance (text : List Char) : Decidable (AllDigits text) :=
  decidable_of_iff (text.all Char.isDigit = true) List.all_eq_true

theorem allDigits_toDigits (n : Nat) : AllDigits (Nat.toDigits 10 n) :=
  fun _ hc => Nat.isDigit_of_mem_toDigits (by decide) (by decide) hc

theorem AllDigits.append {text text' : List Char} (h : AllDigits text) (h' : AllDigits text') :
    AllDigits (text ++ text') := by
  intro c hc
  rcases List.mem_append.mp hc with hc | hc
  · exact h c hc
  · exact h' c hc

theorem allDigits_zeros (n : Nat) : AllDigits (Decimal.Layout.zeros n) := by
  intro c hc
  rw [List.eq_of_mem_replicate hc]
  rfl

/-- The digits of a positive number do not begin with zero. -/
theorem exists_toDigits_cons {n : Nat} (h : 0 < n) :
    ∃ c digits, Nat.toDigits 10 n = c :: digits ∧ c ≠ '0' := by
  induction n using Nat.strongRecOn with
  | ind n ih =>
    by_cases hlt : n < 10
    · refine ⟨_, _, Nat.toDigits_of_lt_base hlt, ?_⟩
      interval_cases n <;> decide
    · obtain ⟨c, digits, hdigits, hc⟩ := ih (n / 10) (by omega) (by omega)
      refine ⟨c, digits ++ [(n % 10).digitChar], ?_, hc⟩
      rw [Nat.toDigits_of_base_le (by decide) (by omega), hdigits]
      rfl

/-! ## Numbers -/

/-- The text of a number without a sign. -/
inductive Unsigned : List Char → Prop where
  | mk {whole fraction fractionDigits exponent exponentDigits : List Char} {negative : Bool}
      (hwhole : Whole whole) (hfraction : Fraction fraction fractionDigits)
      (hexponent : Exponent exponent negative exponentDigits) :
      Unsigned (whole ++ (fraction ++ exponent))

variable (layout : Decimal.Layout)

/-- A point with the last of some digits behind it. -/
theorem fraction_drop {padded : List Char} {n : Nat} (hpadded : AllDigits padded) (hpos : 0 < n)
    (hlength : n ≤ padded.length) :
    Fraction ('.' :: padded.drop (padded.length - n)) (padded.drop (padded.length - n)) := by
  apply Fraction.present
  · exact List.ne_nil_of_length_pos (by rw [List.length_drop]; omega)
  · exact fun c hc => hpadded c (List.mem_of_mem_drop hc)

/-- Digits that do not begin with zero, in positional notation. -/
theorem unsigned_writePositional {c : Char} {digits : List Char} (hc : c ≠ '0')
    (hdigits : AllDigits (c :: digits)) (exponent : Int) :
    Unsigned (layout.writePositional (c :: digits) exponent) := by
  obtain ⟨hhead, htail⟩ := List.forall_mem_cons.mp hdigits
  simp only [Decimal.Layout.writePositional]
  split
  · have hwhole : Whole (c :: digits ++ Decimal.Layout.zeros exponent.toNat) :=
      .positive hhead hc (AllDigits.append htail (allDigits_zeros _))
    split
    · exact .mk hwhole (.present (List.cons_ne_nil '0' []) (by decide)) .absent
    · exact .mk hwhole .absent .absent
  · next hfraction =>
    generalize (-exponent).toNat = n at hfraction
    have hpadded := AllDigits.append (allDigits_zeros (n + 1 - (c :: digits).length)) hdigits
    rcases Nat.lt_or_ge n (c :: digits).length with hlt | hge
    · rw [show n + 1 - (c :: digits).length = 0 by omega] at hpadded ⊢
      change AllDigits (c :: digits) at hpadded
      change Unsigned ((c :: digits).take ((c :: digits).length - n) ++
        '.' :: (c :: digits).drop ((c :: digits).length - n))
      have hwhole : Whole ((c :: digits).take ((c :: digits).length - n)) := by
        obtain ⟨k, hk⟩ : ∃ k, (c :: digits).length - n = k + 1 :=
          ⟨(c :: digits).length - n - 1, by omega⟩
        rw [hk, List.take_succ_cons]
        exact .positive hhead hc fun d hd => htail d (List.mem_of_mem_take hd)
      have h := Unsigned.mk hwhole (fraction_drop hpadded (by omega) hlt.le) .absent
      rwa [List.append_nil] at h
    · obtain ⟨k, hk⟩ : ∃ k, n + 1 - (c :: digits).length = k + 1 :=
        ⟨n - (c :: digits).length, by omega⟩
      rw [hk] at hpadded ⊢
      have hlength : (Decimal.Layout.zeros (k + 1) ++ c :: digits).length = n + 1 := by
        rw [List.length_append, Decimal.Layout.zeros, List.length_replicate]
        omega
      have h := Unsigned.mk .zero (fraction_drop hpadded (by omega) (by omega : n ≤ _)) .absent
      rw [List.append_nil] at h
      rw [hlength, Nat.add_sub_cancel_left] at h ⊢
      exact h

/-- Digits that do not begin with zero, in scientific notation. -/
theorem unsigned_writeScientific {c : Char} {digits : List Char} (hc : c ≠ '0')
    (hdigits : AllDigits (c :: digits)) (leading : Int) :
    Unsigned (layout.writeScientific (c :: digits) leading) := by
  obtain ⟨hhead, htail⟩ := List.forall_mem_cons.mp hdigits
  have hwhole : Whole [c] := .positive hhead hc (by decide)
  have hexponent : ∃ negative, Exponent ('e' :: ((if leading < 0 then ['-']
      else if layout.plusSign then ['+'] else []) ++ Nat.toDigits 10 leading.natAbs)) negative
      (Nat.toDigits 10 leading.natAbs) := by
    split_ifs
    · exact ⟨_, .present (.inl rfl) .minus Nat.toDigits_ne_nil (allDigits_toDigits _)⟩
    · exact ⟨_, .present (.inl rfl) .plus Nat.toDigits_ne_nil (allDigits_toDigits _)⟩
    · exact ⟨_, .present (.inl rfl) .absent Nat.toDigits_ne_nil (allDigits_toDigits _)⟩
  obtain ⟨negative, hexponent⟩ := hexponent
  cases digits with
  | nil => exact .mk hwhole .absent hexponent
  | cons d more =>
      have h := Unsigned.mk hwhole (.present (List.cons_ne_nil d more) htail) hexponent
      simpa only [Decimal.Layout.writeScientific, List.append_assoc, List.cons_append,
        List.nil_append] using h

/-- A positive decimal. -/
theorem unsigned_writeScaled {decimal : Decimal.Scaled} (h : 0 < decimal.digits) :
    Unsigned (layout.writeScaled decimal) := by
  obtain ⟨c, digits, hdigits, hc⟩ := exists_toDigits_cons h
  have hall := allDigits_toDigits decimal.digits
  rw [hdigits] at hall
  simp only [Decimal.Layout.writeScaled, hdigits]
  split
  · exact unsigned_writePositional layout hc hall _
  · exact unsigned_writeScientific layout hc hall _

/-- What is written for a number is a literal. -/
theorem exists_literal {x : Float} (h : x.isFinite = true) :
    ∃ numeral, Literal (writeNumber x) numeral := by
  obtain ⟨negative, m, q, atBoundary, hparts, hm, hlow, hhigh⟩ :=
    Decimal.Binary.ofBits_of_isFinite h
  have hunsigned : Unsigned (if m = 0 then numberLayout.writePositional ['0'] 0
      else numberLayout.writeScaled (Decimal.shortest numberLayout.tie m q atBoundary)) := by
    split
    · exact .mk .zero (.present (List.cons_ne_nil '0' []) (by decide)) .absent
    · next hzero =>
      exact unsigned_writeScaled _ (Decimal.shortest_pos atBoundary (by omega) hm hlow hhigh)
  simp only [writeNumber, hparts, Decimal.Layout.writeBinary, String.toList_ofList]
  generalize (if m = 0 then _ else _ : List Char) = text at hunsigned
  cases hunsigned with
  | mk hwhole hfraction hexponent =>
      cases negative with
      | true => exact ⟨_, .mk .minus (by decide) hwhole hfraction hexponent⟩
      | false => exact ⟨_, .mk .absent (by decide) hwhole hfraction hexponent⟩

/-- An infinity is written as `null`. -/
theorem writeNumber_of_isInf {x : Float} (h : x.isInf = true) : writeNumber x = "null".toList := by
  obtain ⟨negative, hparts⟩ := Decimal.Binary.ofBits_of_isInf h
  simp only [writeNumber, hparts]

/-! ## Strings -/

theorem hex_digitChar {n : Nat} (h : n < 16) : Hex (Nat.digitChar n) n := by
  interval_cases n <;> decide

/-- A character is written as a piece that denotes it; only control characters become units. -/
theorem exists_pieceText (c : Char) :
    ∃ piece, PieceText (escape c) piece ∧
      (piece = .char c ∨ piece = .unit (.ofNat c.toNat) ∧ c.toNat < 0x20) := by
  simp only [escape]
  split_ifs with h₁ h₂ h₃ h₄ h₅ h₆ h₇ h₈
  · exact ⟨_, .letter (by decide), .inl (congrArg _ h₁.symm)⟩
  · exact ⟨_, .letter (by decide), .inl (congrArg _ h₂.symm)⟩
  · exact ⟨_, .letter (by decide), .inl (congrArg _ h₃.symm)⟩
  · exact ⟨_, .letter (by decide), .inl (congrArg _ h₄.symm)⟩
  · exact ⟨_, .letter (by decide), .inl (congrArg _ h₅.symm)⟩
  · exact ⟨_, .letter (by decide), .inl (congrArg _ h₆.symm)⟩
  · exact ⟨_, .letter (by decide), .inl (congrArg _ h₇.symm)⟩
  · refine ⟨_, .unit (hex_digitChar (by decide : 0 < 16)) (hex_digitChar (by decide : 0 < 16))
      (hex_digitChar (by omega)) (hex_digitChar (by omega)), .inr ⟨?_, h₈⟩⟩
    rw [show 0 * 4096 + 0 * 256 + c.toNat / 16 * 16 + c.toNat % 16 = c.toNat by omega]
  · exact ⟨_, .plain h₁ h₂, .inl rfl⟩

/-- Units without surrogates are decoded one by one. -/
theorem decode_eq_map {units : List UInt16} (h : ∀ unit ∈ units, Text.Units.isHigh unit = false) :
    Text.Units.decode units = units.map Text.Units.single := by
  fun_induction Text.Units.decode units with
  | case1 => rfl
  | case2 unit => rfl
  | case3 unit next units hpair ih => simp [h unit] at hpair
  | case4 unit next units _ ih =>
      rw [ih fun unit hunit => h unit (List.mem_cons_of_mem _ hunit)]
      rfl

theorem isHigh_of_lt {unit : UInt16} (h : unit < 0x20) : Text.Units.isHigh unit = false := by
  have hlow : ¬0xd800 ≤ unit := by
    rw [UInt16.le_iff_toNat_le, Nat.not_le]
    exact Nat.lt_trans (UInt16.lt_iff_toNat_lt.mp h) (by decide)
  simp [Text.Units.isHigh, hlow]

/-- The unit of a control character. -/
theorem unit_of_lt {c : Char} (h : c.toNat < 0x20) :
    UInt16.ofNat c.toNat < 0x20 ∧ Text.Units.single (.ofNat c.toNat) = c := by
  have hc : c = Char.ofNat c.toNat := (Char.ofNat_toNat c).symm
  generalize c.toNat = n at h hc
  subst hc
  interval_cases n <;> decide

/-- Pieces with the characters of a text, whatever control characters stand before them. -/
theorem exists_content (chars : List Char) :
    ∃ pieces, Content (chars.flatMap escape) pieces ∧
      ∀ pending : List UInt16, (∀ unit ∈ pending, unit < 0x20) →
        decodeAfter pending pieces = Text.Units.decode pending ++ chars := by
  induction chars with
  | nil => exact ⟨[], .nil, fun pending _ => (List.append_nil _).symm⟩
  | cons c chars ih =>
      obtain ⟨pieces, hcontent, hpieces⟩ := ih
      obtain ⟨piece, hpiece, hc⟩ := exists_pieceText c
      refine ⟨piece :: pieces, .cons hpiece hcontent, fun pending hpending => ?_⟩
      rcases hc with rfl | ⟨rfl, hlow⟩
      · rw [decodeAfter, hpieces [] (by simp)]
        rfl
      · obtain ⟨hunit, hsingle⟩ := unit_of_lt hlow
        have hunits : ∀ unit ∈ pending ++ [.ofNat c.toNat], unit < 0x20 := by
          intro unit hmem
          rcases List.mem_append.mp hmem with hmem | hmem
          · exact hpending unit hmem
          · rw [List.mem_singleton.mp hmem]
            exact hunit
        rw [decodeAfter, hpieces _ hunits, decode_eq_map fun unit h => isHigh_of_lt (hunits unit h),
          decode_eq_map fun unit h => isHigh_of_lt (hpending unit h), List.map_append,
          List.map_singleton, hsingle, List.append_assoc]
        rfl

/-- What is written for a text is that text in quotes. -/
theorem quoted_writeString (chars : List Char) : Quoted (writeString chars) chars := by
  obtain ⟨pieces, hcontent, hpieces⟩ := exists_content chars
  have h := Quoted.mk hcontent
  rwa [decode, hpieces [] (by simp)] at h

end Packrat.Json
