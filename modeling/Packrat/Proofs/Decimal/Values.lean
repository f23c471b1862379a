import Mathlib.Tactic.SplitIfs
import Packrat.Decimal.Layout
import Packrat.Decimal.Reading

/-!
# The values of decimals

Every numeral denotes a number or an infinity, and the bits of a floating-point number tell which of
the two it is.
-/

namespace Packrat.Decimal

open Float.Model

/-! ## Unpacked numbers -/

/-- What bits stand for: the largest exponent for an infinity or no number, any other for a
number. -/
theorem unpack_cases (bits : BitVec 64) :
    (∃ sign, UnpackedFloat.unpack Format.binary64 bits = .infinity sign ∧
      @UnpackedFloat.unpackExponent Format.binary64 bits = -1#_ ∧
        @UnpackedFloat.unpackMantissa Format.binary64 bits = 0#_) ∨
    (UnpackedFloat.unpack Format.binary64 bits = .notANumber ∧
      @UnpackedFloat.unpackExponent Format.binary64 bits = -1#_ ∧
        @UnpackedFloat.unpackMantissa Format.binary64 bits ≠ 0#_) ∨
    ((UnpackedFloat.unpack Format.binary64 bits).isFinite = true ∧
      @UnpackedFloat.unpackExponent Format.binary64 bits ≠ -1#_) := by
  by_cases hexponent : @UnpackedFloat.unpackExponent Format.binary64 bits = -1#_
  · by_cases hmantissa : @UnpackedFloat.unpackMantissa Format.binary64 bits = 0#_
    · exact .inl ⟨_, (if_pos hexponent).trans (if_pos hmantissa), hexponent, hmantissa⟩
    · exact .inr (.inl ⟨(if_pos hexponent).trans (if_neg hmantissa), hexponent, hmantissa⟩)
  · refine .inr (.inr ⟨?_, hexponent⟩)
    by_cases hzero : @UnpackedFloat.unpackExponent Format.binary64 bits = 0#_
    · by_cases hmantissa : @UnpackedFloat.unpackMantissa Format.binary64 bits = 0#_
      · exact congrArg _ ((if_neg hexponent).trans ((if_pos hzero).trans (dif_pos hmantissa)))
      · exact congrArg _ ((if_neg hexponent).trans ((if_pos hzero).trans (dif_neg hmantissa)))
    · exact congrArg _ ((if_neg hexponent).trans (if_neg hzero))

/-- Numbers and infinities are all that there is. -/
theorem isFinite_of_not {x : Float} (hnan : x.isNaN = false) (hinf : x.isInf = false) :
    x.isFinite = true := by
  change x.toModel.unpack.isNaN = false at hnan
  change x.toModel.unpack.isInf = false at hinf
  change x.toModel.unpack.isFinite = true
  cases hunpack : x.toModel.unpack with
  | notANumber => rw [hunpack] at hnan; cases hnan
  | infinity sign => rw [hunpack] at hinf; cases hinf
  | zero sign => rfl
  | finite sign m e hm => rfl

/-- Packing makes nothing that is no number. -/
theorem isNaN_pack {f : UnpackedFloat} (h : f.isNaN = false) : (pack f).isNaN = false := by
  have hparts : @UnpackedFloat.unpackExponent Format.binary64 (f.pack Format.binary64) ≠ -1#_ ∨
      @UnpackedFloat.unpackMantissa Format.binary64 (f.pack Format.binary64) = 0#_ := by
    fun_cases UnpackedFloat.pack with
    | case1 => cases h
    | case2 sign => exact .inr UnpackedFloat.unpackMantissa_packComponents
    | case3 sign => exact .inr UnpackedFloat.unpackMantissa_packComponents
    | case4 sign m e hm biased hlarge => exact .inr UnpackedFloat.unpackMantissa_packComponents
    | case5 sign m e hm bits biased hsmall hbits =>
        rw [UnpackedFloat.unpackExponent_packComponents]
        refine .inl fun hexponent => ?_
        have htoNat : biased % 2048 = 2047 := congrArg BitVec.toNat hexponent
        change ¬2048 ≤ biased + 1 at hsmall
        rw [Nat.mod_eq_of_lt (by omega)] at htoNat
        omega
    | case6 sign m e hm bits biased hsmall hbits =>
        rw [UnpackedFloat.unpackExponent_packComponents]
        exact .inl (by decide)
  change (UnpackedFloat.unpack Format.binary64 (f.pack Format.binary64)).isNaN = false
  rcases unpack_cases (f.pack Format.binary64) with
    ⟨sign, hunpack, -⟩ | ⟨-, hexponent, hmantissa⟩ | ⟨hfinite, -⟩
  · rw [hunpack]
    rfl
  · exact absurd hparts (not_or.mpr ⟨not_not_intro hexponent, hmantissa⟩)
  · cases hunpack : UnpackedFloat.unpack Format.binary64 (f.pack Format.binary64) with
    | notANumber => rw [hunpack] at hfinite; cases hfinite
    | infinity _ => rfl
    | zero _ => rfl
    | finite _ _ _ _ => rfl

/-! ## Arithmetic -/

variable {sign : UnpackedFloat.Sign} {f : UnpackedFloat} {m : Nat} {e : Int} {hm : 0 < m}
  {x y : Float}

theorem isNaN_dite {c : Prop} [Decidable c] {f : c → UnpackedFloat} {g : ¬c → UnpackedFloat}
    (hf : ∀ h, (f h).isNaN = false) (hg : ∀ h, (g h).isNaN = false) :
    (dite c f g).isNaN = false := by
  by_cases h : c
  · rw [dif_pos h]
    exact hf h
  · rw [dif_neg h]
    exact hg h

theorem isNaN_roundWithAccuracy (m : Nat) (e : Int) (accuracy : UnpackedFloat.Accuracy) :
    (UnpackedFloat.roundWithAccuracy Format.binary64 sign m e accuracy).isNaN = false :=
  isNaN_dite (fun _ => rfl) fun _ => rfl

theorem isNaN_unpacked_mul (hf : f.isNaN = false) :
    (UnpackedFloat.mul Format.binary64 f (.finite sign m e hm)).isNaN = false := by
  cases f with
  | notANumber => cases hf
  | infinity _ => rfl
  | zero _ => rfl
  | finite _ _ _ _ => exact isNaN_roundWithAccuracy _ _ _

theorem isNaN_unpacked_div (hf : f.isNaN = false) :
    (UnpackedFloat.div Format.binary64 f (.finite sign m e hm)).isNaN = false := by
  cases f with
  | notANumber => cases hf
  | infinity _ => rfl
  | zero _ => rfl
  | finite _ _ _ _ => exact isNaN_roundWithAccuracy _ _ _

theorem isNaN_unpacked_ofScientific (m : Nat) (e : Int) :
    (UnpackedFloat.ofScientific Format.binary64 m e).isNaN = false := by
  apply isNaN_dite
  · intro _
    rfl
  · intro _
    refine isNaN_dite (fun _ => rfl) fun _ => isNaN_dite (fun _ => rfl) fun _ => isNaN_dite ?_ ?_
    · exact fun _ => isNaN_unpacked_mul rfl
    · exact fun _ => isNaN_unpacked_div rfl

theorem isNaN_toFloat (n : UInt64) : n.toFloat.isNaN = false := by
  refine isNaN_pack ?_
  simp only [UnpackedFloat.ofUInt64, UnpackedFloat.ofNat, UnpackedFloat.ofInt,
    UnpackedFloat.normalize]
  split
  · exact isNaN_roundWithAccuracy _ _ _
  · rfl
  · exact isNaN_roundWithAccuracy _ _ _

/-- The powers of ten that are numbers themselves are finite and not zero. -/
theorem powersOfTen_finite (x : Float) (h : x ∈ Float.exactlyRepresentablePowersOfTen) :
    ∃ sign m e hm, x.toModel.unpack = .finite sign m e hm := by
  have hall : ∀ x ∈ Float.exactlyRepresentablePowersOfTen.toList,
      x.isFinite = true ∧ x.toModel.unpack.beq (.zero .positive) = false := by decide +kernel
  obtain ⟨hfinite, hzero⟩ := hall x (Array.mem_toList_iff.mpr h)
  change x.toModel.unpack.isFinite = true at hfinite
  cases hunpack : x.toModel.unpack with
  | notANumber => rw [hunpack] at hfinite; cases hfinite
  | infinity _ => rw [hunpack] at hfinite; cases hfinite
  | zero sign => rw [hunpack] at hzero; cases sign <;> cases hzero
  | finite sign m e hm => exact ⟨sign, m, e, hm, rfl⟩

theorem isNaN_ofScientific (m : Nat) (negative : Bool) (e : Nat) :
    (Float.ofScientific m negative e).isNaN = false := by
  rw [Float.ofScientific]
  split
  · next h =>
    have he : e < Float.exactlyRepresentablePowersOfTen.size := by
      simp only [Float.exactlyRepresentablePowersOfTen, List.size_toArray, List.length_cons,
        List.length_nil]
      omega
    obtain ⟨sign, n, k, hn, hpower⟩ := powersOfTen_finite _ (Array.getElem_mem he)
    dsimp only
    split
    · refine isNaN_pack ?_
      rw [hpower]
      exact isNaN_unpacked_div (isNaN_toFloat _)
    · refine isNaN_pack ?_
      rw [hpower]
      exact isNaN_unpacked_mul (isNaN_toFloat _)
  · exact isNaN_pack (isNaN_unpacked_ofScientific _ _)

theorem isNaN_neg (h : x.isNaN = false) : (-x).isNaN = false := by
  refine isNaN_pack ?_
  change x.toModel.unpack.isNaN = false at h
  revert h
  cases x.toModel.unpack <;> exact id

/-- Every numeral denotes a number or an infinity. -/
theorem Numeral.isNaN_toFloat (numeral : Numeral) : numeral.toFloat.isNaN = false := by
  have hnearest : ∀ m e, (nearest m e).isNaN = false := by
    intro m e
    simp only [nearest]
    split_ifs
    · exact isNaN_ofScientific _ _ _
    · decide +kernel
    · exact isNaN_ofScientific _ _ _
    · exact isNaN_ofScientific _ _ _
  simp only [Numeral.toFloat]
  split
  · exact isNaN_neg (hnearest _ _)
  · exact hnearest _ _

/-! ## Bits -/

theorem toNat_unpackExponent (bits : BitVec 64) :
    (@UnpackedFloat.unpackExponent Format.binary64 bits).toNat =
      bits.toNat / Nat.pow 2 52 % Nat.pow 2 11 := by
  simp [UnpackedFloat.unpackExponent, Nat.shiftRight_eq_div_pow]

theorem toNat_unpackMantissa (bits : BitVec 64) :
    (@UnpackedFloat.unpackMantissa Format.binary64 bits).toNat = bits.toNat % Nat.pow 2 52 := by
  simp [UnpackedFloat.unpackMantissa, Nat.shiftRight_eq_div_pow]

theorem unpackExponent_eq_iff (bits : BitVec 64) :
    @UnpackedFloat.unpackExponent Format.binary64 bits = -1#_ ↔
      bits.toNat / Nat.pow 2 52 % Nat.pow 2 11 = Nat.pow 2 11 - 1 := by
  rw [← BitVec.toNat_inj, toNat_unpackExponent]
  rfl

theorem unpackMantissa_eq_iff (bits : BitVec 64) :
    @UnpackedFloat.unpackMantissa Format.binary64 bits = 0#_ ↔ bits.toNat % Nat.pow 2 52 = 0 := by
  rw [← BitVec.toNat_inj, toNat_unpackMantissa]
  rfl

/-- The parts of an infinity. -/
theorem Binary.ofBits_of_isInf (h : x.isInf = true) :
    ∃ negative, Binary.ofBits x.toBits.toNat = .infinite negative := by
  change (UnpackedFloat.unpack Format.binary64 x.toBits.toBitVec).isInf = true at h
  rcases unpack_cases x.toBits.toBitVec with
    ⟨_, -, hexponent, hmantissa⟩ | ⟨hunpack, -⟩ | ⟨hfinite, -⟩
  · rw [unpackExponent_eq_iff] at hexponent
    rw [unpackMantissa_eq_iff] at hmantissa
    exact ⟨_, (if_pos hexponent).trans (if_pos hmantissa)⟩
  · rw [hunpack] at h
    cases h
  · cases hunpack : UnpackedFloat.unpack Format.binary64 x.toBits.toBitVec with
    | infinity _ => rw [hunpack] at hfinite; cases hfinite
    | notANumber => rw [hunpack] at h; cases h
    | zero _ => rw [hunpack] at h; cases h
    | finite _ _ _ _ => rw [hunpack] at h; cases h

/-- The parts of a number. -/
theorem Binary.ofBits_of_isFinite (h : x.isFinite = true) :
    ∃ negative m q atBoundary, Binary.ofBits x.toBits.toNat = .finite negative m q atBoundary ∧
      m < Nat.pow 2 53 ∧ -1074 ≤ q ∧ q ≤ 971 := by
  have hexponent : ¬x.toBits.toNat / Nat.pow 2 52 % Nat.pow 2 11 = Nat.pow 2 11 - 1 := by
    change (UnpackedFloat.unpack Format.binary64 x.toBits.toBitVec).isFinite = true at h
    rcases unpack_cases x.toBits.toBitVec with ⟨_, hunpack, -⟩ | ⟨hunpack, -⟩ | ⟨-, hexponent⟩
    · rw [hunpack] at h
      cases h
    · rw [hunpack] at h
      cases h
    · rwa [ne_eq, unpackExponent_eq_iff] at hexponent
  have hmantissa : x.toBits.toNat % Nat.pow 2 52 < Nat.pow 2 52 := Nat.mod_lt _ (by decide)
  have hbiased : x.toBits.toNat / Nat.pow 2 52 % Nat.pow 2 11 < Nat.pow 2 11 :=
    Nat.mod_lt _ (by decide)
  have hpow : Nat.pow 2 53 = 2 * Nat.pow 2 52 := rfl
  have hlast : Nat.pow 2 11 = 2048 := rfl
  rw [Binary.ofBits, if_neg hexponent]
  split
  · exact ⟨_, _, _, _, rfl, by omega, by omega, by omega⟩
  · exact ⟨_, _, _, _, rfl, by omega, by omega, by omega⟩

end Packrat.Decimal
