import Packrat.Decimal.Shortest

/-!
# Shortest decimals are found

The search for the shortest decimal ends with one: on a grid that is finer than the number's unit a
point lies in the interval, and twenty-four grids lead there from the first one.  No point in the
interval of a positive number is zero.
-/

namespace Packrat.Decimal

/-! ## Grids -/

namespace OnGrid

variable {grid : OnGrid} {tie : Tie} {n : Nat}

/-- The point that is chosen lies in the interval. -/
theorem holds_of_nearest? (h : grid.nearest? tie = some n) : grid.holds n = true := by
  simp only [nearest?] at h
  split at h
  · cases h
  · next hbelow _ => exact Option.some.inj h ▸ hbelow
  · next _ habove => exact Option.some.inj h ▸ habove
  · next hbelow habove =>
    split at h
    · exact Option.some.inj h ▸ hbelow
    · split at h
      · exact Option.some.inj h ▸ habove
      · cases tie with
        | up => exact Option.some.inj h ▸ habove
        | toEven =>
            rw [← Option.some.inj h]
            split
            · exact hbelow
            · exact habove

/-- Zero is not in an interval of positive numbers. -/
theorem pos_of_holds (hlow : 0 < grid.low) (h : grid.holds n = true) : 0 < n := by
  rcases Nat.eq_zero_or_pos n with rfl | hpos
  · simp only [holds, Nat.zero_mul] at h
    split at h
    · have hle := of_decide_eq_true (Bool.and_eq_true_iff.mp h).1
      omega
    · have hlt := of_decide_eq_true (Bool.and_eq_true_iff.mp h).1
      omega
  · exact hpos

/-- A grid that is finer than half the interval has a point in it. -/
theorem isSome_nearest? (hunit : 0 < grid.unit) (hlow : grid.low ≤ grid.middle)
    (hfine : grid.middle + grid.unit < grid.high) : (grid.nearest? tie).isSome = true := by
  have habove : grid.holds (grid.middle / grid.unit + 1) = true := by
    have hle : grid.middle / grid.unit * grid.unit ≤ grid.middle := Nat.div_mul_le_self _ _
    have hlt : grid.middle < (grid.middle / grid.unit + 1) * grid.unit := by
      rw [Nat.mul_comm]
      exact Nat.lt_mul_div_succ _ hunit
    rw [Nat.add_mul, Nat.one_mul] at hlt
    simp only [holds, Nat.add_mul, Nat.one_mul]
    split
    · simp only [Bool.and_eq_true, decide_eq_true_eq]
      omega
    · simp only [Bool.and_eq_true, decide_eq_true_eq]
      omega
  simp only [nearest?, habove]
  split
  · next h => cases h
  · next h => cases h
  · rfl
  · split
    · rfl
    · split
      · rfl
      · cases tie <;> rfl

end OnGrid

/-! ## Powers -/

/-- The grid of the power of ten `k` is finer than half a unit of `2 ^ q`. -/
theorem fine_grid {q k : Int} (hlow : -1074 ≤ q) (hhigh : q ≤ 971)
    (hk : (k + 21) * 100000 ≤ (52 + q) * 30103) :
    Nat.pow 2 (-(q - 2)).toNat * Nat.pow 10 k.toNat <
      2 * (Nat.pow 2 (q - 2).toNat * Nat.pow 10 (-k).toNat) := by
  simp only [Nat.pow_eq]
  by_cases hq : 2 ≤ q
  · obtain ⟨p, hp⟩ : ∃ p : Nat, q = p + 2 := ⟨(q - 2).toNat, by omega⟩
    by_cases hpos : 0 < k
    · -- ten bits hold three digits
      obtain ⟨j, hj⟩ : ∃ j : Nat, j = (k.toNat + 2) / 3 := ⟨_, rfl⟩
      have hdigits : (10 : Nat) ^ k.toNat ≤ 2 ^ p := calc
        (10 : Nat) ^ k.toNat ≤ 10 ^ (3 * j) := Nat.pow_le_pow_right (by decide) (by omega)
        _ = (10 ^ 3) ^ j := Nat.pow_mul 10 3 j
        _ ≤ (2 ^ 10) ^ j := Nat.pow_le_pow_left (by decide) j
        _ = 2 ^ (10 * j) := (Nat.pow_mul 2 10 j).symm
        _ ≤ 2 ^ p := Nat.pow_le_pow_right (by decide) (by omega)
      rw [show (-(q - 2)).toNat = 0 by omega, show (q - 2).toNat = p by omega,
        show (-k).toNat = 0 by omega]
      have : 0 < (2 : Nat) ^ p := Nat.pow_pos (by decide)
      omega
    · rw [show (-(q - 2)).toNat = 0 by omega, show k.toNat = 0 by omega]
      have : 0 < 2 ^ (q - 2).toNat * 10 ^ (-k).toNat :=
        Nat.mul_pos (Nat.pow_pos (by decide)) (Nat.pow_pos (by decide))
      omega
  · obtain ⟨p, hp⟩ : ∃ p : Nat, q = 1 - p := ⟨(1 - q).toNat, by omega⟩
    obtain ⟨n, hn⟩ : ∃ n : Nat, k = -n := ⟨(-k).toNat, by omega⟩
    -- ten digits hold thirty-three bits, and one digit holds three
    obtain ⟨a, b, hb, hab⟩ : ∃ a b : Nat, b < 33 ∧ p = 33 * a + b :=
      ⟨p / 33, p % 33, Nat.mod_lt _ (by decide), (Nat.div_add_mod p 33).symm⟩
    obtain ⟨j, hj⟩ : ∃ j : Nat, j = (b + 2) / 3 := ⟨_, rfl⟩
    have hbits : (2 : Nat) ^ p < 10 ^ n := calc
      (2 : Nat) ^ p = (2 ^ 33) ^ a * 2 ^ b := by rw [hab, Nat.pow_add, Nat.pow_mul]
      _ ≤ (10 ^ 10) ^ a * 2 ^ (3 * j) :=
        Nat.mul_le_mul (Nat.pow_le_pow_left (by decide) a)
          (Nat.pow_le_pow_right (by decide) (by omega))
      _ = 10 ^ (10 * a) * (2 ^ 3) ^ j := by rw [← Nat.pow_mul, ← Nat.pow_mul]
      _ ≤ 10 ^ (10 * a) * 10 ^ j := Nat.mul_le_mul_left _ (Nat.pow_le_pow_left (by decide) j)
      _ = 10 ^ (10 * a + j) := (Nat.pow_add 10 (10 * a) j).symm
      _ < 10 ^ n := Nat.pow_lt_pow_right (by decide) (by omega)
    rw [show (-(q - 2)).toNat = p + 1 by omega, show (q - 2).toNat = 0 by omega,
      show k.toNat = 0 by omega, show (-k).toNat = n by omega, Nat.pow_succ]
    omega

/-! ## The search -/

variable {interval : Interval} {tie : Tie}

theorem factor_pos (interval : Interval) (exponent : Int) :
    0 < Nat.pow 2 interval.exponent.toNat * Nat.pow 10 (-exponent).toNat :=
  Nat.mul_pos (Nat.pow_pos (by decide)) (Nat.pow_pos (by decide))

/-- The search ends on a grid with a point in the interval, if one is among its grids. -/
theorem search_pos (hlow : 0 < interval.low) {fuel : Nat} {exponent : Int} (steps : Nat)
    (hsteps : steps < fuel)
    (h : ((interval.onGrid (exponent - steps)).nearest? tie).isSome = true) :
    0 < (search interval tie fuel exponent).digits := by
  induction steps generalizing fuel exponent with
  | zero =>
      obtain ⟨fuel, rfl⟩ : ∃ n, fuel = n + 1 := ⟨fuel - 1, by omega⟩
      obtain ⟨digits, hdigits⟩ := Option.isSome_iff_exists.mp h
      rw [Int.natCast_zero, Int.sub_zero] at hdigits
      rw [search, hdigits]
      exact OnGrid.pos_of_holds (Nat.mul_pos hlow (factor_pos interval exponent))
        (OnGrid.holds_of_nearest? hdigits)
  | succ steps ih =>
      obtain ⟨fuel, rfl⟩ : ∃ n, fuel = n + 1 := ⟨fuel - 1, by omega⟩
      rw [search]
      split
      · next digits hdigits =>
        exact OnGrid.pos_of_holds (Nat.mul_pos hlow (factor_pos interval exponent))
          (OnGrid.holds_of_nearest? hdigits)
      · refine ih (by omega) ?_
        rwa [show exponent - 1 - (steps : Int) = exponent - ((steps + 1 : Nat) : Int) by omega]

/-- The shortest decimal of a positive number is positive. -/
theorem shortest_pos {m : Nat} {q : Int} (atBoundary : Bool) (hpos : 0 < m) (hm : m < Nat.pow 2 53)
    (hlow : -1074 ≤ q) (hhigh : q ≤ 971) : 0 < (shortest tie m q atBoundary).digits := by
  have hbits : m.log2 ≤ 52 := by
    have := (Nat.log2_lt (by omega)).mpr hm
    omega
  have hleading : leadingExponent m q * 100000 ≤ (52 + q) * 30103 := by
    have hfloor : leadingExponent m q * 100000 ≤ (m.log2 + q) * 30103 := by
      rw [leadingExponent, Int.fdiv_eq_ediv_of_nonneg _ (by decide)]
      exact Int.ediv_mul_le _ (by decide)
    omega
  -- the last grid of the search is fine enough
  refine search_pos (by cases atBoundary <;> simp [Interval.around] <;> omega) 23 (by decide) ?_
  have hfine := @fine_grid q (leadingExponent m q + 2 - (23 : Nat)) hlow hhigh (by omega)
  have hunit : 0 < Nat.pow 2 (-(q - 2)).toNat *
      Nat.pow 10 (leadingExponent m q + 2 - (23 : Nat)).toNat :=
    Nat.mul_pos (Nat.pow_pos (by decide)) (Nat.pow_pos (by decide))
  apply OnGrid.isSome_nearest? hunit
  · apply Nat.mul_le_mul_right
    cases atBoundary <;> simp [Interval.around]
  · simp only [Interval.onGrid, Interval.around, Nat.add_mul]
    omega

end Packrat.Decimal
