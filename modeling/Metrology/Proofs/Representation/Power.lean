import Metrology.Proofs.Quantity.Rescale
import Metrology.Ratio.Fraction

/-!
# Whole powers and absolute values

A power is taken in 128 bits, with the exponent cut to 32 bits before and the result to the width of the
type after. A power that fits the type comes out exactly, except that zero to a multiple of `2 ^ 32` comes
out as one. A power that does not fit is refused only if the power with the cut exponent does not fit 128
bits either, and otherwise comes out as another number. The absolute value that does not fit, that of the
least number, comes out as the least number.
-/

namespace Metrology

namespace IntegerType

variable {t : IntegerType} {n : Int}

theorem reduce_of_holds (h : t.Holds n) : t.reduce n = n := by
  obtain ⟨hlow, hhigh⟩ := h
  cases t <;>
    simp only [reduce, low, high, isSigned, count, if_true, if_false, Bool.false_eq_true] at * <;>
    first
      | exact Int.emod_eq_of_lt (by omega) (by omega)
      | exact Int.bmod_eq_of_le (by omega) (by omega)

theorem holds_one (t : IntegerType) : t.Holds 1 := by cases t <;> decide

theorem Holds.eq_low_of_neg (h : t.Holds n) (hn : n < 0) (hneg : ¬ t.Holds (-n)) :
    t.isSigned = true ∧ n = t.low := by
  obtain ⟨hlow, hhigh⟩ := h
  cases t <;> simp [Holds, low, high, isSigned, count] at * <;> omega

theorem reduce_neg_low (h : t.isSigned = true) : t.reduce (-t.low) = t.low := by
  revert h
  cases t <;> decide

end IntegerType

/-! ### Powers of whole numbers -/

section Powers

variable {n : Nat} {x : Int}

theorem two_pow_le_natAbs_pow (hx : 2 ≤ x.natAbs) (n : Nat) : 2 ^ n ≤ (x ^ n).natAbs := by
  rw [Int.natAbs_pow]
  exact Nat.pow_le_pow_left hx n

/-- The powers of a small number depend on whether the exponent is zero and whether it is even. -/
theorem pow_of_natAbs_le_one (hx : x.natAbs ≤ 1) (n : Nat) :
    x ^ n = if n = 0 then 1 else if n % 2 = 0 then x * x else x := by
  by_cases hn : n = 0
  · rw [if_pos hn, hn, pow_zero]
  · rw [if_neg hn]
    have hcases : x = -1 ∨ x = 0 ∨ x = 1 := by omega
    rcases hcases with rfl | rfl | rfl
    · by_cases heven : n % 2 = 0
      · rw [if_pos heven, Even.neg_one_pow (Nat.even_iff.mpr heven)]
        rfl
      · rw [if_neg heven, Odd.neg_one_pow (Nat.odd_iff.mpr (by omega))]
    · rw [zero_pow hn, mul_zero, ite_self]
    · rw [one_pow, mul_one, ite_self]

theorem fits128_of_natAbs_le_one (hx : x.natAbs ≤ 1) : Fits128 x := by
  unfold Fits128
  omega

theorem not_fits128_pow (hx : 2 ≤ x.natAbs) (hn : 128 ≤ n) : ¬ Fits128 (x ^ n) := by
  intro hfits
  have hlarge : 2 ^ 128 ≤ (x ^ n).natAbs :=
    (Nat.pow_le_pow_right (by decide) hn).trans (two_pow_le_natAbs_pow hx n)
  unfold Fits128 at hfits
  omega

end Powers

namespace FixedInt

variable {t : IntegerType} {n : Nat} {x : Int} {v : FixedInt t} {p : Ratio}

theorem wrap_value_iff {n : Int} : (wrap n : FixedInt t).value = n ↔ t.Holds n :=
  ⟨fun h => h ▸ (wrap n : FixedInt t).holds, IntegerType.reduce_of_holds⟩

theorem power128?_eq (x : Int) (n : Nat) :
    power128? x n = if Fits128 (x ^ n) then some (x ^ n) else none := by
  unfold power128?
  by_cases hsmall : x.natAbs ≤ 1
  · have hpower : (x ^ n).natAbs ≤ 1 := by
      rw [Int.natAbs_pow]
      exact pow_le_one₀ (Nat.zero_le _) hsmall
    rw [if_pos hsmall, if_pos (fits128_of_natAbs_le_one hpower), pow_of_natAbs_le_one hsmall]
  · rw [if_neg hsmall]
    by_cases hn : n < 128
    · have hbound : ((Nat.pow 2 127 : Nat) : Int) = 170141183460469231731687303715884105728 := by decide
      have hfits : -((Nat.pow 2 127 : Nat) : Int) ≤ x ^ n ∧ x ^ n < (Nat.pow 2 127 : Nat) ↔
          Fits128 (x ^ n) := by
        unfold Fits128
        omega
      rw [if_pos hn]
      show (if -((Nat.pow 2 127 : Nat) : Int) ≤ x ^ n ∧ x ^ n < (Nat.pow 2 127 : Nat) then some (x ^ n)
        else none) = _
      simp only [hfits]
    · rw [if_neg hn, if_neg (not_fits128_pow (by omega) (by omega))]

/-! ### Powers of numbers of a type -/

/-- The low 32 bits of the exponent decide. -/
theorem power_eq (hp : p.value = n) : v.power p =
    if Fits128 (v.value ^ (n % 2 ^ 32)) then .ok (wrap (v.value ^ (n % 2 ^ 32)))
    else .error (.word .exponentiate) := by
  have hnum : p.num = n := Ratio.num_of_value hp
  have hinteger : (p.isInteger && !p.isNegative) = true := by
    simp [Ratio.isInteger, Ratio.isNegative, Ratio.den, hp, hnum]
  have hexponent : (IntegerType.word32.reduce p.num).toNat = n % 2 ^ 32 := by
    rw [hnum]
    simp only [IntegerType.reduce, IntegerType.isSigned, IntegerType.count, if_false, Bool.false_eq_true]
    omega
  unfold power
  rw [if_pos hinteger, hexponent, power128?_eq]
  by_cases hwide : Fits128 (v.value ^ (n % 2 ^ 32))
  · rw [if_pos hwide, if_pos hwide]
  · rw [if_neg hwide, if_neg hwide]

/-- Cutting the exponent changes no power that fits a type, but for the powers of zero. -/
theorem pow_mod (hfits : t.Holds (x ^ n)) (hzero : ¬ (x = 0 ∧ n ≠ 0 ∧ 2 ^ 32 ∣ n)) :
    x ^ (n % 2 ^ 32) = x ^ n := by
  by_cases hsmall : x.natAbs ≤ 1
  · rw [pow_of_natAbs_le_one hsmall, pow_of_natAbs_le_one hsmall,
      Nat.mod_mod_of_dvd n (by decide : 2 ∣ 2 ^ 32)]
    by_cases hcut : n % 2 ^ 32 = 0
    · rw [if_pos hcut]
      by_cases hn : n = 0
      · rw [if_pos hn]
      · -- The exponent vanishes though it did not: it was even.
        have hx : x ≠ 0 := fun hx => hzero ⟨hx, hn, Nat.dvd_of_mod_eq_zero hcut⟩
        have hunit : x = 1 ∨ x = -1 := by omega
        rw [if_neg hn, if_pos (by omega)]
        rcases hunit with rfl | rfl
        · rfl
        · rfl
    · have hn : n ≠ 0 := by
        rintro rfl
        exact hcut rfl
      rw [if_neg hcut, if_neg hn]
  · -- A power of a larger number fits only if its exponent is below 64.
    have hbound := (two_pow_le_natAbs_pow (by omega : 2 ≤ x.natAbs) n).trans_lt hfits.natAbs_lt
    have hn : n < 64 := (Nat.pow_lt_pow_iff_right (by decide)).mp hbound
    rw [Nat.mod_eq_of_lt (by omega)]

theorem power_exact (hp : p.value = n) (hfits : t.Holds (v.value ^ n))
    (hzero : ¬ (v.value = 0 ∧ n ≠ 0 ∧ 2 ^ 32 ∣ n)) :
    ∃ w, v.power p = .ok w ∧ w.value = v.value ^ n := by
  have hcut := pow_mod hfits hzero
  have hwide : Fits128 (v.value ^ n) := by
    have := hfits.natAbs_lt
    unfold Fits128
    omega
  rw [power_eq hp, hcut, if_pos hwide]
  exact ⟨_, rfl, wrap_value_iff.mpr hfits⟩

theorem power_wrong_iff (hp : p.value = n) :
    (∃ w, v.power p = .ok w ∧ w.value ≠ v.value ^ n) ↔
      (v.value = 0 ∧ n ≠ 0 ∧ 2 ^ 32 ∣ n) ∨
        ¬ t.Holds (v.value ^ n) ∧ Fits128 (v.value ^ (n % 2 ^ 32)) := by
  constructor
  · rintro ⟨w, hw, hwrong⟩
    by_cases hzero : v.value = 0 ∧ n ≠ 0 ∧ 2 ^ 32 ∣ n
    · exact .inl hzero
    refine .inr ⟨fun hfits => ?_, ?_⟩
    · obtain ⟨u, hu, hexact⟩ := power_exact hp hfits hzero
      obtain rfl := Except.ok.inj (hu.symm.trans hw)
      exact hwrong hexact
    · by_contra hwide
      rw [power_eq hp, if_neg hwide] at hw
      cases hw
  · rintro (⟨hv, hn, hdvd⟩ | ⟨hfits, hwide⟩)
    · rw [power_eq hp, Nat.mod_eq_zero_of_dvd hdvd, hv, pow_zero, zero_pow hn]
      refine ⟨_, if_pos (fits128_of_natAbs_le_one le_rfl), ?_⟩
      rw [wrap_value_iff.mpr t.holds_one]
      exact one_ne_zero
    · rw [power_eq hp, if_pos hwide]
      exact ⟨_, rfl, fun h => hfits (h ▸ (wrap _ : FixedInt t).holds)⟩

/-! ### Absolute values -/

/-- The absolute value is exact if it fits, and only the least number of a type is its own otherwise. -/
theorem abs_cases (v : FixedInt t) :
    (t.Holds |v.value| ∧ v.abs.value = |v.value|) ∨
      ¬ t.Holds |v.value| ∧ v.value = t.low ∧ v.abs = v := by
  unfold abs
  by_cases hnegative : v.value < 0
  · rw [if_pos hnegative, abs_of_neg hnegative]
    by_cases hfits : t.Holds (-v.value)
    · exact .inl ⟨hfits, wrap_value_iff.mpr hfits⟩
    · obtain ⟨hsigned, hleast⟩ := v.holds.eq_low_of_neg hnegative hfits
      refine .inr ⟨hfits, hleast, ext ?_⟩
      rw [hleast]
      exact IntegerType.reduce_neg_low hsigned
  · rw [if_neg hnegative, abs_of_nonneg (not_lt.mp hnegative)]
    exact .inl ⟨v.holds, rfl⟩

/-! ### The laws -/

structure PowerLaws (v : FixedInt t) : Prop where
  result : ∀ (p : Ratio) (n : Nat), p.value = n → v.power p =
    if Fits128 (v.value ^ (n % 2 ^ 32)) then .ok (wrap (v.value ^ (n % 2 ^ 32)))
    else .error (.word .exponentiate)
  exact : ∀ (p : Ratio) (n : Nat), p.value = n → t.Holds (v.value ^ n) →
    ¬ (v.value = 0 ∧ n ≠ 0 ∧ 2 ^ 32 ∣ n) → ∃ w, v.power p = .ok w ∧ w.value = v.value ^ n
  /-- The results that are neither exact nor refused. -/
  wrong : ∀ (p : Ratio) (n : Nat), p.value = n →
    ((∃ w, v.power p = .ok w ∧ w.value ≠ v.value ^ n) ↔
      (v.value = 0 ∧ n ≠ 0 ∧ 2 ^ 32 ∣ n) ∨
        ¬ t.Holds (v.value ^ n) ∧ Fits128 (v.value ^ (n % 2 ^ 32)))
  quantity : ∀ (reference : Reference) (p : Ratio) (q : Quantity (FixedInt t)),
    Quantity.pow ⟨v, reference⟩ p = .ok q → v.power p = .ok q.value
  abs_exact : t.Holds |v.value| → v.abs.value = |v.value|
  abs_least : ¬ t.Holds |v.value| → v.value = t.low ∧ v.abs = v
  quantity_abs : ∀ reference : Reference, (Quantity.abs ⟨v, reference⟩).value = v.abs

theorem power_laws (v : FixedInt t) : PowerLaws v where
  result _ _ hp := power_eq hp
  exact _ _ hp hfits hzero := power_exact hp hfits hzero
  wrong _ _ hp := power_wrong_iff hp
  quantity reference p q h := by
    obtain ⟨power, -, h⟩ := bind_eq_ok.mp h
    obtain ⟨w, hw, h⟩ := bind_eq_ok.mp h
    obtain ⟨_, -, h⟩ := bind_eq_ok.mp h
    obtain rfl := pure_eq_ok.mp h
    exact hw
  abs_exact hfits := v.abs_cases.elim And.right fun h => absurd hfits h.1
  abs_least hrange := v.abs_cases.elim (fun h => absurd h.1 hrange) And.right
  quantity_abs _ := rfl

/-- The fourth power of three is exact, and the square of sixteen, which has nine bits, is wrong in
eight. -/
theorem power_laws_three :
    (∃ w, (⟨3, by decide⟩ : FixedInt .int32).power ⟨4, by decide⟩ = .ok w ∧ w.value = 3 ^ 4) ∧
      ∃ w, (⟨16, by decide⟩ : FixedInt .int8).power ⟨2, by decide⟩ = .ok w ∧ w.value ≠ 16 ^ 2 :=
  ⟨(power_laws ⟨3, by decide⟩).exact ⟨4, by decide⟩ 4 rfl (by decide) (by decide),
    ((power_laws ⟨16, by decide⟩).wrong ⟨2, by decide⟩ 2 rfl).mpr
      (.inr ⟨by decide, by unfold Fits128; decide⟩)⟩

/-- The square of sixteen comes out as zero, the power of zero to `2 ^ 32` as one and the absolute value of
minus 128 as minus 128, each without a fault. -/
theorem power_wraps :
    (⟨16, by decide⟩ : FixedInt .int8).power ⟨2, by decide⟩ = .ok ⟨0, by decide⟩ ∧
      (⟨0, by decide⟩ : FixedInt .int32).power ⟨4294967296, by decide⟩ = .ok ⟨1, by decide⟩ ∧
      (⟨-128, by decide⟩ : FixedInt .int8).abs = ⟨-128, by decide⟩ := by
  decide +kernel

end FixedInt

end Metrology
