import Mathlib.Data.Rat.Floor
import Metrology.Proofs.Ratio
import Metrology.Representation.FixedInt

/-!
# Truncation

Whole numbers are scaled and shifted by exact ratios, and the exact result is rounded towards zero. So a
positive result is rounded down and a negative one up, and two results less than one on either side of zero
become the same number.
-/

namespace Metrology

/-- What is left of a number rounded towards zero. -/
def truncate (q : Rat) : Int := q.num.tdiv q.den

theorem truncate_of_nonneg {q : Rat} (hq : 0 ≤ q) : truncate q = ⌊q⌋ := by
  unfold truncate
  rw [Int.tdiv_eq_ediv_of_nonneg (Rat.num_nonneg.mpr hq)]
  exact (Rat.floor_def q).symm

theorem truncate_neg (q : Rat) : truncate (-q) = -truncate q := by
  unfold truncate
  rw [Rat.neg_num, Rat.neg_den, Int.neg_tdiv]

theorem truncate_of_nonpos {q : Rat} (hq : q ≤ 0) : truncate q = ⌈q⌉ := by
  rw [← neg_neg q, truncate_neg, truncate_of_nonneg (by linarith), Int.ceil_neg]

@[simp] theorem truncate_intCast (n : Int) : truncate n = n := by
  simp [truncate]

/-- Truncating division truncates the quotient. -/
theorem tdiv_eq_truncate (n : Int) (d : Nat) : n.tdiv d = truncate (n / d) := by
  have hnonneg (k : Nat) : (k : Int).tdiv d = truncate ((k : Int) / d) := by
    have hquotient : (0 : Rat) ≤ (k : Int) / d := div_nonneg (by simp) (by simp)
    rw [truncate_of_nonneg hquotient, Int.tdiv_eq_ediv_of_nonneg (Int.natCast_nonneg k),
      Rat.floor_intCast_div_natCast]
  obtain ⟨k, rfl | rfl⟩ := n.eq_nat_or_neg
  · exact hnonneg k
  · rw [Int.neg_tdiv, hnonneg k, Int.cast_neg, neg_div, truncate_neg]

/-- A whole number and a proper fraction: below zero the fraction is rounded up. -/
theorem truncate_add_fraction (n : Int) {q : Rat} (hq : 0 ≤ q) (hq' : q < 1) :
    truncate (n + q) = if n < 0 ∧ q ≠ 0 then n + 1 else n := by
  by_cases hzero : q = 0
  · rw [hzero, add_zero, truncate_intCast, if_neg fun h => h.2 rfl]
  · have hpos : 0 < q := lt_of_le_of_ne hq (Ne.symm hzero)
    by_cases hn : n < 0
    · have hn' : (n : Rat) + 1 ≤ 0 := by exact_mod_cast hn
      rw [truncate_of_nonpos (by linarith), if_pos ⟨hn, hzero⟩, Int.ceil_eq_iff]
      push_cast
      constructor
      · linarith
      · linarith
    · have hn' : (0 : Rat) ≤ n := by exact_mod_cast not_lt.mp hn
      rw [truncate_of_nonneg (by linarith), if_neg fun h => hn h.1, Int.floor_eq_iff]
      constructor
      · linarith
      · linarith

namespace FixedInt

variable {t : IntegerType} {v : FixedInt t} {r : Ratio}

theorem addRatio_eq (v : FixedInt t) (r : Ratio) :
    v.addRatio r = narrow (truncate (v.value + r.value)) := by
  have hden : (r.value.den : Rat) ≠ 0 := Nat.cast_ne_zero.mpr r.value.den_nz
  have hsum : ((v.value * r.den + r.num : Int) : Rat) / r.den = v.value + r.value := by
    unfold Ratio.den Ratio.num
    push_cast
    rw [add_div, mul_div_cancel_right₀ _ hden, Rat.num_div_den]
  unfold addRatio
  rw [tdiv_eq_truncate, hsum]

theorem scale_eq {f : Magnitude} (hf : f.toRatio? = .ok (some r)) :
    v.scale f = narrow (truncate (v.value * r.value)) := by
  have hproduct : ((v.value * r.num : Int) : Rat) / r.den = v.value * r.value := by
    unfold Ratio.den Ratio.num
    push_cast
    rw [mul_div_assoc, Rat.num_div_den]
  unfold scale
  rw [hf]
  show narrow ((v.value * r.num).tdiv r.den) = _
  rw [tdiv_eq_truncate, hproduct]

end FixedInt

end Metrology
