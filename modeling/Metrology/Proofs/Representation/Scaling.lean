import Metrology.Proofs.Quantity.Rescale
import Metrology.Proofs.Ratio.Fraction
import Metrology.Proofs.Representation.Truncation
import Metrology.Representation.Wide

/-!
# Exact scaling

A whole number is multiplied by the ratio of a magnitude, or a ratio is added to it, without any error but
the final rounding towards zero. The wide words between hold every number that can arise, the largest
numbers and ratios included, so the calculation fails only if its result is out of the range of the type.
Both keep the order of numbers, since no magnitude is negative.
-/

namespace Metrology

/-- Rounding towards zero keeps the order. -/
theorem truncate_mono {p q : Rat} (h : p ≤ q) : truncate p ≤ truncate q := by
  by_cases hp : 0 ≤ p
  · rw [truncate_of_nonneg hp, truncate_of_nonneg (hp.trans h)]
    exact Int.floor_le_floor h
  · have hp' : p ≤ 0 := (not_le.mp hp).le
    rw [truncate_of_nonpos hp']
    by_cases hq : 0 ≤ q
    · -- Zero lies between the two.
      rw [truncate_of_nonneg hq]
      exact (Int.ceil_le.mpr (by exact_mod_cast hp')).trans (Int.le_floor.mpr (by exact_mod_cast hq))
    · rw [truncate_of_nonpos (not_le.mp hq).le]
      exact Int.ceil_le_ceil h

/-! ### No magnitude is negative -/

namespace Magnitude

variable {m : Magnitude} {positive : Bool} {r : Ratio}

theorem multiplyUp_nonneg {p k : Nat} {start n : Int} (hstart : 0 ≤ start)
    (h : multiplyUp p k start = some n) : 0 ≤ n := by
  induction k generalizing start with
  | zero => exact Option.some.inj h ▸ hstart
  | succ k ih =>
    rw [multiplyUp] at h
    split at h
    · exact ih (Int.mul_nonneg hstart (Int.natCast_nonneg p)) h
    · cases h

theorem primeStep_nonneg {t : Term MagnitudeBase} {product result : Option Int}
    (hproduct : ∀ n ∈ product, 0 ≤ n) (h : primeStep positive product t = .ok result) :
    ∀ n ∈ result, 0 ≤ n := by
  unfold primeStep at h
  split at h
  · split at h
    · obtain ⟨size, -, h⟩ := bind_eq_ok.mp h
      obtain rfl := pure_eq_ok.mp h
      exact fun n hn => multiplyUp_nonneg (hproduct _ rfl) hn
    · exact pure_eq_ok.mp h ▸ hproduct
  · exact pure_eq_ok.mp h ▸ hproduct

theorem foldlM_primeStep_nonneg {product result : Option Int} (hproduct : ∀ n ∈ product, 0 ≤ n)
    (h : m.foldlM (primeStep positive) product = .ok result) : ∀ n ∈ result, 0 ≤ n := by
  induction m generalizing product with
  | nil => exact pure_eq_ok.mp h ▸ hproduct
  | cons t m ih =>
    rw [List.foldlM_cons] at h
    obtain ⟨next, hnext, h⟩ := bind_eq_ok.mp h
    exact ih (primeStep_nonneg hproduct hnext) h

theorem primeProduct_nonneg {result : Option Int} (h : m.primeProduct positive = .ok result) :
    ∀ n ∈ result, 0 ≤ n := by
  rw [primeProduct_eq_foldlM] at h
  exact foldlM_primeStep_nonneg (by simp) h

theorem toRatio?_nonneg (h : m.toRatio? = .ok (some r)) : 0 ≤ r.value := by
  unfold toRatio? at h
  split at h
  · obtain ⟨above, habove, h⟩ := bind_eq_ok.mp h
    obtain ⟨below, hbelow, h⟩ := bind_eq_ok.mp h
    cases above with
    | none => cases h
    | some n =>
      cases below with
      | none => cases h
      | some d =>
        obtain ⟨s, hs, h⟩ := bind_eq_ok.mp h
        obtain rfl := Option.some.inj (pure_eq_ok.mp h)
        rw [(Ratio.new_eq_ok.mp hs).2]
        exact div_nonneg (by exact_mod_cast primeProduct_nonneg habove n rfl)
          (by exact_mod_cast primeProduct_nonneg hbelow d rfl)
  · cases h

end Magnitude

/-! ### Wide words -/

theorem divide128_eq {n : Int} {d : Nat} (h : n.natAbs < 2 ^ 127) (hd : 0 < d) :
    divide128 n d = .ok (n.tdiv d) := by
  rw [divide128, if_neg (by omega), word128_eq_ok]
  exact (Int.natAbs_tdiv_le_natAbs n d).trans_lt h

namespace FixedInt

variable {t : IntegerType}

/-- The largest number times the largest numerator is below the last bit. -/
theorem natAbs_mul_lt (v : FixedInt t) {n : Int} (hn : n.natAbs ≤ 2 ^ 63) :
    (v.value * n).natAbs < 2 ^ 127 := by
  rw [Int.natAbs_mul]
  calc v.value.natAbs * n.natAbs ≤ (2 ^ 64 - 1) * 2 ^ 63 :=
        Nat.mul_le_mul (Nat.le_sub_one_of_lt v.holds.natAbs_lt) hn
    _ < 2 ^ 127 := by norm_num

/-- A numerator can be added to the parts of a number, since a denominator is not as large as a numerator
can be. -/
theorem natAbs_parts_lt (v : FixedInt t) (r : Ratio) :
    (v.value * r.den + r.num).natAbs < 2 ^ 127 := by
  have hparts : (v.value * r.den).natAbs ≤ (2 ^ 64 - 1) * (2 ^ 63 - 1) := by
    rw [Int.natAbs_mul, Int.natAbs_natCast]
    exact Nat.mul_le_mul (Nat.le_sub_one_of_lt v.holds.natAbs_lt) r.den_le
  have hnum := r.natAbs_num_le
  have := Int.natAbs_add_le (v.value * r.den) r.num
  omega

theorem scaleWide_words (v : FixedInt t) (r : Ratio) :
    v.scaleWide r.words = narrow ((v.value * r.num).tdiv r.den) := by
  have hproduct := v.natAbs_mul_lt r.natAbs_num_le
  show (word128 .multiply (v.value * r.num) >>= fun n => divide128 n r.den >>= narrow) = _
  rw [word128_eq_ok hproduct]
  show (divide128 (v.value * r.num) r.den >>= narrow) = _
  rw [divide128_eq hproduct r.den_pos]
  rfl

theorem addWide_words (v : FixedInt t) (r : Ratio) :
    v.addWide r.words = narrow ((v.value * r.den + r.num).tdiv r.den) := by
  have hparts : (v.value * (r.den : Int)).natAbs < 2 ^ 127 := v.natAbs_mul_lt (by have := r.den_le; omega)
  have hsum := v.natAbs_parts_lt r
  show (word128 .multiply (v.value * r.den) >>= fun parts => word128 .add (parts + r.num) >>=
    fun n => divide128 n r.den >>= narrow) = _
  rw [word128_eq_ok hparts]
  show (word128 .add (v.value * r.den + r.num) >>= fun n => divide128 n r.den >>= narrow) = _
  rw [word128_eq_ok hsum]
  show (divide128 (v.value * r.den + r.num) r.den >>= narrow) = _
  rw [divide128_eq hsum r.den_pos]
  rfl

/-! ### The laws -/

/-- The calculation gives `q` rounded towards zero if that fits the type, and else says that it does not. -/
def Truncates (calculation : Except Fault (FixedInt t)) (q : Rat) : Prop :=
  (∃ w, calculation = .ok w ∧ w.value = truncate q) ∨
    ¬ t.Holds (truncate q) ∧ ∃ fault, calculation = .error fault ∧
      fault.message = s!"{truncate q} does not fit in {t.name}"

theorem truncates_narrow (t : IntegerType) (q : Rat) :
    Truncates (narrow (truncate q) : Except Fault (FixedInt t)) q := by
  rcases narrow_cases t (truncate q) with ⟨w, hw, hvalue⟩ | ⟨herror, hrange⟩
  · exact .inl ⟨w, hw, hvalue⟩
  · exact .inr ⟨hrange, _, herror, rfl⟩

/-- Exact calculation with numbers of an integer type. -/
structure ScalingLaws (t : IntegerType) : Prop where
  scale : ∀ (v : FixedInt t) (m : Magnitude) (r : Ratio), m.toRatio? = .ok (some r) →
    Truncates (v.scale m) (v.value * r.value)
  addRatio : ∀ (v : FixedInt t) (r : Ratio), Truncates (v.addRatio r) (v.value + r.value)
  /-- In wide words the results are the same, so no wide word overflows. -/
  scale_wide : ∀ (v : FixedInt t) (m : Magnitude) (r : Ratio), m.toRatio? = .ok (some r) →
    v.scaleWide r.words = v.scale m
  addRatio_wide : ∀ (v : FixedInt t) (r : Ratio), v.addWide r.words = v.addRatio r
  scale_mono : ∀ (v w x y : FixedInt t) (m : Magnitude) (r : Ratio), m.toRatio? = .ok (some r) →
    v.value ≤ w.value → v.scale m = .ok x → w.scale m = .ok y → x.value ≤ y.value
  addRatio_mono : ∀ (v w x y : FixedInt t) (r : Ratio), v.value ≤ w.value →
    v.addRatio r = .ok x → w.addRatio r = .ok y → x.value ≤ y.value

theorem scaling_laws (t : IntegerType) : ScalingLaws t where
  scale v m r hm := by
    rw [scale_eq hm]
    exact truncates_narrow t _
  addRatio v r := by
    rw [addRatio_eq]
    exact truncates_narrow t _
  scale_wide v m r hm := by
    rw [scaleWide_words, FixedInt.scale, hm]
    rfl
  addRatio_wide v r := v.addWide_words r
  scale_mono v w x y m r hm hvw hx hy := by
    rw [scale_eq hm, narrow_eq_ok] at hx hy
    rw [hx, hy]
    have hle : (v.value : Rat) ≤ w.value := by exact_mod_cast hvw
    exact truncate_mono (mul_le_mul_of_nonneg_right hle (Magnitude.toRatio?_nonneg hm))
  addRatio_mono v w x y r hvw hx hy := by
    rw [addRatio_eq, narrow_eq_ok] at hx hy
    rw [hx, hy]
    have hle : (v.value : Rat) ≤ w.value := by exact_mod_cast hvw
    exact truncate_mono (by linarith)

/-- Minus fifteen hundred thousandths are minus one, rounded up, and the largest word has no successor. -/
theorem scaling_laws_thousandth : ∃ m, Magnitude.fraction 1 1000 = .ok m ∧
    (∃ w, (⟨-1500, by decide⟩ : FixedInt .int32).scale m = .ok w ∧ w.value = -1) ∧
    ∃ fault, (⟨18446744073709551615, by decide⟩ : FixedInt .word64).addRatio .one = .error fault ∧
      fault.message = "18446744073709551616 does not fit in u64" := by
  obtain ⟨_, hresults⟩ := exists_eq_ok (show (do
    let m ← Magnitude.fraction 1 1000
    let r ← m.toRatio?
    if r.map Ratio.value = some (1 / 1000) then .ok () else .error .overflow).isOk = true by
      decide +kernel)
  simp only [bind_eq_ok, guard_eq_ok] at hresults
  obtain ⟨m, hm, ratio, hratio, hvalue⟩ := hresults
  obtain ⟨r, rfl, hr⟩ := Option.map_eq_some_iff.mp hvalue
  refine ⟨m, hm, ?_, ?_⟩
  · have hexact := (scaling_laws .int32).scale ⟨-1500, by decide⟩ m r hratio
    have hround : truncate (((-1500 : Int) : Rat) * r.value) = -1 := by
      rw [hr]
      decide +kernel
    rcases hexact with ⟨w, hw, hvalue⟩ | ⟨hrange, -⟩
    · exact ⟨w, hw, hvalue.trans hround⟩
    · rw [hround] at hrange
      exact absurd (show IntegerType.Holds .int32 (-1) by decide) hrange
  · have hexact := (scaling_laws .word64).addRatio ⟨18446744073709551615, by decide⟩ .one
    have hround : truncate (((18446744073709551615 : Int) : Rat) + Ratio.one.value) =
        18446744073709551616 := by decide +kernel
    rcases hexact with ⟨w, -, hvalue⟩ | ⟨-, fault, herror, hmessage⟩
    · rw [hround] at hvalue
      exact absurd (hvalue ▸ w.holds) (by decide)
    · rw [hround] at hmessage
      exact ⟨fault, herror, hmessage.trans (by decide)⟩

end FixedInt

end Metrology
