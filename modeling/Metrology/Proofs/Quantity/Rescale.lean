import Metrology.Proofs.Magnitude.ToRatio
import Metrology.Proofs.MeasureUnit.Exact
import Metrology.Quantity
import Metrology.Representation.FixedInt

/-!
# Conversion of whole numbers

A whole number of one unit is converted by an integral factor without rounding as long as the factor is a
ratio: the result is the exact product, or a fault if the product does not fit the type. A larger factor
is still integral but no ratio, and the conversion falls back to floating point. It then has a result for
every number, and from `2 ^ 64` on the result is wrong for every number but zero.
-/

namespace Metrology

theorem Ratio.num_of_value {r : Ratio} {n : Nat} (h : r.value = n) : r.num = n := by
  rw [num, h, Rat.num_natCast]

namespace FixedInt

variable {t : IntegerType} {n : Int} {v w : FixedInt t}

@[ext] theorem ext (h : v.value = w.value) : v = w := by
  cases v
  cases w
  simp_all

/-- A number that is checked to fit is kept as it is. -/
theorem dite_holds_eq_ok {fault : Fault} :
    (if h : t.Holds n then .ok ⟨n, h⟩ else .error fault : Except Fault (FixedInt t)) = .ok w ↔
      w.value = n := by
  by_cases hholds : t.Holds n
  · rw [dif_pos hholds, Except.ok.injEq]
    constructor
    · rintro rfl
      rfl
    · intro h
      exact ext h.symm
  · rw [dif_neg hholds]
    simp only [reduceCtorEq, false_iff]
    intro h
    exact hholds (h ▸ w.holds)

@[simp] theorem narrow_eq_ok : narrow n = .ok w ↔ w.value = n := dite_holds_eq_ok

@[simp] theorem checked_eq_ok {operation : WordOperation} :
    checked operation n = .ok w ↔ w.value = n := dite_holds_eq_ok

/-- The exact number, or a fault that names it. -/
theorem narrow_cases (t : IntegerType) (n : Int) :
    (∃ w : FixedInt t, narrow n = .ok w ∧ w.value = n) ∨
      (narrow n : Except Fault (FixedInt t)) = .error (.doesNotFit n t.name) ∧ ¬ t.Holds n := by
  by_cases hholds : t.Holds n
  · exact .inl ⟨⟨n, hholds⟩, dif_pos hholds, rfl⟩
  · exact .inr ⟨dif_neg hholds, hholds⟩

theorem scale_ratio {f : Magnitude} {r : Ratio} (hf : f.toRatio? = .ok (some r)) {k : Nat}
    (hr : r.value = k) : v.scale f = narrow (v.value * k) := by
  have hden : r.den = 1 := by
    rw [Ratio.den, hr, Rat.den_natCast]
  unfold scale
  rw [hf]
  show narrow ((v.value * r.num).tdiv r.den) = _
  rw [Ratio.num_of_value hr, hden, Nat.cast_one, Int.tdiv_one]

end FixedInt

theorem IntegerType.Holds.natAbs_lt {t : IntegerType} {n : Int} (h : t.Holds n) :
    n.natAbs < 2 ^ 64 := by
  obtain ⟨hlow, hhigh⟩ := h
  cases t <;> simp only [low, high, isSigned, count] at hlow hhigh <;> omega

/-- Conversion by an integral factor, which stands for the number `k`. -/
theorem rescale_integral {a b : MeasureUnit} {f : Magnitude} (hf : a.conversionFactor b = .ok f)
    (hintegral : f.isIntegral = true) (hpositive : PowerProduct.Over MagnitudeBase.IsPositive f)
    {k : Nat} (hk : f.number = k) {t : IntegerType} (v : FixedInt t) :
    rescale a b v = if k < 2 ^ 63 then FixedInt.narrow (v.value * k)
      else .ok (.ofFloat (v.toFloat * f.toFloat)) := by
  unfold rescale
  rw [hf]
  show (if PowerProduct.isOne f then pure v else FixedInt.scale v f) = _
  by_cases hone : PowerProduct.isOne f
  · obtain rfl := PowerProduct.isOne_iff.mp hone
    obtain rfl : k = 1 := by simpa using hk.symm
    rw [if_pos hone, if_pos (by norm_num), Nat.cast_one, mul_one]
    exact (FixedInt.narrow_eq_ok.mpr rfl).symm
  · rw [if_neg hone]
    have hratio := Magnitude.toRatio?_integral hintegral hpositive hk
    by_cases hfits : k < 2 ^ 63
    · rw [if_pos hfits] at hratio ⊢
      obtain ⟨r, hr, hvalue⟩ := hratio
      exact FixedInt.scale_ratio hr hvalue
    · rw [if_neg hfits] at hratio ⊢
      unfold FixedInt.scale
      rw [hratio]
      rfl

/-- An integral conversion is exact or refused as long as the factor is below `2 ^ 63`, and never refused
from there on. -/
theorem integral_conversion {a b : MeasureUnit} {f : Magnitude} (ha : a.Exact) (hb : b.Exact)
    (hf : a.conversionFactor b = .ok f) (hintegral : f.isIntegral = true) :
    ∃ k : Nat, 0 < k ∧ f.number = k ∧ ∀ (t : IntegerType) (v : FixedInt t),
      (k < 2 ^ 63 → (∃ w, rescale a b v = .ok w ∧ w.value = v.value * k) ∨
        rescale a b v = .error (.doesNotFit (v.value * k) t.name) ∧ ¬ t.Holds (v.value * k)) ∧
      (2 ^ 63 ≤ k → rescale a b v = .ok (.ofFloat (v.toFloat * f.toFloat))) ∧
      (2 ^ 64 ≤ k → v.value ≠ 0 → ∃ w, rescale a b v = .ok w ∧ w.value ≠ v.value * k) := by
  have hpositive := (ha.factor_regular hb hf).positive
  obtain ⟨k, hkpos, hk⟩ := Magnitude.number_integral hintegral hpositive
  refine ⟨k, hkpos, hk, fun t v => ?_⟩
  have hrescale := rescale_integral hf hintegral hpositive hk v
  refine ⟨fun hfits => ?_, fun hlarge => ?_, fun hlarge hv => ?_⟩
  · rw [hrescale, if_pos hfits]
    exact FixedInt.narrow_cases t (v.value * k)
  · rw [hrescale, if_neg (by omega)]
  · refine ⟨_, by rw [hrescale, if_neg (by omega)], fun hexact => ?_⟩
    have hbound := (FixedInt.ofFloat (v.toFloat * f.toFloat) : FixedInt t).holds.natAbs_lt
    rw [hexact, Int.natAbs_mul, Int.natAbs_natCast] at hbound
    have hle : k ≤ v.value.natAbs * k := Nat.le_mul_of_pos_left k (Int.natAbs_pos.mpr hv)
    omega

/-! ### Prefixed metres -/

open Catalog in
/-- A thousand metres are counted exactly; a number of quettametres, if it is not zero, never is. -/
theorem integral_conversion_metres : ∃ kilometre quettametre,
    MeasureUnit.withScale (.decimal .kilo) Si.metre = .ok kilometre ∧
    MeasureUnit.withScale (.decimal .quetta) Si.metre = .ok quettametre ∧
    (∀ (t : IntegerType) (v : FixedInt t),
      (∃ w, rescale kilometre Si.metre v = .ok w ∧ w.value = v.value * 1000) ∨
        rescale kilometre Si.metre v = .error (.doesNotFit (v.value * 1000) t.name) ∧
          ¬ t.Holds (v.value * 1000)) ∧
    ∀ (t : IntegerType) (v : FixedInt t), v.value ≠ 0 →
      ∃ w, rescale quettametre Si.metre v = .ok w ∧ w.value ≠ v.value * 10 ^ 30 := by
  obtain ⟨_, hresults⟩ := exists_eq_ok (show (do
    let kilometre ← MeasureUnit.withScale (.decimal .kilo) Si.metre
    let quettametre ← MeasureUnit.withScale (.decimal .quetta) Si.metre
    let f ← kilometre.conversionFactor Si.metre
    let g ← quettametre.conversionFactor Si.metre
    if f.isIntegral ∧ f.number = 1000 ∧ g.isIntegral ∧ g.number = 10 ^ 30 then .ok ()
    else .error .overflow).isOk = true by decide +kernel)
  simp only [bind_eq_ok, guard_eq_ok] at hresults
  obtain ⟨kilometre, hkilometre, quettametre, hquettametre, f, hf, g, hg, hintegralF, hnumberF,
    hintegralG, hnumberG⟩ := hresults
  obtain ⟨k, -, hk, hkilo⟩ := integral_conversion (MeasureUnit.metre_exact.withScale hkilometre)
    MeasureUnit.metre_exact hf hintegralF
  obtain ⟨l, -, hl, hquetta⟩ := integral_conversion (MeasureUnit.metre_exact.withScale hquettametre)
    MeasureUnit.metre_exact hg hintegralG
  obtain rfl : k = 1000 := by exact_mod_cast hk.symm.trans hnumberF
  obtain rfl : l = 10 ^ 30 := by exact_mod_cast hl.symm.trans hnumberG
  refine ⟨kilometre, quettametre, hkilometre, hquettametre, fun t v => ?_, fun t v hv => ?_⟩
  · exact (hkilo t v).1 (by norm_num)
  · exact (hquetta t v).2.2 (by norm_num) hv

open Catalog in
/-- One quettametre, converted by an integral factor, is not the number of metres it has: the result is
the largest number of the type. -/
theorem quettametre_saturates : ∃ quettametre f,
    MeasureUnit.withScale (.decimal .quetta) Si.metre = .ok quettametre ∧
    quettametre.conversionFactor Si.metre = .ok f ∧ f.isIntegral = true ∧ f.number = 10 ^ 30 ∧
    rescale quettametre Si.metre (⟨1, by decide⟩ : FixedInt .int64) =
      .ok ⟨9223372036854775807, by decide⟩ := by
  obtain ⟨_, hresults⟩ := exists_eq_ok (show (do
    let quettametre ← MeasureUnit.withScale (.decimal .quetta) Si.metre
    let f ← quettametre.conversionFactor Si.metre
    let w ← rescale quettametre Si.metre (⟨1, of_decide_eq_true rfl⟩ : FixedInt .int64)
    if f.isIntegral ∧ f.number = 10 ^ 30 ∧ w.value = 9223372036854775807 then .ok ()
    else .error .overflow).isOk = true by decide +kernel)
  simp only [bind_eq_ok, guard_eq_ok] at hresults
  obtain ⟨quettametre, hquettametre, f, hf, w, hw, hintegral, hnumber, hvalue⟩ := hresults
  have hresult : w = ⟨9223372036854775807, by decide⟩ := FixedInt.ext hvalue
  exact ⟨quettametre, f, hquettametre, hf, hintegral, hnumber, hresult ▸ hw⟩

end Metrology
