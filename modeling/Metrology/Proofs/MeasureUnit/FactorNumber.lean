import Metrology.Proofs.Magnitude.Checked
import Metrology.Proofs.MeasureUnit.GreatestCommonUnit

/-!
# The numbers of conversion factors

Between exact units, the powers of conversion factors add up along a chain of conversions, and those of the
two ways between two units are opposite. So the factors of a chain are rational together, the numbers they
stand for multiply, and the number of the way back is the inverse. It reads as a ratio if the number of the
way there is whole and does.
-/

namespace Metrology

namespace Magnitude

variable {f g h m : Magnitude} {b : MagnitudeBase} {p q : Rat} {r : Ratio}

theorem IsExponent.add (hp : IsExponent b p) (hq : IsExponent b q) : IsExponent b (p + q) := by
  refine ⟨?_, fun hb => ?_⟩
  · rw [← hp.1, ← hq.1, ← Int.cast_add, Rat.num_intCast]
  · rw [hp.2 hb, hq.2 hb, add_zero]

theorem isRational_iff_exponents (hm : m.Regular) :
    m.isRational = true ↔ ∀ b, IsExponent b (m.powerOf b).value :=
  isRational_iff_powerOf hm.canonical

section Opposite

variable (hf : f.Regular) (hg : g.Regular) (hrational : g.isRational = true)
  (hpowers : ∀ b, (f.powerOf b).value = -(g.powerOf b).value)

include hf hg hrational hpowers

theorem isRational_of_neg : f.isRational = true := by
  rw [isRational_iff_exponents hg] at hrational
  refine (isRational_iff_exponents hf).mpr fun b => ?_
  rw [hpowers]
  exact (hrational b).neg

/-- Opposite powers give inverse numbers. -/
theorem number_mul_of_neg : f.number * g.number = 1 := by
  have hone : Regular [] := ⟨PowerProduct.canonical_one, PowerProduct.over_nil⟩
  have hrationalF := isRational_of_neg hf hg hrational hpowers
  rw [← number_of_powers hone hf hg hrationalF hrational, number_nil]
  intro b
  rw [hpowers b, neg_add_cancel]
  rfl

end Opposite

/-- A magnitude that reads as a ratio stands for it. -/
theorem value_of_toRatio? (hm : m.Regular) (h : m.toRatio? = .ok (some r)) : r.value = m.number := by
  have hnegatable : m.Negatable := by
    rcases toRatio?_attains hm.positive with ⟨x, hx, hsome⟩ | ⟨herror, -⟩
    · exact hsome (Except.ok.inj (hx.symm.trans h) ▸ rfl)
    · rw [herror] at h
      cases h
  have hratio := toRatio?_eq (isRational_of_toRatio? h) hm.positive (exists_abs hnegatable)
  split at hratio
  · obtain ⟨r', hr', hvalue⟩ := hratio
    obtain rfl := Option.some.inj (Except.ok.inj (h.symm.trans hr'))
    exact hvalue
  · cases h.symm.trans hratio

theorem part_true_eq_one (h : ∀ t ∈ m, t.power.value ≤ 0) : part true m = 1 := by
  unfold part
  apply List.prod_eq_one
  intro n hn
  obtain ⟨t, ht, rfl⟩ := List.mem_map.mp hn
  exact (@termPart_of_sign false t (Ratio.isPositive_eq_false_iff.mpr (h t ht))).2

/-- The inverse of a whole number reads as a ratio if the number does. -/
theorem toRatio?_inverse (hf : f.Regular) (hg : g.Regular) (hintegral : g.isIntegral = true)
    (hpowers : ∀ b, (f.powerOf b).value = -(g.powerOf b).value) {n : Nat} (hn : g.number = n)
    (hfits : n < 2 ^ 63) : ∃ r, f.toRatio? = .ok (some r) ∧ r.value = (n : Rat)⁻¹ := by
  have hrational := (isIntegral_iff.mp hintegral).1
  have hpower {t : Term MagnitudeBase} (ht : t ∈ f) :
      t.power.value = -(g.powerOf t.factor).value := by
    rw [← hpowers, PowerProduct.powerOf_of_mem MagnitudeBase.orderedOn f.over_all hf.canonical.sorted ht]
  have hnumber : f.number = (n : Rat)⁻¹ :=
    eq_inv_of_mul_eq_one_left (hn ▸ number_mul_of_neg hf hg hrational hpowers)
  have htrue : part true f = 1 := by
    apply part_true_eq_one
    intro t ht
    rw [hpower ht, neg_nonpos]
    exact ((isIntegral_iff_exponents hg.canonical).mp hintegral t.factor).2
  have hfalse : part false f = n := by
    rw [number_eq_parts, htrue, Nat.cast_one, one_div, inv_inj] at hnumber
    exact Nat.cast_injective hnumber
  -- only the smallest numerator has no negation, and it is the opposite of none
  have hnegatable : f.Negatable := by
    intro t ht
    have hlarge := (g.powerOf t.factor).fits.1.2
    unfold Ratio.Negatable Ratio.num
    rw [hpower ht, Rat.neg_num]
    omega
  have hratio := toRatio?_eq (isRational_of_neg hf hg hrational hpowers) hf.positive
    (exists_abs hnegatable)
  rw [htrue, hfalse, if_pos ⟨by norm_num, hfits⟩, hnumber] at hratio
  exact hratio

end Magnitude

namespace MeasureUnit

variable {a b c : MeasureUnit} {f g h : Magnitude}

/-- The powers of a conversion factor are the differences of those of the units. -/
theorem Exact.powerOf_factor (ha : a.Exact) (hb : b.Exact) {x y : CanonicalUnit}
    (hx : a.canonical = .ok x) (hy : b.canonical = .ok y) (hf : a.conversionFactor b = .ok f)
    (base : MagnitudeBase) : (f.powerOf base).value =
      (x.magnitude.powerOf base).value - (y.magnitude.powerOf base).value :=
  (ha.regular hx).powerOf_div (hb.regular hy) (factor_of_canonical hx hy hf).2 base

theorem Exact.powerOf_back (ha : a.Exact) (hb : b.Exact) (hf : a.conversionFactor b = .ok f)
    (hg : b.conversionFactor a = .ok g) (base : MagnitudeBase) :
    (g.powerOf base).value = -(f.powerOf base).value := by
  obtain ⟨x, y, hx, hy, -⟩ := conversionFactor_eq_ok.mp hf
  rw [ha.powerOf_factor hb hx hy hf, hb.powerOf_factor ha hy hx hg, neg_sub]

/-- A unit is converted to another one by a factor that reads as a ratio. -/
def Converts (a b : MeasureUnit) (q : Ratio) : Prop :=
  ∃ f, a.conversionFactor b = .ok f ∧ f.toRatio? = .ok (some q)

/-- A unit is a whole number of units of another one, and the number reads as a ratio. -/
def Counts (a b : MeasureUnit) (k : Ratio) : Prop :=
  ∃ f, a.conversionFactor b = .ok f ∧ f.isIntegral = true ∧ f.toRatio? = .ok (some k)

section Chain

variable (ha : a.Exact) (hb : b.Exact) (hc : c.Exact) (hf : a.conversionFactor b = .ok f)
  (hg : b.conversionFactor c = .ok g) (hh : a.conversionFactor c = .ok h)

include ha hb hc hf hg hh

theorem Exact.powerOf_chain (base : MagnitudeBase) :
    (h.powerOf base).value = (f.powerOf base).value + (g.powerOf base).value := by
  obtain ⟨x, y, hx, hy, -⟩ := conversionFactor_eq_ok.mp hf
  obtain ⟨_, z, -, hz, -⟩ := conversionFactor_eq_ok.mp hg
  rw [ha.powerOf_factor hb hx hy hf, hb.powerOf_factor hc hy hz hg, ha.powerOf_factor hc hx hz hh]
  ring

theorem Exact.isIntegral_chain (hintegralF : f.isIntegral = true) (hintegralG : g.isIntegral = true) :
    h.isIntegral = true := by
  rw [Magnitude.isIntegral_iff_exponents (ha.factor_regular hb hf).canonical] at hintegralF
  rw [Magnitude.isIntegral_iff_exponents (hb.factor_regular hc hg).canonical] at hintegralG
  refine (Magnitude.isIntegral_iff_exponents (ha.factor_regular hc hh).canonical).mpr fun base => ?_
  rw [ha.powerOf_chain hb hc hf hg hh]
  exact ⟨(hintegralF base).1.add (hintegralG base).1, add_nonneg (hintegralF base).2 (hintegralG base).2⟩

theorem Exact.isRational_rest (hrationalF : f.isRational = true) (hrationalH : h.isRational = true) :
    g.isRational = true := by
  rw [Magnitude.isRational_iff_exponents (ha.factor_regular hb hf)] at hrationalF
  rw [Magnitude.isRational_iff_exponents (ha.factor_regular hc hh)] at hrationalH
  refine (Magnitude.isRational_iff_exponents (hb.factor_regular hc hg)).mpr fun base => ?_
  have hpower : (g.powerOf base).value = (h.powerOf base).value + -(f.powerOf base).value := by
    rw [ha.powerOf_chain hb hc hf hg hh]
    ring
  rw [hpower]
  exact (hrationalH base).add (hrationalF base).neg

theorem Exact.number_chain (hrationalF : f.isRational = true) (hrationalG : g.isRational = true) :
    h.number = f.number * g.number :=
  Magnitude.number_of_powers (ha.factor_regular hc hh) (ha.factor_regular hb hf)
    (hb.factor_regular hc hg) hrationalF hrationalG (ha.powerOf_chain hb hc hf hg hh)

end Chain

end MeasureUnit

end Metrology
