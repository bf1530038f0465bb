import Metrology.Proofs.Magnitude.OfRatio

/-!
# What a magnitude stands for

A magnitude stands for a product of real powers, once the named constants are given values. Nothing is
assumed about these values, so a magnitude is a rational number only if it is the same rational number
for all of them. A magnitude that is built is so exactly if it consists of whole powers of primes: a
constant could be varied, and a fractional power of a prime would give that prime a fractional
valuation.
-/

namespace Metrology

def MagnitudeBase.IsGenuine : MagnitudeBase → Prop
  | .prime p => p.Prime
  | .constant _ => True

/-- The number an atom stands for, given the values of the constants. -/
noncomputable def MagnitudeBase.real (values : String → ℝ) : MagnitudeBase → ℝ
  | .prime p => p
  | .constant c => values c.symbol.unicode

namespace Magnitude

open PowerProduct hiding mul_comm mul_pow

variable {m a b : Magnitude} {q : Rat}

/-! ### The primes of built magnitudes -/

/-- A property of the constants and of all 64-bit primes is one of everything in a magnitude. -/
theorem Built.over {S : MagnitudeBase → Prop} (hprime : ∀ p, p.Prime → p < 2 ^ 63 → S (.prime p))
    (hconstant : ∀ c, S (.constant c)) (h : m.Built) : Over S m := by
  have hofNat {n : Nat} {a : Magnitude} (hn : 0 < n) (hn' : n < 2 ^ 63) (ha : ofNat n = .ok a) :
      Over S a := by
    intro t ht
    obtain ⟨p, hp, hfactor⟩ := over_ofNat hn ha t ht
    rw [hfactor]
    exact hprime p (Nat.prime_of_mem_primeFactors hp) ((Nat.le_of_mem_primeFactors hp).trans_lt hn')
  induction h with
  | @ofRatio r m h =>
    unfold Magnitude.ofRatio at h
    by_cases hr : r.isPositive
    · rw [if_pos hr] at h
      obtain ⟨n, hn, hpos, hlimit⟩ := Ratio.exists_num (Ratio.isPositive_iff.mp hr)
      obtain ⟨a, ha, h⟩ := bind_eq_ok.mp h
      obtain ⟨b, hb, hdiv⟩ := bind_eq_ok.mp h
      rw [hn, Int.toNat_natCast] at ha
      exact over_div (hofNat hpos hlimit ha) (hofNat r.value.den_pos r.den_lt hb) hdiv
    · rw [if_neg hr] at h
      cases h
  | @constant c m h =>
    have hterm : mulTerm one ⟨MagnitudeBase.constant c, .one⟩ = .ok m := h
    exact over_mulTerm over_nil (hconstant c) hterm
  | mul _ _ h ha hb => exact over_mul ha hb h
  | div _ _ h ha hb => exact over_div ha hb h
  | pow _ h ha => exact over_pow ha h
  | common _ _ h ha hb => exact over_common ha hb h

theorem Built.genuine (h : m.Built) : Over MagnitudeBase.IsGenuine m :=
  h.over (fun _ hp _ => hp) fun _ => trivial

theorem Built.prime_lt (h : m.Built) {t : Term MagnitudeBase} (ht : t ∈ m) {p : Nat}
    (hp : t.factor = .prime p) : p < 2 ^ 63 :=
  h.over (S := fun f => ∀ p, f = .prime p → p < 2 ^ 63)
    (fun _ _ hlt _ hq => MagnitudeBase.prime.inj hq ▸ hlt) (fun _ _ hq => nomatch hq) t ht p hp

/-! ### The value -/

/-- The product of the real powers of the atoms. -/
noncomputable def real (values : String → ℝ) (m : Magnitude) : ℝ :=
  (m.map fun t => t.factor.real values ^ (t.power.value : ℝ)).prod

/-- The magnitude is exactly `q`, whatever positive numbers the constants stand for. -/
def Denotes (m : Magnitude) (q : Rat) : Prop :=
  ∀ values : String → ℝ, (∀ s, 0 < values s) → m.real values = q

@[simp] theorem real_nil (values : String → ℝ) : real values [] = 1 := rfl

@[simp] theorem real_cons (values : String → ℝ) (t : Term MagnitudeBase) (m : Magnitude) :
    real values (t :: m) = t.factor.real values ^ (t.power.value : ℝ) * real values m := by
  simp [real]

/-- Whole powers of primes do not depend on the constants. -/
theorem real_of_isRational (hm : m.isRational = true) (values : String → ℝ) :
    m.real values = m.number := by
  have hterms := isRational_iff.mp hm
  clear hm
  induction m with
  | nil => simp
  | cons t m ih =>
    rw [List.forall_mem_cons] at hterms
    obtain ⟨⟨hprime, hwhole⟩, hrest⟩ := hterms
    have hpower : (t.power.value : ℝ) = (t.power.num : ℝ) := by
      rw [← hwhole]
      push_cast
      rfl
    have hfactor : t.factor.real values = (t.factor.number : ℝ) := by
      cases hf : t.factor with
      | prime p => rfl
      | constant c =>
        rw [hf] at hprime
        cases hprime
    rw [real_cons, number_cons, ih hrest, hfactor, hpower, Real.rpow_intCast]
    push_cast
    rfl

theorem real_pos {values : String → ℝ} (hvalues : ∀ s, 0 < values s)
    (hm : Over MagnitudeBase.IsGenuine m) : 0 < m.real values := by
  induction m with
  | nil => exact one_pos
  | cons t m ih =>
    rw [over_cons] at hm
    have hfactor : 0 < t.factor.real values := by
      cases hf : t.factor with
      | prime p =>
        have hprime := hm.1
        rw [hf] at hprime
        exact Nat.cast_pos.mpr hprime.pos
      | constant c => exact hvalues _
    rw [real_cons]
    exact mul_pos (Real.rpow_pos_of_pos hfactor _) (ih hm.2)

/-! ### Constants -/

/-- Values that tell one constant from all others. -/
noncomputable def marked (name : String) : String → ℝ := fun s => if s = name then 2 else 1

theorem marked_pos (name s : String) : 0 < marked name s := by
  unfold marked
  split
  · exact two_pos
  · exact one_pos

theorem real_marked (hm : Sorted m) (c : Constant) :
    m.real (marked c.symbol.unicode) =
      2 ^ ((m.powerOf (.constant c)).value : ℝ) * m.real fun _ => 1 := by
  induction m with
  | nil => simp [powerOf]
  | cons t m ih =>
    have hrest := ih (sorted_cons.mp hm).2
    rw [real_cons, real_cons, powerOf_cons, hrest]
    by_cases htc : Atom.cmp t.factor (.constant c) = .eq
    · have hzero : powerOf m (MagnitudeBase.constant c) = .zero :=
        powerOf_eq_zero (ne_of_head_eq MagnitudeBase.orderedOn trivial (over_all m) trivial
          (sorted_cons.mp hm).1 htc)
      cases hfactor : t.factor with
      | prime p =>
        rw [hfactor] at htc
        cases htc
      | constant d =>
        rw [hfactor] at htc
        have hname : d.symbol.unicode = c.symbol.unicode := compareText_eq_iff.mp htc
        have htwo : (MagnitudeBase.constant d).real (marked c.symbol.unicode) = 2 := if_pos hname
        have hone : (MagnitudeBase.constant d).real (fun _ => 1) = 1 := rfl
        rw [if_pos htc, hzero, htwo, hone]
        simp
    · have hsame : t.factor.real (marked c.symbol.unicode) = t.factor.real fun _ => 1 := by
        cases hfactor : t.factor with
        | prime p => rfl
        | constant d =>
          rw [hfactor] at htc
          exact if_neg fun hname => htc (compareText_eq_iff.mpr hname)
      rw [if_neg htc, hsame]
      ring

/-- A magnitude that is a rational number has no constants. -/
theorem powerOf_constant_of_denotes (hm : Sorted m) (hgenuine : Over MagnitudeBase.IsGenuine m)
    (h : m.Denotes q) (c : Constant) : (m.powerOf (.constant c)).value = 0 := by
  have hpos : 0 < m.real fun _ => 1 := real_pos (fun _ => one_pos) hgenuine
  have htwo : (2 : ℝ) ^ ((m.powerOf (.constant c)).value : ℝ) = 2 ^ (0 : ℝ) := by
    have hequal := (h _ (marked_pos c.symbol.unicode)).trans (h _ fun _ => one_pos).symm
    rw [real_marked hm] at hequal
    rw [Real.rpow_zero]
    exact mul_right_cancel₀ hpos.ne' (hequal.trans (one_mul _).symm)
  have hexponent := (Real.rpow_right_inj two_pos (by norm_num)).mp htwo
  exact_mod_cast hexponent

/-! ### Fractional powers -/

/-- The product of the primes to `D` times their powers, `D` being a common denominator. -/
def scaled (D : Nat) (m : Magnitude) : Rat :=
  (m.map fun t : Term MagnitudeBase => (t.factor.number : Rat) ^ (t.power.value * D).num).prod

@[simp] theorem scaled_cons (D : Nat) (t : Term MagnitudeBase) (m : Magnitude) :
    scaled D (t :: m) = (t.factor.number : Rat) ^ (t.power.value * D).num * scaled D m := by
  simp [scaled]

theorem scaled_pos {D : Nat} (hm : Over MagnitudeBase.IsPositive m) : 0 < scaled D m := by
  induction m with
  | nil => exact one_pos
  | cons t m ih =>
    rw [over_cons] at hm
    rw [scaled_cons]
    exact mul_pos (zpow_pos (Nat.cast_pos.mpr hm.1.number_pos) _) (ih hm.2)

/-- A common denominator makes all powers whole. -/
theorem real_pow_scaled {D : Nat} (hD : ∀ t ∈ m, ((t.power.value * D).num : Rat) = t.power.value * D) :
    (m.real fun _ => 1) ^ D = scaled D m := by
  induction m with
  | nil => simp [scaled]
  | cons t m ih =>
    rw [List.forall_mem_cons] at hD
    have hfactor : t.factor.real (fun _ => 1) = (t.factor.number : ℝ) := by
      cases t.factor with
      | prime p => rfl
      | constant c => exact Nat.cast_one.symm
    have hpower : (t.power.value : ℝ) * D = ((t.power.value * D).num : ℝ) := by
      exact_mod_cast hD.1.symm
    rw [real_cons, mul_pow, ih hD.2, hfactor, scaled_cons, ← Real.rpow_natCast,
      ← Real.rpow_mul (Nat.cast_nonneg _), hpower, Real.rpow_intCast]
    push_cast
    rfl

theorem padicValRat_scaled {D p : Nat} [Fact p.Prime] (hm : Sorted m)
    (hgenuine : Over MagnitudeBase.IsGenuine m) (hpositive : Over MagnitudeBase.IsPositive m) :
    padicValRat p (scaled D m) = ((m.powerOf (.prime p)).value * D).num := by
  induction m with
  | nil => simp [scaled, powerOf]
  | cons t m ih =>
    have hfirst := sorted_cons.mp hm
    rw [over_cons] at hgenuine hpositive
    have hnumber : (t.factor.number : Rat) ≠ 0 := Nat.cast_ne_zero.mpr hpositive.1.number_pos.ne'
    rw [scaled_cons, padicValRat.mul (zpow_ne_zero _ hnumber) (scaled_pos hpositive.2).ne',
      padicValRat.zpow _ , ih hfirst.2 hgenuine.2 hpositive.2]
    cases t with
    | mk factor power =>
      cases factor with
      | constant c =>
        rw [powerOf_prime_cons_constant]
        simp [MagnitudeBase.number]
      | prime r =>
        rw [powerOf_prime_cons_prime]
        by_cases hrp : r = p
        · subst hrp
          rw [if_pos rfl, powerOf_first hm]
          simp [MagnitudeBase.number]
        · have hr : Fact r.Prime := ⟨hgenuine.1⟩
          rw [if_neg hrp]
          simp [MagnitudeBase.number, padicValNat_primes (Ne.symm hrp)]

/-- A number that all powers can be multiplied by to become whole. -/
def commonDenominator (m : Magnitude) : Nat := (m.map fun t => t.power.den).prod

theorem commonDenominator_pos (m : Magnitude) : 0 < m.commonDenominator := by
  apply List.prod_pos
  intro d hd
  obtain ⟨t, -, rfl⟩ := List.mem_map.mp hd
  exact t.power.value.den_pos

theorem whole_commonDenominator {t : Term MagnitudeBase} (ht : t ∈ m) :
    ((t.power.value * m.commonDenominator).num : Rat) = t.power.value * m.commonDenominator := by
  obtain ⟨k, hk⟩ : t.power.den ∣ m.commonDenominator :=
    List.dvd_prod (List.mem_map.mpr ⟨t, ht, rfl⟩)
  have hden : (t.power.value.den : Rat) ≠ 0 := Nat.cast_ne_zero.mpr t.power.value.den_nz
  have hwhole : t.power.value * m.commonDenominator = (t.power.value.num * k : Int) := by
    rw [hk, Ratio.den]
    push_cast
    nth_rewrite 1 [← Rat.num_div_den t.power.value]
    field_simp
  rw [hwhole, Rat.num_intCast]

/-- The power of a prime in a magnitude that is a rational number is the valuation of that number. -/
theorem powerOf_prime_of_denotes (hm : m.Regular) (hgenuine : Over MagnitudeBase.IsGenuine m)
    (h : m.Denotes q) {p : Nat} (hp : p.Prime) :
    (m.powerOf (.prime p)).value = padicValRat p q := by
  have : Fact p.Prime := ⟨hp⟩
  set D := m.commonDenominator
  have hD : (D : Rat) ≠ 0 := Nat.cast_ne_zero.mpr (commonDenominator_pos m).ne'
  have hpower : q ^ D = scaled D m := by
    have hreal := real_pow_scaled fun t ht => whole_commonDenominator (m := m) ht
    rw [h _ fun _ => one_pos] at hreal
    exact_mod_cast hreal
  have hvaluation : (D : Int) * padicValRat p q = ((m.powerOf (.prime p)).value * D).num := by
    rw [← padicValRat_scaled hm.canonical.sorted hgenuine hm.positive, ← hpower, padicValRat.pow]
  have hwhole : (((m.powerOf (.prime p)).value * D).num : Rat) = (m.powerOf (.prime p)).value * D := by
    rcases powerOf_cases m (.prime p) with hzero | ⟨t, ht, -, hpower⟩
    · rw [hzero]
      simp
    · rw [hpower]
      exact whole_commonDenominator ht
  have hproduct : (D : Rat) * padicValRat p q = D * (m.powerOf (.prime p)).value := by
    rw [mul_comm (D : Rat) (m.powerOf (.prime p)).value, ← hwhole, ← hvaluation]
    push_cast
    rfl
  exact (mul_left_cancel₀ hD hproduct).symm

theorem powerOf_not_prime (hgenuine : Over MagnitudeBase.IsGenuine m) {p : Nat} (hp : ¬ p.Prime) :
    m.powerOf (.prime p) = .zero := by
  apply powerOf_eq_zero
  intro t ht htp
  have hprime := hgenuine t ht
  cases hfactor : t.factor with
  | constant c =>
    rw [hfactor] at htp
    cases htp
  | prime r =>
    rw [hfactor] at hprime htp
    exact hp (Nat.compare_eq_eq.mp htp ▸ hprime)

/-- A magnitude is the rational number `q` exactly if it consists of whole powers of primes and their
product is `q`. -/
theorem denotes_iff (hm : m.Built) : m.Denotes q ↔ m.isRational = true ∧ m.number = q := by
  have hregular := hm.regular
  have hgenuine := hm.genuine
  constructor
  · intro h
    have hrational : m.isRational = true := by
      refine (isRational_iff_powerOf hregular.canonical).mpr fun b => ?_
      cases b with
      | prime p =>
        refine ⟨?_, fun hprime => by cases hprime⟩
        by_cases hp : p.Prime
        · rw [Ratio.num, powerOf_prime_of_denotes hregular hgenuine h hp, Rat.num_intCast]
        · rw [powerOf_not_prime hgenuine hp]
          rfl
      | constant c =>
        have hzero := powerOf_constant_of_denotes hregular.canonical.sorted hgenuine h c
        refine ⟨?_, fun _ => hzero⟩
        rw [Ratio.num, hzero]
        rfl
    have hreal := h _ fun _ => one_pos
    rw [real_of_isRational hrational] at hreal
    exact ⟨hrational, by exact_mod_cast hreal⟩
  · rintro ⟨hrational, rfl⟩ values -
    exact real_of_isRational hrational values

end Magnitude

end Metrology
