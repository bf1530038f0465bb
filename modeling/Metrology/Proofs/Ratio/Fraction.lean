import Metrology.Ratio.Fraction
import Metrology.Proofs.Ratio

/-!
# Exact arithmetic in machine words

The fractions that the arithmetic reaches are the ratios, stored as numerator and denominator in lowest
terms. So the cross products of two fractions and their sum stay within 128 bits, the greatest common
divisor among them, and reducing a wide result gives the exact value wherever a ratio has it.
-/

namespace Metrology

/-! ### Words -/

theorem word128_eq_ok {operation : WordOperation} {n : Int} (h : n.natAbs < 2 ^ 127) :
    word128 operation n = .ok n :=
  if_pos (by unfold Fits128; omega)

theorem signed128_of_lt {n : Nat} (h : n < 2 ^ 127) : signed128 n = n :=
  Int.bmod_eq_of_le (by omega) (by omega)

/-- An exact quotient needs no rounding and fits wherever the dividend does. -/
theorem divide128_of_dvd {n d : Int} (h : n.natAbs < 2 ^ 127) (hd : 0 < d) (hdvd : d ∣ n) :
    divide128 n d = .ok (n / d) := by
  have hle : (n / d).natAbs ≤ n.natAbs := by
    rw [Int.natAbs_ediv_of_dvd hdvd]
    exact Nat.div_le_self _ _
  rw [divide128, if_neg hd.ne', Int.tdiv_eq_ediv_of_dvd hdvd, word128_eq_ok (hle.trans_lt h)]

theorem commonDivisor_eq (a b : Nat) : commonDivisor a b = a.gcd b := by
  induction b using Nat.strong_induction_on generalizing a with
  | h b ih =>
    rw [commonDivisor]
    by_cases hzero : b = 0
    · rw [if_pos hzero, hzero, Nat.gcd_zero_right]
    · rw [if_neg hzero, ih (a % b) (Nat.mod_lt a (Nat.pos_of_ne_zero hzero)), Nat.gcd_comm b,
        ← Nat.gcd_rec, Nat.gcd_comm]

/-! ### Ratios in words -/

namespace Ratio

/-- A ratio as it is stored. -/
def words (r : Ratio) : Fraction := ⟨r.num, r.den⟩

theorem natAbs_num_le (r : Ratio) : r.num.natAbs ≤ 9223372036854775808 := by
  have hfits : Fits64 r.num := r.fits.1
  unfold Fits64 at hfits
  omega

theorem den_le (r : Ratio) : r.den ≤ 9223372036854775807 := by
  have hfits : Fits64 r.den := r.fits.2
  unfold Fits64 at hfits
  omega

theorem den_pos (r : Ratio) : 0 < r.den := r.value.den_pos

theorem num_eq_zero {r : Ratio} : r.num = 0 ↔ r.value = 0 := Rat.num_eq_zero

theorem value_eq_divInt (r : Ratio) : Rat.divInt r.num r.den = r.value := Rat.num_divInt_den r.value

theorem min_eq_ite (a b : Ratio) : a.min b = if b.value < a.value then b else a := by
  unfold min cmp
  by_cases hlt : b.value < a.value
  · rw [if_neg hlt.not_gt, if_pos hlt, if_pos hlt]
  · rw [if_neg hlt, if_neg hlt]
    by_cases hgt : a.value < b.value
    · rw [if_pos hgt]
    · rw [if_neg hgt]

/-! ### Cross products -/

/-- A cross product stays one bit below the limit, so that two of them can be added. -/
theorem natAbs_cross_le (a b : Ratio) :
    (a.num * b.den).natAbs ≤ 85070591730234615856620279821087277056 := by
  rw [Int.natAbs_mul, Int.natAbs_natCast]
  exact (Nat.mul_le_mul (natAbs_num_le a) (den_le b)).trans (by decide)

theorem natAbs_cross_lt (a b : Ratio) : (a.num * b.den).natAbs < 2 ^ 127 :=
  (natAbs_cross_le a b).trans_lt (by decide)

theorem natAbs_sum_lt (a b : Ratio) : (a.num * b.den + b.num * a.den).natAbs < 2 ^ 127 := by
  have hleft := natAbs_cross_le a b
  have hright := natAbs_cross_le b a
  exact (Int.natAbs_add_le _ _).trans_lt (by omega)

theorem natAbs_nums_lt (a b : Ratio) : (a.num * b.num).natAbs < 2 ^ 127 := by
  rw [Int.natAbs_mul]
  exact (Nat.mul_le_mul (natAbs_num_le a) (natAbs_num_le b)).trans_lt (by decide)

theorem natAbs_dens_lt (a b : Ratio) : ((a.den : Int) * b.den).natAbs < 2 ^ 127 := by
  rw [Int.natAbs_mul, Int.natAbs_natCast, Int.natAbs_natCast]
  exact (Nat.mul_le_mul (den_le a) (den_le b)).trans_lt (by decide)

theorem dens_ne_zero (a b : Ratio) : (a.den : Int) * b.den ≠ 0 := by
  exact_mod_cast (Nat.mul_pos (den_pos a) (den_pos b)).ne'

end Ratio

namespace Fraction

/-- The rational number that a fraction stands for. -/
def value (f : Fraction) : Rat := Rat.divInt f.num f.den

theorem value_words (r : Ratio) : r.words.value = r.value := r.value_eq_divInt

theorem words_inj {a b : Ratio} : a.words = b.words ↔ a.value = b.value := by
  constructor
  · intro h
    rw [← value_words, h, value_words]
  · intro h
    rw [Ratio.ext h]

/-- The ratio of value `q` in words, if there is one. -/
def fit? (q : Rat) : Option Fraction := (Ratio.ofRat? q).map Ratio.words

/-- Coprime terms with a positive denominator are those of the rational number. -/
theorem fitted_of_coprime {n d : Int} (hd : 0 < d) (hcoprime : n.natAbs.Coprime d.natAbs) :
    fitted (n, d) = fit? (Rat.divInt n d) := by
  have hnum : (Rat.divInt n d).num = n := by
    rw [Rat.divInt_eq_div]
    exact Rat.num_div_eq_of_coprime hd hcoprime
  have hden : ((Rat.divInt n d).den : Int) = d := by
    rw [Rat.divInt_eq_div]
    exact Rat.den_div_eq_of_coprime hd hcoprime
  unfold fitted fit? Ratio.ofRat?
  by_cases hfits : RatFits (Rat.divInt n d)
  · have hrange := hfits
    unfold RatFits Fits64 at hrange
    rw [hnum, hden] at hrange
    rw [dif_pos hfits, if_neg (by omega), Option.map_some, Ratio.words, Ratio.num, Ratio.den, hnum, hden]
  · have hrange := hfits
    unfold RatFits Fits64 at hrange
    rw [hnum, hden] at hrange
    rw [dif_neg hfits, if_pos (by omega), Option.map_none]

theorem signAbove_eq {n d : Int} (hn : n.natAbs < 2 ^ 127) (hd : d.natAbs < 2 ^ 127) (hne : d ≠ 0) :
    signAbove n d = .ok (d.sign * n, d.natAbs) := by
  unfold signAbove
  by_cases hnegative : d < 0
  · rw [if_pos hnegative, word128_eq_ok (by omega), word128_eq_ok (by omega),
      Int.sign_eq_neg_one_of_neg hnegative]
    change Except.ok (-n, -d) = _
    rw [neg_one_mul, Int.ofNat_natAbs_of_nonpos hnegative.le]
  · rw [if_neg hnegative, Int.sign_eq_one_of_pos (by omega), one_mul, Int.natAbs_of_nonneg (by omega)]

/-- Moving the sign into the numerator keeps the value. -/
theorem fitted_of_sign {n d : Int} (hcoprime : n.gcd d = 1) (hd : d ≠ 0) :
    fitted (d.sign * n, d.natAbs) = fit? (Rat.divInt n d) := by
  have habs : (d.sign * n).natAbs.Coprime (d.natAbs : Int).natAbs := by
    rw [Int.natAbs_mul, Int.natAbs_sign_of_ne_zero hd, one_mul, Int.natAbs_natCast]
    exact hcoprime
  have hvalue : Rat.divInt (d.sign * n) d.natAbs = Rat.divInt n d := by
    rw [Rat.divInt_eq_divInt_iff (by simpa using hd) hd]
    calc d.sign * n * d = n * (d.sign * d) := by ring
      _ = n * d.natAbs := by rw [Int.sign_mul_self_eq_natAbs]
  rw [fitted_of_coprime (by simpa using hd) habs, hvalue]

theorem commonDivisor_mul {n d : Int} (hcoprime : n.gcd d = 1) (g : Nat) :
    commonDivisor (n * g).natAbs (d * g).natAbs = g := by
  rw [commonDivisor_eq, Int.natAbs_mul, Int.natAbs_mul, Nat.gcd_mul_right, Int.natAbs_natCast]
  exact (congrArg (· * g) hcoprime).trans (one_mul g)

/-- A common factor is divided out of both terms. -/
theorem tryReduce_mul {n d : Int} {g : Nat} (hpos : 0 < g) (hcoprime : n.gcd d = 1) (hn : n ≠ 0)
    (hd : d ≠ 0) (hnum : (n * g).natAbs < 2 ^ 127) (hden : (d * g).natAbs < 2 ^ 127) :
    tryReduce (n * g) (d * g) = .ok (fit? (Rat.divInt n d)) := by
  have hgpos : (0 : Int) < g := by exact_mod_cast hpos
  have hsmall {k : Int} (hk : (k * g).natAbs < 2 ^ 127) : k.natAbs < 2 ^ 127 := by
    rw [Int.natAbs_mul, Int.natAbs_natCast] at hk
    exact (Nat.le_mul_of_pos_right _ hpos).trans_lt hk
  have hg : g < 2 ^ 127 := by
    rw [Int.natAbs_mul, Int.natAbs_natCast] at hnum
    exact (Nat.le_mul_of_pos_left g (Int.natAbs_pos.mpr hn)).trans_lt hnum
  rw [tryReduce, if_neg (mul_ne_zero hd hgpos.ne'), if_neg (mul_ne_zero hn hgpos.ne'),
    commonDivisor_mul hcoprime, signed128_of_lt hg]
  change (do return fitted (← signAbove (← divide128 (n * g) g) (← divide128 (d * g) g))) = _
  rw [divide128_of_dvd hnum hgpos (dvd_mul_left _ _), divide128_of_dvd hden hgpos (dvd_mul_left _ _),
    Int.mul_ediv_cancel _ hgpos.ne', Int.mul_ediv_cancel _ hgpos.ne']
  change (do return fitted (← signAbove n d)) = _
  rw [signAbove_eq (hsmall hnum) (hsmall hden) hd, ← fitted_of_sign hcoprime hd]
  rfl

/-- Reduction is exact: it answers with the ratio of the quotient, if there is one. -/
theorem tryReduce_eq {num den : Int} (hnum : num.natAbs < 2 ^ 127) (hden : den.natAbs < 2 ^ 127) :
    tryReduce num den = .ok (if den = 0 then none else fit? (Rat.divInt num den)) := by
  by_cases hzero : den = 0
  · rw [tryReduce, if_pos hzero, if_pos hzero]
  · rw [if_neg hzero]
    by_cases hnil : num = 0
    · rw [tryReduce, if_neg hzero, if_pos hnil, hnil, Rat.zero_divInt]
      rfl
    · obtain ⟨g, n, d, hpos, hcoprime, rfl, rfl⟩ :=
        Int.exists_gcd_one' (Int.gcd_pos_of_ne_zero_left den hnil)
      rw [tryReduce_mul hpos hcoprime (left_ne_zero_of_mul hnil) (left_ne_zero_of_mul hzero) hnum hden,
        Rat.divInt_mul_right (by exact_mod_cast hpos.ne')]

/-! ### Exact results -/

/-- The ratio of value `q` in words, or a failure if there is none. -/
def exactResult {ε : Type} (otherwise : ε) (q : Rat) : Except ε Fraction :=
  match fit? q with
  | some f => .ok f
  | none => .error otherwise

variable {ε : Type} {otherwise : ε} {q : Rat} {f : Fraction} {num den : Int} {a b : Ratio}

theorem exactResult_eq_ok : exactResult otherwise q = .ok f ↔ ∃ r : Ratio, r.value = q ∧ r.words = f := by
  unfold exactResult fit? Ratio.ofRat?
  by_cases h : RatFits q
  · rw [dif_pos h]
    constructor
    · intro hf
      exact ⟨⟨q, h⟩, rfl, Except.ok.inj hf⟩
    · rintro ⟨r, rfl, rfl⟩
      rfl
  · rw [dif_neg h]
    constructor
    · intro hf
      cases hf
    · rintro ⟨r, rfl, -⟩
      exact absurd r.fits h

theorem exactResult_of_not_fits (h : ¬ RatFits q) : exactResult otherwise q = .error otherwise := by
  unfold exactResult fit? Ratio.ofRat?
  rw [dif_neg h]
  rfl

/-- The arithmetic of ratios gives the same results, not yet in words. -/
theorem map_ofRat (q : Rat) : (Ratio.ofRat q).map Ratio.words = exactResult .overflow q := by
  unfold Ratio.ofRat exactResult fit?
  cases Ratio.ofRat? q <;> rfl

/-- A wide calculation that has a result, and the result has the value `q`. -/
def Widens (wide : Except Fault (Int × Int)) (q : Rat) : Prop :=
  ∃ num den : Int, wide = .ok (num, den) ∧ num.natAbs < 2 ^ 127 ∧ den.natAbs < 2 ^ 127 ∧ den ≠ 0 ∧
    Rat.divInt num den = q

theorem Widens.reduce {wide : Except Fault (Int × Int)} (h : Widens wide q) :
    (do let terms ← wide; Fraction.reduce terms.1 terms.2) = exactResult .overflow q := by
  obtain ⟨num, den, rfl, hnum, hden, hne, rfl⟩ := h
  change Fraction.reduce num den = _
  rw [Fraction.reduce, tryReduce_eq hnum hden, if_neg hne, exactResult]
  cases fit? (Rat.divInt num den) <;> rfl

theorem Widens.report {wide : Except Fault (Int × Int)} (h : Widens wide q) (calculation : String) :
    Fraction.report calculation wide = exactResult (.reported (.overflow calculation)) q := by
  obtain ⟨num, den, rfl, hnum, hden, hne, rfl⟩ := h
  have hreduce := tryReduce_eq hnum hden
  rw [if_neg hne] at hreduce
  change (liftM (tryReduce num den) >>= _ : Except Failure Fraction) = _
  rw [hreduce, exactResult]
  cases fit? (Rat.divInt num den) <;> rfl

theorem wideSum_words (a b : Ratio) : Widens (wideSum a.words b.words) (a.value + b.value) := by
  refine ⟨_, _, ?_, a.natAbs_sum_lt b, a.natAbs_dens_lt b, a.dens_ne_zero b, ?_⟩
  · refine bind_eq_ok.mpr ⟨_, word128_eq_ok (a.natAbs_cross_lt b), ?_⟩
    refine bind_eq_ok.mpr ⟨_, word128_eq_ok (b.natAbs_cross_lt a), ?_⟩
    refine bind_eq_ok.mpr ⟨_, word128_eq_ok (a.natAbs_sum_lt b), ?_⟩
    exact bind_eq_ok.mpr ⟨_, word128_eq_ok (a.natAbs_dens_lt b), rfl⟩
  · rw [← a.value_eq_divInt, ← b.value_eq_divInt, Rat.divInt_add_divInt _ _
      (by exact_mod_cast a.den_pos.ne') (by exact_mod_cast b.den_pos.ne')]

theorem wideProduct_words (a b : Ratio) : Widens (wideProduct a.words b.words) (a.value * b.value) := by
  refine ⟨_, _, ?_, a.natAbs_nums_lt b, a.natAbs_dens_lt b, a.dens_ne_zero b, ?_⟩
  · refine bind_eq_ok.mpr ⟨_, word128_eq_ok (a.natAbs_nums_lt b), ?_⟩
    exact bind_eq_ok.mpr ⟨_, word128_eq_ok (a.natAbs_dens_lt b), rfl⟩
  · rw [← a.value_eq_divInt, ← b.value_eq_divInt, Rat.divInt_mul_divInt]

theorem wideQuotient_words (a : Ratio) (hb : b.value ≠ 0) :
    Widens (wideQuotient a.words b.words) (a.value / b.value) := by
  have hden : ((a.den : Int) * b.num).natAbs < 2 ^ 127 := by
    rw [mul_comm]
    exact b.natAbs_cross_lt a
  have hne : (a.den : Int) * b.num ≠ 0 :=
    mul_ne_zero (by exact_mod_cast a.den_pos.ne') (Ratio.num_eq_zero.not.mpr hb)
  refine ⟨_, _, ?_, a.natAbs_cross_lt b, hden, hne, ?_⟩
  · refine bind_eq_ok.mpr ⟨_, word128_eq_ok (a.natAbs_cross_lt b), ?_⟩
    exact bind_eq_ok.mpr ⟨_, word128_eq_ok hden, rfl⟩
  · rw [← a.value_eq_divInt, ← b.value_eq_divInt, Rat.divInt_div_divInt]

/-! ### The arithmetic of ratios in words -/

theorem add_words (a b : Ratio) : a.words.add b.words = exactResult .overflow (a.value + b.value) :=
  (wideSum_words a b).reduce

theorem mul_words (a b : Ratio) : a.words.mul b.words = exactResult .overflow (a.value * b.value) :=
  (wideProduct_words a b).reduce

theorem words_num_ne_zero (hb : b.value ≠ 0) : b.words.num ≠ 0 := Ratio.num_eq_zero.not.mpr hb

theorem div_words (a : Ratio) (hb : b.value ≠ 0) :
    a.words.div b.words = exactResult .overflow (a.value / b.value) := by
  rw [div, if_neg (words_num_ne_zero hb)]
  exact (wideQuotient_words a hb).reduce

theorem checkedAdd_words (a b : Ratio) : a.words.checkedAdd b.words =
    exactResult (.reported (.overflow s!"{a.words.text} + {b.words.text}")) (a.value + b.value) :=
  (wideSum_words a b).report _

theorem checkedMul_words (a b : Ratio) : a.words.checkedMul b.words =
    exactResult (.reported (.overflow s!"{a.words.text} * {b.words.text}")) (a.value * b.value) :=
  (wideProduct_words a b).report _

theorem checkedDiv_words (a : Ratio) (hb : b.value ≠ 0) : a.words.checkedDiv b.words =
    exactResult (.reported (.overflow s!"{a.words.text} / {b.words.text}")) (a.value / b.value) := by
  rw [checkedDiv, if_neg (words_num_ne_zero hb)]
  exact (wideQuotient_words a hb).report _

theorem neg_words (a : Ratio) : a.words.neg = exactResult .overflow (-a.value) := by
  have hnum : (-a.value).num = -a.num := Rat.num_neg_eq_neg_num a.value
  have hden : (-a.value).den = a.den := Rat.den_neg_eq_den a.value
  unfold neg
  by_cases h : Fits64 (-a.words.num)
  · have hfits : RatFits (-a.value) := ⟨hnum.symm ▸ h, hden.symm ▸ a.fits.2⟩
    rw [if_pos h]
    refine (exactResult_eq_ok.mpr ⟨⟨-a.value, hfits⟩, rfl, ?_⟩).symm
    rw [Ratio.words, Ratio.num, Ratio.den, hnum, hden]
    rfl
  · have hfits : ¬ RatFits (-a.value) := fun hfits => h (hnum ▸ hfits.1)
    rw [if_neg h, exactResult_of_not_fits hfits]

theorem cmp_words (a b : Ratio) : a.words.cmp b.words = .ok (a.cmp b) := by
  have hlt (a b : Ratio) : a.num * b.den < b.num * a.den ↔ a.value < b.value :=
    (Rat.lt_iff a.value b.value).symm
  refine bind_eq_ok.mpr ⟨_, word128_eq_ok (a.natAbs_cross_lt b), ?_⟩
  refine bind_eq_ok.mpr ⟨_, word128_eq_ok (b.natAbs_cross_lt a), ?_⟩
  change Except.ok (if a.num * b.den < b.num * a.den then Ordering.lt
    else if b.num * a.den < a.num * b.den then .gt else .eq) = _
  simp only [hlt, Ratio.cmp]

theorem min_words (a b : Ratio) : a.words.min b.words = .ok (a.min b).words := by
  rw [min, cmp_words, Ratio.min]
  cases a.cmp b <;> rfl

theorem new_eq (hnum : Fits64 num) (hden : Fits64 den) (hne : den ≠ 0) :
    new num den = exactResult .overflow (Rat.divInt num den) := by
  unfold Fits64 at hnum hden
  rw [new, tryReduce_eq (by omega) (by omega), if_neg hne, exactResult]
  cases fit? (Rat.divInt num den) with
  | some f => rfl
  | none =>
    change Except.error (if den = 0 then Fault.zeroDenominator else .overflow) = _
    rw [if_neg hne]

example : (Fraction.new 4 (-6)).toOption = some ⟨-2, 3⟩ := by decide +kernel

theorem new_zero (num : Int) : new num 0 = .error .zeroDenominator := rfl

theorem checkedNew_eq (hnum : Fits64 num) (hden : Fits64 den) (hne : den ≠ 0) :
    checkedNew num den = exactResult (.reported (.overflow s!"{num}/{den}")) (Rat.divInt num den) := by
  unfold Fits64 at hnum hden
  rw [checkedNew, if_neg hne]
  exact Widens.report ⟨num, den, rfl, by omega, by omega, hne, rfl⟩ _

end Fraction

end Metrology
