import Metrology.Proofs.Magnitude.Number

/-!
# Magnitudes as ratios

The conversion to a ratio multiplies the primes of each sign up, one by one, and gives up as soon as a
product leaves 64 bits. Since the products only grow, it gives up exactly if the whole product does not
fit; otherwise the ratio is the number that the magnitude stands for. A second conversion multiplies both
products up in one pass and faults where the first gives up.
-/

namespace Metrology

/-- A natural number as a 64-bit integer, if it fits. -/
def whole64? (n : Nat) : Option Int := if n < 2 ^ 63 then some n else none

theorem fits64_natCast {n : Nat} : Fits64 n ↔ n < 2 ^ 63 := by
  unfold Fits64
  omega

theorem whole64?_eq_none {m n : Nat} (hm : ¬ m < 2 ^ 63) (hmn : m ≤ n) : whole64? n = none :=
  if_neg fun hn => hm (hmn.trans_lt hn)

namespace Ratio

theorem new_eq_ok {n d : Int} {r : Ratio} : new n d = .ok r ↔ d ≠ 0 ∧ r.value = n / d := by
  unfold new
  by_cases hd : d = 0
  · simp [hd]
  · rw [if_neg hd, ofRat_eq_ok, Rat.divInt_eq_div]
    simp [hd]

/-- A quotient of 64-bit integers is a ratio: lowest terms are not larger. -/
theorem exists_new {n d : Nat} (hn : 0 < n) (hd : 0 < d) (hn' : n < 2 ^ 63) (hd' : d < 2 ^ 63) :
    ∃ r, new n d = .ok r := by
  have hzero : (d : Int) ≠ 0 := by omega
  have hnum : (Rat.divInt n d).num.natAbs ≤ n :=
    Nat.le_of_dvd hn (Int.natAbs_dvd_natAbs.mpr (Rat.num_dvd n hzero))
  have hden : (Rat.divInt n d).den ≤ d :=
    Nat.le_of_dvd hd (Int.natCast_dvd_natCast.mp (Rat.den_dvd n d))
  have hfits : RatFits (Rat.divInt n d) := by
    unfold RatFits Fits64
    omega
  obtain ⟨r, hr, -⟩ := (ofRat_attains _).result hfits
  refine ⟨r, ?_⟩
  unfold new
  rw [if_neg hzero, hr]

theorem abs_of_nonneg {a : Ratio} (ha : 0 ≤ a.value) : a.abs = .ok a := by
  have hnegative : a.isNegative = false := by
    simpa [isNegative, num] using ha
  simp [abs, hnegative]

theorem natAbs_num_of_abs {a r : Ratio} (h : a.abs = .ok r) : r.num.toNat = a.num.natAbs := by
  unfold abs at h
  by_cases hnegative : a.isNegative
  · rw [if_pos hnegative, neg_eq_ok] at h
    have hnum : r.num = -a.num := by
      rw [num, h, Rat.neg_num]
      rfl
    have : a.num < 0 := by simpa [isNegative] using hnegative
    omega
  · rw [if_neg hnegative] at h
    obtain rfl := Except.ok.inj h
    have : 0 ≤ a.num := by simpa [isNegative] using hnegative
    omega

end Ratio

namespace Magnitude

open PowerProduct

theorem multiplyUp_eq {p k start : Nat} (hp : 0 < p) (hstart : start < 2 ^ 63) :
    multiplyUp p k start = whole64? (start * p ^ k) := by
  induction k generalizing start with
  | zero =>
    rw [pow_zero, mul_one, whole64?, if_pos hstart]
    rfl
  | succ k ih =>
    have hstep : (start : Int) * p = (start * p : Nat) := by push_cast; rfl
    have hpower : start * p ^ (k + 1) = start * p * p ^ k := by ring
    rw [multiplyUp, hstep, hpower]
    by_cases hfits : start * p < 2 ^ 63
    · rw [if_pos (fits64_natCast.mpr hfits), ih hfits]
    · rw [if_neg fun h => hfits (fits64_natCast.mp h)]
      exact (whole64?_eq_none hfits (Nat.le_mul_of_pos_right _ (pow_pos hp k))).symm

/-- What a term contributes to the product of one sign. -/
def termPart (positive : Bool) (t : Term MagnitudeBase) : Nat :=
  if t.power.isPositive == positive then t.factor.number ^ t.power.num.natAbs else 1

/-- The product of the prime powers of one sign, without any limit. -/
def part (positive : Bool) (m : Magnitude) : Nat := (m.map (termPart positive)).prod

/-- One step of the limited product. -/
def primeStep (positive : Bool) (product : Option Int) (t : Term MagnitudeBase) :
    Except Fault (Option Int) :=
  match product, t.factor with
  | some product, .prime p =>
    if t.power.isPositive == positive then do
      return multiplyUp p (← t.power.abs).num.toNat product
    else return some product
  | product, _ => return product

theorem primeProduct_eq_foldlM (m : Magnitude) (positive : Bool) :
    m.primeProduct positive = m.foldlM (primeStep positive) (some 1) := rfl

variable {m : Magnitude} {positive : Bool}

theorem part_nil : part positive [] = 1 := rfl

theorem part_cons {t : Term MagnitudeBase} :
    part positive (t :: m) = termPart positive t * part positive m := by
  rw [part, List.map_cons, List.prod_cons, part]

theorem termPart_constant {c : Constant} {power : Ratio} :
    termPart positive ⟨.constant c, power⟩ = 1 := by
  simp [termPart, MagnitudeBase.number]

theorem termPart_of_sign {t : Term MagnitudeBase} (h : t.power.isPositive = positive) :
    termPart positive t = t.factor.number ^ t.power.num.natAbs ∧ termPart (!positive) t = 1 := by
  cases positive <;> simp [termPart, h]

theorem termPart_pos {t : Term MagnitudeBase} (ht : t.factor.IsPositive) : 0 < termPart positive t := by
  unfold termPart
  split
  · exact pow_pos ht.number_pos _
  · exact one_pos

theorem part_pos (hm : Over MagnitudeBase.IsPositive m) : 0 < part positive m := by
  induction m with
  | nil => exact one_pos
  | cons t m ih =>
    rw [over_cons] at hm
    exact Nat.mul_pos (termPart_pos hm.1) (ih hm.2)

theorem primeStep_eq {t : Term MagnitudeBase} {q : Ratio} (ht : t.factor.IsPositive)
    (habs : t.power.abs = .ok q) (product : Nat) :
    primeStep positive (whole64? product) t = .ok (whole64? (product * termPart positive t)) := by
  by_cases hfits : product < 2 ^ 63
  · have hkeep : Except.ok (some (product : Int)) = (.ok (whole64? (product * 1)) : Except Fault _) := by
      rw [mul_one, whole64?, if_pos hfits]
    rw [whole64?, if_pos hfits]
    cases t with
    | mk factor power =>
      cases factor with
      | constant c =>
        rw [termPart_constant]
        exact hkeep
      | prime p =>
        unfold termPart primeStep
        by_cases hsign : (power.isPositive == positive) = true
        · have habs : power.abs = .ok q := habs
          simp only [if_pos hsign, habs]
          show Except.ok (multiplyUp p q.num.toNat product) = _
          rw [multiplyUp_eq ht hfits, Ratio.natAbs_num_of_abs habs]
          rfl
        · simp only [if_neg hsign]
          exact hkeep
  · rw [whole64?_eq_none hfits le_rfl,
      whole64?_eq_none hfits (Nat.le_mul_of_pos_right _ (termPart_pos ht))]
    rfl

/-- The limited product is the product if it fits. Only the size of a power can be out of reach. -/
theorem primeProduct_eq (hm : Over MagnitudeBase.IsPositive m)
    (habs : ∀ t ∈ m, ∃ q, t.power.abs = .ok q) :
    m.primeProduct positive = .ok (whole64? (part positive m)) := by
  have hfold (product : Nat) : m.foldlM (primeStep positive) (whole64? product) =
      .ok (whole64? (product * part positive m)) := by
    induction m generalizing product with
    | nil => simp [part, pure, Except.pure]
    | cons t m ih =>
      rw [over_cons] at hm
      rw [List.forall_mem_cons] at habs
      obtain ⟨q, hq⟩ := habs.1
      rw [List.foldlM_cons, primeStep_eq hm.1 hq]
      show m.foldlM (primeStep positive) _ = _
      rw [ih hm.2 habs.2, Nat.mul_assoc]
      rfl
  rw [primeProduct_eq_foldlM]
  have hone := hfold 1
  rw [one_mul] at hone
  exact hone

theorem number_eq_parts (m : Magnitude) : m.number = part true m / part false m := by
  induction m with
  | nil => simp [part]
  | cons t m ih =>
    have hterm : (t.factor.number : Rat) ^ t.power.num = termPart true t / termPart false t := by
      unfold termPart
      by_cases hpositive : t.power.isPositive
      · have hsign : 0 < t.power.num := by simpa [Ratio.isPositive] using hpositive
        have hpower : (t.factor.number : Rat) ^ t.power.num =
            (t.factor.number : Rat) ^ t.power.num.natAbs := by
          rw [← zpow_natCast, Int.natAbs_of_nonneg hsign.le]
        rw [hpower]
        simp [hpositive]
      · have hsign : t.power.num ≤ 0 := by simpa [Ratio.isPositive] using hpositive
        have hpower : (t.factor.number : Rat) ^ t.power.num =
            ((t.factor.number : Rat) ^ t.power.num.natAbs)⁻¹ := by
          rw [← zpow_natCast, ← zpow_neg, Int.ofNat_natAbs_of_nonpos hsign, neg_neg]
        rw [hpower]
        simp [hpositive]
    rw [number_cons, ih, hterm, part_cons, part_cons]
    push_cast
    rw [div_mul_div_comm]

/-- A rational magnitude is a ratio exactly if its numerator and its denominator fit, and then it is the
number it stands for. -/
theorem toRatio?_eq (hrational : m.isRational = true) (hm : Over MagnitudeBase.IsPositive m)
    (habs : ∀ t ∈ m, ∃ q, t.power.abs = .ok q) :
    if part true m < 2 ^ 63 ∧ part false m < 2 ^ 63 then
      ∃ r, m.toRatio? = .ok (some r) ∧ r.value = m.number
    else m.toRatio? = .ok none := by
  unfold toRatio?
  rw [if_pos hrational, primeProduct_eq hm habs, primeProduct_eq hm habs]
  by_cases hnum : part true m < 2 ^ 63
  · have hnum' : whole64? (part true m) = some (part true m : Int) := if_pos hnum
    by_cases hden : part false m < 2 ^ 63
    · have hden' : whole64? (part false m) = some (part false m : Int) := if_pos hden
      rw [if_pos ⟨hnum, hden⟩, hnum', hden']
      obtain ⟨r, hr⟩ := Ratio.exists_new (part_pos hm) (part_pos hm) hnum hden
      refine ⟨r, ?_, ?_⟩
      · show (Ratio.new _ _ >>= fun r => pure (some r)) = _
        rw [hr]
        rfl
      · rw [number_eq_parts, (Ratio.new_eq_ok.mp hr).2]
        push_cast
        rfl
    · rw [if_neg (fun h => hden h.2), hnum', whole64?_eq_none hden le_rfl]
      rfl
  · rw [if_neg (fun h => hnum h.1), whole64?_eq_none hnum le_rfl]
    rfl

/-! ### The conversion that faults -/

/-- It multiplies both products up in one go and faults where the other gives up. -/
theorem multiplyExactly_eq (p k : Nat) (start : Int) :
    multiplyExactly p k start = (multiplyUp p k start).elim (.error .overflow) .ok := by
  induction k generalizing start with
  | zero => rfl
  | succ k ih =>
    rw [multiplyExactly, multiplyUp]
    split
    · exact ih _
    · rfl

/-- A numerator and a denominator as 64-bit integers, if both fit. -/
def wholePair (n d : Nat) : Except Fault (Int × Int) :=
  if n < 2 ^ 63 ∧ d < 2 ^ 63 then .ok (n, d) else .error .overflow

theorem wholePair_bind {n d : Nat} {next : Int × Int → Except Fault (Int × Int)} {x y : Nat}
    (hx : 0 < x) (hy : 0 < y) (hnext : n < 2 ^ 63 → d < 2 ^ 63 → next (n, d) = wholePair (n * x) (d * y)) :
    wholePair n d >>= next = wholePair (n * x) (d * y) := by
  by_cases hfits : n < 2 ^ 63 ∧ d < 2 ^ 63
  · rw [wholePair, if_pos hfits]
    exact hnext hfits.1 hfits.2
  · have hgrown : ¬ (n * x < 2 ^ 63 ∧ d * y < 2 ^ 63) := fun h =>
      hfits ⟨(Nat.le_mul_of_pos_right n hx).trans_lt h.1, (Nat.le_mul_of_pos_right d hy).trans_lt h.2⟩
    rw [wholePair, wholePair, if_neg hfits, if_neg hgrown]
    rfl

/-- A natural number as a 64-bit integer, if it fits. -/
def whole (n : Nat) : Except Fault Int := if n < 2 ^ 63 then .ok n else .error .overflow

theorem multiplyExactly_eq_whole {p : Nat} (hp : 0 < p) (k : Nat) {start : Nat}
    (hstart : start < 2 ^ 63) : multiplyExactly p k start = whole (start * p ^ k) := by
  rw [multiplyExactly_eq, multiplyUp_eq hp hstart, whole64?, whole]
  split <;> rfl

theorem wholePair_left (n : Nat) {d : Nat} (hd : d < 2 ^ 63) :
    (do return (← whole n, (d : Int))) = wholePair n d := by
  unfold whole wholePair
  by_cases hn : n < 2 ^ 63
  · rw [if_pos hn, if_pos ⟨hn, hd⟩]
    rfl
  · rw [if_neg hn, if_neg fun h => hn h.1]
    rfl

theorem wholePair_right {n : Nat} (hn : n < 2 ^ 63) (d : Nat) :
    (do return ((n : Int), ← whole d)) = wholePair n d := by
  unfold whole wholePair
  by_cases hd : d < 2 ^ 63
  · rw [if_pos hd, if_pos ⟨hn, hd⟩]
    rfl
  · rw [if_neg hd, if_neg fun h => hd h.2]
    rfl

theorem multiplyFraction_eq {t : Term MagnitudeBase} {q : Ratio} (ht : t.factor.IsPositive)
    (habs : t.power.abs = .ok q) {n d : Nat} (hn : n < 2 ^ 63) (hd : d < 2 ^ 63) :
    multiplyFraction (n, d) t = wholePair (n * termPart true t) (d * termPart false t) := by
  cases t with
  | mk factor power =>
    cases factor with
    | constant c =>
      rw [termPart_constant, termPart_constant, mul_one, mul_one, wholePair, if_pos ⟨hn, hd⟩]
      rfl
    | prime p =>
      have habs : power.abs = .ok q := habs
      have hstep {start : Nat} (hstart : start < 2 ^ 63) :
          multiplyExactly p q.num.toNat start = whole (start * p ^ power.num.natAbs) := by
        rw [multiplyExactly_eq_whole ht _ hstart, Ratio.natAbs_num_of_abs habs]
      unfold multiplyFraction
      simp only [habs]
      cases hsign : power.isPositive with
      | true =>
        obtain ⟨hup, hdown⟩ := @termPart_of_sign true ⟨.prime p, power⟩ hsign
        rw [Bool.not_true] at hdown
        rw [hup, hdown, mul_one, ← wholePair_left _ hd]
        exact congrArg (fun run => run >>= fun above => pure (above, (d : Int))) (hstep hn)
      | false =>
        obtain ⟨hdown, hup⟩ := @termPart_of_sign false ⟨.prime p, power⟩ hsign
        rw [Bool.not_false] at hup
        rw [hup, hdown, mul_one, ← wholePair_right hn]
        exact congrArg (fun run => run >>= fun below => pure ((n : Int), below)) (hstep hd)

theorem foldlM_multiplyFraction (hm : Over MagnitudeBase.IsPositive m)
    (habs : ∀ t ∈ m, ∃ q, t.power.abs = .ok q) :
    m.foldlM multiplyFraction (1, 1) = wholePair (part true m) (part false m) := by
  have hfold (n d : Nat) : wholePair n d >>= (fun start => m.foldlM multiplyFraction start) =
      wholePair (n * part true m) (d * part false m) := by
    induction m generalizing n d with
    | nil =>
      rw [part_nil, part_nil, mul_one, mul_one]
      exact bind_pure _
    | cons t m ih =>
      rw [over_cons] at hm
      rw [List.forall_mem_cons] at habs
      obtain ⟨q, hq⟩ := habs.1
      have hterm : wholePair n d >>= (multiplyFraction · t) =
          wholePair (n * termPart true t) (d * termPart false t) :=
        wholePair_bind (termPart_pos hm.1) (termPart_pos hm.1) fun hn hd =>
          multiplyFraction_eq hm.1 hq hn hd
      simp only [List.foldlM_cons]
      rw [← bind_assoc, hterm, ih hm.2 habs.2, part_cons, part_cons, Nat.mul_assoc, Nat.mul_assoc]
  have hone := hfold 1 1
  rw [one_mul, one_mul] at hone
  exact hone

/-- The conversion that faults has a result exactly where the other one has, and the same. -/
theorem toRatio_eq (hrational : m.isRational = true) (hm : Over MagnitudeBase.IsPositive m)
    (habs : ∀ t ∈ m, ∃ q, t.power.abs = .ok q) :
    if part true m < 2 ^ 63 ∧ part false m < 2 ^ 63 then
      ∃ r, m.toRatio = .ok r ∧ r.value = m.number
    else m.toRatio = .error .overflow := by
  unfold toRatio
  rw [if_pos hrational, foldlM_multiplyFraction hm habs, wholePair]
  by_cases hfits : part true m < 2 ^ 63 ∧ part false m < 2 ^ 63
  · rw [if_pos hfits, if_pos hfits]
    obtain ⟨r, hr⟩ := Ratio.exists_new (part_pos hm) (part_pos hm) hfits.1 hfits.2
    refine ⟨r, hr, ?_⟩
    rw [number_eq_parts, (Ratio.new_eq_ok.mp hr).2]
    push_cast
    rfl
  · rw [if_neg hfits, if_neg hfits]
    rfl

theorem isRational_of_toRatio? {r : Ratio} (h : m.toRatio? = .ok (some r)) : m.isRational = true := by
  by_contra hrational
  unfold toRatio? at h
  rw [if_neg hrational] at h
  cases h

theorem part_false_integral (hm : m.isIntegral = true) : part false m = 1 := by
  have hpowers := (isIntegral_iff.mp hm).2
  clear hm
  unfold part
  apply List.prod_eq_one
  intro n hn
  obtain ⟨t, ht, rfl⟩ := List.mem_map.mp hn
  unfold termPart
  rcases (hpowers t ht).lt_or_eq with hpositive | hzero
  · rw [if_neg (by simp [Ratio.isPositive_iff.mpr hpositive])]
  · have hnum : t.power.num = 0 := Rat.num_eq_zero.mpr hzero.symm
    rw [hnum]
    simp

/-- The number of an integral magnitude is a ratio exactly if it fits. -/
theorem toRatio?_integral (hm : m.isIntegral = true) (hpositive : Over MagnitudeBase.IsPositive m)
    {k : Nat} (hk : m.number = k) :
    if k < 2 ^ 63 then ∃ r, m.toRatio? = .ok (some r) ∧ r.value = k else m.toRatio? = .ok none := by
  obtain ⟨hrational, hpowers⟩ := isIntegral_iff.mp hm
  have hden : part false m = 1 := part_false_integral hm
  have hnum : part true m = k := by
    rw [number_eq_parts, hden, Nat.cast_one, div_one] at hk
    exact Nat.cast_injective hk
  have hratio := toRatio?_eq hrational hpositive
    fun t ht => ⟨t.power, Ratio.abs_of_nonneg (hpowers t ht)⟩
  rw [hnum, hden, hk] at hratio
  simpa using hratio

end Magnitude

end Metrology
