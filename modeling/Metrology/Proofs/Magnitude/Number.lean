import Metrology.Proofs.Magnitude.Built
import Mathlib.Algebra.BigOperators.Field

/-!
# The number a magnitude stands for

A magnitude of whole powers of primes stands for a rational number. The number depends only on the power
of each prime, so it multiplies as the powers add, and the exact conversion to a ratio finds it whenever
the products of the positive and of the negative powers fit 64 bits.
-/

namespace Metrology

namespace MagnitudeBase

/-- The number that a prime stands for; constants stand for no exact number and are left out. -/
def number : MagnitudeBase → Nat
  | .prime p => p
  | .constant _ => 1

theorem IsPositive.number_pos {b : MagnitudeBase} (h : b.IsPositive) : 0 < b.number := by
  cases b with
  | prime p => exact h
  | constant c => exact Nat.one_pos

end MagnitudeBase

namespace PowerProduct

variable {α : Type} [Atom α]

theorem powerOf_cases (e : PowerProduct α) (f : α) : e.powerOf f = .zero ∨
    ∃ t ∈ e, Atom.cmp t.factor f = .eq ∧ e.powerOf f = t.power := by
  induction e with
  | nil => exact .inl rfl
  | cons t e ih =>
    rw [powerOf_cons]
    by_cases htf : Atom.cmp t.factor f = .eq
    · exact .inr ⟨t, by simp, htf, if_pos htf⟩
    · rw [if_neg htf]
      refine ih.imp_right fun ⟨s, hs, hsf, hpower⟩ => ?_
      exact ⟨s, by simp [hs], hsf, hpower⟩

end PowerProduct

namespace Magnitude

open PowerProduct

variable {m f g h : Magnitude}

/-- The product of the whole powers of primes. -/
def number (m : Magnitude) : Rat := (m.map fun t => (t.factor.number : Rat) ^ t.power.num).prod

@[simp] theorem number_nil : number [] = 1 := rfl

@[simp] theorem number_cons (t : Term MagnitudeBase) (m : Magnitude) :
    number (t :: m) = (t.factor.number : Rat) ^ t.power.num * number m := by
  simp [number]

/-! ### Rational and integral magnitudes -/

theorem isRational_iff : m.isRational = true ↔
    ∀ t ∈ m, t.factor.isPrime = true ∧ (t.power.num : Rat) = t.power.value := by
  simp [isRational, Ratio.isInteger, Ratio.den, Ratio.num, Rat.den_eq_one_iff]

theorem isIntegral_iff : m.isIntegral = true ↔ m.isRational = true ∧ ∀ t ∈ m, 0 ≤ t.power.value := by
  simp [isIntegral, Ratio.isNegative, Ratio.num, and_comm]

/-- All powers of a rational magnitude are whole, those of missing bases included. -/
theorem num_powerOf (hm : m.isRational = true) (b : MagnitudeBase) :
    ((m.powerOf b).num : Rat) = (m.powerOf b).value := by
  rcases powerOf_cases m b with hzero | ⟨t, ht, -, hpower⟩
  · rw [hzero]
    rfl
  · rw [hpower]
    exact (isRational_iff.mp hm t ht).2

/-- A canonical magnitude is rational if all its powers are whole and those of constants are zero. -/
theorem isRational_iff_powerOf (hm : Canonical m) : m.isRational = true ↔
    ∀ b, ((m.powerOf b).num : Rat) = (m.powerOf b).value ∧
      (b.isPrime = false → (m.powerOf b).value = 0) := by
  constructor
  · intro h b
    refine ⟨num_powerOf h b, fun hb => ?_⟩
    rcases powerOf_cases m b with hzero | ⟨t, ht, htb, -⟩
    · rw [hzero, Ratio.value_zero]
    · have hprime := (isRational_iff.mp h t ht).1
      cases b with
      | prime p => cases hb
      | constant c =>
        cases hfactor : t.factor with
        | prime p =>
          rw [hfactor] at htb
          cases htb
        | constant d =>
          rw [hfactor] at hprime
          cases hprime
  · intro h
    refine isRational_iff.mpr fun t ht => ?_
    have hpower := powerOf_of_mem MagnitudeBase.orderedOn (over_all m) hm.sorted ht
    obtain ⟨hwhole, hconstant⟩ := h t.factor
    rw [hpower] at hwhole hconstant
    refine ⟨?_, hwhole⟩
    by_contra hprime
    exact (hm.proper t ht).1 (hconstant (by simpa using hprime))

theorem isIntegral_of_powerOf (hm : Canonical m) (hrational : m.isRational = true)
    (h : ∀ b, 0 ≤ (m.powerOf b).value) : m.isIntegral = true := by
  refine isIntegral_iff.mpr ⟨hrational, fun t ht => ?_⟩
  rw [← powerOf_of_mem MagnitudeBase.orderedOn (over_all m) hm.sorted ht]
  exact h t.factor

/-- An integral magnitude stands for a positive whole number. -/
theorem number_integral (hm : m.isIntegral = true) (hpositive : Over MagnitudeBase.IsPositive m) :
    ∃ k : Nat, 0 < k ∧ m.number = k := by
  have hpowers := (isIntegral_iff.mp hm).2
  clear hm
  induction m with
  | nil => exact ⟨1, one_pos, by simp⟩
  | cons t m ih =>
    rw [List.forall_mem_cons] at hpowers
    rw [over_cons] at hpositive
    obtain ⟨k, hk, hnumber⟩ := ih hpositive.2 hpowers.2
    obtain ⟨n, hn⟩ := Int.eq_ofNat_of_zero_le (Rat.num_nonneg.mpr hpowers.1)
    refine ⟨t.factor.number ^ n * k, Nat.mul_pos (pow_pos hpositive.1.number_pos n) hk, ?_⟩
    rw [number_cons, hnumber, Ratio.num, hn, zpow_natCast]
    push_cast
    rfl

/-! ### The number in terms of powers -/

theorem powerOf_prime_cons_prime (q p : Nat) (power : Ratio) (m : Magnitude) :
    powerOf (⟨.prime q, power⟩ :: m) (MagnitudeBase.prime p) =
      if q = p then power else m.powerOf (.prime p) := by
  have hcmp : Atom.cmp (MagnitudeBase.prime q) (.prime p) = .eq ↔ q = p := Nat.compare_eq_eq
  rw [powerOf_cons]
  simp only [hcmp]

theorem powerOf_prime_cons_constant (c : Constant) (p : Nat) (power : Ratio) (m : Magnitude) :
    powerOf (⟨.constant c, power⟩ :: m) (MagnitudeBase.prime p) = m.powerOf (.prime p) := by
  rw [powerOf_cons]
  exact if_neg (by rintro ⟨⟩)

/-- The first prime of a sorted magnitude does not occur again. -/
theorem powerOf_first {q : Nat} {power : Ratio} (hm : Sorted (⟨MagnitudeBase.prime q, power⟩ :: m)) :
    m.powerOf (.prime q) = .zero := by
  rw [sorted_cons] at hm
  apply powerOf_eq_zero
  exact ne_of_head_eq MagnitudeBase.orderedOn trivial (over_all m) trivial hm.1
    (MagnitudeBase.cmp_self _)

theorem number_eq_prod (hm : Sorted m) {S : Finset Nat}
    (hS : ∀ t ∈ m, ∀ p, t.factor = .prime p → p ∈ S) :
    m.number = ∏ p ∈ S, (p : Rat) ^ (m.powerOf (.prime p)).num := by
  induction m with
  | nil =>
    symm
    exact Finset.prod_eq_one fun p _ => zpow_zero _
  | cons t m ih =>
    rw [List.forall_mem_cons] at hS
    rw [number_cons, ih (sorted_cons.mp hm).2 hS.2]
    cases t with
    | mk factor power =>
      cases factor with
      | constant c =>
        simp [MagnitudeBase.number, powerOf_prime_cons_constant]
      | prime q =>
        have hq : q ∈ S := hS.1 q rfl
        have hrest : ∏ p ∈ S.erase q, (p : Rat) ^ (powerOf m (MagnitudeBase.prime p)).num =
            ∏ p ∈ S.erase q,
              (p : Rat) ^ (powerOf (⟨.prime q, power⟩ :: m) (MagnitudeBase.prime p)).num := by
          refine Finset.prod_congr rfl fun p hp => ?_
          rw [powerOf_prime_cons_prime, if_neg (Finset.ne_of_mem_erase hp).symm]
        rw [← Finset.mul_prod_erase S _ hq, ← Finset.mul_prod_erase S _ hq, hrest,
          powerOf_prime_cons_prime, if_pos rfl, powerOf_first hm]
        show _ * ((q : Rat) ^ (0 : Int) * _) = _
        rw [zpow_zero, one_mul]
        rfl

/-- The primes of a magnitude. -/
def primes (m : Magnitude) : Finset Nat := (m.map fun t => t.factor.number).toFinset

theorem mem_primes {t : Term MagnitudeBase} (ht : t ∈ m) {p : Nat} (hp : t.factor = .prime p) :
    p ∈ m.primes :=
  List.mem_toFinset.mpr (List.mem_map.mpr ⟨t, ht, by rw [hp]; rfl⟩)

/-- If the powers add up, the numbers multiply. -/
theorem number_of_powers (hf : f.Regular) (hg : g.Regular) (hh : h.Regular)
    (hrationalG : g.isRational = true) (hrationalH : h.isRational = true)
    (hpowers : ∀ b, (f.powerOf b).value = (g.powerOf b).value + (h.powerOf b).value) :
    f.number = g.number * h.number := by
  let S := f.primes ∪ (g.primes ∪ h.primes)
  have hS : ∀ p ∈ S, (p : Rat) ≠ 0 := by
    have hprimes {m : Magnitude} (hm : m.Regular) {p : Nat} (hp : p ∈ m.primes) : (p : Rat) ≠ 0 := by
      obtain ⟨t, ht, rfl⟩ := List.mem_map.mp (List.mem_toFinset.mp hp)
      exact Nat.cast_ne_zero.mpr (hm.positive t ht).number_pos.ne'
    intro p hp
    rcases Finset.mem_union.mp hp with hp | hp
    · exact hprimes hf hp
    · rcases Finset.mem_union.mp hp with hp | hp
      · exact hprimes hg hp
      · exact hprimes hh hp
  have hnum (p : Nat) : (f.powerOf (.prime p)).num =
      (g.powerOf (.prime p)).num + (h.powerOf (.prime p)).num := by
    have hvalue := hpowers (.prime p)
    rw [← num_powerOf hrationalG, ← num_powerOf hrationalH, ← Int.cast_add] at hvalue
    rw [Ratio.num, hvalue, Rat.num_intCast]
  rw [@number_eq_prod f hf.canonical.sorted S fun t ht p hp =>
      Finset.mem_union_left _ (mem_primes ht hp),
    @number_eq_prod g hg.canonical.sorted S fun t ht p hp =>
      Finset.mem_union_right _ (Finset.mem_union_left _ (mem_primes ht hp)),
    @number_eq_prod h hh.canonical.sorted S fun t ht p hp =>
      Finset.mem_union_right _ (Finset.mem_union_right _ (mem_primes ht hp)),
    ← Finset.prod_mul_distrib]
  refine Finset.prod_congr rfl fun p hp => ?_
  rw [hnum, zpow_add₀ (hS p hp)]

end Magnitude

end Metrology
