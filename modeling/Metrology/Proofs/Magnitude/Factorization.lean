import Metrology.Magnitude.Factorization
import Mathlib

/-!
# Trial division factors

Trial division answers with primes whose product is the number it was given. The invariant is a lower
bound: when a candidate is tried, every prime factor of what is left is at least that candidate. So a
candidate that divides is prime itself, and what is left is prime or one as soon as it is smaller than
the square of the next candidate. The wheel visits two of every six numbers, and the four it leaves out
are multiples of 2 or 3.
-/

namespace Metrology

/-! ### Primes known in advance -/

/-- Three is a primitive root: its powers to the largest proper divisors of the order are not one. -/
theorem prime_334524384739 : Nat.Prime 334524384739 := by
  have horder : (334524384739 - 1 : Nat) = 2 * 3 ^ 2 * 66947 * 277603 := by norm_num
  refine lucas_primality _ (3 : ZMod 334524384739) (by reduce_mod_char) fun q hq hdvd => ?_
  have hcases : q = 2 ∨ q = 3 ∨ q = 66947 ∨ q = 277603 := by
    rw [horder, hq.dvd_mul, hq.dvd_mul, hq.dvd_mul] at hdvd
    rcases hdvd with ((h | h) | h) | h
    · exact .inl ((Nat.prime_dvd_prime_iff_eq hq (by norm_num)).mp h)
    · exact .inr (.inl ((Nat.prime_dvd_prime_iff_eq hq (by norm_num)).mp (hq.dvd_of_dvd_pow h)))
    · exact .inr (.inr (.inl ((Nat.prime_dvd_prime_iff_eq hq (by norm_num)).mp h)))
    · exact .inr (.inr (.inr ((Nat.prime_dvd_prime_iff_eq hq (by norm_num)).mp h)))
  rcases hcases with rfl | rfl | rfl | rfl
  all_goals
    norm_num
    reduce_mod_char
    decide

theorem prime_of_isKnownPrime {n : Nat} (h : isKnownPrime n = true) : n.Prime := by
  have hcases : n = 2147483647 ∨ n = 334524384739 ∨ n = 2305843009213693951 := by
    simpa [isKnownPrime, or_assoc] using h
  rcases hcases with rfl | rfl | rfl
  · exact lucas_lehmer_sufficiency 31 (by norm_num) (by norm_num)
  · exact prime_334524384739
  · exact lucas_lehmer_sufficiency 61 (by norm_num) (by norm_num)

/-! ### The invariant -/

/-- No prime below `p` divides `n`. -/
def NoFactorBelow (p n : Nat) : Prop := ∀ q, q.Prime → q ∣ n → p ≤ q

/-- The list holds primes only, and their product is `n`. -/
structure Factors (n : Nat) (factors : List Nat) : Prop where
  prime : ∀ q ∈ factors, q.Prime
  product : factors.prod = n

namespace NoFactorBelow

variable {p n m : Nat}

theorem of_dvd (h : NoFactorBelow p n) (hm : m ∣ n) : NoFactorBelow p m :=
  fun q hq hqm => h q hq (hqm.trans hm)

theorem succ (h : NoFactorBelow p n) (hp : ¬ p ∣ n) : NoFactorBelow (p + 1) n := by
  intro q hq hqn
  have hne : p ≠ q := fun heq => hp (heq ▸ hqn)
  exact lt_of_le_of_ne (h q hq hqn) hne

theorem skip (h : NoFactorBelow p n) (hp : ¬ p.Prime) : NoFactorBelow (p + 1) n := by
  intro q hq hqn
  have hne : p ≠ q := fun heq => hp (heq ▸ hq)
  exact lt_of_le_of_ne (h q hq hqn) hne

theorem prime_of_dvd (h : NoFactorBelow p n) (hp : 2 ≤ p) (hdvd : p ∣ n) : p.Prime := by
  have hmin : p ≤ p.minFac := h _ (Nat.minFac_prime (by omega)) ((Nat.minFac_dvd p).trans hdvd)
  exact Nat.prime_def_minFac.mpr ⟨hp, le_antisymm (Nat.minFac_le (by omega)) hmin⟩

/-- The number after the first candidate of a turn is even. -/
theorem next_odd (h : NoFactorBelow p n) (hwheel : p % 6 = 5) (hdvd : ¬ p ∣ n) :
    NoFactorBelow (p + 2) n :=
  (h.succ hdvd).skip fun hprime => by
    have := hprime.eq_one_or_self_of_dvd 2 (by omega)
    omega

/-- Of the three numbers after the second candidate of a turn 2 divides two and 3 the other. -/
theorem next_turn (h : NoFactorBelow (p + 2) n) (hwheel : p % 6 = 5)
    (hdvd : ¬ p + 2 ∣ n) : NoFactorBelow (p + 6) n := by
  have hthree : NoFactorBelow (p + 3) n := h.succ hdvd
  have hfour : NoFactorBelow (p + 4) n := hthree.skip fun hprime => by
    have := hprime.eq_one_or_self_of_dvd 2 (by omega)
    omega
  have hfive : NoFactorBelow (p + 5) n := hfour.skip fun hprime => by
    have := hprime.eq_one_or_self_of_dvd 3 (by omega)
    omega
  exact hfive.skip fun hprime => by
    have := hprime.eq_one_or_self_of_dvd 2 (by omega)
    omega

end NoFactorBelow

/-! ### The steps of the search -/

theorem factors_append {m n : Nat} {a b : List Nat} (ha : Factors m a) (hb : Factors n b) :
    Factors (m * n) (a ++ b) where
  prime q hq := (List.mem_append.mp hq).elim (ha.prime q) (hb.prime q)
  product := by rw [List.prod_append, ha.product, hb.product]

theorem factors_replicate {p : Nat} (hp : p.Prime) (k : Nat) :
    Factors (p ^ k) (List.replicate k p) where
  prime _ hq := List.eq_of_mem_replicate hq ▸ hp
  product := List.prod_replicate k p

/-- Dividing out takes away a power of the candidate, and with enough fuel all of it. -/
theorem divideOut_spec {p fuel n : Nat} (hp : 2 ≤ p) (hn : 0 < n) (hfuel : n < 2 ^ (fuel + 1)) :
    n = p ^ (divideOut p fuel n).1 * (divideOut p fuel n).2 ∧ ¬ p ∣ (divideOut p fuel n).2 := by
  induction fuel generalizing n with
  | zero =>
    refine ⟨by simp [divideOut], fun hdvd => ?_⟩
    have hle : p ≤ n := Nat.le_of_dvd hn hdvd
    omega
  | succ fuel ih =>
    rw [divideOut]
    by_cases hdvd : n % p = 0
    · rw [if_pos hdvd]
      have hsplit : p * (n / p) = n := Nat.mul_div_cancel' (Nat.dvd_of_mod_eq_zero hdvd)
      have hpos : 0 < n / p := Nat.pos_of_mul_pos_left (hsplit ▸ hn)
      have hhalf : n / p ≤ n / 2 := Nat.div_le_div_left hp two_pos
      obtain ⟨hproduct, hrest⟩ := ih hpos (by omega)
      refine ⟨?_, hrest⟩
      calc n = p * (n / p) := hsplit.symm
        _ = p * (p ^ (divideOut p fuel (n / p)).1 * (divideOut p fuel (n / p)).2) := by
          rw [← hproduct]
        _ = _ := by ring
    · rw [if_neg hdvd]
      exact ⟨by simp, fun h => hdvd (Nat.mod_eq_zero_of_dvd h)⟩

/-- A candidate that no smaller prime precedes is split off, and the rest is free of it. -/
theorem factors_splitFactor {p n : Nat} {rest : Nat → List Nat} (hp : 2 ≤ p) (hn : 0 < n)
    (hbound : NoFactorBelow p n)
    (hrest : ∀ m, 0 < m → m ∣ n → ¬ p ∣ m → Factors m (rest m)) :
    Factors n (splitFactor p n rest) := by
  obtain ⟨hproduct, hfree⟩ := divideOut_spec hp hn (@Nat.lt_log2_self n)
  set k := (divideOut p n.log2 n).1 with hk
  set m := (divideOut p n.log2 n).2 with hm
  have hmn : m ∣ n := ⟨p ^ k, by rw [Nat.mul_comm]; exact hproduct⟩
  have htail : Factors m (rest m) := hrest m (Nat.pos_of_dvd_of_pos hmn hn) hmn hfree
  have hhead : Factors (p ^ k) (List.replicate k p) := by
    by_cases hzero : k = 0
    · rw [hzero]
      exact ⟨by simp, by simp⟩
    · have hdvd : p ∣ n := hproduct ▸ (dvd_pow_self p hzero).mul_right m
      exact factors_replicate (hbound.prime_of_dvd hp hdvd) k
  have hall := factors_append hhead htail
  rwa [← hproduct] at hall

theorem factors_lastFactor {p n : Nat} (hn : 0 < n) (hbound : NoFactorBelow p n)
    (hsmall : n < p * p) : Factors n (lastFactor n) := by
  unfold lastFactor
  by_cases hone : n ≤ 1
  · rw [if_pos hone]
    exact ⟨by simp, by simp; omega⟩
  · rw [if_neg hone]
    have hprime : n.Prime := by
      by_contra hcomposite
      have hsquare : n.minFac ^ 2 ≤ n := Nat.minFac_sq_le_self hn hcomposite
      have hmin : p ≤ n.minFac := hbound _ (Nat.minFac_prime (by omega)) (Nat.minFac_dvd n)
      have := Nat.mul_le_mul hmin hmin
      rw [sq] at hsquare
      omega
    exact ⟨by simpa using hprime, by simp⟩

theorem factors_unlessKnownPrime {n : Nat} {search : Nat → List Nat}
    (h : Factors n (search n)) : Factors n (unlessKnownPrime n search) := by
  unfold unlessKnownPrime
  split
  · rename_i hknown
    exact ⟨by simpa using prime_of_isKnownPrime hknown, by simp⟩
  · exact h

/-- Each turn raises the candidate by six, so the fuel lasts until the candidate passes the number. -/
theorem factors_wheelFactors {fuel p n : Nat} (hn : 0 < n) (hwheel : p % 6 = 5)
    (hbound : NoFactorBelow p n) (hfuel : n < p + 6 * fuel) :
    Factors n (wheelFactors fuel p n) := by
  have hp : 5 ≤ p := by omega
  induction fuel generalizing p n with
  | zero => exact factors_lastFactor hn hbound (by nlinarith)
  | succ fuel ih =>
    rw [wheelFactors]
    by_cases hsmall : n / p < p
    · rw [if_pos hsmall]
      exact factors_lastFactor hn hbound ((Nat.div_lt_iff_lt_mul (by omega)).mp hsmall)
    · rw [if_neg hsmall]
      have hturn {m : Nat} (hm : 0 < m) (hmn : m ∣ n) (hfirst : ¬ p ∣ m) (hsecond : ¬ p + 2 ∣ m) :
          Factors m (wheelFactors fuel (p + 6) m) := by
        have hle : m ≤ n := Nat.le_of_dvd hn hmn
        have hraised := ((hbound.of_dvd hmn).next_odd hwheel hfirst).next_turn hwheel hsecond
        exact ih hm (by omega) hraised (by omega) (by omega)
      by_cases hdvd : n % p = 0 ∨ n % (p + 2) = 0
      · rw [if_pos hdvd]
        refine factors_splitFactor (by omega) hn hbound fun m hm hmn hfirst => ?_
        refine factors_splitFactor (by omega) hm
          ((hbound.of_dvd hmn).next_odd hwheel hfirst) fun k hk hkm hsecond => ?_
        have hkn : k ∣ n := hkm.trans hmn
        exact factors_unlessKnownPrime
          (hturn hk hkn (fun h => hfirst (h.trans hkm)) hsecond)
      · rw [if_neg hdvd]
        rw [not_or] at hdvd
        exact hturn hn dvd_rfl (fun h => hdvd.1 (Nat.mod_eq_zero_of_dvd h))
          fun h => hdvd.2 (Nat.mod_eq_zero_of_dvd h)

theorem factors_primeFactors {n : Nat} (hn : 0 < n) : Factors n (primeFactors n) := by
  have htwo : NoFactorBelow 2 n := fun q hq _ => hq.two_le
  refine factors_splitFactor le_rfl hn htwo fun m hm hmn hodd => ?_
  have hthree : NoFactorBelow 3 m := (htwo.of_dvd hmn).succ hodd
  refine factors_splitFactor (by omega) hm hthree fun k hk hkm hfree => ?_
  have hfive : NoFactorBelow 5 k :=
    ((hthree.of_dvd hkm).succ hfree).skip (by norm_num)
  exact factors_unlessKnownPrime (factors_wheelFactors hk rfl hfive (by omega))

/-- The factors are the prime factors, each as often as it divides. -/
theorem primeFactors_perm {n : Nat} (hn : 0 < n) : (primeFactors n).Perm n.primeFactorsList :=
  Nat.primeFactorsList_unique (factors_primeFactors hn).product (factors_primeFactors hn).prime

end Metrology
