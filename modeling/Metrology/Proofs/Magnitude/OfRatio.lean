import Metrology.Proofs.Magnitude.Factorization
import Metrology.Proofs.Magnitude.ToRatio

/-!
# Ratios as magnitudes

A positive ratio has a magnitude as long as its primes find room in a product, and then the magnitude
stands for the ratio. Nothing else can go wrong. A power counts how often a prime divides a 64-bit
number, so no power comes near the limits of a ratio, and a single 64-bit number has fewer primes than
a product has room for; only the primes of a numerator and a denominator together can be too many.
-/

namespace Metrology

/-! ### Few primes divide a 64-bit number -/

/-- Replacing primes of `s` by smaller ones makes the product smaller. -/
theorem prod_le_prod_of_card_le {s t : Finset Nat} (bound : Nat) (ht : ∀ p ∈ t, p ≤ bound)
    (hs : ∀ p ∈ s, p ∉ t → bound ≤ p) (hbound : 0 < bound) (hcard : t.card ≤ s.card) :
    ∏ p ∈ t, p ≤ ∏ p ∈ s, p := by
  have hdiff : (t \ s).card ≤ (s \ t).card := (Finset.card_sdiff_le_card_sdiff_iff).mpr hcard
  have hlower : bound ^ (s \ t).card ≤ ∏ p ∈ s \ t, p :=
    Finset.pow_card_le_prod _ _ _ fun p hp =>
      hs p (Finset.mem_sdiff.mp hp).1 (Finset.mem_sdiff.mp hp).2
  have hupper : ∏ p ∈ t \ s, p ≤ bound ^ (t \ s).card :=
    Finset.prod_le_pow_card _ _ _ fun p hp => ht p (Finset.mem_sdiff.mp hp).1
  calc ∏ p ∈ t, p = (∏ p ∈ t ∩ s, p) * ∏ p ∈ t \ s, p :=
        (Finset.prod_inter_mul_prod_sdiff t s id).symm
    _ ≤ (∏ p ∈ s ∩ t, p) * ∏ p ∈ s \ t, p := by
        rw [Finset.inter_comm t s]
        exact Nat.mul_le_mul_left _
          (hupper.trans ((Nat.pow_le_pow_right hbound hdiff).trans hlower))
    _ = ∏ p ∈ s, p := Finset.prod_inter_mul_prod_sdiff s t id

/-- The primes up to 53, whose product exceeds every 64-bit number. -/
def smallPrimes : Finset Nat := (Finset.range 54).filter Nat.Prime

/-- A product has room for the primes of any 64-bit number. -/
theorem card_primeFactors_lt {n : Nat} (hn : 0 < n) (hn' : n < 2 ^ 63) : n.primeFactors.card < 16 := by
  by_contra hmany
  have hcard : smallPrimes.card = 16 := by decide
  have hproduct : ∏ p ∈ smallPrimes, p = 32589158477190044730 := by decide +kernel
  have hle := prod_le_prod_of_card_le (s := n.primeFactors) (t := smallPrimes) 53
    (fun p hp => by
      have := Finset.mem_range.mp (Finset.mem_filter.mp hp).1
      omega)
    (fun p hp hlarge => by
      by_contra hsmall
      exact hlarge (Finset.mem_filter.mpr
        ⟨Finset.mem_range.mpr (by omega), Nat.prime_of_mem_primeFactors hp⟩))
    (by omega) (by omega)
  have hdvd := Nat.le_of_dvd hn (Nat.prod_primeFactors_dvd n)
  omega

/-! ### Small whole powers -/

theorem ratFits_intCast {z : Int} (hz : z.natAbs < 2 ^ 63) : RatFits z := by
  unfold RatFits Fits64
  rw [Rat.num_intCast, Rat.den_intCast]
  omega

/-- A whole number of size at most `k`. -/
def Ratio.IsWhole (k : Nat) (r : Ratio) : Prop := ∃ z : Int, r.value = z ∧ z.natAbs ≤ k

theorem Ratio.IsWhole.mono {j k : Nat} {r : Ratio} (hr : r.IsWhole j) (hjk : j ≤ k) : r.IsWhole k :=
  let ⟨z, hz, hzj⟩ := hr
  ⟨z, hz, hzj.trans hjk⟩

namespace PowerProduct

section Shape

variable {α : Type} {e : PowerProduct α} {k : Nat}

/-- All powers are whole numbers of size at most `k`. -/
def Whole (k : Nat) (e : PowerProduct α) : Prop := ∀ t ∈ e, t.power.IsWhole k

/-- The inverse exists, since the powers are far from the limits. -/
theorem inverse_of_whole (he : Whole k e) (hk : k < 2 ^ 63) :
    ∃ c, e.inverse = .ok c ∧ Whole k c := by
  have hterms : ∃ c, List.Forall₂ (fun s t : Term α => t.factor = s.factor ∧
      t.power.value = s.power.value * Ratio.minusOne.value) e c ∧ Whole k c := by
    induction e with
    | nil => exact ⟨[], .nil, by simp [Whole]⟩
    | cons t e ih =>
      obtain ⟨⟨z, hz, hzk⟩, he⟩ := List.forall_mem_cons.mp he
      obtain ⟨c, hc, hwhole⟩ := ih he
      obtain ⟨p, -, hp⟩ := (Ratio.ofRat_attains (-z : Int)).result
        (ratFits_intCast (by omega))
      refine ⟨⟨t.factor, p⟩ :: c, .cons ⟨rfl, ?_⟩ hc, List.forall_mem_cons.mpr ⟨?_, hwhole⟩⟩
      · rw [hp, hz, Ratio.value_minusOne]
        push_cast
        ring
      · exact ⟨-z, hp, by omega⟩
  obtain ⟨c, hc, hwhole⟩ := hterms
  exact ⟨c, pow_eq_ok.mpr (.inr ⟨by simp, hc⟩), hwhole⟩

end Shape

variable {α : Type} [Atom α] {S : α → Prop} {a b e : PowerProduct α} {t : Term α} {j k n : Nat}

theorem place_of_whole (he : Whole k e) (ht : t.power.IsWhole j) (hkj : k + j < 2 ^ 63) :
    ∃ c, place t e = .ok c ∧ Whole (k + j) c := by
  have hj : j ≤ k + j := Nat.le_add_left j k
  have hk : k ≤ k + j := Nat.le_add_right k j
  fun_induction place t e with
  | case1 => exact ⟨[t], rfl, by simpa [Whole] using ht.mono hj⟩
  | case2 s rest hlt ih =>
    obtain ⟨hs, hrest⟩ := List.forall_mem_cons.mp he
    obtain ⟨c, hc, hwhole⟩ := ih hrest
    refine ⟨s :: c, ?_, List.forall_mem_cons.mpr ⟨hs.mono hk, hwhole⟩⟩
    rw [hc]
    rfl
  | case3 s rest heq =>
    obtain ⟨⟨y, hy, hyk⟩, hrest⟩ := List.forall_mem_cons.mp he
    obtain ⟨z, hz, hzj⟩ := ht
    obtain ⟨power, hpower, hsum⟩ := (Ratio.ofRat_attains (y + z : Int)).result
      (ratFits_intCast (by omega))
    have hadd : s.power.add t.power = .ok power := by
      rw [Ratio.add_eq_ok, hsum, hy, hz]
      push_cast
      rfl
    have hkeep : Whole (k + j) rest := fun r hr => (hrest r hr).mono hk
    refine ⟨_, bind_eq_ok.mpr ⟨power, hadd, rfl⟩, ?_⟩
    by_cases hzero : power.isZero
    · rwa [if_pos hzero]
    · rw [if_neg hzero]
      exact List.forall_mem_cons.mpr ⟨⟨y + z, hsum, by omega⟩, hkeep⟩
  | case4 s rest hgt =>
    refine ⟨_, rfl, List.forall_mem_cons.mpr ⟨ht.mono hj, fun r hr => ?_⟩⟩
    exact (he r hr).mono hk

/-- Multiplying by a term has a result, or there is no room for it. -/
theorem mulTerm_of_whole (he : Whole k e) (ht : t.power.IsWhole j) (hkj : k + j < 2 ^ 63) :
    (∃ c, e.mulTerm t = .ok c ∧ Whole (k + j) c) ∨
      e.mulTerm t = .error .tooManyFactors ∧ ∃ c, place t e = .ok c ∧ capacity < c.length := by
  by_cases hproper : Proper t
  · obtain ⟨c, hc, hwhole⟩ := place_of_whole he ht hkj
    by_cases hroom : c.length ≤ capacity
    · exact .inl ⟨c, mulTerm_eq_ok.mpr (.inr ⟨hproper, hc, hroom⟩), hwhole⟩
    · have hcond : (t.power.isZero || Atom.isNeutral t.factor) = false := by
        simpa [Proper] using hproper
      refine .inr ⟨?_, c, hc, not_le.mp hroom⟩
      simp [mulTerm, hcond, hc, hroom, bind, Except.bind]
  · exact .inl ⟨e, mulTerm_eq_ok.mpr (.inl ⟨hproper, rfl⟩),
      fun s hs => (he s hs).mono (Nat.le_add_right k j)⟩

/-- Multiplying a product by any list of terms has a result, or `S` has more atoms than fit. -/
theorem mul_of_whole (hS : Atom.OrderedOn S) (hroom : ∀ c, Sorted c → Over S c → c.length ≤ n)
    (ha : Over S a) (hsorted : Sorted a) (hb : Over S b) (hwholeA : Whole k a) (hwholeB : Whole j b)
    (hlimit : k + j * b.length < 2 ^ 63) :
    (∃ c, a.mul b = .ok c ∧ Whole (k + j * b.length) c) ∨
      a.mul b = .error .tooManyFactors ∧ capacity < n := by
  induction b generalizing a k with
  | nil => exact .inl ⟨a, rfl, hwholeA⟩
  | cons t b ih =>
    rw [over_cons] at hb
    rw [Whole, List.forall_mem_cons] at hwholeB
    have hsum : k + j * (t :: b).length = k + j + j * b.length := by
      rw [List.length_cons]
      ring
    rw [hsum] at hlimit ⊢
    rcases mulTerm_of_whole hwholeA hwholeB.1 (by omega) with ⟨d, hd, hwhole⟩ | ⟨hfull, c, hc, hlong⟩
    · have hsortedD : Sorted d := by
        rcases mulTerm_eq_ok.mp hd with ⟨-, rfl⟩ | ⟨-, hplace, -⟩
        · exact hsorted
        · exact sorted_place hS hb.1 ha hsorted hplace
      have hmul : a.mul (t :: b) = d.mul b := by
        show (a.mulTerm t >>= fun d => d.mul b) = _
        rw [hd]
        rfl
      rw [hmul]
      exact ih (over_mulTerm ha hb.1 hd) hsortedD hb.2 hwhole hwholeB.2 hlimit
    · right
      refine ⟨?_, hlong.trans_le (hroom c (sorted_place hS hb.1 ha hsorted hc)
        (over_place hb.1 ha hc))⟩
      show (a.mulTerm t >>= fun d => d.mul b) = _
      rw [hfull]
      rfl

end PowerProduct

/-! ### The primes of a magnitude -/

/-- The primes of the numerator and of the denominator. -/
def Ratio.primes (r : Ratio) : Finset Nat := r.num.natAbs.primeFactors ∪ r.den.primeFactors

theorem Ratio.exists_num {r : Ratio} (hr : 0 < r.value) :
    ∃ n : Nat, r.num = n ∧ 0 < n ∧ n < 2 ^ 63 := by
  have hpos : 0 < r.num := Rat.num_pos.mpr hr
  have hfits : Fits64 r.num := r.fits.1
  unfold Fits64 at hfits
  exact ⟨r.num.toNat, by omega⟩

theorem Ratio.den_lt (r : Ratio) : r.den < 2 ^ 63 := fits64_natCast.mp r.fits.2

namespace MagnitudeBase

def OneOf (P : Finset Nat) (b : MagnitudeBase) : Prop := ∃ p ∈ P, b = .prime p

end MagnitudeBase

namespace Magnitude

open PowerProduct

variable {m a b : Magnitude} {n : Nat} {P : Finset Nat}

theorem card_primes_le (m : Magnitude) : m.primes.card ≤ m.length :=
  (List.toFinset_card_le _).trans (List.length_map _).le

/-- A sorted product of primes in `P` has no more terms than `P` has primes. -/
theorem length_le_card (hsorted : Sorted m) (hP : Over (MagnitudeBase.OneOf P) m) :
    m.length ≤ P.card := by
  have hnodup : (m.map fun t => t.factor.number).Nodup := by
    refine List.pairwise_map.mpr (List.Pairwise.imp_of_mem (fun {s t} hs ht hst hnumber => ?_) hsorted)
    obtain ⟨x, -, hx⟩ := hP s hs
    obtain ⟨y, -, hy⟩ := hP t ht
    rw [hx, hy] at hst hnumber
    obtain rfl : x = y := hnumber
    rw [show Atom.cmp (MagnitudeBase.prime x) (.prime x) = .eq from MagnitudeBase.cmp_self _] at hst
    cases hst
  have hsubset : m.primes ⊆ P := by
    intro p hp
    obtain ⟨t, ht, rfl⟩ := List.mem_map.mp (List.mem_toFinset.mp hp)
    obtain ⟨p, hp, hfactor⟩ := hP t ht
    rw [hfactor]
    exact hp
  calc m.length = (m.map fun t => t.factor.number).length := (List.length_map _).symm
    _ = m.primes.card := (List.toFinset_card_of_nodup hnodup).symm
    _ ≤ P.card := Finset.card_le_card hsubset

/-- The terms of the prime factors of a number. -/
def primeTerms (n : Nat) : List (Term MagnitudeBase) :=
  (primeFactors n).map fun p => ⟨.prime p, .one⟩

theorem over_primeTerms (hn : 0 < n) : Over (MagnitudeBase.OneOf n.primeFactors) (primeTerms n) := by
  intro t ht
  obtain ⟨p, hp, rfl⟩ := List.mem_map.mp ht
  rw [(primeFactors_perm hn).mem_iff] at hp
  exact ⟨p, Nat.mem_primeFactors_iff_mem_primeFactorsList.mpr hp, rfl⟩

/-- A 64-bit number has fewer than 64 prime factors. -/
theorem length_primeTerms (hn : 0 < n) (hn' : n < 2 ^ 63) : (primeTerms n).length < 63 := by
  have hpower : 2 ^ (primeFactors n).length ≤ n := by
    calc 2 ^ (primeFactors n).length ≤ (primeFactors n).prod :=
          List.pow_card_le_prod _ _ fun q hq => ((factors_primeFactors hn).prime q hq).two_le
      _ = n := (factors_primeFactors hn).product
  rw [primeTerms, List.length_map]
  exact (Nat.pow_lt_pow_iff_right (by omega)).mp (hpower.trans_lt hn')

theorem totalPower_primeTerms (hn : 0 < n) (p : Nat) :
    totalPower (primeTerms n) (.prime p) = n.factorization p := by
  have hcount (l : List Nat) : totalPower (l.map fun q => (⟨.prime q, .one⟩ : Term MagnitudeBase))
      (.prime p) = l.count p := by
    unfold totalPower
    induction l with
    | nil => rfl
    | cons q l ih =>
      have hcmp : Atom.cmp (MagnitudeBase.prime q) (.prime p) = .eq ↔ q = p := Nat.compare_eq_eq
      rw [List.map_cons, List.count_cons]
      by_cases hqp : q = p
      · rw [List.filter_cons_of_pos (by simpa [hcmp] using hqp), List.map_cons, List.sum_cons, ih]
        simp [hqp, add_comm]
      · rw [List.filter_cons_of_neg (by simp [hcmp, hqp]), ih]
        simp [hqp]
  rw [primeTerms, hcount, (primeFactors_perm hn).count_eq, Nat.primeFactorsList_count_eq]

/-! ### Numbers -/

theorem exists_ofNat (hn : 0 < n) (hn' : n < 2 ^ 63) : ∃ a, ofNat n = .ok a ∧ Whole 63 a := by
  have hwhole : Whole 1 (primeTerms n) := by
    intro t ht
    obtain ⟨p, -, rfl⟩ := List.mem_map.mp ht
    exact ⟨1, rfl, le_rfl⟩
  have hover := over_primeTerms hn
  have hfew : n.primeFactors.card ≤ capacity := Nat.le_of_lt (card_primeFactors_lt hn hn')
  have hlength := length_primeTerms hn hn'
  rcases mul_of_whole (MagnitudeBase.orderedOn.mono fun _ _ => trivial)
      (fun c hc hP => length_le_card hc hP) over_nil sorted_nil hover (by simp [Whole]) hwhole
      (k := 0) (by omega) with ⟨a, ha, hbound⟩ | ⟨-, hmany⟩
  · exact ⟨a, ha, fun t ht => (hbound t ht).mono (by omega)⟩
  · omega

theorem over_ofNat (hn : 0 < n) (h : ofNat n = .ok a) :
    Over (MagnitudeBase.OneOf n.primeFactors) a :=
  over_mul over_nil (over_primeTerms hn) h

theorem powerOf_prime_ofNat (hn : 0 < n) (h : ofNat n = .ok a) (p : Nat) :
    (a.powerOf (.prime p)).value = n.factorization p := by
  rw [powerOf_ofTerms MagnitudeBase.orderedOn (over_all _) h trivial]
  by_cases hone : p = 1
  · subst hone
    simp [Atom.isNeutral, MagnitudeBase.isOne]
  · rw [if_neg (by simpa [Atom.isNeutral, MagnitudeBase.isOne] using hone)]
    exact totalPower_primeTerms hn p

theorem powerOf_constant (hP : Over (MagnitudeBase.OneOf P) m) (c : Constant) :
    m.powerOf (.constant c) = .zero := by
  apply powerOf_eq_zero
  intro t ht heq
  obtain ⟨p, -, hp⟩ := hP t ht
  rw [hp] at heq
  cases heq

theorem isRational_ofNat (hn : 0 < n) (h : ofNat n = .ok a) : a.isRational = true := by
  refine (isRational_iff_powerOf (regular_ofNat h).canonical).mpr fun b => ?_
  cases b with
  | prime p =>
    refine ⟨?_, fun hprime => by cases hprime⟩
    rw [Ratio.num, powerOf_prime_ofNat hn h]
    simp
  | constant c =>
    rw [powerOf_constant (over_ofNat hn h)]
    exact ⟨rfl, fun _ => rfl⟩

theorem number_ofNat (hn : 0 < n) (h : ofNat n = .ok a) : a.number = n := by
  have hP : ∀ t ∈ a, ∀ p, t.factor = .prime p → p ∈ n.primeFactors := by
    intro t ht p hp
    obtain ⟨q, hq, hfactor⟩ := over_ofNat hn h t ht
    rw [hp] at hfactor
    exact MagnitudeBase.prime.inj hfactor ▸ hq
  have hnum (p : Nat) : (a.powerOf (.prime p)).num = (n.factorization p : Int) := by
    rw [Ratio.num, powerOf_prime_ofNat hn h, Rat.num_natCast]
  rw [number_eq_prod (regular_ofNat h).canonical.sorted hP]
  simp only [hnum, zpow_natCast]
  exact_mod_cast Nat.prod_factorization_pow_eq_self hn.ne'

/-! ### Ratios -/

/-- A quotient of numbers subtracts the powers. -/
theorem powerOf_prime_div {d : Nat} (hn : 0 < n) (hd : 0 < d) (ha : ofNat n = .ok a)
    (hb : ofNat d = .ok b) (h : PowerProduct.div a b = .ok m) (p : Nat) :
    (m.powerOf (.prime p)).value = ((n.factorization p : Int) - d.factorization p : Int) := by
  rw [(regular_ofNat ha).powerOf_div (regular_ofNat hb) h, powerOf_prime_ofNat hn ha,
    powerOf_prime_ofNat hd hb]
  push_cast
  rfl

theorem isRational_div {d : Nat} (hn : 0 < n) (hd : 0 < d) (ha : ofNat n = .ok a)
    (hb : ofNat d = .ok b) (h : PowerProduct.div a b = .ok m) : m.isRational = true := by
  have hm := (regular_ofNat ha).div (regular_ofNat hb) h
  refine (isRational_iff_powerOf hm.canonical).mpr fun f => ?_
  cases f with
  | prime p =>
    refine ⟨?_, fun hprime => by cases hprime⟩
    rw [Ratio.num, powerOf_prime_div hn hd ha hb h, Rat.num_intCast]
  | constant c =>
    have hzero : (m.powerOf (.constant c)).value = 0 := by
      rw [(regular_ofNat ha).powerOf_div (regular_ofNat hb) h, powerOf_constant (over_ofNat hn ha),
        powerOf_constant (over_ofNat hd hb), sub_self]
    refine ⟨?_, fun _ => hzero⟩
    rw [Ratio.num, hzero]
    rfl

theorem number_div {d : Nat} (hn : 0 < n) (hd : 0 < d) (ha : ofNat n = .ok a)
    (hb : ofNat d = .ok b) (h : PowerProduct.div a b = .ok m) : m.number = n / d := by
  have hA := regular_ofNat ha
  have hB := regular_ofNat hb
  have hproduct : a.number = m.number * b.number := by
    refine number_of_powers hA (hA.div hB h) hB (isRational_div hn hd ha hb h)
      (isRational_ofNat hd hb) fun f => ?_
    rw [hA.powerOf_div hB h, sub_add_cancel]
  rw [number_ofNat hn ha, number_ofNat hd hb] at hproduct
  exact (eq_div_iff (Nat.cast_ne_zero.mpr hd.ne')).mpr hproduct.symm

/-- In lowest terms a prime that occurs has a power that is not zero. -/
theorem primes_subset {r : Ratio} (hr : 0 < r.value) {m : Magnitude}
    (hpowers : ∀ p : Nat, (m.powerOf (.prime p)).value =
      ((r.num.toNat.factorization p : Int) - r.den.factorization p : Int)) :
    r.primes ⊆ m.primes := by
  intro p hp
  have hnum : r.num.natAbs = r.num.toNat := by
    have := Rat.num_pos.mpr hr
    unfold Ratio.num
    omega
  have hcoprime : Nat.Coprime r.num.toNat r.den := hnum ▸ r.value.reduced
  rw [Ratio.primes, hnum] at hp
  have hpower : (m.powerOf (.prime p)).value ≠ 0 := by
    rw [hpowers, Int.cast_ne_zero, sub_ne_zero]
    intro heq
    have heq : r.num.toNat.factorization p = r.den.factorization p := by exact_mod_cast heq
    rw [← Nat.support_factorization, ← Nat.support_factorization, Finset.mem_union,
      Finsupp.mem_support_iff, Finsupp.mem_support_iff, ← heq, or_self] at hp
    have hdisjoint := Finset.disjoint_left.mp (Nat.Coprime.disjoint_primeFactors hcoprime)
    rw [← Nat.support_factorization, ← Nat.support_factorization] at hdisjoint
    exact hdisjoint (Finsupp.mem_support_iff.mpr hp) (Finsupp.mem_support_iff.mpr (heq ▸ hp))
  rcases powerOf_cases m (.prime p) with hzero | ⟨t, ht, htp, -⟩
  · exact absurd (congrArg Ratio.value hzero) hpower
  · cases hfactor : t.factor with
    | constant c =>
      rw [hfactor] at htp
      cases htp
    | prime q =>
      rw [hfactor] at htp
      obtain rfl : q = p := Nat.compare_eq_eq.mp htp
      exact mem_primes ht hfactor

/-- A positive ratio has a magnitude, and it is the ratio, exactly if its primes find room. -/
theorem ofRatio_outcome {r : Ratio} (hr : 0 < r.value) :
    (r.primes.card ≤ capacity ∧
      ∃ m, ofRatio r = .ok m ∧ m.isRational = true ∧ m.number = r.value) ∨
    (capacity < r.primes.card ∧ ofRatio r = .error .tooManyFactors) := by
  obtain ⟨n, hn, hpos, hlimit⟩ := Ratio.exists_num hr
  have hden : 0 < r.den := r.value.den_pos
  obtain ⟨a, ha, hwholeA⟩ := exists_ofNat hpos hlimit
  obtain ⟨b, hb, hwholeB⟩ := exists_ofNat hden r.den_lt
  obtain ⟨i, hi, hwholeI⟩ := inverse_of_whole hwholeB (by omega)
  have hratio : ofRatio r = a.mul i := by
    unfold ofRatio
    rw [if_pos (Ratio.isPositive_iff.mpr hr), hn, Int.toNat_natCast, ha, hb]
    show PowerProduct.div a b = _
    rw [PowerProduct.div, hi]
    rfl
  have hprimes : r.primes = n.primeFactors ∪ r.den.primeFactors := by
    rw [Ratio.primes, hn, Int.natAbs_natCast]
  have hoverA : Over (MagnitudeBase.OneOf r.primes) a := fun t ht =>
    let ⟨p, hp, hfactor⟩ := over_ofNat hpos ha t ht
    ⟨p, hprimes ▸ Finset.mem_union_left _ hp, hfactor⟩
  have hoverB : Over (MagnitudeBase.OneOf r.primes) b := fun t ht =>
    let ⟨p, hp, hfactor⟩ := over_ofNat hden hb t ht
    ⟨p, hprimes ▸ Finset.mem_union_right _ hp, hfactor⟩
  have hlength : i.length ≤ 16 := ((regular_ofNat hb).pow hi).canonical.bounded
  rw [hratio]
  rcases mul_of_whole (MagnitudeBase.orderedOn.mono fun _ _ => trivial)
      (fun c hc hP => length_le_card hc hP) hoverA (regular_ofNat ha).canonical.sorted
      (over_pow hoverB hi) hwholeA hwholeI (by omega) with ⟨m, hm, -⟩ | ⟨hfull, hmany⟩
  · have hdiv : PowerProduct.div a b = .ok m := div_eq_ok.mpr ⟨i, hi, hm⟩
    have hroom : r.primes.card ≤ capacity := by
      have hsubset : r.primes ⊆ primes m := primes_subset hr fun p => by
        rw [hn, Int.toNat_natCast]
        exact powerOf_prime_div hpos hden ha hb hdiv p
      calc r.primes.card ≤ (primes m).card := Finset.card_le_card hsubset
        _ ≤ m.length := card_primes_le m
        _ ≤ capacity := ((regular_ofNat ha).div (regular_ofNat hb) hdiv).canonical.bounded
    refine .inl ⟨hroom, m, hm, isRational_div hpos hden ha hb hdiv, ?_⟩
    have hvalue : (r.num : Rat) / r.den = r.value := Rat.num_div_den r.value
    rw [number_div hpos hden ha hb hdiv, ← hvalue, hn]
    rfl
  · exact .inr ⟨hmany, hfull⟩

end Magnitude

end Metrology
