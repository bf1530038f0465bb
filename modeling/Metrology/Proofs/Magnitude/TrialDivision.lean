import Metrology.Proofs.Magnitude.OfRatio

/-!
# The search for prime factors

The search tries one candidate after the other: 2, 3, and in turns of a wheel the two neighbours of each
multiple of six. It divides by a candidate as often as possible, and only before a turn begins it asks
whether what is left is a known prime or too small to have a factor from there on. Here this is a
machine that makes one division or moves to one candidate in a step. What holds before a step holds after
it, and when the machine stops, what is left is prime or one.
-/

namespace Metrology

/-- The candidates are 2, 3 and the neighbours of the multiples of six. -/
def IsCandidate (q : Nat) : Prop := q = 2 ∨ q = 3 ∨ q % 6 = 5 ∨ (q % 6 = 1 ∧ q ≠ 1)

def nextCandidate (q : Nat) : Nat :=
  if q = 2 then 3 else if q = 3 then 5 else if q % 6 = 5 then q + 2 else q + 4

/-- The first candidate of the turn that a candidate belongs to. -/
def turnOf (q : Nat) : Nat := if q % 6 = 5 then q else q - 2

variable {n p q : Nat}

theorem le_turnOf (q : Nat) : q ≤ turnOf q + 2 := by
  unfold turnOf
  split_ifs <;> omega

/-- A candidate that begins no turn belongs to the turn of the one before, or to the first two. -/
theorem turnOf_next (h : IsCandidate q) (hturn : nextCandidate q % 6 ≠ 5) :
    turnOf (nextCandidate q) = turnOf q ∨ turnOf (nextCandidate q) = 1 := by
  unfold IsCandidate at h
  unfold nextCandidate at hturn ⊢
  unfold turnOf
  split_ifs at hturn ⊢ <;> omega

theorem IsCandidate.next (h : IsCandidate q) : IsCandidate (nextCandidate q) := by
  unfold IsCandidate nextCandidate at *
  split_ifs <;> omega

theorem nextCandidate_first (hp : p % 6 = 5) : nextCandidate p = p + 2 := by
  unfold nextCandidate
  split_ifs <;> omega

theorem nextCandidate_second (hp : p % 6 = 5) : nextCandidate (p + 2) = p + 6 := by
  unfold nextCandidate
  split_ifs <;> omega

theorem IsCandidate.two_le (h : IsCandidate q) : 2 ≤ q := by
  unfold IsCandidate at h
  omega

/-- No prime lies between a candidate and the next one. -/
theorem NoFactorBelow.next (h : NoFactorBelow q n) (hq : IsCandidate q) (hdvd : ¬ q ∣ n) :
    NoFactorBelow (nextCandidate q) n := by
  unfold nextCandidate
  by_cases htwo : q = 2
  · subst htwo
    exact h.succ hdvd
  · rw [if_neg htwo]
    by_cases hthree : q = 3
    · subst hthree
      exact (h.succ hdvd).skip (by norm_num)
    · rw [if_neg hthree]
      by_cases hfirst : q % 6 = 5
      · rw [if_pos hfirst]
        exact h.next_odd hfirst hdvd
      · rw [if_neg hfirst]
        obtain ⟨p, rfl⟩ : ∃ p, q = p + 2 := ⟨q - 2, by have := hq.two_le; omega⟩
        unfold IsCandidate at hq
        exact h.next_turn (by omega) hdvd

/-! ### The machine -/

structure Search where
  candidate : Nat
  rest : Nat
  found : List Nat

namespace Search

def start (n : Nat) : Search := ⟨2, n, []⟩

/-- Whether there is a turn that begins with the candidate `p`. -/
def Continues (p n : Nat) : Prop := p ≤ n / p ∧ isKnownPrime n = false

instance (p n : Nat) : Decidable (Continues p n) := inferInstanceAs (Decidable (_ ∧ _))

/-- Divide by the candidate, or move to the next one unless it begins a turn that there is not. -/
def step (s : Search) : Option Search :=
  if s.rest % s.candidate = 0 then
    some ⟨s.candidate, s.rest / s.candidate, s.found ++ [s.candidate]⟩
  else if nextCandidate s.candidate % 6 = 5 ∧ ¬ Continues (nextCandidate s.candidate) s.rest then none
  else some ⟨nextCandidate s.candidate, s.rest, s.found⟩

/-- The second state follows from the first in any number of steps. -/
def Reaches : Search → Search → Prop := Relation.ReflTransGen fun s s' => s.step = some s'

variable {s s' last : Search}

theorem step_divide (h : s.rest % s.candidate = 0) :
    s.step = some ⟨s.candidate, s.rest / s.candidate, s.found ++ [s.candidate]⟩ :=
  if_pos h

theorem step_move (h : s.rest % s.candidate ≠ 0) (hturn : nextCandidate s.candidate % 6 = 5 →
    Continues (nextCandidate s.candidate) s.rest) :
    s.step = some ⟨nextCandidate s.candidate, s.rest, s.found⟩ := by
  rw [step, if_neg h, if_neg fun hstop => hstop.2 (hturn hstop.1)]

theorem step_eq_none : s.step = none ↔ s.rest % s.candidate ≠ 0 ∧
    nextCandidate s.candidate % 6 = 5 ∧ ¬ Continues (nextCandidate s.candidate) s.rest := by
  unfold step
  split_ifs with hdvd hstop <;> simp_all

theorem step_cases (h : s.step = some s') :
    (s.rest % s.candidate = 0 ∧
      s' = ⟨s.candidate, s.rest / s.candidate, s.found ++ [s.candidate]⟩) ∨
    (s.rest % s.candidate ≠ 0 ∧ (nextCandidate s.candidate % 6 = 5 →
      Continues (nextCandidate s.candidate) s.rest) ∧
      s' = ⟨nextCandidate s.candidate, s.rest, s.found⟩) := by
  unfold step at h
  split_ifs at h with hdvd hstop
  · exact .inl ⟨hdvd, (Option.some.inj h).symm⟩
  · refine .inr ⟨hdvd, fun hturn => ?_, (Option.some.inj h).symm⟩
    by_contra hends
    exact hstop ⟨hturn, hends⟩

/-- A state is reached on the way to every state in which the machine stops. -/
theorem Reaches.to_end (h : Reaches s s') (hlast : Reaches s last) (hend : last.step = none) :
    Reaches s' last := by
  have hunique : Relator.RightUnique fun s s' : Search => s.step = some s' :=
    fun _ _ _ h h' => Option.some.inj (h.symm.trans h')
  rcases Relation.ReflTransGen.total_of_right_unique hunique h hlast with hreaches | hreaches
  · exact hreaches
  · rcases hreaches.cases_head with rfl | ⟨next, hnext, -⟩
    · exact .refl
    · rw [hend] at hnext
      cases hnext

theorem Reaches.found_extends (h : Reaches s s') : s.found.IsPrefix s'.found := by
  induction h with
  | refl => exact List.prefix_rfl
  | tail _ hstep ih =>
    rcases step_cases hstep with ⟨-, rfl⟩ | ⟨-, -, rfl⟩
    · exact ih.trans (List.prefix_append _ _)
    · exact ih

/-! ### What the steps preserve -/

/-- What holds of every state in the search for the factors of `n`. -/
structure Sound (n : Nat) (s : Search) : Prop where
  candidate : IsCandidate s.candidate
  positive : 0 < s.rest
  bound : NoFactorBelow s.candidate s.rest
  prime : ∀ q ∈ s.found, q.Prime
  product : s.found.prod * s.rest = n
  /-- A turn begins below the square root of what is left. -/
  square : turnOf s.candidate * turnOf s.candidate ≤ n

theorem sound_start (hn : 0 < n) : (start n).Sound n where
  candidate := .inl rfl
  positive := hn
  bound := fun _ hq _ => hq.two_le
  prime := by rintro _ ⟨⟩
  product := Nat.one_mul n
  square := Nat.zero_le n

namespace Sound

theorem rest_le (h : s.Sound n) : s.rest ≤ n := by
  have hn : 0 < s.found.prod := List.prod_pos fun q hq => (h.prime q hq).pos
  exact h.product ▸ Nat.le_mul_of_pos_left s.rest hn

theorem step (h : s.Sound n) (hstep : s.step = some s') : s'.Sound n := by
  rcases step_cases hstep with ⟨hdvd, rfl⟩ | ⟨hdvd, hturn, rfl⟩
  · have hdvd := Nat.dvd_of_mod_eq_zero hdvd
    have hsplit : s.candidate * (s.rest / s.candidate) = s.rest := Nat.mul_div_cancel' hdvd
    have hprime := h.bound.prime_of_dvd h.candidate.two_le hdvd
    refine ⟨h.candidate, Nat.pos_of_mul_pos_left (hsplit ▸ h.positive),
      h.bound.of_dvd (Nat.div_dvd_of_dvd hdvd), ?_, ?_, h.square⟩
    · rw [List.forall_mem_append, List.forall_mem_singleton]
      exact ⟨h.prime, hprime⟩
    · rw [List.prod_append, List.prod_singleton, mul_assoc, hsplit]
      exact h.product
  · have hbound := h.bound.next h.candidate fun h => hdvd (Nat.mod_eq_zero_of_dvd h)
    refine ⟨h.candidate.next, h.positive, hbound, h.prime, h.product, ?_⟩
    change turnOf (nextCandidate s.candidate) * turnOf (nextCandidate s.candidate) ≤ n
    -- The bound moves when a turn begins, which is below the square root of what is left.
    by_cases hbegins : nextCandidate s.candidate % 6 = 5
    · rw [turnOf, if_pos hbegins]
      exact (Nat.mul_le_of_le_div _ _ _ (hturn hbegins).1).trans h.rest_le
    · rcases turnOf_next h.candidate hbegins with hsame | hone
      · rw [hsame]
        exact h.square
      · rw [hone]
        exact h.positive.trans_le h.rest_le

theorem of_reaches (hn : 0 < n) (h : Reaches (start n) s) : s.Sound n := by
  induction h with
  | refl => exact sound_start hn
  | tail _ hstep ih => exact ih.step hstep

/-- Nothing composite is left in the end: it is a known prime, or no candidate is small enough to
divide it. -/
theorem rest_of_end (h : s.Sound n) (hend : s.step = none) : s.rest = 1 ∨ s.rest.Prime := by
  obtain ⟨hdvd, hturn, hstop⟩ := step_eq_none.mp hend
  by_cases hknown : isKnownPrime s.rest = true
  · exact .inr (prime_of_isKnownPrime hknown)
  · have hbound := h.bound.next h.candidate fun h => hdvd (Nat.mod_eq_zero_of_dvd h)
    have hsmall : s.rest / nextCandidate s.candidate < nextCandidate s.candidate := by
      by_contra hlarge
      exact hstop ⟨by omega, by simpa using hknown⟩
    have hfactors := factors_lastFactor h.positive hbound
      ((Nat.div_lt_iff_lt_mul (by omega)).mp hsmall)
    by_cases hone : s.rest ≤ 1
    · exact .inl (le_antisymm hone h.positive)
    · exact .inr (hfactors.prime s.rest (by simp [lastFactor, hone]))

/-- The search stays far below the limit of 64-bit words. -/
theorem words (h : s.Sound n) (hn : n ≤ 9223372036854775807) :
    s.rest ≤ 9223372036854775807 ∧ s.candidate + 4 < 4294967296 := by
  refine ⟨h.rest_le.trans hn, ?_⟩
  by_contra hlarge
  have hroot : 4294967290 ≤ turnOf s.candidate := by have := le_turnOf s.candidate; omega
  have := Nat.mul_le_mul hroot hroot
  have := h.square
  omega

end Sound

/-! ### What the search finds -/

/-- The machine stops, and it has then found these factors, counting what is left. -/
def Finds (s : Search) (factors : List Nat) : Prop :=
  ∃ last, s.Reaches last ∧ last.step = none ∧ last.found ++ lastFactor last.rest = s.found ++ factors

variable {fuel k m : Nat} {found factors : List Nat}

theorem Finds.of_step (hstep : s.step = some s') (h : s'.Finds factors) (hfound : s'.found = s.found) :
    s.Finds factors := by
  obtain ⟨last, hreaches, hend, hfactors⟩ := h
  exact ⟨last, hreaches.head hstep, hend, hfound ▸ hfactors⟩

theorem finds_of_end (h : s.step = none) : s.Finds (lastFactor s.rest) := ⟨s, .refl, h, rfl⟩

theorem reaches_divideOut (q fuel n : Nat) (found : List Nat) : Reaches ⟨q, n, found⟩
    ⟨q, (divideOut q fuel n).2, found ++ List.replicate (divideOut q fuel n).1 q⟩ := by
  induction fuel generalizing n found with
  | zero =>
    rw [divideOut, List.replicate_zero, List.append_nil]
    exact .refl
  | succ fuel ih =>
    rw [divideOut]
    by_cases hdvd : n % q = 0
    · rw [if_pos hdvd]
      have hrest := ih (n / q) (found ++ [q])
      rw [List.append_assoc, List.singleton_append, ← List.replicate_succ] at hrest
      exact hrest.head (step_divide hdvd)
    · rw [if_neg hdvd, List.replicate_zero, List.append_nil]
      exact .refl

/-- A candidate is split off before the search goes on with what is left. -/
theorem finds_splitFactor {rest : Nat → List Nat} (hq : 2 ≤ q) (hn : 0 < n)
    (hrest : ∀ m found, 0 < m → m ≤ n → m % q ≠ 0 → Finds ⟨q, m, found⟩ (rest m)) :
    Finds ⟨q, n, found⟩ (splitFactor q n rest) := by
  obtain ⟨hproduct, hfree⟩ := divideOut_spec hq hn (@Nat.lt_log2_self n)
  have hreaches := reaches_divideOut q n.log2 n found
  rw [splitFactor]
  set count := (divideOut q n.log2 n).1
  set m := (divideOut q n.log2 n).2
  have hmn : m ∣ n := ⟨q ^ count, by rw [Nat.mul_comm]; exact hproduct⟩
  obtain ⟨last, hlast, hend, hfactors⟩ := hrest m (found ++ List.replicate count q)
    (Nat.pos_of_dvd_of_pos hmn hn) (Nat.le_of_dvd hn hmn) fun h => hfree (Nat.dvd_of_mod_eq_zero h)
  exact ⟨last, hreaches.trans hlast, hend, by rw [hfactors, List.append_assoc]⟩

theorem lastFactor_of_known (h : isKnownPrime n = true) : lastFactor n = [n] :=
  if_neg (by have := (prime_of_isKnownPrime h).two_le; omega)

theorem finds_second (hp : p % 6 = 5) (hm : m % p ≠ 0) (h : Finds ⟨p + 2, m, found⟩ factors) :
    Finds ⟨p, m, found⟩ factors := by
  have hfirst := nextCandidate_first hp
  refine Finds.of_step (step_move hm fun hbegins => ?_) (hfirst ▸ h) rfl
  rw [hfirst] at hbegins
  omega

/-- A turn splits off its two candidates. -/
theorem finds_turn {rest : Nat → List Nat} (hp : p % 6 = 5) (hn : 0 < n)
    (hrest : ∀ m found, 0 < m → m ≤ n → m % (p + 2) ≠ 0 → Finds ⟨p + 2, m, found⟩ (rest m)) :
    Finds ⟨p, n, found⟩ (splitFactor p n fun m => splitFactor (p + 2) m rest) := by
  refine finds_splitFactor (by omega) hn fun m found hm hmn hfree => finds_second hp hfree ?_
  exact finds_splitFactor (by omega) hm fun k found hk hkm => hrest k found hk (hkm.trans hmn)

/-- Where no turn begins, what is left is the last factor, be it known or too small. -/
theorem wheelFactors_of_end (hstop : ¬ Continues p n) :
    unlessKnownPrime n (wheelFactors fuel p) = lastFactor n := by
  unfold unlessKnownPrime
  split
  · rename_i hknown
    exact (lastFactor_of_known hknown).symm
  · rename_i hunknown
    cases fuel with
    | zero => rfl
    | succ fuel =>
      have hsmall : n / p < p := by
        by_contra hlarge
        exact hstop ⟨by omega, by simpa using hunknown⟩
      rw [wheelFactors, if_pos hsmall]

/-- Before a turn the search asks for a known prime and for the square root of what is left. -/
theorem finds_wheelFactors (hturn : nextCandidate q = p) (hp : p % 6 = 5) (hn : 0 < n)
    (hdvd : n % q ≠ 0) (hfuel : n < p + 6 * fuel) :
    Finds ⟨q, n, found⟩ (unlessKnownPrime n (wheelFactors fuel p)) := by
  -- Each turn raises the candidate by six, so the fuel lasts until no turn begins.
  induction fuel generalizing q p n found with
  | zero =>
    have hsmall : n / p = 0 := Nat.div_eq_of_lt (by omega)
    have hstop : ¬ Continues p n := fun h => by have := h.1; omega
    rw [wheelFactors_of_end hstop]
    exact finds_of_end (step_eq_none.mpr ⟨hdvd, hturn ▸ hp, hturn ▸ hstop⟩)
  | succ fuel ih =>
    by_cases hcontinues : Continues p n
    · have hlarge : ¬ n / p < p := hcontinues.1.not_gt
      have hunknown : ¬ isKnownPrime n = true := by simp [hcontinues.2]
      refine Finds.of_step (step_move hdvd fun _ => hturn ▸ hcontinues) ?_ rfl
      rw [hturn, unlessKnownPrime, if_neg hunknown, wheelFactors, if_neg hlarge]
      have hrest (m : Nat) (found : List Nat) (hm : 0 < m) (hmn : m ≤ n) (hfree : m % (p + 2) ≠ 0) :
          Finds ⟨p + 2, m, found⟩ (unlessKnownPrime m (wheelFactors fuel (p + 6))) :=
        ih (nextCandidate_second hp) (by omega) hm hfree (by omega)
      by_cases hdivides : n % p = 0 ∨ n % (p + 2) = 0
      · rw [if_pos hdivides]
        exact finds_turn hp hn hrest
      · rw [if_neg hdivides]
        rw [not_or] at hdivides
        have hundivided := hrest n found hn le_rfl hdivides.2
        rw [unlessKnownPrime, if_neg hunknown] at hundivided
        exact finds_second hp hdivides.1 hundivided
    · rw [wheelFactors_of_end hcontinues]
      exact finds_of_end (step_eq_none.mpr ⟨hdvd, hturn ▸ hp, hturn ▸ hcontinues⟩)

/-- The search finds the prime factors, with each candidate in its turn. -/
theorem finds_primeFactors (hn : 0 < n) : (start n).Finds (primeFactors n) := by
  refine finds_splitFactor le_rfl hn fun m found hm hmn htwo => ?_
  refine Finds.of_step (step_move htwo fun h => by cases h) ?_ rfl
  change Finds ⟨3, m, found⟩ _
  refine finds_splitFactor (by omega) hm fun k found hk hkm hthree => ?_
  exact finds_wheelFactors rfl rfl hk hthree (by omega)

end Search

/-! ### The magnitude of a number -/

open PowerProduct

theorem PowerProduct.ofTerms_initial {α : Type} [Atom α] {k l : List (Term α)}
    {e : PowerProduct α} (h : k.IsPrefix l) (he : ofTerms l = .ok e) : ∃ c, ofTerms k = .ok c := by
  obtain ⟨rest, rfl⟩ := h
  rw [ofTerms, PowerProduct.mul, List.foldlM_append] at he
  obtain ⟨c, hc, -⟩ := bind_eq_ok.mp he
  exact ⟨c, hc⟩

namespace Search

def product (s : Search) : Except Fault Magnitude := ofTerms (s.found.map fun q => ⟨.prime q, .one⟩)

end Search

/-- How a number is factorized: the search goes through its states and stops at the last one, and the
factors it has found make up the magnitude. -/
structure Factorization (n : Nat) (last : Search) (e : Magnitude) : Prop where
  reached : (Search.start n).Reaches last
  stopped : last.step = none
  /-- What is left without a search for its factors is not composite. -/
  left : last.rest = 1 ∨ last.rest.Prime
  found : primeFactors n = last.found ++ lastFactor last.rest
  /-- The numbers of the search stay below the limits of their words, and so does the product. -/
  words : ∀ s, (Search.start n).Reaches s → s.rest ≤ 9223372036854775807 ∧ s.candidate + 4 < 4294967296
  within : ∀ s, (Search.start n).Reaches s → ∃ c, s.product = .ok c ∧ c.length ≤ capacity
  magnitude : Magnitude.ofNat n = .ok e
  canonical : Canonical e
  prime : ∀ t ∈ e, ∃ p k : Nat, t.factor = .prime p ∧ p.Prime ∧ 0 < k ∧ t.power.value = k
  product : e.number = n

theorem factorization_of_word {n : Nat} (hn : 1 ≤ n) (hn' : n ≤ 9223372036854775807) :
    ∃ last e, Factorization n last e := by
  obtain ⟨last, hreached, hstopped, hfound⟩ := Search.finds_primeFactors hn
  rw [show (Search.start n).found = [] from rfl, List.nil_append] at hfound
  obtain ⟨e, he, -⟩ := Magnitude.exists_ofNat hn (by omega)
  have hcanonical := (Magnitude.regular_ofNat he).canonical
  have hsound {s : Search} (hs : (Search.start n).Reaches s) : s.Sound n := .of_reaches hn hs
  refine ⟨last, e, hreached, hstopped, (hsound hreached).rest_of_end hstopped, hfound.symm,
    fun s hs => (hsound hs).words hn', fun s hs => ?_, he, hcanonical, fun t ht => ?_,
    Magnitude.number_ofNat hn he⟩
  · have hbegin : s.found.IsPrefix (primeFactors n) := by
      have hbefore := (hs.to_end hreached hstopped).found_extends
      exact hbefore.trans (hfound ▸ List.prefix_append _ _)
    obtain ⟨c, hc⟩ := ofTerms_initial
      (hbegin.map fun q => (⟨.prime q, .one⟩ : Term MagnitudeBase)) he
    have hlimit := (canonical_mul MagnitudeBase.orderedOn over_nil (Magnitude.over_all _)
      canonical_one hc).bounded
    exact ⟨c, hc, hlimit⟩
  · obtain ⟨p, hp, hfactor⟩ := Magnitude.over_ofNat hn he t ht
    have hpower : t.power.value = n.factorization p := by
      rw [← Magnitude.powerOf_prime_ofNat hn he p, ← hfactor,
        powerOf_of_mem MagnitudeBase.orderedOn (Magnitude.over_all e) hcanonical.sorted ht]
    exact ⟨p, n.factorization p, hfactor, Nat.prime_of_mem_primeFactors hp,
      Nat.Prime.factorization_pos_of_dvd (Nat.prime_of_mem_primeFactors hp) (by omega)
        (Nat.dvd_of_mem_primeFactors hp), hpower⟩

/-- Twice a known prime is factorized without a search for the known prime. -/
theorem factorization_of_word_known : 1 ≤ 669048769478 ∧ 669048769478 ≤ 9223372036854775807 ∧
    ∃ last e, Factorization 669048769478 last e :=
  ⟨by decide, by decide, factorization_of_word (by decide) (by decide)⟩

end Metrology
