import Metrology.Proofs.Magnitude.Checked

/-!
# Ratios and magnitudes correspond

A magnitude stands for at most one rational number, and a rational number has at most one magnitude, since
its powers are the valuations of the number. So the magnitude of a ratio reads as that ratio again, and a
magnitude that reads as a ratio is the magnitude of it. The readings differ only in what they do with a
magnitude that is no ratio.
-/

namespace Metrology

theorem Ratio.isInteger_iff {r : Ratio} : r.isInteger = true ↔ r.value.den = 1 := by
  simp [isInteger, den]

namespace Magnitude

open PowerProduct

variable {m m' : Magnitude} {q : Rat} {r : Ratio}

/-! ### A number has one magnitude -/

theorem number_pos (hm : Over MagnitudeBase.IsPositive m) : 0 < m.number := by
  rw [number_eq_parts]
  exact div_pos (Nat.cast_pos.mpr (part_pos hm)) (Nat.cast_pos.mpr (part_pos hm))

theorem powerOf_of_denotes (hm : m.Built) (hm' : m'.Built) (h : m.Denotes q) (h' : m'.Denotes q)
    (b : MagnitudeBase) : m.powerOf b = m'.powerOf b := by
  apply Ratio.ext
  cases b with
  | prime p =>
    by_cases hp : p.Prime
    · rw [powerOf_prime_of_denotes hm.regular hm.genuine h hp,
        powerOf_prime_of_denotes hm'.regular hm'.genuine h' hp]
    · rw [powerOf_not_prime hm.genuine hp, powerOf_not_prime hm'.genuine hp]
  | constant c =>
    rw [powerOf_constant_of_denotes hm.regular.canonical.sorted hm.genuine h,
      powerOf_constant_of_denotes hm'.regular.canonical.sorted hm'.genuine h']

/-- Where there are only primes, what compares as equal is equal. -/
theorem eq_of_cmp (hm : m.isRational = true) (h : PowerProduct.cmp m m' = .eq) : m = m' := by
  have hprimes : ∀ t ∈ m, t.factor.isPrime = true := fun t ht => (isRational_iff.mp hm t ht).1
  clear hm
  induction m generalizing m' with
  | nil =>
    cases m' with
    | nil => rfl
    | cons => cases h
  | cons s m ih =>
    cases m' with
    | nil => cases h
    | cons t m' =>
      rw [List.forall_mem_cons] at hprimes
      obtain ⟨hfactor, hpower, hrest⟩ := cmp_cons_eq_iff.mp h
      have hsame : s.factor = t.factor := by
        cases hs : s.factor with
        | constant c =>
          rw [hs] at hprimes
          cases hprimes.1
        | prime p =>
          cases ht : t.factor with
          | constant c =>
            rw [hs, ht] at hfactor
            cases hfactor
          | prime q =>
            rw [hs, ht] at hfactor
            rw [Nat.compare_eq_eq.mp hfactor]
      cases s
      cases t
      obtain rfl := hsame
      obtain rfl := hpower
      rw [ih hrest hprimes.2]

theorem eq_of_denotes (hm : m.Built) (hm' : m'.Built) (h : m.Denotes q) (h' : m'.Denotes q) : m = m' := by
  have hsame : PowerProduct.same m m' = true :=
    same_of_powerOf MagnitudeBase.orderedOn m.over_all m'.over_all hm.regular.canonical
      hm'.regular.canonical fun b _ => powerOf_of_denotes hm hm' h h' b
  exact eq_of_cmp ((denotes_iff hm).mp h).1 (same_iff_cmp.mp hsame)

/-- A magnitude has a factor for each prime of the number that it stands for. -/
theorem card_primes_le_of_denotes (hm : m.Built) (hr : 0 < r.value) (h : m.Denotes r.value) :
    r.primes.card ≤ capacity := by
  have hsubset : r.primes ⊆ m.primes := by
    refine primes_subset hr fun p => ?_
    by_cases hp : p.Prime
    · have hnum : r.num.toNat = r.value.num.natAbs := by
        have := Rat.num_pos.mpr hr
        unfold Ratio.num
        omega
      rw [powerOf_prime_of_denotes hm.regular hm.genuine h hp, padicValRat, padicValInt, hnum,
        Nat.factorization_def _ hp, Nat.factorization_def _ hp]
      rfl
    · rw [powerOf_not_prime hm.genuine hp, Nat.factorization_eq_zero_of_not_prime _ hp,
        Nat.factorization_eq_zero_of_not_prime _ hp]
      rfl
  calc r.primes.card ≤ m.primes.card := Finset.card_le_card hsubset
    _ ≤ m.length := card_primes_le m
    _ ≤ capacity := hm.regular.canonical.bounded

/-- A magnitude that stands for a ratio is the magnitude of that ratio. -/
theorem ofRatio_of_denotes (hm : m.Built) (hr : 0 < r.value) (h : m.Denotes r.value) :
    ofRatio r = .ok m := by
  rcases ofRatio_outcome hr with ⟨-, m', hm', hrational, hnumber⟩ | ⟨hcrowded, -⟩
  · have hbuilt : m'.Built := .ofRatio hm'
    rw [hm', eq_of_denotes hm hbuilt h ((denotes_iff hbuilt).mpr ⟨hrational, hnumber⟩)]
  · exact absurd (card_primes_le_of_denotes hm hr h) (not_le.mpr hcrowded)

/-! ### The powers of a ratio -/

theorem powerOf_factor_of_mem (hm : m.Built) {t : Term MagnitudeBase} (ht : t ∈ m) :
    m.powerOf t.factor = t.power :=
  powerOf_of_mem MagnitudeBase.orderedOn m.over_all hm.regular.canonical.sorted ht

/-- The valuation of a 64-bit denominator is far from the smallest 64-bit integer. -/
theorem negatable_of_denotes (hm : m.Built) (h : m.Denotes r.value) : m.Negatable := by
  intro t ht hsmallest
  have hrational := isRational_iff.mp ((denotes_iff hm).mp h).1 t ht
  cases hfactor : t.factor with
  | constant c =>
    rw [hfactor] at hrational
    cases hrational.1
  | prime p =>
    have hp : p.Prime := by
      have := hm.genuine t ht
      rwa [hfactor] at this
    have hvalue : t.power.value = padicValRat p r.value := by
      rw [← powerOf_prime_of_denotes hm.regular hm.genuine h hp, ← hfactor, powerOf_factor_of_mem hm ht]
    have hvaluation : padicValRat p r.value = -9223372036854775808 := by
      rw [← hsmallest]
      have := hrational.2.trans hvalue
      exact_mod_cast this.symm
    have hden : padicValNat p r.value.den < 2 ^ 63 := by
      have hlog := padicValNat_le_nat_log (p := p) r.value.den
      have hself := Nat.log_lt_self p r.value.den_ne_zero
      have hlimit : r.value.den < 2 ^ 63 := r.den_lt
      omega
    have : (0 : Int) ≤ padicValInt p r.value.num := Int.natCast_nonneg _
    rw [padicValRat] at hvaluation
    omega

/-! ### The readings -/

theorem reads_of_denotes (hm : m.Built) (h : m.Denotes r.value) :
    m.toRatio? = .ok (some r) ∧ m.toRatio = .ok r := by
  obtain ⟨hrational, hnumber⟩ := (denotes_iff hm).mp h
  have habs := exists_abs (negatable_of_denotes hm h)
  have hfits := (ratFits_number_iff hm).mp (hnumber ▸ r.fits)
  have hreported := toRatio?_eq hrational hm.regular.positive habs
  have hfaulting := toRatio_eq hrational hm.regular.positive habs
  rw [if_pos hfits] at hreported hfaulting
  obtain ⟨r₁, hr₁, hvalue₁⟩ := hreported
  obtain ⟨r₂, hr₂, hvalue₂⟩ := hfaulting
  obtain rfl : r₁ = r := Ratio.ext (hvalue₁.trans hnumber)
  obtain rfl : r₂ = r₁ := Ratio.ext (hvalue₂.trans hnumber)
  exact ⟨hr₁, hr₂⟩

/-- A magnitude reads as a ratio only if it stands for it. -/
theorem denotes_of_reads (hm : m.Built) (hnegatable : m.Negatable) (h : m.toRatio? = .ok (some r)) :
    m.Denotes r.value := by
  have hrational := isRational_of_toRatio? h
  have hratio := toRatio?_eq hrational hm.regular.positive (exists_abs hnegatable)
  split at hratio
  · obtain ⟨r', hr', hvalue⟩ := hratio
    obtain rfl := Option.some.inj (Except.ok.inj (h.symm.trans hr'))
    exact (denotes_iff hm).mpr ⟨hrational, hvalue.symm⟩
  · cases h.symm.trans hratio

theorem isIntegral_iff_isInteger (hm : m.Built) (h : m.Denotes r.value) :
    m.isIntegral = true ↔ r.isInteger = true := by
  obtain ⟨hrational, hnumber⟩ := (denotes_iff hm).mp h
  rw [Ratio.isInteger_iff]
  constructor
  · intro hintegral
    obtain ⟨k, -, hk⟩ := number_integral hintegral hm.regular.positive
    rw [← hnumber, hk]
    rfl
  · intro hwhole
    refine isIntegral_of_powerOf hm.regular.canonical hrational fun b => ?_
    cases b with
    | prime p =>
      by_cases hp : p.Prime
      · rw [powerOf_prime_of_denotes hm.regular hm.genuine h hp, padicValRat, hwhole,
          padicValNat_one_right, Nat.cast_zero, sub_zero]
        exact_mod_cast Nat.zero_le _
      · rw [powerOf_not_prime hm.genuine hp, Ratio.value_zero]
    | constant c =>
      rw [powerOf_constant_of_denotes hm.regular.canonical.sorted hm.genuine h]

structure Readings (m : Magnitude) : Prop where
  prime {t : Term MagnitudeBase} {p : Nat} : t ∈ m → t.factor = .prime p → p.Prime ∧ Fits64 p
  answered : ∃ x, m.toRatio? = .ok x
  some_iff {r : Ratio} : m.toRatio? = .ok (some r) ↔
    (∀ t ∈ m, t.factor.isPrime = true ∧ t.power.isInteger = true) ∧
      Fits64 (part true m) ∧ Fits64 (part false m) ∧ r.value = part true m / part false m
  exact {r : Ratio} : m.toRatio? = .ok (some r) → m.toRatio = .ok r ∧ m.checkedToRatio = .ok r ∧
    (m.isIntegral = true ↔ r.isInteger = true) ∧ ofRatio r = .ok m
  tooLarge : m.toRatio? = .ok none → m.isRational = true → m.toRatio = .error .overflow ∧
    ∃ text, m.text = .ok text ∧ m.checkedToRatio = .error (.reported (.overflow text))
  irrational : m.toRatio? = .ok none → m.isRational = false →
    m.toRatio = .error .magnitudeNotRational ∧
      ∃ text, m.text = .ok text ∧ m.checkedToRatio = .error (.reported (.notRational text))

theorem toRatio?_eq_some_iff (hm : m.Built) (hnegatable : m.Negatable) : m.toRatio? = .ok (some r) ↔
    (∀ t ∈ m, t.factor.isPrime = true ∧ t.power.isInteger = true) ∧
      Fits64 (part true m) ∧ Fits64 (part false m) ∧ r.value = part true m / part false m := by
  have hall : m.isRational = true ↔
      ∀ t ∈ m, t.factor.isPrime = true ∧ t.power.isInteger = true := by
    simp [isRational]
  rw [fits64_natCast, fits64_natCast, ← hall, ← number_eq_parts]
  constructor
  · intro h
    obtain ⟨hrational, hnumber⟩ := (denotes_iff hm).mp (denotes_of_reads hm hnegatable h)
    obtain ⟨hnum, hden⟩ := (ratFits_number_iff hm).mp (hnumber ▸ r.fits)
    exact ⟨hrational, hnum, hden, hnumber.symm⟩
  · rintro ⟨hrational, -, -, hvalue⟩
    exact (reads_of_denotes hm ((denotes_iff hm).mpr ⟨hrational, hvalue.symm⟩)).1

theorem readings (hm : m.Built) (hnegatable : m.Negatable) : m.Readings where
  prime ht hp := by
    have hgenuine := hm.genuine _ ht
    rw [hp] at hgenuine
    exact ⟨hgenuine, fits64_natCast.mpr (hm.prime_lt ht hp)⟩
  answered := by
    obtain ⟨x, hx, -⟩ := (toRatio?_attains hm.regular.positive).result hnegatable
    exact ⟨x, hx⟩
  some_iff := toRatio?_eq_some_iff hm hnegatable
  exact {r} h := by
    have hdenotes := denotes_of_reads hm hnegatable h
    have hpos : 0 < r.value := by
      rw [← ((denotes_iff hm).mp hdenotes).2]
      exact number_pos hm.regular.positive
    obtain ⟨r', hr', hvalue⟩ := (runtime_ratio hm).exact _ hnegatable hdenotes r.fits
    obtain rfl := Ratio.ext hvalue
    exact ⟨(reads_of_denotes hm hdenotes).2, hr', isIntegral_iff_isInteger hm hdenotes,
      ofRatio_of_denotes hm hpos hdenotes⟩
  tooLarge h hrational := by
    have hlarge : ¬ (part true m < 2 ^ 63 ∧ part false m < 2 ^ 63) := by
      intro hfits
      have hratio := toRatio?_eq hrational hm.regular.positive (exists_abs hnegatable)
      rw [if_pos hfits] at hratio
      obtain ⟨r, hr, -⟩ := hratio
      cases h.symm.trans hr
    have hfault := toRatio_eq hrational hm.regular.positive (exists_abs hnegatable)
    rw [if_neg hlarge] at hfault
    exact ⟨hfault, (runtime_ratio hm).tooLarge _ hnegatable ((denotes_iff hm).mpr ⟨hrational, rfl⟩)
      fun hfits => hlarge ((ratFits_number_iff hm).mp hfits)⟩
  irrational _ hirrational := by
    have hnone : ∀ q, ¬ m.Denotes q := fun q h => by
      rw [((denotes_iff hm).mp h).1] at hirrational
      cases hirrational
    refine ⟨?_, (runtime_ratio hm).irrational hnegatable hnone⟩
    rw [toRatio, if_neg (by simp [hirrational])]

/-- A positive ratio whose primes find room has a magnitude that reads as the ratio, and a magnitude that
reads as a ratio is the magnitude of it. All other magnitudes fault or are reported with the reason. -/
theorem ratio_correspondence :
    (∀ r : Ratio, 0 < r.value → r.primes.card ≤ capacity → ∃ m, ofRatio r = .ok m ∧
      m.isRational = true ∧ m.toRatio? = .ok (some r) ∧ m.toRatio = .ok r) ∧
    ∀ m : Magnitude, m.Built → m.Negatable → m.Readings := by
  refine ⟨fun r hr hroom => ?_, fun m hm hnegatable => readings hm hnegatable⟩
  rcases ofRatio_outcome hr with ⟨-, m, hm, hrational, hnumber⟩ | ⟨hcrowded, -⟩
  · have hbuilt : m.Built := .ofRatio hm
    obtain ⟨hreported, hfaulting⟩ :=
      reads_of_denotes hbuilt ((denotes_iff hbuilt).mpr ⟨hrational, hnumber⟩)
    exact ⟨m, hm, hrational, hreported, hfaulting⟩
  · exact absurd hroom (not_le.mpr hcrowded)

/-- A septillion, which is larger than any ratio. -/
def septillion : Magnitude :=
  [⟨.prime 2, ⟨24, by decide +kernel⟩⟩, ⟨.prime 5, ⟨24, by decide +kernel⟩⟩]

/-- The magnitude of three quarters reads as three quarters, and a septillion does not read as a ratio. -/
theorem ratio_correspondence_septillion :
    (∃ m, ofRatio threeQuarters = .ok m ∧ m.toRatio = .ok threeQuarters) ∧
      powerOfInteger 10 24 = .ok septillion ∧ septillion.Readings ∧
        septillion.toRatio = .error .overflow := by
  obtain ⟨m, hm, -, -, hread⟩ := ratio_correspondence.1 threeQuarters (by decide +kernel) (by decide +kernel)
  have hseptillion : powerOfInteger 10 24 = .ok septillion := by with_unfolding_all rfl
  have hbuilt : septillion.Built := by
    obtain ⟨ten, hten, h⟩ := bind_eq_ok.mp hseptillion
    obtain ⟨r, -, hratio⟩ := bind_eq_ok.mp hten
    obtain ⟨power, -, hpow⟩ := bind_eq_ok.mp h
    exact .pow (.ofRatio hratio) hpow
  have hnegatable : septillion.Negatable := by
    intro t ht
    simp only [septillion, List.mem_cons, List.not_mem_nil, or_false] at ht
    rcases ht with rfl | rfl <;> unfold Ratio.Negatable <;> decide +kernel
  have hreadings := ratio_correspondence.2 septillion hbuilt hnegatable
  have hnone : septillion.toRatio? = .ok none := by with_unfolding_all rfl
  exact ⟨⟨m, hm, hread⟩, hseptillion, hreadings, (hreadings.tooLarge hnone (by decide +kernel)).1⟩

end Magnitude

end Metrology
