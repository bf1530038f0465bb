import Metrology.Proofs.Magnitude.Meaning

/-!
# Conversions at run time

The conversions between ratios and magnitudes that take values supplied at run time report a failure
instead of faulting: a ratio that is not positive, a magnitude that is not a rational number, a rational
number that is not a ratio. Two faults are left. A ratio of more primes than a product has room for has
no magnitude, and a magnitude one of whose powers has the smallest 64-bit numerator has neither a ratio
nor a text, since both negate that power.
-/

namespace Metrology

/-! ### Powers without a negation -/

/-- The smallest 64-bit integer is the only one whose negation is not one. -/
def Ratio.Negatable (a : Ratio) : Prop := a.num ≠ -9223372036854775808

theorem Attains.mapM {α β : Type} {f : α → Except Fault β} {fits : α → Prop} {items : List α}
    (h : ∀ a ∈ items, Attains (fits a) (f a) fun _ => fits a) :
    Attains (∀ a ∈ items, fits a) (items.mapM f) fun _ => ∀ a ∈ items, fits a := by
  induction items with
  | nil => exact .of_ok rfl (by simp)
  | cons a items ih =>
    rw [List.forall_mem_cons] at h
    simp only [List.mapM_cons, List.forall_mem_cons]
    refine (h.1.mono And.left fun _ ha => ha).bind fun _ ha => ?_
    exact ((ih h.2).mono And.right fun _ hrest => hrest).bind fun _ hrest => .of_ok rfl ⟨ha, hrest⟩

namespace Ratio

theorem neg_attains (a : Ratio) : Attains a.Negatable a.neg fun _ => a.Negatable := by
  have hfits : RatFits (-a.value) ↔ a.Negatable := a.fits_neg_iff
  rcases ofRat_attains (-a.value) with ⟨r, hr, hvalue⟩ | ⟨herror, hlarge⟩
  · exact .of_ok hr (hfits.mp (hvalue ▸ r.fits))
  · exact .inr ⟨herror, fun h => hlarge (hfits.mpr h)⟩

theorem abs_attains (a : Ratio) : Attains a.Negatable a.abs fun _ => a.isNegative → a.Negatable := by
  unfold abs
  by_cases hnegative : a.isNegative
  · rw [if_pos hnegative]
    exact a.neg_attains.mono id fun _ h _ => h
  · rw [if_neg hnegative]
    exact .of_ok rfl fun h => absurd h hnegative

theorem negatable_of_isPositive {a : Ratio} (h : a.isPositive = true) : a.Negatable := by
  have hpos : 0 < a.num := of_decide_eq_true h
  unfold Negatable
  omega

end Ratio

namespace PowerProduct

variable {parts : List (String × Ratio)} {ascii positive : Bool}

/-- Only the powers below the slash are negated. -/
theorem groupText_attains :
    Attains (positive = false → ∀ part ∈ parts, part.2.Negatable) (groupText ascii positive parts)
      fun _ => positive = false → ∀ part ∈ parts, part.2.Negatable := by
  have hparts : (∀ part ∈ parts.filter (fun part => part.2.isPositive == positive),
      positive = false → part.2.Negatable) ↔ (positive = false → ∀ part ∈ parts, part.2.Negatable) := by
    constructor
    · rintro h rfl part hpart
      by_cases hsign : part.2.isPositive
      · exact Ratio.negatable_of_isPositive hsign
      · exact h part (List.mem_filter.mpr ⟨hpart, by simpa using hsign⟩) rfl
    · intro h part hpart hbelow
      exact h hbelow part (List.mem_filter.mp hpart).1
  unfold groupText
  rw [← hparts]
  refine (Attains.mapM fun part _ => ?_).bind fun _ h => .of_ok rfl h
  cases positive with
  | true => exact .of_ok rfl fun h => by cases h
  | false =>
    exact (part.2.neg_attains.mono (fun h => h rfl) fun _ h => h).bind fun _ h => .of_ok rfl fun _ => h

theorem render_attains :
    Attains (∀ part ∈ parts, part.2.Negatable) (render ascii parts)
      fun _ => ∀ part ∈ parts, part.2.Negatable := by
  unfold render
  refine (groupText_attains.mono (fun h _ => h) fun _ h => h).bind fun above _ => ?_
  refine (groupText_attains.mono (fun h _ => h) fun _ h => h).bind fun below h => ?_
  exact .of_ok rfl (h rfl)

end PowerProduct

namespace Magnitude

open PowerProduct

variable {m : Magnitude} {positive : Bool}

/-- Every power has a negation. -/
def Negatable (m : Magnitude) : Prop := ∀ t ∈ m, t.power.Negatable

theorem productText_attains (m : Magnitude) :
    Attains m.Negatable m.productText fun _ => m.Negatable := by
  have hparts : (∀ part ∈ m.map fun t => (MagnitudeBase.text false t.factor, t.power),
      part.2.Negatable) ↔ m.Negatable := by
    simp [Negatable]
  rw [← hparts]
  exact render_attains

/-- A step has a product only if the step before it has one, and only if it can negate the power. -/
theorem primeStep_attains {t : Term MagnitudeBase} (ht : t.factor.isPrime = true)
    (product : Option Int) :
    Attains t.power.Negatable (primeStep positive product t)
      fun result => result.isSome → product.isSome ∧ (positive = false → t.power.Negatable) := by
  unfold primeStep
  cases hfactor : t.factor with
  | constant c =>
    rw [hfactor] at ht
    cases ht
  | prime p =>
    cases product with
    | none => exact .of_ok rfl fun h => by cases h
    | some product =>
      by_cases hsign : (t.power.isPositive == positive) = true
      · simp only [if_pos hsign]
        refine t.power.abs_attains.bind fun size hsize => .of_ok rfl fun _ => ⟨rfl, ?_⟩
        rintro rfl
        by_cases hnegative : t.power.isNegative
        · exact hsize hnegative
        · have : ¬ t.power.num < 0 := by simpa [Ratio.isNegative] using hnegative
          unfold Ratio.Negatable
          omega
      · simp only [if_neg hsign]
        refine .of_ok rfl fun _ => ⟨rfl, ?_⟩
        rintro rfl
        exact Ratio.negatable_of_isPositive (by simpa using hsign)

/-- The product of the negative powers has a result only if all of them have a size. -/
theorem primeProduct_attains (hrational : m.isRational = true) :
    Attains m.Negatable (m.primeProduct positive)
      fun result => result.isSome → positive = false → m.Negatable := by
  have hprimes : ∀ t ∈ m, t.factor.isPrime = true := fun t ht =>
    (isRational_iff.mp hrational t ht).1
  have hfold (product : Option Int) : Attains m.Negatable (m.foldlM (primeStep positive) product)
      fun result => result.isSome → product.isSome ∧ (positive = false → m.Negatable) := by
    clear hrational
    induction m generalizing product with
    | nil => exact .of_ok rfl fun h => ⟨h, fun _ t ht => by cases ht⟩
    | cons t m ih =>
      rw [List.forall_mem_cons] at hprimes
      have hcons : Negatable (t :: m) ↔ t.power.Negatable ∧ Negatable m := by simp [Negatable]
      rw [List.foldlM_cons, hcons]
      refine ((primeStep_attains hprimes.1 product).mono And.left fun _ h => h).bind fun next hnext => ?_
      refine (ih hprimes.2 next).mono And.right fun result hresult hsome => ?_
      obtain ⟨hnextSome, hrest⟩ := hresult hsome
      obtain ⟨hproduct, hfirst⟩ := hnext hnextSome
      exact ⟨hproduct, fun hsign => ⟨hfirst hsign, hrest hsign⟩⟩
  exact (hfold (some 1)).mono id fun _ h hsome => (h hsome).2

theorem exists_abs (hm : m.Negatable) : ∀ t ∈ m, ∃ q, t.power.abs = .ok q := fun t ht =>
  let ⟨q, hq, _⟩ := t.power.abs_attains.result (hm t ht)
  ⟨q, hq⟩

theorem toRatio?_attains (hm : Over MagnitudeBase.IsPositive m) :
    Attains m.Negatable m.toRatio? fun r => r.isSome → m.Negatable := by
  by_cases hrational : m.isRational = true
  · by_cases hnegatable : m.Negatable
    · have hratio := toRatio?_eq hrational hm (exists_abs hnegatable)
      split at hratio
      · obtain ⟨r, hr, -⟩ := hratio
        exact .of_ok hr fun _ => hnegatable
      · exact .of_ok hratio fun _ => hnegatable
    · unfold toRatio?
      rw [if_pos hrational]
      refine (primeProduct_attains hrational).bind fun above _ => ?_
      refine (primeProduct_attains hrational).bind fun below hbelow => ?_
      cases below with
      | some d => exact absurd (hbelow rfl rfl) hnegatable
      | none => exact .of_ok (by cases above <;> rfl) fun h => by cases h
  · unfold toRatio?
    rw [if_neg hrational]
    exact .of_ok rfl fun h => by cases h

/-- A magnitude has a text exactly if its powers can be negated. -/
theorem text_attains (hm : Over MagnitudeBase.IsPositive m) :
    Attains m.Negatable m.text fun _ => m.Negatable := by
  unfold text
  refine (toRatio?_attains hm).bind fun r hr => ?_
  cases r with
  | some r => exact .of_ok rfl (hr rfl)
  | none => exact m.productText_attains

/-! ### Both parts of a number in lowest terms -/

theorem coprime_number {f g : MagnitudeBase} (hf : f.IsGenuine) (hg : g.IsGenuine)
    (hlt : Atom.cmp f g = .lt) : f.number.Coprime g.number := by
  cases f with
  | constant c => exact Nat.coprime_one_left _
  | prime p =>
    cases g with
    | constant d => exact Nat.coprime_one_right _
    | prime q =>
      have hne : p ≠ q := (Nat.compare_eq_lt.mp hlt).ne
      exact (Nat.coprime_primes hf hg).mpr hne

theorem termPart_eq_pow (positive : Bool) (t : Term MagnitudeBase) :
    ∃ k, termPart positive t = t.factor.number ^ k := by
  unfold termPart
  split
  · exact ⟨_, rfl⟩
  · exact ⟨0, (pow_zero _).symm⟩

theorem coprime_part {t : Term MagnitudeBase} (ht : t.factor.IsGenuine)
    (hgenuine : Over MagnitudeBase.IsGenuine m)
    (hlt : ∀ s ∈ m, Atom.cmp t.factor s.factor = .lt) (sign positive : Bool) :
    (termPart sign t).Coprime (part positive m) := by
  refine Nat.coprime_list_prod_right_iff.mpr fun n hn => ?_
  obtain ⟨s, hs, rfl⟩ := List.mem_map.mp hn
  obtain ⟨j, hj⟩ := termPart_eq_pow sign t
  obtain ⟨k, hk⟩ := termPart_eq_pow positive s
  rw [hj, hk]
  exact (coprime_number ht (hgenuine s hs) (hlt s hs)).pow j k

theorem coprime_parts (hm : Sorted m) (hgenuine : Over MagnitudeBase.IsGenuine m) :
    (part true m).Coprime (part false m) := by
  induction m with
  | nil => exact Nat.coprime_one_left _
  | cons t m ih =>
    rw [over_cons] at hgenuine
    obtain ⟨hlt, hsorted⟩ := sorted_cons.mp hm
    have hterm : (termPart true t).Coprime (termPart false t) := by
      unfold termPart
      cases t.power.isPositive with
      | true => exact Nat.coprime_one_right _
      | false => exact Nat.coprime_one_left _
    have hcross := coprime_part hgenuine.1 hgenuine.2 hlt
    rw [part_cons, part_cons]
    exact (hterm.mul_right (hcross true false)).mul_left
      ((hcross false true).symm.mul_right (ih hsorted hgenuine.2))

/-- The number of a magnitude fits a ratio exactly if both of its parts fit. -/
theorem ratFits_number_iff (hm : m.Built) :
    RatFits m.number ↔ part true m < 2 ^ 63 ∧ part false m < 2 ^ 63 := by
  have hpos : 0 < part false m := part_pos hm.regular.positive
  have hcoprime := coprime_parts hm.regular.canonical.sorted hm.genuine
  have hnum := @Rat.num_div_eq_of_coprime (part true m) (part false m) (by omega) hcoprime
  have hden := @Rat.den_div_eq_of_coprime (part true m) (part false m) (by omega) hcoprime
  rw [Int.cast_natCast, Int.cast_natCast, ← number_eq_parts] at hnum hden
  rw [RatFits, hnum, hden, fits64_natCast, fits64_natCast]

/-! ### The conversions -/

/-- What the magnitude of a ratio supplied at run time is. -/
structure RuntimeMagnitude (r : Ratio) : Prop where
  refused : r.value ≤ 0 → checkedOfRatio r = .error (.reported (.nonPositive r.text))
  exact : 0 < r.value → r.primes.card ≤ capacity →
    ∃ m, checkedOfRatio r = .ok m ∧ m.Built ∧ m.Denotes r.value
  crowded : 0 < r.value → capacity < r.primes.card →
    checkedOfRatio r = .error (.fault .tooManyFactors)

/-- What the ratio of a magnitude known at run time only is. -/
structure RuntimeRatio (m : Magnitude) : Prop where
  exact (q : Rat) : m.Negatable → m.Denotes q → RatFits q →
    ∃ r, m.checkedToRatio = .ok r ∧ r.value = q
  tooLarge (q : Rat) : m.Negatable → m.Denotes q → ¬ RatFits q →
    ∃ text, m.text = .ok text ∧ m.checkedToRatio = .error (.reported (.overflow text))
  irrational : m.Negatable → (∀ q, ¬ m.Denotes q) →
    ∃ text, m.text = .ok text ∧ m.checkedToRatio = .error (.reported (.notRational text))
  unnegatable : ¬ m.Negatable → m.checkedToRatio = .error (.fault .overflow)

theorem runtime_magnitude (r : Ratio) : RuntimeMagnitude r where
  refused hr := by
    rw [checkedOfRatio, if_neg (by simpa using hr)]
  exact hr hroom := by
    rcases ofRatio_outcome hr with ⟨-, m, hm, hrational, hnumber⟩ | ⟨hcrowded, -⟩
    · refine ⟨m, ?_, .ofRatio hm, (denotes_iff (.ofRatio hm)).mpr ⟨hrational, hnumber⟩⟩
      rw [checkedOfRatio, if_pos (Ratio.isPositive_iff.mpr hr), hm]
      rfl
    · exact absurd hroom (not_le.mpr hcrowded)
  crowded hr hcrowded := by
    rcases ofRatio_outcome hr with ⟨hroom, -⟩ | ⟨-, hfault⟩
    · exact absurd hroom (not_le.mpr hcrowded)
    · rw [checkedOfRatio, if_pos (Ratio.isPositive_iff.mpr hr), hfault]
      rfl

/-- The text that a report quotes exists as soon as the powers can be negated. -/
theorem exists_text (hm : m.Built) (hnegatable : m.Negatable) : ∃ text, m.text = .ok text :=
  let ⟨text, htext, _⟩ := (text_attains hm.regular.positive).result hnegatable
  ⟨text, htext⟩

theorem runtime_ratio (hm : m.Built) : RuntimeRatio m where
  exact q hnegatable hq hfits := by
    obtain ⟨hrational, rfl⟩ := (denotes_iff hm).mp hq
    have hratio := toRatio?_eq hrational hm.regular.positive (exists_abs hnegatable)
    rw [if_pos ((ratFits_number_iff hm).mp hfits)] at hratio
    obtain ⟨r, hr, hvalue⟩ := hratio
    refine ⟨r, ?_, hvalue⟩
    rw [checkedToRatio, if_pos hrational, hr]
    rfl
  tooLarge q hnegatable hq hlarge := by
    obtain ⟨hrational, rfl⟩ := (denotes_iff hm).mp hq
    have hratio := toRatio?_eq hrational hm.regular.positive (exists_abs hnegatable)
    rw [if_neg fun h => hlarge ((ratFits_number_iff hm).mpr h)] at hratio
    obtain ⟨text, htext⟩ := exists_text hm hnegatable
    refine ⟨text, htext, ?_⟩
    rw [checkedToRatio, if_pos hrational, hratio, htext]
    rfl
  irrational hnegatable hirrational := by
    have hrational : ¬ m.isRational = true := fun h => hirrational _ ((denotes_iff hm).mpr ⟨h, rfl⟩)
    obtain ⟨text, htext⟩ := exists_text hm hnegatable
    refine ⟨text, htext, ?_⟩
    rw [checkedToRatio, if_neg hrational, htext]
    rfl
  unnegatable hsmallest := by
    have htext : m.text = .error .overflow := by
      rcases text_attains hm.regular.positive with ⟨_, _, h⟩ | ⟨herror, -⟩
      · exact absurd h hsmallest
      · exact herror
    by_cases hrational : m.isRational = true
    · rw [checkedToRatio, if_pos hrational]
      rcases toRatio?_attains hm.regular.positive with ⟨r, hr, h⟩ | ⟨herror, -⟩
      · cases r with
        | some r => exact absurd (h rfl) hsmallest
        | none =>
          rw [hr, htext]
          rfl
      · rw [herror]
        rfl
    · rw [checkedToRatio, if_neg hrational, htext]
      rfl

/-- The conversions at run time answer with the exact value or report why there is none, for every ratio
whose primes find room in a product and every magnitude whose powers can be negated; the others fault. -/
theorem runtime_conversions (r : Ratio) (hm : m.Built) : RuntimeMagnitude r ∧ RuntimeRatio m :=
  ⟨runtime_magnitude r, runtime_ratio hm⟩

/-- Three quarters, whose magnitude is a ratio again. -/
def threeQuarters : Ratio := ⟨3 / 4, by decide +kernel⟩

theorem runtime_conversions_three_quarters :
    ∃ m, Built m ∧ RuntimeMagnitude threeQuarters ∧ RuntimeRatio m := by
  obtain ⟨m, hm⟩ : ∃ m, ofRatio threeQuarters = .ok m := exists_eq_ok (by decide +kernel)
  exact ⟨m, .ofRatio hm, runtime_conversions threeQuarters (.ofRatio hm)⟩

/-- Seventeen primes, nine in the numerator and eight in the denominator. -/
def seventeenPrimes : Ratio := ⟨223092870 / 8618654420261, by decide +kernel⟩

/-- The magnitude of a positive ratio is not always reported on: it may fault. -/
theorem seventeenPrimes_fault : 0 < seventeenPrimes.value ∧
    checkedOfRatio seventeenPrimes = .error (.fault .tooManyFactors) := by
  refine ⟨by decide +kernel, ?_⟩
  with_unfolding_all rfl

end Magnitude

end Metrology
