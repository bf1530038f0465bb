import Metrology.Catalog.Si
import Metrology.Proofs.MeasureUnit.FactorNumber
import Metrology.Proofs.Quantity.Rescale
import Metrology.Proofs.Representation.Truncation

/-!
# Round trips of whole numbers

Where a unit is `k` units of another one, a whole number is multiplied by `k` on the way down to the
smaller unit and divided by `k` on the way up, rounding towards zero. So the way down loses nothing and is
undone by the way up, in every integer type: a quotient always fits where the number does. The way up
first keeps the multiple of `k` that the number reaches.
-/

namespace Metrology

/-! ### Whole numbers between zero and a number of the type -/

namespace IntegerType.Holds

variable {t : IntegerType} {m n : Int}

theorem zero (t : IntegerType) : t.Holds 0 := by
  cases t <;> decide

theorem of_between (h : t.Holds n) (hm : 0 ≤ m ∧ m ≤ n ∨ n ≤ m ∧ m ≤ 0) : t.Holds m := by
  obtain ⟨hlow, hhigh⟩ := h
  obtain ⟨hzeroLow, hzeroHigh⟩ := zero t
  rcases hm with ⟨hm, hmn⟩ | ⟨hnm, hm⟩
  · exact ⟨hzeroLow.trans hm, hmn.trans hhigh⟩
  · exact ⟨hlow.trans hnm, hm.trans hzeroHigh⟩

theorem tdiv (h : t.Holds n) (k : Nat) : t.Holds (n.tdiv k) := by
  apply h.of_between
  obtain ⟨i, rfl | rfl⟩ := n.eq_nat_or_neg
  · rw [← Int.ofNat_tdiv]
    exact .inl ⟨Int.natCast_nonneg _, Int.ofNat_le.mpr (Nat.div_le_self i k)⟩
  · rw [Int.neg_tdiv, ← Int.ofNat_tdiv]
    exact .inr ⟨Int.neg_le_neg (Int.ofNat_le.mpr (Nat.div_le_self i k)),
      Int.neg_nonpos_of_nonneg (Int.natCast_nonneg _)⟩

/-- The multiple of `k` that `n` reaches. -/
theorem sub_tmod (h : t.Holds n) (k : Nat) : t.Holds (n - n.tmod k) := by
  apply h.of_between
  obtain ⟨i, rfl | rfl⟩ := n.eq_nat_or_neg
  · have hle : i % k ≤ i := Nat.mod_le i k
    rw [← Int.ofNat_tmod]
    omega
  · have hle : i % k ≤ i := Nat.mod_le i k
    rw [Int.neg_tmod, ← Int.ofNat_tmod]
    omega

end IntegerType.Holds

namespace MeasureUnit

variable {a b c : MeasureUnit} {f g h : Magnitude} {k l m : Ratio} {t : IntegerType}

/-- The factor by which a unit counts another one, and its number. -/
theorem Exact.counts_spec (ha : a.Exact) (hb : b.Exact) (hab : a.Counts b k) :
    ∃ f, ∃ n : Nat, a.conversionFactor b = .ok f ∧ f.isIntegral = true ∧ f.number = n ∧
      0 < n ∧ n < 2 ^ 63 ∧ k.value = n := by
  obtain ⟨f, hf, hintegral, hk⟩ := hab
  have hregular := ha.factor_regular hb hf
  obtain ⟨n, hpos, hn⟩ := Magnitude.number_integral hintegral hregular.positive
  have hvalue : k.value = n := (Magnitude.value_of_toRatio? hregular hk).trans hn
  have hfits := k.fits.1
  rw [hvalue, Rat.num_natCast, fits64_natCast] at hfits
  exact ⟨f, n, hf, hintegral, hn, hpos, hfits, hvalue⟩

/-- The number of smaller units is the product, if it fits. -/
theorem Exact.rescale_down (ha : a.Exact) (hb : b.Exact) (hab : a.Counts b k) (v : FixedInt t) :
    rescale a b v = FixedInt.narrow (v.value * k.num) := by
  obtain ⟨f, n, hf, hintegral, hn, -, hfits, hvalue⟩ := ha.counts_spec hb hab
  rw [rescale_integral hf hintegral (ha.factor_regular hb hf).positive hn, if_pos hfits,
    Ratio.num_of_value hvalue]

/-- The number of larger units is the quotient, which always fits. -/
theorem Exact.rescale_up (ha : a.Exact) (hb : b.Exact) (hab : a.Counts b k)
    (hg : b.conversionFactor a = .ok g) (w : FixedInt t) :
    ∃ v, rescale b a w = .ok v ∧ v.value = w.value.tdiv k.num := by
  obtain ⟨f, n, hf, hintegral, hn, -, hfits, hvalue⟩ := ha.counts_spec hb hab
  have hregular := hb.factor_regular ha hg
  obtain ⟨r, hr, hinverse⟩ := Magnitude.toRatio?_inverse hregular (ha.factor_regular hb hf) hintegral
    (ha.powerOf_back hb hf hg) hn hfits
  rw [Ratio.num_of_value hvalue]
  refine ⟨⟨w.value.tdiv n, w.holds.tdiv n⟩, ?_, rfl⟩
  unfold rescale
  rw [hg]
  show (if PowerProduct.isOne g then pure w else FixedInt.scale w g) = _
  by_cases hone : PowerProduct.isOne g
  · obtain rfl := PowerProduct.isOne_iff.mp hone
    have hinv : (n : Rat)⁻¹ = 1 := hinverse.symm.trans (Magnitude.value_of_toRatio? hregular hr)
    obtain rfl : n = 1 := by exact_mod_cast inv_eq_one.mp hinv
    rw [if_pos hone]
    exact congrArg Except.ok (FixedInt.ext (Int.tdiv_one _).symm)
  · rw [if_neg hone, FixedInt.scale_eq hr, hinverse, ← div_eq_mul_inv, ← tdiv_eq_truncate,
      FixedInt.narrow_eq_ok]

/-- Counting goes on from unit to unit as long as the product of the numbers is a ratio. -/
theorem Exact.counts_trans (ha : a.Exact) (hb : b.Exact) (hc : c.Exact) (hab : a.Counts b k)
    (hbc : b.Counts c l) (hm : k.mul l = .ok m) (hh : a.conversionFactor c = .ok h) :
    a.Counts c m ∧ m.num = k.num * l.num := by
  obtain ⟨f, n, hf, hintegralF, hn, -, -, hk⟩ := ha.counts_spec hb hab
  obtain ⟨g, i, hg, hintegralG, hi, -, -, hl⟩ := hb.counts_spec hc hbc
  have hintegral := ha.isIntegral_chain hb hc hf hg hh hintegralF hintegralG
  have hrationalF := (Magnitude.isIntegral_iff.mp hintegralF).1
  have hrationalG := (Magnitude.isIntegral_iff.mp hintegralG).1
  have hnumber : h.number = (n * i : Nat) := by
    rw [ha.number_chain hb hc hf hg hh hrationalF hrationalG, hn, hi, Nat.cast_mul]
  have hvalue : m.value = (n * i : Nat) := by
    rw [Ratio.mul_eq_ok.mp hm, hk, hl, Nat.cast_mul]
  have hfits := m.fits.1
  rw [hvalue, Rat.num_natCast, fits64_natCast] at hfits
  have hratio := Magnitude.toRatio?_integral hintegral (ha.factor_regular hc hh).positive hnumber
  rw [if_pos hfits] at hratio
  obtain ⟨r, hr, hrvalue⟩ := hratio
  obtain rfl : r = m := Ratio.ext (hrvalue.trans hvalue.symm)
  refine ⟨⟨h, hh, hintegral, hr⟩, ?_⟩
  rw [Ratio.num_of_value hvalue, Ratio.num_of_value hk, Ratio.num_of_value hl, Nat.cast_mul]

/-! ### Where a factor can fail -/

theorem Built.factor_back (ha : a.Built) (hb : b.Built) (hf : a.conversionFactor b = .ok f) :
    Answers (b.conversionFactor a) fun _ => True := by
  obtain ⟨x, y, hx, hy, hxy, -⟩ := conversionFactor_eq_ok.mp hf
  refine conversionFactor_answers (.of_ok hy (P := (y = ·)) rfl) (.of_ok hx (P := (x = ·)) rfl) ?_
    fun _ _ _ _ _ _ => trivial
  rintro _ _ rfl rfl
  exact CanonicalUnit.reference_symm (ha.sound.normal hx) (hb.sound.normal hy) hxy

theorem Built.factor_across (ha : a.Built) (hb : b.Built) (hc : c.Built)
    (hf : a.conversionFactor b = .ok f) (hg : b.conversionFactor c = .ok g) :
    Answers (a.conversionFactor c) fun _ => True := by
  obtain ⟨x, y, hx, hy, hxy, -⟩ := conversionFactor_eq_ok.mp hf
  obtain ⟨y', z, hy', hz, hyz, -⟩ := conversionFactor_eq_ok.mp hg
  obtain rfl := Except.ok.inj (hy.symm.trans hy')
  refine conversionFactor_answers (.of_ok hx (P := (x = ·)) rfl) (.of_ok hz (P := (z = ·)) rfl) ?_
    fun _ _ _ _ _ _ => trivial
  rintro _ _ rfl rfl
  exact CanonicalUnit.reference_trans (ha.sound.normal hx) (hb.sound.normal hy) (hc.sound.normal hz) hxy
    hyz

end MeasureUnit

/-! ### Round trips -/

theorem Reference.factor_of_checkExplicit {ρ : Type} [Representation ρ] {r s : Reference} {u : Unit}
    (h : r.checkExplicit s ρ = .ok u) : ∃ f, r.unit.conversionFactor s.unit = .ok f := by
  obtain ⟨convertible, -, h⟩ := bind_eq_ok.mp h
  cases convertible with
  | false => cases h
  | true =>
    obtain ⟨f, hf, -⟩ := bind_eq_ok.mp h
    exact ⟨f, hf⟩

section RoundTrip

variable {a b c : MeasureUnit} {g h : Magnitude} {k l m : Ratio} {t : IntegerType}

theorem rescale_back (ha : a.Exact) (hb : b.Exact) (hab : a.Counts b k)
    (hg : b.conversionFactor a = .ok g) {v w : FixedInt t} (hw : rescale a b v = .ok w) :
    rescale b a w = .ok v := by
  obtain ⟨_, n, -, -, -, hpos, -, hvalue⟩ := ha.counts_spec hb hab
  rw [ha.rescale_down hb hab, FixedInt.narrow_eq_ok] at hw
  obtain ⟨v', hv', hquotient⟩ := ha.rescale_up hb hab hg w
  rw [hw, Ratio.num_of_value hvalue, Int.mul_tdiv_cancel _ (by omega)] at hquotient
  rw [hv', FixedInt.ext hquotient]

theorem rescale_onward (ha : a.Exact) (hb : b.Exact) (hc : c.Exact) (hab : a.Counts b k)
    (hbc : b.Counts c l) (hm : k.mul l = .ok m) (hh : a.conversionFactor c = .ok h)
    {v w x : FixedInt t} (hw : rescale a b v = .ok w) (hx : rescale b c w = .ok x) :
    rescale a c v = .ok x := by
  obtain ⟨hac, hnum⟩ := ha.counts_trans hb hc hab hbc hm hh
  rw [ha.rescale_down hb hab, FixedInt.narrow_eq_ok] at hw
  rw [hb.rescale_down hc hbc, FixedInt.narrow_eq_ok, hw] at hx
  rw [ha.rescale_down hc hac, FixedInt.narrow_eq_ok, hx, hnum, mul_assoc]

theorem rescale_multiple (ha : a.Exact) (hb : b.Exact) (hab : a.Counts b k)
    (hg : b.conversionFactor a = .ok g) (w : FixedInt t) : ∃ v u, rescale b a w = .ok v ∧
      rescale a b v = .ok u ∧ u.value = w.value - w.value.tmod k.num := by
  obtain ⟨_, n, -, -, -, -, -, hvalue⟩ := ha.counts_spec hb hab
  obtain ⟨v, hv, hquotient⟩ := ha.rescale_up hb hab hg w
  rw [Ratio.num_of_value hvalue] at hquotient ⊢
  refine ⟨v, ⟨w.value - w.value.tmod n, w.holds.sub_tmod n⟩, hv, ?_, rfl⟩
  rw [ha.rescale_down hb hab, FixedInt.narrow_eq_ok, hquotient, Ratio.num_of_value hvalue,
    Int.tdiv_mul_self]

theorem Quantity.forceTo_back {q q' : Quantity (FixedInt t)} {s : Reference} (ha : q.unit.Exact)
    (hb : s.unit.Exact) (hab : q.unit.Counts s.unit k)
    (hq : q.convertTo s = .ok q' ∨ q.forceTo s = .ok q')
    (hcheck : s.checkExplicit q.reference (FixedInt t) = .ok ()) :
    q'.forceTo q.reference = .ok q := by
  obtain ⟨w, hw, rfl⟩ : ∃ w, rescale q.unit s.unit q.value = .ok w ∧ ⟨w, s⟩ = q' := by
    rcases hq with hq | hq
    · obtain ⟨_, -, hq⟩ := bind_eq_ok.mp hq
      obtain ⟨w, hw, hq⟩ := bind_eq_ok.mp hq
      exact ⟨w, hw, pure_eq_ok.mp hq⟩
    · obtain ⟨_, -, hq⟩ := bind_eq_ok.mp hq
      obtain ⟨w, hw, hq⟩ := bind_eq_ok.mp hq
      exact ⟨w, hw, pure_eq_ok.mp hq⟩
  obtain ⟨g, hg⟩ := Reference.factor_of_checkExplicit hcheck
  have hback : rescale s.unit q.unit w = .ok q.value := rescale_back ha hb hab hg hw
  exact bind_eq_ok.mpr ⟨(), hcheck, bind_eq_ok.mpr ⟨q.value, hback, rfl⟩⟩

end RoundTrip

/-- What converting whole numbers between three units means, if one `a` is `k` units `b` and one `b` a whole
number of units `c`. The factors of the ways back and across are the only ones that may be missing, and only
because of a limit. -/
structure RoundTrips (a b c : MeasureUnit) (k : Ratio) (t : IntegerType) : Prop where
  factor_back : Answers (b.conversionFactor a) fun _ => True
  factor_across : Answers (a.conversionFactor c) fun _ => True
  back : ∀ g, b.conversionFactor a = .ok g → ∀ v w : FixedInt t,
    rescale a b v = .ok w → rescale b a w = .ok v
  forced_back : ∀ (q q' : Quantity (FixedInt t)) (s : Reference), q.unit = a → s.unit = b →
    q.convertTo s = .ok q' ∨ q.forceTo s = .ok q' →
    s.checkExplicit q.reference (FixedInt t) = .ok () → q'.forceTo q.reference = .ok q
  onward : ∀ h, a.conversionFactor c = .ok h → ∀ v w x : FixedInt t,
    rescale a b v = .ok w → rescale b c w = .ok x → rescale a c v = .ok x
  multiple : ∀ g, b.conversionFactor a = .ok g → ∀ w : FixedInt t, ∃ v u,
    rescale b a w = .ok v ∧ rescale a b v = .ok u ∧ u.value = w.value - w.value.tmod k.num

/-- Whole numbers are converted to a smaller unit and back, and on to a still smaller one, without loss;
the way to a larger unit and back keeps a multiple. -/
theorem round_trips {a b c : MeasureUnit} (ha : a.Exact) (hb : b.Exact) (hc : c.Exact) {k l m : Ratio}
    (hab : a.Counts b k) (hbc : b.Counts c l) (hm : k.mul l = .ok m) (t : IntegerType) :
    RoundTrips a b c k t := by
  constructor
  case factor_back =>
    obtain ⟨f, hf, -⟩ := hab
    exact ha.built.factor_back hb.built hf
  case factor_across =>
    obtain ⟨f, hf, -⟩ := hab
    obtain ⟨g, hg, -⟩ := hbc
    exact ha.built.factor_across hb.built hc.built hf hg
  case back => exact fun _ hg v w hw => rescale_back ha hb hab hg hw
  case forced_back =>
    rintro q q' s rfl rfl hq hcheck
    exact Quantity.forceTo_back ha hb hab hq hcheck
  case onward => exact fun _ hh v w x hw hx => rescale_onward ha hb hc hab hbc hm hh hw hx
  case multiple => exact fun _ hg w => rescale_multiple ha hb hab hg w

/-! ### Metres -/

open Catalog

/-- Three kilometres and back, on to millimetres, and 2999 metres to kilometres and back. -/
theorem round_trips_kilometre : ∃ kilometre millimetre k,
    MeasureUnit.withScale (.decimal .kilo) Si.metre = .ok kilometre ∧
    MeasureUnit.withScale (.decimal .milli) Si.metre = .ok millimetre ∧
    kilometre.Counts Si.metre k ∧ k.value = 1000 ∧
    (∀ t, RoundTrips kilometre Si.metre millimetre k t) ∧
    rescale kilometre Si.metre (.wrap 3 : FixedInt .int32) = .ok (.wrap 3000) ∧
    rescale Si.metre kilometre (.wrap 3000 : FixedInt .int32) = .ok (.wrap 3) ∧
    rescale kilometre millimetre (.wrap 3 : FixedInt .int32) = .ok (.wrap 3000000) ∧
    rescale Si.metre kilometre (.wrap (-2999) : FixedInt .int32) = .ok (.wrap (-2)) ∧
    rescale kilometre Si.metre (.wrap (-2) : FixedInt .int32) = .ok (.wrap (-2000)) := by
  obtain ⟨_, hresults⟩ := exists_eq_ok (show (do
    let kilometre ← MeasureUnit.withScale (.decimal .kilo) Si.metre
    let millimetre ← MeasureUnit.withScale (.decimal .milli) Si.metre
    let f ← kilometre.conversionFactor Si.metre
    let k? ← f.toRatio?
    let g ← Si.metre.conversionFactor millimetre
    let l? ← g.toRatio?
    let m ← (k?.getD .zero).mul (l?.getD .zero)
    let x ← rescale kilometre Si.metre (.wrap 3 : FixedInt .int32)
    let y ← rescale Si.metre millimetre (.wrap 3000 : FixedInt .int32)
    let _ ← kilometre.conversionFactor millimetre
    let _ ← Si.metre.conversionFactor kilometre
    let z ← rescale Si.metre kilometre (.wrap (-2999) : FixedInt .int32)
    let w ← rescale kilometre Si.metre (.wrap (-2) : FixedInt .int32)
    if k?.isSome ∧ (k?.getD .zero).value = 1000 ∧ l?.isSome ∧ f.isIntegral ∧ g.isIntegral ∧
      x = FixedInt.wrap 3000 ∧ y = FixedInt.wrap 3000000 ∧ z = FixedInt.wrap (-2) ∧
      w = FixedInt.wrap (-2000) then .ok ()
    else .error .overflow).isOk = true by decide +kernel)
  simp only [bind_eq_ok, guard_eq_ok] at hresults
  obtain ⟨kilometre, hkilometre, millimetre, hmillimetre, f, hf, k?, hk, g, hg, l?, hl, m, hm, x, hx, y, hy,
    h, hh, e, he, z, hz, w, hw, hsomeK, hvalue, hsomeL, hintegralF, hintegralG, rfl, rfl, rfl, rfl⟩ :=
    hresults
  obtain ⟨k, rfl⟩ := Option.isSome_iff_exists.mp hsomeK
  obtain ⟨l, rfl⟩ := Option.isSome_iff_exists.mp hsomeL
  have hlaws (t : IntegerType) : RoundTrips kilometre Si.metre millimetre k t :=
    round_trips (MeasureUnit.metre_exact.withScale hkilometre) MeasureUnit.metre_exact
      (MeasureUnit.metre_exact.withScale hmillimetre) ⟨f, hf, hintegralF, hk⟩ ⟨g, hg, hintegralG, hl⟩ hm t
  exact ⟨kilometre, millimetre, k, hkilometre, hmillimetre, ⟨f, hf, hintegralF, hk⟩, hvalue, hlaws, hx,
    (hlaws .int32).back e he _ _ hx, (hlaws .int32).onward h hh _ _ _ hx hy, hz, hw⟩

/-! ### Multiples of a metre with many primes -/

/-- A multiple of a metre by `59 * n / d`. -/
def crowdedUnit (name : String) (n d : Int) : Except Fault MeasureUnit := do
  let m ← PowerProduct.mul (← Magnitude.fraction n d) (← Magnitude.integer 59)
  (MeasureUnit.named name (.plain name)).definedAs m Si.metre

theorem crowdedUnit_exact {name : String} {n d : Int} {u : MeasureUnit}
    (h : crowdedUnit name n d = .ok u) : u.Exact := by
  obtain ⟨x, hx, h⟩ := bind_eq_ok.mp h
  obtain ⟨y, hy, h⟩ := bind_eq_ok.mp h
  obtain ⟨m, hm, h⟩ := bind_eq_ok.mp h
  obtain ⟨r, -, hx⟩ := bind_eq_ok.mp hx
  obtain ⟨s, -, hy⟩ := bind_eq_ok.mp hy
  exact (MeasureUnit.named_exact _ _).definedAs (.mul (.ofRatio hx) (.ofRatio hy) hm)
    MeasureUnit.metre_exact h

/-- A unit can be converted to another one and not back: the quotient of their magnitudes has two primes,
but one of them finds no room before the others cancel. The first unit is ten of the second and the second
three of the third, and the way from the first to the third is missing as well. -/
theorem round_trips_crowded : ∃ large middle small k l m,
    crowdedUnit "large" 6517831695438008946 1 = .ok large ∧
    crowdedUnit "middle" 3258915847719004473 5 = .ok middle ∧
    crowdedUnit "small" 1086305282573001491 5 = .ok small ∧
    large.Exact ∧ middle.Exact ∧ small.Exact ∧ large.Counts middle k ∧ k.value = 10 ∧
    middle.Counts small l ∧ l.value = 3 ∧ k.mul l = .ok m ∧
    rescale large middle (.wrap 1 : FixedInt .int64) = .ok (.wrap 10) ∧
    rescale middle large (.wrap 10 : FixedInt .int64) = .error .tooManyFactors ∧
    rescale middle small (.wrap 10 : FixedInt .int64) = .ok (.wrap 30) ∧
    rescale large small (.wrap 1 : FixedInt .int64) = .error .tooManyFactors := by
  obtain ⟨_, hresults⟩ := exists_eq_ok (show (do
    let large ← crowdedUnit "large" 6517831695438008946 1
    let middle ← crowdedUnit "middle" 3258915847719004473 5
    let small ← crowdedUnit "small" 1086305282573001491 5
    let f ← large.conversionFactor middle
    let k? ← f.toRatio?
    let g ← middle.conversionFactor small
    let l? ← g.toRatio?
    let m ← (k?.getD .zero).mul (l?.getD .zero)
    let x ← rescale large middle (.wrap 1 : FixedInt .int64)
    let y ← rescale middle small (.wrap 10 : FixedInt .int64)
    if k?.isSome ∧ (k?.getD .zero).value = 10 ∧ l?.isSome ∧ (l?.getD .zero).value = 3 ∧ f.isIntegral ∧
      g.isIntegral ∧ x = FixedInt.wrap 10 ∧ y = FixedInt.wrap 30 then .ok ()
    else .error .overflow).isOk = true by decide +kernel)
  simp only [bind_eq_ok, guard_eq_ok] at hresults
  obtain ⟨large, hlarge, middle, hmiddle, small, hsmall, f, hf, k?, hk, g, hg, l?, hl, m, hm, x, hx, y, hy,
    hsomeK, hvalueK, hsomeL, hvalueL, hintegralF, hintegralG, rfl, rfl⟩ := hresults
  obtain ⟨k, rfl⟩ := Option.isSome_iff_exists.mp hsomeK
  obtain ⟨l, rfl⟩ := Option.isSome_iff_exists.mp hsomeL
  have hback : (do
      rescale (← crowdedUnit "middle" 3258915847719004473 5)
        (← crowdedUnit "large" 6517831695438008946 1) (.wrap 10 : FixedInt .int64)) =
      .error .tooManyFactors := by
    with_unfolding_all rfl
  have hacross : (do
      rescale (← crowdedUnit "large" 6517831695438008946 1)
        (← crowdedUnit "small" 1086305282573001491 5) (.wrap 1 : FixedInt .int64)) =
      .error .tooManyFactors := by
    with_unfolding_all rfl
  rw [hmiddle, hlarge] at hback
  rw [hlarge, hsmall] at hacross
  exact ⟨large, middle, small, k, l, m, hlarge, hmiddle, hsmall, crowdedUnit_exact hlarge,
    crowdedUnit_exact hmiddle, crowdedUnit_exact hsmall, ⟨f, hf, hintegralF, hk⟩, hvalueK,
    ⟨g, hg, hintegralG, hl⟩, hvalueL, hm, hx, hback, hy, hacross⟩

end Metrology
