import Metrology.Proofs.MeasureUnit.CommonUnit
import Metrology.Proofs.MeasureUnit.FactorNumber
import Metrology.Proofs.Quantity.Rescale
import Metrology.Proofs.Quantity.SameReference

/-!
# Arithmetic on whole numbers of different units

Units that convert into each other by a rational factor are whole multiples of their common unit, and the
quotient of the two multiples is the factor. So whole numbers of the two units are added and compared
without rounding, wherever the products fit the type.
-/

namespace Metrology

/-! ### The factors to the common unit -/

namespace Magnitude

variable {e f g h : Magnitude}

/-- The parts of a magnitude with positive and with negative powers, the latter inverted. -/
structure Splits (f g h : Magnitude) : Prop where
  left : ∀ b, (g.powerOf b).value = max 0 (f.powerOf b).value
  right : ∀ b, (h.powerOf b).value = max 0 (-(f.powerOf b).value)

theorem Splits.number_eq (hsplits : Splits f g h) (hf : f.Regular) (hg : g.Regular) (hh : h.Regular)
    (hrational : f.isRational = true) (hrationalH : h.isRational = true) :
    g.number = f.number * h.number := by
  apply number_of_powers hg hf hh hrational hrationalH
  intro b
  rw [hsplits.left, hsplits.right]
  rcases le_total 0 (f.powerOf b).value with hsign | hsign
  · rw [max_eq_right hsign, max_eq_left (by linarith), add_zero]
  · rw [max_eq_left hsign, max_eq_right (by linarith), add_neg_cancel]

end Magnitude

section CommonFactors

variable {a b u : MeasureUnit} {e f g h : Magnitude} (ha : a.Exact) (hb : b.Exact)
  (hu : a.common b = .ok u)

include ha hb hu

namespace MeasureUnit.Exact

theorem common_regular {x y z : CanonicalUnit} (hx : a.canonical = .ok x) (hy : b.canonical = .ok y)
    (hz : u.canonical = .ok z) : z.magnitude.Regular := by
  obtain ⟨hnormal, -, hover, -⟩ :=
    common_spec (ha.built.sound.normal hx) (hb.built.sound.normal hy) hx hy hu hz
  exact ⟨hnormal.magnitude, hover _ (ha.regular hx).positive (hb.regular hy).positive⟩

/-- Both units are multiples of their common unit, by the two parts of the factor between them. -/
theorem common_splits (hf : a.conversionFactor b = .ok f) (hg : a.conversionFactor u = .ok g)
    (hh : b.conversionFactor u = .ok h) : g.Regular ∧ h.Regular ∧ Magnitude.Splits f g h := by
  obtain ⟨x, y, hx, hy, -, hf⟩ := conversionFactor_eq_ok.mp hf
  obtain ⟨x', z, hx', hz, -, hg⟩ := conversionFactor_eq_ok.mp hg
  obtain ⟨y', z', hy', hz', -, hh⟩ := conversionFactor_eq_ok.mp hh
  obtain rfl := Except.ok.inj (hx.symm.trans hx')
  obtain rfl := Except.ok.inj (hy.symm.trans hy')
  obtain rfl := Except.ok.inj (hz.symm.trans hz')
  have hregularX := ha.regular hx
  have hregularY := hb.regular hy
  have hregularZ := ha.common_regular hb hu hx hy hz
  obtain ⟨-, -, -, hpowers⟩ :=
    common_spec (ha.built.sound.normal hx) (hb.built.sound.normal hy) hx hy hu hz
  refine ⟨hregularX.div hregularZ hg, hregularY.div hregularZ hh, fun base => ?_, fun base => ?_⟩
  · rw [hregularX.powerOf_div hregularZ hg, hregularX.powerOf_div hregularY hf, hpowers,
      ← max_sub_sub_left, sub_self]
  · rw [hregularY.powerOf_div hregularZ hh, hregularX.powerOf_div hregularY hf, hpowers,
      ← max_sub_sub_left, sub_self, max_comm, neg_sub]

/-- The way back from the common unit divides by what the way there multiplies by. -/
theorem common_back (hf : a.conversionFactor b = .ok f) (hh : b.conversionFactor u = .ok h)
    (he : u.conversionFactor b = .ok e) (hrational : h.isRational = true) :
    e.number * h.number = 1 := by
  obtain ⟨x, _, hx, -⟩ := conversionFactor_eq_ok.mp hf
  obtain ⟨y, z, hy, hz, -, hh⟩ := conversionFactor_eq_ok.mp hh
  obtain ⟨z', y'', hz', hy'', -, he⟩ := conversionFactor_eq_ok.mp he
  obtain rfl := Except.ok.inj (hy.symm.trans hy'')
  obtain rfl := Except.ok.inj (hz.symm.trans hz')
  have hregularY := hb.regular hy
  have hregularZ := ha.common_regular hb hu hx hy hz
  apply Magnitude.number_mul_of_neg (hregularZ.div hregularY he) (hregularY.div hregularZ hh) hrational
  intro base
  rw [hregularZ.powerOf_div hregularY he, hregularY.powerOf_div hregularZ hh, neg_sub]

end MeasureUnit.Exact

end CommonFactors

/-! ### Exact arithmetic -/

/-- A factor that is a ratio multiplies without rounding, if it is integral. -/
theorem rescale_eq_ok {a b : MeasureUnit} {f : Magnitude} {p : Ratio} {k : Nat}
    (hf : a.conversionFactor b = .ok f) (hintegral : f.isIntegral = true) (hregular : f.Regular)
    (hk : f.number = k) (hp : f.toRatio? = .ok (some p)) {t : IntegerType} {v w : FixedInt t} :
    rescale a b v = .ok w ↔ w.value = v.value * k := by
  have hfits : k < 2 ^ 63 := by
    by_contra hlarge
    have hratio := Magnitude.toRatio?_integral hintegral hregular.positive hk
    rw [if_neg hlarge, hp] at hratio
    cases hratio
  rw [rescale_integral hf hintegral hregular.positive hk, if_pos hfits, FixedInt.narrow_eq_ok]

/-- Two units are `k` times and `l` times a third one, for whole numbers of every type. -/
structure Multiples (a b u : MeasureUnit) (f : Rat) (k l : Nat) : Prop where
  left_pos : 0 < k
  right_pos : 0 < l
  factor_eq : (k : Rat) / l = f
  left : ∀ {t : IntegerType} {x w : FixedInt t}, rescale a u x = .ok w ↔ w.value = x.value * k
  right : ∀ {t : IntegerType} {y w : FixedInt t}, rescale b u y = .ok w ↔ w.value = y.value * l
  back : ∀ {e : Magnitude}, u.conversionFactor b = .ok e → e.number = 1 / l

/-- Both factors to the common unit are integral, because neither has a negative power. -/
theorem MeasureUnit.Exact.exists_multiples {a b u : MeasureUnit} {f g h : Magnitude} {p q : Ratio}
    (ha : a.Exact) (hb : b.Exact) (hu : a.common b = .ok u) (hf : a.conversionFactor b = .ok f)
    (hrational : f.isRational = true) (hg : a.conversionFactor u = .ok g)
    (hp : g.toRatio? = .ok (some p)) (hh : b.conversionFactor u = .ok h)
    (hq : h.toRatio? = .ok (some q)) : ∃ k l, Multiples a b u f.number k l := by
  obtain ⟨hregularG, hregularH, hsplits⟩ := ha.common_splits hb hu hf hg hh
  have hrationalG := Magnitude.isRational_of_toRatio? hp
  have hrationalH := Magnitude.isRational_of_toRatio? hq
  have hintegralG : g.isIntegral = true := by
    refine Magnitude.isIntegral_of_powerOf hregularG.canonical hrationalG fun base => ?_
    rw [hsplits.left]
    exact le_max_left _ _
  have hintegralH : h.isIntegral = true := by
    refine Magnitude.isIntegral_of_powerOf hregularH.canonical hrationalH fun base => ?_
    rw [hsplits.right]
    exact le_max_left _ _
  obtain ⟨k, hk, hnumberG⟩ := Magnitude.number_integral hintegralG hregularG.positive
  obtain ⟨l, hl, hnumberH⟩ := Magnitude.number_integral hintegralH hregularH.positive
  have hzero : (l : Rat) ≠ 0 := by exact_mod_cast hl.ne'
  refine ⟨k, l, hk, hl, ?_, rescale_eq_ok hg hintegralG hregularG hnumberG hp,
    rescale_eq_ok hh hintegralH hregularH hnumberH hq, fun he => ?_⟩
  · have hnumber := hsplits.number_eq (ha.factor_regular hb hf) hregularG hregularH hrational hrationalH
    rw [hnumberG, hnumberH] at hnumber
    rw [hnumber, mul_div_cancel_right₀ _ hzero]
  · have hinverse := ha.common_back hb hu hf hh he hrationalH
    rw [hnumberH] at hinverse
    exact eq_div_of_mul_eq hzero hinverse

namespace Multiples

variable {a b u : MeasureUnit} {k l : Nat} {f : Rat} (h : Multiples a b u f k l) (x y : Int)

include h

theorem right_ne_zero : (l : Rat) ≠ 0 := by exact_mod_cast h.right_pos.ne'

theorem lt_iff : x * k < y * l ↔ x * f < (y : Rat) := by
  have hl : (0 : Rat) < l := by exact_mod_cast h.right_pos
  rw [← h.factor_eq, ← mul_div_assoc, div_lt_iff₀ hl]
  exact_mod_cast Iff.rfl

theorem eq_iff : x * k = y * l ↔ x * f = (y : Rat) := by
  rw [← h.factor_eq, ← mul_div_assoc, div_eq_iff h.right_ne_zero]
  exact_mod_cast Iff.rfl

theorem compare_eq : compare (x * k) (y * l) = compare (x * f) (y : Rat) := by
  rw [LinearOrder.compare_eq_compareOfLessAndEq, LinearOrder.compare_eq_compareOfLessAndEq]
  unfold compareOfLessAndEq
  simp only [h.lt_iff, h.eq_iff]

theorem add_back {e : Magnitude} (he : u.conversionFactor b = .ok e) :
    (x * k + y * l : Int) * e.number = x * f + y := by
  rw [h.back he, ← h.factor_eq]
  push_cast
  field_simp [h.right_ne_zero]

theorem sub_back {e : Magnitude} (he : u.conversionFactor b = .ok e) :
    (x * k - y * l : Int) * e.number = x * f - y := by
  rw [h.back he, ← h.factor_eq]
  push_cast
  field_simp [h.right_ne_zero]

end Multiples

namespace Quantity

/-- Arithmetic on `x` units of the reference `r` and `y` units of `s` is exact: counted in the unit `u` they
are `k` and `l` times as many, and one unit of `r` is `f` units of `s`. -/
structure ExactMixture {t : IntegerType} (r s : Reference) (u : MeasureUnit) (f : Rat) (k l : Nat)
    (x y : FixedInt t) : Prop where
  commonValues : ∀ X Y, commonValues ⟨x, r⟩ ⟨y, s⟩ u = .ok (X, Y) ↔
    X.value = x.value * k ∧ Y.value = y.value * l
  equal : ∀ answer, equal ⟨x, r⟩ ⟨y, s⟩ = .ok answer → (answer = true ↔ x.value * f = y.value)
  order : ∀ answer, order ⟨x, r⟩ ⟨y, s⟩ = .ok answer →
    answer = some (compare (x.value * f) (y.value : Rat))
  add : ∀ q, add ⟨x, r⟩ ⟨y, s⟩ = .ok q → q.unit = u ∧ q.value.value = x.value * k + y.value * l
  sub : ∀ q, sub ⟨x, r⟩ ⟨y, s⟩ = .ok q → q.unit = u ∧ q.value.value = x.value * k - y.value * l
  add_back : ∀ q e, Quantity.add ⟨x, r⟩ ⟨y, s⟩ = .ok q → q.unit.conversionFactor s.unit = .ok e →
    q.value.value * e.number = x.value * f + y.value
  sub_back : ∀ q e, Quantity.sub ⟨x, r⟩ ⟨y, s⟩ = .ok q → q.unit.conversionFactor s.unit = .ok e →
    q.value.value * e.number = x.value * f - y.value

variable {t : IntegerType} {r s : Reference} {u : MeasureUnit} {x y : FixedInt t}

/-- The steps that addition, subtraction and comparison share. -/
theorem operands_of_ok {β : Type} {next : Reference → FixedInt t × FixedInt t → Except Fault β} {b : β}
    (hu : r.unit.common s.unit = .ok u) :
    (do
      let reference ← r.common s
      reference.checkNumber (FixedInt t)
      let numbers ← commonValues ⟨x, r⟩ ⟨y, s⟩ reference.unit
      next reference numbers) = .ok b →
    ∃ c X Y, c.unit = u ∧ commonValues ⟨x, r⟩ ⟨y, s⟩ u = .ok (X, Y) ∧ next c (X, Y) = .ok b := by
  intro h
  simp only [bind_eq_ok] at h
  obtain ⟨c, hc, _, -, ⟨X, Y⟩, hvalues, hnext⟩ := h
  obtain rfl : c.unit = u := Except.ok.inj ((Reference.unit_common hc).symm.trans hu)
  exact ⟨c, X, Y, rfl, hvalues, hnext⟩

theorem commonValues_eq_ok {f : Rat} {k l : Nat} {X Y : FixedInt t}
    (h : Multiples r.unit s.unit u f k l) : commonValues ⟨x, r⟩ ⟨y, s⟩ u = .ok (X, Y) ↔
      X.value = x.value * k ∧ Y.value = y.value * l := by
  rw [← h.left, ← h.right]
  show (rescale r.unit u x >>= fun X => rescale s.unit u y >>= fun Y => pure (X, Y)) = _ ↔ _
  simp only [bind_eq_ok, pure_eq_ok, Prod.mk.injEq]
  constructor
  · rintro ⟨X', hX, Y', hY, rfl, rfl⟩
    exact ⟨hX, hY⟩
  · rintro ⟨hX, hY⟩
    exact ⟨X, hX, Y, hY, rfl, rfl⟩

theorem combine_eq_ok {f : Rat} {k l : Nat} (hu : r.unit.common s.unit = .ok u)
    (hmultiples : Multiples r.unit s.unit u f k l) {operation : WordOperation}
    {result : Int → Int → Int} {q : Quantity (FixedInt t)}
    (h : combine (fun X Y => FixedInt.checked operation (result X.value Y.value)) ⟨x, r⟩ ⟨y, s⟩ =
      .ok q) : q.unit = u ∧ q.value.value = result (x.value * k) (y.value * l) := by
  obtain ⟨c, X, Y, hunit, hvalues, hnext⟩ := operands_of_ok hu h
  obtain ⟨hX, hY⟩ := (commonValues_eq_ok hmultiples).mp hvalues
  obtain ⟨w, hw, hq⟩ := bind_eq_ok.mp hnext
  obtain rfl := pure_eq_ok.mp hq
  rw [FixedInt.checked_eq_ok, hX, hY] at hw
  exact ⟨hunit, hw⟩

theorem exactMixture_of_multiples {f : Rat} {k l : Nat} (hu : r.unit.common s.unit = .ok u)
    (h : Multiples r.unit s.unit u f k l) : ExactMixture r s u f k l x y := by
  have hadd {q : Quantity (FixedInt t)} (hq : add ⟨x, r⟩ ⟨y, s⟩ = .ok q) :
      q.unit = u ∧ q.value.value = x.value * k + y.value * l :=
    combine_eq_ok hu h hq
  have hsub {q : Quantity (FixedInt t)} (hq : sub ⟨x, r⟩ ⟨y, s⟩ = .ok q) :
      q.unit = u ∧ q.value.value = x.value * k - y.value * l :=
    combine_eq_ok hu h hq
  constructor
  case commonValues => exact fun X Y => commonValues_eq_ok h
  case equal =>
    intro answer hanswer
    obtain ⟨_, X, Y, -, hvalues, hnext⟩ := operands_of_ok hu hanswer
    obtain ⟨hX, hY⟩ := (commonValues_eq_ok h).mp hvalues
    have hequal : (X.value == Y.value) = answer := pure_eq_ok.mp hnext
    rw [← hequal, beq_iff_eq, hX, hY, h.eq_iff]
  case order =>
    intro answer hanswer
    obtain ⟨_, X, Y, -, hvalues, hnext⟩ := operands_of_ok hu hanswer
    obtain ⟨hX, hY⟩ := (commonValues_eq_ok h).mp hvalues
    have horder : some (compare X.value Y.value) = answer := pure_eq_ok.mp hnext
    rw [← horder, hX, hY, h.compare_eq]
  case add => exact fun q hq => hadd hq
  case sub => exact fun q hq => hsub hq
  case add_back =>
    intro q e hq he
    obtain ⟨hunit, hvalue⟩ := hadd hq
    rw [hunit] at he
    rw [hvalue, h.add_back _ _ he]
  case sub_back =>
    intro q e hq he
    obtain ⟨hunit, hvalue⟩ := hsub hq
    rw [hunit] at he
    rw [hvalue, h.sub_back _ _ he]

/-- Quantities of units that convert into each other by a rational factor are added and compared
exactly, whatever they are quantities of. -/
theorem exact_mixture {a b : MeasureUnit} {f g h : Magnitude} {p q : Ratio} (ha : a.Exact)
    (hb : b.Exact) (hu : a.common b = .ok u) (hf : a.conversionFactor b = .ok f)
    (hrational : f.isRational = true) (hg : a.conversionFactor u = .ok g)
    (hp : g.toRatio? = .ok (some p)) (hh : b.conversionFactor u = .ok h)
    (hq : h.toRatio? = .ok (some q)) :
    ∃ k l : Nat, 0 < k ∧ 0 < l ∧ (k : Rat) / l = f.number ∧
      ∀ (left right : QuantitySpec) (t : IntegerType) (x y : FixedInt t),
        ExactMixture ⟨left, a⟩ ⟨right, b⟩ u f.number k l x y := by
  obtain ⟨k, l, hmultiples⟩ := ha.exists_multiples hb hu hf hrational hg hp hh hq
  refine ⟨k, l, hmultiples.left_pos, hmultiples.right_pos, hmultiples.factor_eq, ?_⟩
  intro left right t x y
  exact exactMixture_of_multiples hu hmultiples

/-! ### Feet and metres -/

open Catalog in
/-- A foot is 381 parts of a metre in 1250, and both are whole multiples of their common unit: together
they are 1631 of it. -/
theorem exact_mixture_feet : ∃ foot u, International.foot = .ok foot ∧ foot.common Si.metre = .ok u ∧
    (∃ k l : Nat, 0 < k ∧ 0 < l ∧ (k : Rat) / l = 381 / 1250 ∧
      ∀ (left right : QuantitySpec) (t : IntegerType) (x y : FixedInt t),
        ExactMixture ⟨left, foot⟩ ⟨right, Si.metre⟩ u (381 / 1250) k l x y) ∧
    ∃ total, Quantity.add (⟨⟨1, by decide⟩, ⟨.named Isq.length, foot⟩⟩ : Quantity (FixedInt .int64))
      ⟨⟨1, by decide⟩, ⟨.named Isq.length, Si.metre⟩⟩ = .ok total ∧ total.value.value = 1631 := by
  obtain ⟨_, hresults⟩ := exists_eq_ok (show (do
    let foot ← International.foot
    let u ← foot.common Si.metre
    let f ← foot.conversionFactor Si.metre
    let g ← foot.conversionFactor u
    let h ← Si.metre.conversionFactor u
    let p ← g.toRatio?
    let q ← h.toRatio?
    let total ← Quantity.add
      (⟨⟨1, of_decide_eq_true rfl⟩, ⟨.named Isq.length, foot⟩⟩ : Quantity (FixedInt .int64))
      ⟨⟨1, of_decide_eq_true rfl⟩, ⟨.named Isq.length, Si.metre⟩⟩
    if f.isRational ∧ f.number = 381 / 1250 ∧ p.isSome ∧ q.isSome ∧ total.value.value = 1631 then .ok ()
    else .error .overflow).isOk = true by decide +kernel)
  simp only [bind_eq_ok, guard_eq_ok] at hresults
  obtain ⟨foot, hfoot, u, hu, f, hf, g, hg, h, hh, p, hp, q, hq, total, htotal, hrational, hnumber,
    hpsome, hqsome, hvalue⟩ := hresults
  obtain ⟨p, rfl⟩ := Option.isSome_iff_exists.mp hpsome
  obtain ⟨q, rfl⟩ := Option.isSome_iff_exists.mp hqsome
  have hexact : foot.Exact := by
    refine MeasureUnit.international_exact (fun yard hyard => ?_) hfoot
    refine MeasureUnit.international_exact (fun metre hmetre => ?_) hyard
    obtain rfl := Except.ok.inj hmetre
    exact MeasureUnit.metre_exact
  have hmixture := exact_mixture hexact MeasureUnit.metre_exact hu hf hrational hg hp hh hq
  rw [hnumber] at hmixture
  exact ⟨foot, u, hfoot, hu, hmixture, total, htotal, hvalue⟩

end Quantity

end Metrology
