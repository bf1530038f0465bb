import Metrology.Proofs.MeasureUnit.Weight
import Metrology.Proofs.PowerProduct.Limit

/-!
# Conversion between units

Units of one system that were built convert into each other if their canonical forms have one
reference, and the conversion factor is what their magnitudes differ by. Both are read off weights, so
conversion does not depend on the definitions that lead to the base units, and it respects products,
quotients and powers. Every unit has a canonical form, and convertible ones have a conversion factor,
unless a power overflows or a product has too many factors on the way.
-/

namespace Metrology

open CanonicalUnit (Weights)

/-! ### Canonical forms up to limits -/

theorem CanonicalUnit.scale_answers (m : Magnitude) (c : CanonicalUnit) :
    Answers (c.scale m) fun _ => True :=
  (PowerProduct.mul_answers m c.magnitude).bind fun _ _ _ => .of_ok rfl trivial

theorem CanonicalUnit.mulPow_answers (c d : CanonicalUnit) (p : Ratio) :
    Answers (c.mulPow d p) fun _ => True := by
  refine (PowerProduct.pow_answers d.magnitude p).bind fun x _ _ => ?_
  refine (PowerProduct.mul_answers c.magnitude x).bind fun _ _ _ => ?_
  refine (PowerProduct.pow_answers d.reference p).bind fun y _ _ => ?_
  exact (PowerProduct.mul_answers c.reference y).bind fun _ _ _ => .of_ok rfl trivial

-- Units, forms, recipes, terms and factors nest in each other, and so do the functions that open them.
mutual

theorem MeasureUnit.canonical_answers (u : MeasureUnit) : Answers u.canonical fun _ => True :=
  match u with
  | .mk form spec origin => UnitForm.canonical_answers (.mk form spec origin) form
termination_by structural u

theorem UnitForm.canonical_answers (self : MeasureUnit) (f : UnitForm) :
    Answers (UnitForm.canonical self f) fun _ => True :=
  match f with
  | .one => .of_ok rfl trivial
  | .base .. => .of_ok rfl trivial
  | .defined _ _ m unit => unit.canonical_answers.bind fun c _ _ => c.scale_answers m
  | .prefixed _ m unit => unit.canonical_answers.bind fun c _ _ => c.scale_answers m
  | .scaled m unit => unit.canonical_answers.bind fun c _ _ => c.scale_answers m
  | .derived recipe => canonicalTerms_answers .one recipe
termination_by structural f

theorem canonicalTerms_answers (start : CanonicalUnit) (recipe : List (Term Factor)) :
    Answers (canonicalTerms start recipe) fun _ => True :=
  match recipe with
  | [] => .of_ok rfl trivial
  | t :: rest => (canonicalTerm_answers start t).bind fun c _ _ => canonicalTerms_answers c rest
termination_by structural recipe

theorem canonicalTerm_answers (start : CanonicalUnit) (t : Term Factor) :
    Answers (canonicalTerm start t) fun _ => True :=
  match t with
  | ⟨f, p⟩ => f.mulCanonical_answers start p
termination_by structural t

theorem Factor.mulCanonical_answers (start : CanonicalUnit) (p : Ratio) (f : Factor) :
    Answers (Factor.mulCanonical start p f) fun _ => True :=
  match f with
  | .unit u => u.canonical_answers.bind fun c _ _ => start.mulPow_answers c p
  | .dimension _ | .prime _ | .constant _ | .quantity _ => .of_ok rfl trivial
termination_by structural f

end

namespace MeasureUnit.Built

variable {a b : MeasureUnit}

theorem canonical_answers (ha : a.Built) : Answers a.canonical CanonicalUnit.Normal :=
  a.canonical_answers.mono fun _ hx _ => ha.sound.normal hx

theorem mul_answers (ha : a.Built) (hb : b.Built) : Answers (a.mul b) Built := by
  refine (PowerProduct.mul_answers a.product b.product).bind fun recipe hrecipe _ => ?_
  exact .of_ok rfl (ha.mul hb (mul_eq_ok.mpr ⟨recipe, hrecipe, rfl⟩))

theorem div_answers (ha : a.Built) (hb : b.Built) : Answers (a.div b) Built := by
  refine (PowerProduct.div_answers a.product b.product).bind fun recipe hrecipe _ => ?_
  exact .of_ok rfl (ha.div hb (div_eq_ok.mpr ⟨recipe, hrecipe, rfl⟩))

theorem pow_answers (ha : a.Built) (p : Ratio) : Answers (a.pow p) Built := by
  refine (PowerProduct.pow_answers a.product p).bind fun recipe hrecipe _ => ?_
  exact .of_ok rfl (ha.pow (pow_eq_ok.mpr ⟨recipe, hrecipe, rfl⟩))

end MeasureUnit.Built

/-- A unit of the system that was built. -/
structure UnitSystem.Member (W : UnitSystem) (u : MeasureUnit) : Prop where
  built : u.Built
  holds : W.Holds u

/-- A sound unit of the system that has a canonical form, as a factor. -/
def UnitSystem.Measures (W : UnitSystem) (f : Factor) : Prop :=
  ∃ u c, f = .unit u ∧ u.Sound ∧ W.Holds u ∧ u.canonical = .ok c

theorem UnitSystem.unitWeight_weight (W : UnitSystem) (w : Weights) :
    Atom.Weight W.Measures (Factor.unitWeight w) where
  congr {f g} hf hg h := by
    obtain ⟨u, c, rfl, hu, huW, hc⟩ := hf
    obtain ⟨v, d, rfl, hv, hvW, hd⟩ := hg
    rw [Factor.unitWeight, Factor.unitWeight, MeasureUnit.weight_eq hc, MeasureUnit.weight_eq hd]
    exact hu.weigh_congr hv huW hvW hc hd h w
  neutral {f} hf h := by
    obtain ⟨u, c, rfl, -, -, hc⟩ := hf
    rw [Factor.unitWeight, MeasureUnit.weight_eq hc]
    cases u with
    | mk form spec origin =>
      cases form with
      | one =>
        obtain rfl := Except.ok.inj hc
        exact CanonicalUnit.weigh_one
      | _ => cases h

namespace MeasureUnit

variable {W : UnitSystem} {a b u : MeasureUnit} {c d : CanonicalUnit}

/-! ### Products of units -/

/-- A unit weighs what it multiplies as. -/
theorem Sound.product_spec (hu : u.Sound) (huW : W.Holds u) (hc : u.canonical = .ok c) :
    PowerProduct.Over W.Measures u.product ∧
      ∀ w, PowerProduct.weigh (Factor.unitWeight w) u.product = c.weigh w := by
  have hself : PowerProduct.Over W.Measures [⟨.unit u, .one⟩] ∧
      ∀ w, PowerProduct.weigh (Factor.unitWeight w) [⟨.unit u, .one⟩] = c.weigh w := by
    refine ⟨PowerProduct.over_cons.mpr ⟨⟨u, c, rfl, hu, huW, hc⟩, PowerProduct.over_nil⟩, fun w => ?_⟩
    simp [Factor.unitWeight, weight_eq hc]
  cases u with
  | mk form spec origin =>
    cases form with
    | one =>
      obtain rfl := Except.ok.inj hc
      exact ⟨PowerProduct.over_nil, fun w => CanonicalUnit.weigh_one.symm⟩
    | derived recipe =>
      obtain ⟨hover, hweigh⟩ := recipe_spec hu.factors hc
      refine ⟨fun t ht => ?_, fun w => (hweigh w).symm⟩
      obtain ⟨v, b, hv, hb, -⟩ := hover t ht
      obtain ⟨v', hv', hsound⟩ := hu.factors t ht
      obtain rfl : v' = v := Factor.unit.inj (hv'.symm.trans hv)
      exact ⟨v', b, hv, hsound, W.factor_holds huW ht hv, hb⟩
    | _ => exact hself

/-- The unit of a product weighs what the product weighs. -/
theorem weigh_ofProduct {recipe : FactorProduct} (hrecipe : PowerProduct.Over IsSoundFactor recipe)
    (hc : (ofProduct recipe).canonical = .ok c) (w : Weights) :
    c.weigh w = PowerProduct.weigh (Factor.unitWeight w) recipe := by
  unfold ofProduct at hc
  split at hc
  · rename_i hone
    obtain rfl := PowerProduct.isOne_iff.mp hone
    obtain rfl := Except.ok.inj hc
    exact CanonicalUnit.weigh_one
  · split at hc
    · rename_i u hsingle
      obtain rfl := PowerProduct.single?_eq_some.mp hsingle
      simp [Factor.unitWeight, weight_eq hc]
    · exact (recipe_spec hrecipe hc).2 w

section Operations

variable {x y z : CanonicalUnit} (ha : W.Member a) (hx : a.canonical = .ok x)
  (hz : u.canonical = .ok z)

include ha hx hz

theorem mul_combines (hb : W.Member b) (hy : b.canonical = .ok y) (h : a.mul b = .ok u) :
    CanonicalUnit.Combines 1 1 x y z := by
  intro w
  obtain ⟨recipe, hrecipe, rfl⟩ := mul_eq_ok.mp h
  obtain ⟨hoverA, hweighA⟩ := ha.built.sound.product_spec ha.holds hx
  obtain ⟨hoverB, hweighB⟩ := hb.built.sound.product_spec hb.holds hy
  have hsound := PowerProduct.over_mul ha.built.sound.product hb.built.sound.product hrecipe
  rw [weigh_ofProduct hsound hz w,
    PowerProduct.weigh_mul (W.unitWeight_weight w) hoverA hoverB hrecipe, hweighA, hweighB]
  ring

theorem div_combines (hb : W.Member b) (hy : b.canonical = .ok y) (h : a.div b = .ok u) :
    CanonicalUnit.Combines 1 (-1) x y z := by
  intro w
  obtain ⟨recipe, hrecipe, rfl⟩ := div_eq_ok.mp h
  obtain ⟨hoverA, hweighA⟩ := ha.built.sound.product_spec ha.holds hx
  obtain ⟨hoverB, hweighB⟩ := hb.built.sound.product_spec hb.holds hy
  have hsound := PowerProduct.over_div ha.built.sound.product hb.built.sound.product hrecipe
  rw [weigh_ofProduct hsound hz w,
    PowerProduct.weigh_div (W.unitWeight_weight w) hoverA hoverB hrecipe, hweighA, hweighB]
  ring

/-- The third canonical unit has no part in a power. -/
theorem pow_combines {p : Ratio} (h : a.pow p = .ok u) (y : CanonicalUnit) :
    CanonicalUnit.Combines p.value 0 x y z := by
  intro w
  obtain ⟨recipe, hrecipe, rfl⟩ := pow_eq_ok.mp h
  obtain ⟨-, hweigh⟩ := ha.built.sound.product_spec ha.holds hx
  have hsound := PowerProduct.over_pow ha.built.sound.product hrecipe
  rw [weigh_ofProduct hsound hz w, PowerProduct.weigh_pow hrecipe, hweigh]
  ring

end Operations

/-! ### Conversion in terms of weights -/

theorem convertible_eq_ok {answer : Bool} : a.convertible b = .ok answer ↔
    ∃ x y, a.canonical = .ok x ∧ b.canonical = .ok y ∧
      PowerProduct.same x.reference y.reference = answer := by
  simp only [convertible, bind_eq_ok, pure_eq_ok]
  constructor
  · rintro ⟨x, hx, y, hy, h⟩
    exact ⟨x, y, hx, hy, h⟩
  · rintro ⟨x, y, hx, hy, h⟩
    exact ⟨x, hx, y, hy, h⟩

theorem conversionFactor_eq_ok {f : Magnitude} : a.conversionFactor b = .ok f ↔
    ∃ x y, a.canonical = .ok x ∧ b.canonical = .ok y ∧
      PowerProduct.same x.reference y.reference = true ∧
      PowerProduct.div x.magnitude y.magnitude = .ok f := by
  simp only [conversionFactor, bind_eq_ok]
  constructor
  · rintro ⟨x, hx, y, hy, h⟩
    by_cases hsame : PowerProduct.same x.reference y.reference = true
    · rw [if_pos hsame] at h
      exact ⟨x, y, hx, hy, hsame, h⟩
    · rw [if_neg hsame] at h
      cases h
  · rintro ⟨x, y, hx, hy, hsame, h⟩
    exact ⟨x, hx, y, hy, by rw [if_pos hsame, h]⟩

end MeasureUnit

namespace Magnitude

variable {f g r : Magnitude}

theorem canonical_mul (hf : PowerProduct.Canonical f) (h : PowerProduct.mul f g = .ok r) :
    PowerProduct.Canonical r :=
  PowerProduct.canonical_mul MagnitudeBase.orderedOn f.over_all g.over_all hf h

theorem same_of_weigh (hf : PowerProduct.Canonical f) (hg : PowerProduct.Canonical g)
    (h : ∀ w, Atom.Weight (fun _ => True) w → PowerProduct.weigh w f = PowerProduct.weigh w g) :
    PowerProduct.same f g = true :=
  PowerProduct.same_of_weigh MagnitudeBase.orderedOn f.over_all g.over_all hf hg h

theorem eq_one_of_weigh (hf : PowerProduct.Canonical f)
    (h : ∀ w, Atom.Weight (fun _ => True) w → PowerProduct.weigh w f = 0) :
    f = PowerProduct.one :=
  PowerProduct.eq_one_of_same (same_of_weigh hf PowerProduct.canonical_one h)

end Magnitude

namespace CanonicalUnit

variable {x y z x' y' z' : CanonicalUnit}

theorem same_reference_iff (hx : x.Normal) (hy : y.Normal) :
    PowerProduct.same x.reference y.reference = true ↔ ∀ w, Atom.Weight Factor.IsBase w →
      PowerProduct.weigh w x.reference = PowerProduct.weigh w y.reference := by
  constructor
  · intro h w hw
    exact PowerProduct.weigh_of_same hw hx.base hy.base h
  · exact PowerProduct.same_of_weigh Factor.base_orderedOn hx.base hy.base hx.reference hy.reference

/-- A conversion factor is canonical and weighs the difference of the two magnitudes. -/
theorem factor_spec {f : Magnitude} (hx : x.Normal)
    (h : PowerProduct.div x.magnitude y.magnitude = .ok f) :
    PowerProduct.Canonical f ∧ ∀ w, Atom.Weight (fun _ => True) w → PowerProduct.weigh w f =
      PowerProduct.weigh w x.magnitude - PowerProduct.weigh w y.magnitude :=
  ⟨PowerProduct.canonical_div MagnitudeBase.orderedOn (Magnitude.over_all _) (Magnitude.over_all _)
    hx.magnitude h,
    fun _ hw => PowerProduct.weigh_div hw (Magnitude.over_all _) (Magnitude.over_all _) h⟩

section Combination

variable {m n : Rat} (hx : x.Normal) (hy : y.Normal) (hnormal : z.Normal)
  (hcombines : Combines m n x y z) (hcombines' : Combines m n x' y' z')

include hx hy hnormal hcombines hcombines'

/-- Canonical units put together in one way from units of the same references have the same
reference. -/
theorem Combines.same_reference (hx' : x'.Normal) (hy' : y'.Normal) (hnormal' : z'.Normal)
    (hxx : PowerProduct.same x.reference x'.reference = true)
    (hyy : PowerProduct.same y.reference y'.reference = true) :
    PowerProduct.same z.reference z'.reference = true := by
  rw [same_reference_iff hx hx'] at hxx
  rw [same_reference_iff hy hy'] at hyy
  apply (same_reference_iff hnormal hnormal').mpr
  intro w hw
  rw [← weigh_ofReference hw, ← weigh_ofReference hw, hcombines, hcombines', weigh_ofReference,
    weigh_ofReference, weigh_ofReference, weigh_ofReference, hxx w hw, hyy w hw]

/-- The factor between them is put together in that way from the factors. -/
theorem Combines.same_factor {f g h r : Magnitude}
    (hf : PowerProduct.div x.magnitude x'.magnitude = .ok f)
    (hg : PowerProduct.div y.magnitude y'.magnitude = .ok g)
    (hh : PowerProduct.div z.magnitude z'.magnitude = .ok h) (hr : PowerProduct.Canonical r)
    (hweighR : ∀ w, Atom.Weight (fun _ => True) w →
      PowerProduct.weigh w r = m * PowerProduct.weigh w f + n * PowerProduct.weigh w g) :
    PowerProduct.same h r = true := by
  apply Magnitude.same_of_weigh (factor_spec hnormal hh).1 hr
  intro w hw
  have hz := hcombines (.ofMagnitude hw)
  have hz' := hcombines' (.ofMagnitude hw)
  simp only [weigh_ofMagnitude] at hz hz'
  rw [hweighR w hw, (factor_spec hnormal hh).2 w hw, (factor_spec hx hf).2 w hw,
    (factor_spec hy hg).2 w hw, hz, hz']
  ring

end Combination

end CanonicalUnit

end Metrology
