import Metrology.Proofs.MeasureUnit.Conversion

/-!
# The groupoid of conversions

Convertible units form the classes of an equivalence relation, the factors between them compose, and
both are compatible with products, quotients and rational powers of units. The laws hold for all units
of a system that were built, whenever the operations that a law mentions have a result, and only a limit
keeps convertible units from having a factor.
-/

namespace Metrology

/-- Conversion between the units of a system is an exact groupoid that respects products. -/
structure UnitSystem.ConversionLaws (W : UnitSystem) : Prop where
  convertible_refl : ∀ a c, W.Member a → a.canonical = .ok c → a.convertible a = .ok true
  convertible_symm : ∀ a b, W.Member a → W.Member b → a.convertible b = .ok true →
    b.convertible a = .ok true
  convertible_trans : ∀ a b c, W.Member a → W.Member b → W.Member c → a.convertible b = .ok true →
    b.convertible c = .ok true → a.convertible c = .ok true
  convertible_answers : ∀ a b : MeasureUnit, Answers (a.convertible b) fun _ => True
  /-- The factor takes the powers of the one magnitude less those of the other. -/
  factor_answers : ∀ a b x y, W.Member a → W.Member b → a.canonical = .ok x → b.canonical = .ok y →
    a.convertible b = .ok true → Answers (a.conversionFactor b) fun f => PowerProduct.Canonical f ∧
      ∀ base, (PowerProduct.powerOf f base).value =
        (PowerProduct.powerOf x.magnitude base).value - (PowerProduct.powerOf y.magnitude base).value
  factor_self : ∀ a f, W.Member a → a.conversionFactor a = .ok f → f = PowerProduct.one
  factor_inverse : ∀ a b f g r, W.Member a → W.Member b → a.conversionFactor b = .ok f →
    b.conversionFactor a = .ok g → PowerProduct.mul f g = .ok r → r = PowerProduct.one
  factor_trans : ∀ a b c f g r h, W.Member a → W.Member b → W.Member c →
    a.conversionFactor b = .ok f → b.conversionFactor c = .ok g → PowerProduct.mul f g = .ok r →
    a.conversionFactor c = .ok h → PowerProduct.same r h = true
  mul_convertible : ∀ a b c d p q answer, W.Member a → W.Member b → W.Member c → W.Member d →
    a.convertible b = .ok true → c.convertible d = .ok true → a.mul c = .ok p → b.mul d = .ok q →
    p.convertible q = .ok answer → answer = true
  mul_factor : ∀ a b c d p q f g h r, W.Member a → W.Member b → W.Member c → W.Member d →
    a.conversionFactor b = .ok f → c.conversionFactor d = .ok g → a.mul c = .ok p →
    b.mul d = .ok q → p.conversionFactor q = .ok h → PowerProduct.mul f g = .ok r →
    PowerProduct.same h r = true
  div_convertible : ∀ a b c d p q answer, W.Member a → W.Member b → W.Member c → W.Member d →
    a.convertible b = .ok true → c.convertible d = .ok true → a.div c = .ok p → b.div d = .ok q →
    p.convertible q = .ok answer → answer = true
  div_factor : ∀ a b c d p q f g h r, W.Member a → W.Member b → W.Member c → W.Member d →
    a.conversionFactor b = .ok f → c.conversionFactor d = .ok g → a.div c = .ok p →
    b.div d = .ok q → p.conversionFactor q = .ok h → PowerProduct.div f g = .ok r →
    PowerProduct.same h r = true
  pow_convertible : ∀ a b n p q answer, W.Member a → W.Member b → a.convertible b = .ok true →
    a.pow n = .ok p → b.pow n = .ok q → p.convertible q = .ok answer → answer = true
  pow_factor : ∀ a b n p q f h r, W.Member a → W.Member b → a.conversionFactor b = .ok f →
    a.pow n = .ok p → b.pow n = .ok q → p.conversionFactor q = .ok h → PowerProduct.pow f n = .ok r →
    PowerProduct.same h r = true
  /-- The conversion known at run time only has the same result where there is one. -/
  checked_convertible : ∀ a b : MeasureUnit, a.convertible b = .ok true →
    a.checkedConversionFactor b = liftM (a.conversionFactor b)
  checked_incompatible : ∀ (a b : MeasureUnit) s t, a.convertible b = .ok false →
    a.symbolText false = .ok s → b.symbolText false = .ok t →
    a.checkedConversionFactor b = .error (.reported (.incompatible s t))
  /-- Only convertible units have a conversion factor. -/
  convertible_of_factor : ∀ (a b : MeasureUnit) f,
    a.conversionFactor b = .ok f ∨ a.checkedConversionFactor b = .ok f → a.convertible b = .ok true

/-- A unit converts into itself by one. -/
theorem MeasureUnit.Built.factor_self {u : MeasureUnit} (hu : u.Built) {f : Magnitude}
    (h : u.conversionFactor u = .ok f) : f = PowerProduct.one := by
  obtain ⟨x, x', hx, hx', -, hf⟩ := conversionFactor_eq_ok.mp h
  obtain rfl := Except.ok.inj (hx.symm.trans hx')
  obtain ⟨hcanonical, hweigh⟩ := CanonicalUnit.factor_spec (hu.sound.normal hx) hf
  apply Magnitude.eq_one_of_weigh hcanonical
  intro w hw
  rw [hweigh w hw, sub_self]

namespace UnitSystem

open MeasureUnit CanonicalUnit

variable {W : UnitSystem} {a b c d : MeasureUnit}

theorem Member.normal (ha : W.Member a) {x : CanonicalUnit} (hx : a.canonical = .ok x) : x.Normal :=
  ha.built.sound.normal hx

theorem convertible_refl (ha : W.Member a) {x : CanonicalUnit} (hx : a.canonical = .ok x) :
    a.convertible a = .ok true := by
  refine convertible_eq_ok.mpr ⟨x, x, hx, hx, ?_⟩
  exact (same_reference_iff (ha.normal hx) (ha.normal hx)).mpr fun _ _ => rfl

theorem convertible_symm (ha : W.Member a) (hb : W.Member b) (h : a.convertible b = .ok true) :
    b.convertible a = .ok true := by
  obtain ⟨x, y, hx, hy, hxy⟩ := convertible_eq_ok.mp h
  rw [same_reference_iff (ha.normal hx) (hb.normal hy)] at hxy
  refine convertible_eq_ok.mpr ⟨y, x, hy, hx, ?_⟩
  exact (same_reference_iff (hb.normal hy) (ha.normal hx)).mpr fun w hw => (hxy w hw).symm

theorem convertible_trans (ha : W.Member a) (hb : W.Member b) (hc : W.Member c)
    (hab : a.convertible b = .ok true) (hbc : b.convertible c = .ok true) :
    a.convertible c = .ok true := by
  obtain ⟨x, y, hx, hy, hxy⟩ := convertible_eq_ok.mp hab
  obtain ⟨y', z, hy', hz, hyz⟩ := convertible_eq_ok.mp hbc
  obtain rfl := Except.ok.inj (hy.symm.trans hy')
  rw [same_reference_iff (ha.normal hx) (hb.normal hy)] at hxy
  rw [same_reference_iff (hb.normal hy) (hc.normal hz)] at hyz
  refine convertible_eq_ok.mpr ⟨x, z, hx, hz, ?_⟩
  exact (same_reference_iff (ha.normal hx) (hc.normal hz)).mpr fun w hw =>
    (hxy w hw).trans (hyz w hw)

theorem conversionFactor_eq_div {x y : CanonicalUnit} (hx : a.canonical = .ok x)
    (hy : b.canonical = .ok y) (hxy : PowerProduct.same x.reference y.reference = true) :
    a.conversionFactor b = PowerProduct.div x.magnitude y.magnitude := by
  simp only [conversionFactor, hx, hy]
  exact if_pos hxy

theorem convertible_answers (a b : MeasureUnit) : Answers (a.convertible b) fun _ => True :=
  a.canonical_answers.bind fun _ _ _ => b.canonical_answers.bind fun _ _ _ => .of_ok rfl trivial

theorem factor_answers (ha : W.Member a) (hb : W.Member b) {x y : CanonicalUnit}
    (hx : a.canonical = .ok x) (hy : b.canonical = .ok y) (h : a.convertible b = .ok true) :
    Answers (a.conversionFactor b) fun f => PowerProduct.Canonical f ∧
      ∀ base, (PowerProduct.powerOf f base).value =
        (PowerProduct.powerOf x.magnitude base).value - (PowerProduct.powerOf y.magnitude base).value := by
  obtain ⟨x', y', hx', hy', hxy⟩ := convertible_eq_ok.mp h
  obtain rfl := Except.ok.inj (hx.symm.trans hx')
  obtain rfl := Except.ok.inj (hy.symm.trans hy')
  have hnormal := ha.normal hx
  rw [conversionFactor_eq_div hx hy hxy]
  refine (PowerProduct.div_answers _ _).mono fun f hf _ => ⟨(factor_spec hnormal hf).1, fun base => ?_⟩
  exact PowerProduct.powerOf_div MagnitudeBase.orderedOn (Magnitude.over_all _) (Magnitude.over_all _)
    hnormal.magnitude (hb.normal hy).magnitude hf trivial

theorem factor_inverse (ha : W.Member a) (hb : W.Member b) {f g r : Magnitude}
    (hf : a.conversionFactor b = .ok f) (hg : b.conversionFactor a = .ok g)
    (hr : PowerProduct.mul f g = .ok r) : r = PowerProduct.one := by
  obtain ⟨x, y, hx, hy, -, hf⟩ := conversionFactor_eq_ok.mp hf
  obtain ⟨y', x', hy', hx', -, hg⟩ := conversionFactor_eq_ok.mp hg
  obtain rfl := Except.ok.inj (hx.symm.trans hx')
  obtain rfl := Except.ok.inj (hy.symm.trans hy')
  obtain ⟨hcanonical, hweighF⟩ := factor_spec (ha.normal hx) hf
  obtain ⟨-, hweighG⟩ := factor_spec (hb.normal hy) hg
  apply Magnitude.eq_one_of_weigh (Magnitude.canonical_mul hcanonical hr)
  intro w hw
  rw [PowerProduct.weigh_mul hw f.over_all g.over_all hr, hweighF w hw, hweighG w hw]
  ring

theorem factor_trans (ha : W.Member a) (hb : W.Member b) {f g r h : Magnitude}
    (hf : a.conversionFactor b = .ok f) (hg : b.conversionFactor c = .ok g)
    (hr : PowerProduct.mul f g = .ok r) (hh : a.conversionFactor c = .ok h) :
    PowerProduct.same r h = true := by
  obtain ⟨x, y, hx, hy, -, hf⟩ := conversionFactor_eq_ok.mp hf
  obtain ⟨y', z, hy', hz, -, hg⟩ := conversionFactor_eq_ok.mp hg
  obtain ⟨x', z', hx', hz', -, hh⟩ := conversionFactor_eq_ok.mp hh
  obtain rfl := Except.ok.inj (hx.symm.trans hx')
  obtain rfl := Except.ok.inj (hy.symm.trans hy')
  obtain rfl := Except.ok.inj (hz.symm.trans hz')
  obtain ⟨hcanonicalF, hweighF⟩ := factor_spec (ha.normal hx) hf
  obtain ⟨-, hweighG⟩ := factor_spec (hb.normal hy) hg
  obtain ⟨hcanonicalH, hweighH⟩ := factor_spec (ha.normal hx) hh
  apply Magnitude.same_of_weigh (Magnitude.canonical_mul hcanonicalF hr) hcanonicalH
  intro w hw
  rw [PowerProduct.weigh_mul hw f.over_all g.over_all hr, hweighF w hw, hweighG w hw, hweighH w hw]
  ring

/-! ### Products, quotients and powers -/

section Combination

variable {p q : MeasureUnit} {m n : Rat} {f g h r : Magnitude} {answer : Bool}
  (ha : W.Member a) (hc : W.Member c) (hp : p.Built)
  (hcombines : ∀ {x y z}, a.canonical = .ok x → c.canonical = .ok y → p.canonical = .ok z →
    Combines m n x y z)
  (hcombines' : ∀ {x y z}, b.canonical = .ok x → d.canonical = .ok y → q.canonical = .ok z →
    Combines m n x y z)

include ha hc hp hcombines hcombines'

theorem convertible_of_combines (hb : W.Member b) (hd : W.Member d) (hq : q.Built) (hab : a.convertible b = .ok true)
    (hcd : c.convertible d = .ok true) (h : p.convertible q = .ok answer) : answer = true := by
  obtain ⟨x, x', hx, hx', hxx⟩ := convertible_eq_ok.mp hab
  obtain ⟨y, y', hy, hy', hyy⟩ := convertible_eq_ok.mp hcd
  obtain ⟨z, z', hz, hz', rfl⟩ := convertible_eq_ok.mp h
  exact (hcombines hx hy hz).same_reference (ha.normal hx) (hc.normal hy) (hp.sound.normal hz)
    (hcombines' hx' hy' hz') (hb.normal hx') (hd.normal hy') (hq.sound.normal hz') hxx hyy

theorem factor_of_combines (hf : a.conversionFactor b = .ok f) (hg : c.conversionFactor d = .ok g)
    (hh : p.conversionFactor q = .ok h)
    (hcanonical : PowerProduct.Canonical f → PowerProduct.Canonical r)
    (hweigh : ∀ w, Atom.Weight (fun _ => True) w →
      PowerProduct.weigh w r = m * PowerProduct.weigh w f + n * PowerProduct.weigh w g) :
    PowerProduct.same h r = true := by
  obtain ⟨x, x', hx, hx', -, hf⟩ := conversionFactor_eq_ok.mp hf
  obtain ⟨y, y', hy, hy', -, hg⟩ := conversionFactor_eq_ok.mp hg
  obtain ⟨z, z', hz, hz', -, hh⟩ := conversionFactor_eq_ok.mp hh
  exact (hcombines hx hy hz).same_factor (ha.normal hx) (hc.normal hy) (hp.sound.normal hz)
    (hcombines' hx' hy' hz') hf hg hh (hcanonical (factor_spec (ha.normal hx) hf).1) hweigh

end Combination

/-! ### Conversion factors known at run time only -/

theorem checked_convertible (h : a.convertible b = .ok true) :
    a.checkedConversionFactor b = liftM (a.conversionFactor b) := by
  obtain ⟨x, y, hx, hy, hxy⟩ := convertible_eq_ok.mp h
  rw [conversionFactor_eq_div hx hy hxy]
  simp only [checkedConversionFactor, hx, hy]
  exact if_pos hxy

theorem checked_incompatible {s t : String} (h : a.convertible b = .ok false)
    (hs : a.symbolText false = .ok s) (ht : b.symbolText false = .ok t) :
    a.checkedConversionFactor b = .error (.reported (.incompatible s t)) := by
  obtain ⟨x, y, hx, hy, hxy⟩ := convertible_eq_ok.mp h
  simp only [checkedConversionFactor, hx, hy, hs, ht]
  exact if_neg (by simp [hxy])

theorem convertible_of_checked {f : Magnitude} (h : a.checkedConversionFactor b = .ok f) :
    a.convertible b = .ok true := by
  simp only [checkedConversionFactor, bind_eq_ok, liftM_eq_ok] at h
  obtain ⟨x, hx, y, hy, h⟩ := h
  refine convertible_eq_ok.mpr ⟨x, y, hx, hy, ?_⟩
  by_contra hxy
  simp [if_neg hxy] at h

theorem conversion_laws (W : UnitSystem) : W.ConversionLaws := by
  constructor
  case convertible_refl => exact fun a c ha => convertible_refl ha
  case convertible_symm => exact fun a b ha hb => convertible_symm ha hb
  case convertible_trans => exact fun a b c ha hb hc => convertible_trans ha hb hc
  case convertible_answers => exact convertible_answers
  case factor_answers => exact fun a b x y ha hb => factor_answers ha hb
  case factor_self => exact fun a f ha => ha.built.factor_self
  case factor_inverse => exact fun a b f g r ha hb => factor_inverse ha hb
  case factor_trans =>
    intro a b c f g r h ha hb _ hf hg hr hh
    exact factor_trans ha hb hf hg hr hh
  case mul_convertible =>
    intro a b c d p q answer ha hb hc hd hab hcd hp hq h
    exact convertible_of_combines ha hc (ha.built.mul hc.built hp)
      (fun hx hy hz => mul_combines ha hx hz hc hy hp) (fun hx hy hz => mul_combines hb hx hz hd hy hq)
      hb hd (hb.built.mul hd.built hq) hab hcd h
  case mul_factor =>
    intro a b c d p q f g h r ha hb hc hd hf hg hp hq hh hr
    refine factor_of_combines ha hc (ha.built.mul hc.built hp)
      (fun hx hy hz => mul_combines ha hx hz hc hy hp) (fun hx hy hz => mul_combines hb hx hz hd hy hq)
      hf hg hh (fun hcanonical => Magnitude.canonical_mul hcanonical hr) fun w hw => ?_
    rw [PowerProduct.weigh_mul hw f.over_all g.over_all hr, one_mul, one_mul]
  case div_convertible =>
    intro a b c d p q answer ha hb hc hd hab hcd hp hq h
    exact convertible_of_combines ha hc (ha.built.div hc.built hp)
      (fun hx hy hz => div_combines ha hx hz hc hy hp) (fun hx hy hz => div_combines hb hx hz hd hy hq)
      hb hd (hb.built.div hd.built hq) hab hcd h
  case div_factor =>
    intro a b c d p q f g h r ha hb hc hd hf hg hp hq hh hr
    refine factor_of_combines ha hc (ha.built.div hc.built hp)
      (fun hx hy hz => div_combines ha hx hz hc hy hp) (fun hx hy hz => div_combines hb hx hz hd hy hq)
      hf hg hh (fun hcanonical => PowerProduct.canonical_div MagnitudeBase.orderedOn f.over_all
        g.over_all hcanonical hr) fun w hw => ?_
    rw [PowerProduct.weigh_div hw f.over_all g.over_all hr]
    ring
  case pow_convertible =>
    intro a b n p q answer ha hb hab hp hq h
    exact convertible_of_combines ha ha (ha.built.pow hp) (fun hx _ hz => pow_combines ha hx hz hp _)
      (fun hx _ hz => pow_combines hb hx hz hq _) hb hb (hb.built.pow hq) hab hab h
  case pow_factor =>
    intro a b n p q f h r ha hb hf hp hq hh hr
    refine factor_of_combines ha ha (ha.built.pow hp)
      (fun hx _ hz => pow_combines ha hx hz hp _)
      (fun hx _ hz => pow_combines hb hx hz hq _) hf hf hh
      (fun hcanonical => PowerProduct.canonical_pow hcanonical hr) fun w _ => ?_
    rw [PowerProduct.weigh_pow hr]
    ring
  case checked_convertible => exact fun a b => checked_convertible
  case checked_incompatible => exact fun a b s t => checked_incompatible
  case convertible_of_factor =>
    rintro a b f (hf | hf)
    · obtain ⟨x, y, hx, hy, hxy, -⟩ := conversionFactor_eq_ok.mp hf
      exact convertible_eq_ok.mpr ⟨x, y, hx, hy, hxy⟩
    · exact convertible_of_checked hf

open Catalog in
/-- Kilometres an hour are metres a second times the quotient of the two conversion factors. -/
theorem conversion_laws_travel : travel.ConversionLaws ∧
    ∃ p q f g h r, kilometre.div hour = .ok p ∧ Si.metre.div Si.second = .ok q ∧
      kilometre.conversionFactor Si.metre = .ok f ∧ hour.conversionFactor Si.second = .ok g ∧
      p.conversionFactor q = .ok h ∧ PowerProduct.div f g = .ok r ∧
      PowerProduct.same h r = true := by
  have hlaws := travel.conversion_laws
  have hmetre : Si.metre.Built := (MeasureUnit.Built.named _ _).associated _
  have hsecond : Si.second.Built := (MeasureUnit.Built.named _ _).associated _
  have hkilometre : travel.Member kilometre :=
    ⟨@MeasureUnit.Built.prefixed _ _ (.plain "k") thousand (by decide) hmetre rfl, by
      show _ ∈ _
      simp⟩
  have hhour : travel.Member hour :=
    ⟨@MeasureUnit.Built.definedAs _ _ _ secondsPerHour
      (MeasureUnit.Built.named (Si.nameOf "Hour") (.plain "h")) (by decide) hsecond rfl, by
      show _ ∈ _
      simp⟩
  have hmetre : travel.Member Si.metre := ⟨hmetre, by
    show _ ∈ _
    simp⟩
  have hsecond : travel.Member Si.second := ⟨hsecond, by
    show _ ∈ _
    simp⟩
  obtain ⟨_, hresults⟩ := exists_eq_ok (show (do
    let p ← kilometre.div hour
    let q ← Si.metre.div Si.second
    let f ← kilometre.conversionFactor Si.metre
    let g ← hour.conversionFactor Si.second
    let _ ← p.conversionFactor q
    let _ ← PowerProduct.div f g).isOk = true by decide +kernel)
  simp only [bind_eq_ok] at hresults
  obtain ⟨p, hp, q, hq, f, hf, g, hg, h, hh, r, hr, -⟩ := hresults
  exact ⟨hlaws, p, q, f, g, h, r, hp, hq, hf, hg, hh, hr,
    hlaws.div_factor _ _ _ _ _ _ _ _ _ _ hkilometre hmetre hhour hsecond hf hg hp hq hh hr⟩

end UnitSystem

end Metrology
