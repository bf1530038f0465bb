import Metrology.Catalog.International
import Metrology.Proofs.Magnitude.Built
import Metrology.Proofs.MeasureUnit.Conversion

/-!
# Units of exact magnitudes

All magnitudes inside an exact unit have been built from ratios and constants. Its canonical magnitude is
then a product of such magnitudes and has positive primes only.
-/

namespace Metrology

namespace MeasureUnit

/-- A unit is made of itself and of what its parts are made of. -/
def Contains : MeasureUnit → MeasureUnit → Prop := Relation.ReflTransGen fun u v => v ∈ u.form.parts

/-- All magnitudes inside a unit have been built. -/
def MagnitudesBuilt (u : MeasureUnit) : Prop :=
  ∀ v m, u.Contains v → v.form.magnitude? = some m → m.Built

/-- A unit that was built with magnitudes that were built. -/
structure Exact (u : MeasureUnit) : Prop where
  built : u.Built
  magnitudes : u.MagnitudesBuilt

variable {u v w : MeasureUnit} {m : Magnitude}

theorem MagnitudesBuilt.part (h : u.MagnitudesBuilt) (hv : v ∈ u.form.parts) : v.MagnitudesBuilt :=
  fun w m hw => h w m (hw.head hv)

theorem MagnitudesBuilt.of_parts (hself : ∀ m, u.form.magnitude? = some m → m.Built)
    (hparts : ∀ v ∈ u.form.parts, v.MagnitudesBuilt) : u.MagnitudesBuilt := by
  intro w m hw hm
  rcases hw.cases_head with rfl | ⟨v, hv, hvw⟩
  · exact hself m hm
  · exact hparts v hv w m hvw hm

/-- A multiple of a unit by a magnitude. -/
theorem MagnitudesBuilt.multiple (hm : m.Built) (hv : v.MagnitudesBuilt)
    (hmagnitude : u.form.magnitude? = some m) (hparts : u.form.parts = [v]) : u.MagnitudesBuilt := by
  apply of_parts
  · intro n hn
    rw [hmagnitude] at hn
    exact Option.some.inj hn ▸ hm
  · intro w hw
    rw [hparts] at hw
    exact List.mem_singleton.mp hw ▸ hv

end MeasureUnit

/-! ### Primes of canonical magnitudes -/

theorem canonicalTerms_positive {recipe : List (Term Factor)} {start c : CanonicalUnit}
    (hrecipe : ∀ t ∈ recipe, ∃ u, t.factor = .unit u ∧
      ∀ d, u.canonical = .ok d → PowerProduct.Over MagnitudeBase.IsPositive d.magnitude)
    (hstart : PowerProduct.Over MagnitudeBase.IsPositive start.magnitude)
    (h : canonicalTerms start recipe = .ok c) :
    PowerProduct.Over MagnitudeBase.IsPositive c.magnitude := by
  induction recipe generalizing start with
  | nil => exact Except.ok.inj h ▸ hstart
  | cons t rest ih =>
    rw [List.forall_mem_cons] at hrecipe
    obtain ⟨⟨u, hu, hpositive⟩, hrest⟩ := hrecipe
    obtain ⟨d, next, hd, hnext, hc⟩ := canonicalTerms_cons hu h
    obtain ⟨x, y, m, r, hx, hm, -, -, rfl⟩ := CanonicalUnit.mulPow_eq_ok.mp hnext
    exact ih hrest (PowerProduct.over_mul hstart (PowerProduct.over_pow (hpositive d hd) hx) hm) hc

namespace MeasureUnit

variable {u v w : MeasureUnit} {m : Magnitude} {c : CanonicalUnit}

theorem Sound.positive (hu : u.Sound) (hmagnitudes : u.MagnitudesBuilt) (h : u.canonical = .ok c) :
    PowerProduct.Over MagnitudeBase.IsPositive c.magnitude := by
  have hscale {m : Magnitude} {b c : CanonicalUnit} (hm : m.Built)
      (hb : PowerProduct.Over MagnitudeBase.IsPositive b.magnitude) (h : b.scale m = .ok c) :
      PowerProduct.Over MagnitudeBase.IsPositive c.magnitude := by
    obtain ⟨x, hx, rfl⟩ := CanonicalUnit.scale_eq_ok.mp h
    exact PowerProduct.over_mul hm.regular.positive hb hx
  induction hu generalizing c with
  | one =>
    obtain rfl := Except.ok.inj h
    exact PowerProduct.over_nil
  | base =>
    obtain rfl := canonical_base h
    exact PowerProduct.over_nil
  | defined _ _ ih =>
    obtain ⟨b, hb, hc⟩ := canonical_defined h
    exact hscale (hmagnitudes _ _ .refl rfl) (ih (hmagnitudes.part (List.mem_singleton.mpr rfl)) hb) hc
  | prefixed _ _ ih =>
    obtain ⟨b, hb, hc⟩ := canonical_prefixed h
    exact hscale (hmagnitudes _ _ .refl rfl) (ih (hmagnitudes.part (List.mem_singleton.mpr rfl)) hb) hc
  | scaled _ _ ih =>
    obtain ⟨b, hb, hc⟩ := canonical_scaled h
    exact hscale (hmagnitudes _ _ .refl rfl) (ih (hmagnitudes.part (List.mem_singleton.mpr rfl)) hb) hc
  | derived hunits _ ih =>
    refine canonicalTerms_positive (fun t ht => ?_) PowerProduct.over_nil h
    obtain ⟨u, hu⟩ := hunits t ht
    have hpart := hmagnitudes.part (List.mem_filterMap.mpr ⟨t, ht, by rw [hu]⟩)
    exact ⟨u, hu, fun d hd => ih t ht u hu hpart hd⟩

theorem Exact.regular (hu : u.Exact) (hc : u.canonical = .ok c) : c.magnitude.Regular :=
  ⟨(hu.built.sound.normal hc).magnitude, hu.built.sound.positive hu.magnitudes hc⟩

theorem Exact.factor_regular (hu : u.Exact) (hv : v.Exact) (hm : u.conversionFactor v = .ok m) :
    m.Regular := by
  obtain ⟨x, y, hx, hy, -, hdiv⟩ := conversionFactor_eq_ok.mp hm
  exact (hu.regular hx).div (hv.regular hy) hdiv

/-! ### Building exact units -/

theorem named_exact (name : String) (symbol : Symbol) : (named name symbol).Exact where
  built := .named name symbol
  magnitudes := by
    apply MagnitudesBuilt.of_parts
    · rintro m ⟨⟩
    · rintro v ⟨⟩

theorem Exact.associated (hu : u.Exact) (q : NamedQuantity) : (u.associated q).Exact where
  built := hu.built.associated q
  magnitudes := .of_parts (fun m hm => hu.magnitudes u m .refl hm) fun _ hv => hu.magnitudes.part hv

theorem Exact.definedAs (hu : u.Exact) (hm : m.Built) (hv : v.Exact) (h : u.definedAs m v = .ok w) :
    w.Exact := by
  refine ⟨.definedAs hu.built hm.regular.canonical hv.built h, ?_⟩
  unfold MeasureUnit.definedAs at h
  split at h
  · exact .multiple hm hv.magnitudes (Except.ok.inj h ▸ rfl) (Except.ok.inj h ▸ rfl)
  · exact .multiple hm hv.magnitudes (Except.ok.inj h ▸ rfl) (Except.ok.inj h ▸ rfl)
  · cases h

theorem Exact.prefixed {symbol : Symbol} (hm : m.Built) (hu : u.Exact)
    (h : MeasureUnit.prefixed symbol m u = .ok v) : v.Exact := by
  refine ⟨.prefixed hm.regular.canonical hu.built h, ?_⟩
  unfold MeasureUnit.prefixed at h
  split at h
  · exact .multiple hm hu.magnitudes (Except.ok.inj h ▸ rfl) (Except.ok.inj h ▸ rfl)
  · exact .multiple hm hu.magnitudes (Except.ok.inj h ▸ rfl) (Except.ok.inj h ▸ rfl)
  · cases h

end MeasureUnit

theorem ScalePrefix.magnitude_built (p : ScalePrefix) {m : Magnitude} (h : p.magnitude = .ok m) :
    m.Built := by
  have hpower {base exponent : Int} (h : Magnitude.powerOfInteger base exponent = .ok m) : m.Built := by
    obtain ⟨n, hn, h⟩ := bind_eq_ok.mp h
    obtain ⟨q, -, hm⟩ := bind_eq_ok.mp h
    obtain ⟨r, -, hr⟩ := bind_eq_ok.mp hn
    exact .pow (.ofRatio hr) hm
  cases p with
  | decimal p => exact hpower h
  | binary p => exact hpower h

namespace MeasureUnit

variable {u v : MeasureUnit}

open Catalog

theorem Exact.withScale {p : ScalePrefix} (hu : u.Exact) (h : u.withScale p = .ok v) : v.Exact := by
  obtain ⟨m, hm, hv⟩ := bind_eq_ok.mp h
  exact hu.prefixed (p.magnitude_built hm) hv

theorem metre_exact : Si.metre.Exact := (named_exact _ _).associated _

theorem international_exact {name symbol : String} {n d : Int} {unit : Except Fault MeasureUnit}
    (hunit : ∀ v, unit = .ok v → v.Exact)
    (h : International.multiple name symbol n d unit = .ok u) : u.Exact := by
  obtain ⟨m, hm, h⟩ := bind_eq_ok.mp h
  obtain ⟨v, hv, hu⟩ := bind_eq_ok.mp h
  obtain ⟨r, -, hr⟩ := bind_eq_ok.mp hm
  exact (named_exact _ _).definedAs (.ofRatio hr) (hunit v hv) hu

theorem foot_exact (h : International.foot = .ok u) : u.Exact := by
  refine international_exact (fun yard hyard => ?_) h
  refine international_exact (fun metre hmetre => ?_) hyard
  obtain rfl := Except.ok.inj hmetre
  exact metre_exact

end MeasureUnit

end Metrology
