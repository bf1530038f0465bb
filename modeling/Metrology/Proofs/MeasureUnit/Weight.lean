import Metrology.MeasureUnit.Canonical
import Metrology.Proofs.Factor.Order
import Metrology.Proofs.MeasureUnit.Built
import Metrology.Proofs.PowerProduct.Group

/-!
# Canonical units weigh what they are built from

Give every base of a magnitude and every unit without definition a weight. The canonical form of a unit
then has a weight, and it can be read off the way the unit was built: definitions, prefixes and
multiples add the weight of their magnitude, and a recipe weighs the sum of its units, each times its
power. Units that compare as equal weigh the same, so it does not matter how recipes are sorted and
merged.
-/

namespace Metrology

/-- A unit without definition as a factor. -/
def Factor.IsBase (f : Factor) : Prop :=
  ∃ name symbol spec origin, f = .unit (.mk (.base name symbol) spec origin)

theorem Factor.base_orderedOn : Atom.OrderedOn Factor.IsBase := by
  refine (@Factor.orderedOn (fun _ => False) (fun _ _ h => h.elim)).mono ?_
  rintro f ⟨name, symbol, spec, origin, rfl⟩
  simp [Factor.QuantitiesIn, MeasureUnit.QuantitiesIn, UnitForm.QuantitiesIn]

namespace CanonicalUnit

/-- A canonical magnitude times a canonical product of units without definition. -/
structure Normal (c : CanonicalUnit) : Prop where
  magnitude : PowerProduct.Canonical c.magnitude
  reference : PowerProduct.Canonical c.reference
  base : PowerProduct.Over Factor.IsBase c.reference

/-- Weights of the bases of magnitudes and of the units without definition. -/
structure Weights where
  magnitude : MagnitudeBase → Rat
  reference : Factor → Rat
  onMagnitude : Atom.Weight (fun _ => True) magnitude
  onReference : Atom.Weight Factor.IsBase reference

/-- Weights that only look at the magnitude. -/
def Weights.ofMagnitude {w : MagnitudeBase → Rat} (hw : Atom.Weight (fun _ => True) w) : Weights where
  magnitude := w
  reference _ := 0
  onMagnitude := hw
  onReference := ⟨fun _ _ _ => rfl, fun _ _ => rfl⟩

/-- Weights that only look at the reference. -/
def Weights.ofReference {w : Factor → Rat} (hw : Atom.Weight Factor.IsBase w) : Weights where
  magnitude _ := 0
  reference := w
  onMagnitude := ⟨fun _ _ _ => rfl, fun _ _ => rfl⟩
  onReference := hw

def weigh (w : Weights) (c : CanonicalUnit) : Rat :=
  PowerProduct.weigh w.magnitude c.magnitude + PowerProduct.weigh w.reference c.reference

/-- One canonical unit weighs `m` times a second and `n` times a third. -/
def Combines (m n : Rat) (x y z : CanonicalUnit) : Prop :=
  ∀ w, z.weigh w = m * x.weigh w + n * y.weigh w

variable {c d e : CanonicalUnit} {m : Magnitude} {p : Ratio}

@[simp] theorem weigh_one {w : Weights} : one.weigh w = 0 := by
  simp [weigh, one]

@[simp] theorem weigh_ofMagnitude {w : MagnitudeBase → Rat} (hw : Atom.Weight (fun _ => True) w) :
    c.weigh (.ofMagnitude hw) = PowerProduct.weigh w c.magnitude := by
  simp [weigh, Weights.ofMagnitude]

@[simp] theorem weigh_ofReference {w : Factor → Rat} (hw : Atom.Weight Factor.IsBase w) :
    c.weigh (.ofReference hw) = PowerProduct.weigh w c.reference := by
  simp [weigh, Weights.ofReference]

theorem normal_one : one.Normal :=
  ⟨PowerProduct.canonical_one, PowerProduct.canonical_one, PowerProduct.over_nil⟩

theorem scale_eq_ok : scale m c = .ok d ↔
    ∃ x, PowerProduct.mul m c.magnitude = .ok x ∧ ⟨x, c.reference⟩ = d := by
  rw [scale, bind_eq_ok]
  simp

theorem Normal.scale (hc : c.Normal) (hm : PowerProduct.Canonical m) (h : c.scale m = .ok d) :
    d.Normal := by
  obtain ⟨x, hx, rfl⟩ := scale_eq_ok.mp h
  exact ⟨PowerProduct.canonical_mul MagnitudeBase.orderedOn m.over_all (Magnitude.over_all _) hm hx,
    hc.reference, hc.base⟩

theorem weigh_scale (w : Weights) (h : c.scale m = .ok d) :
    d.weigh w = PowerProduct.weigh w.magnitude m + c.weigh w := by
  obtain ⟨x, hx, rfl⟩ := scale_eq_ok.mp h
  rw [weigh, weigh, PowerProduct.weigh_mul w.onMagnitude m.over_all (Magnitude.over_all _) hx]
  ring

theorem mulPow_eq_ok : c.mulPow d p = .ok e ↔
    ∃ x y u v, PowerProduct.pow d.magnitude p = .ok x ∧ PowerProduct.mul c.magnitude x = .ok u ∧
      PowerProduct.pow d.reference p = .ok y ∧ PowerProduct.mul c.reference y = .ok v ∧
      ⟨u, v⟩ = e := by
  simp only [mulPow, bind_eq_ok, pure_eq_ok]
  constructor
  · rintro ⟨x, hx, u, hu, y, hy, v, hv, rfl⟩
    exact ⟨x, y, u, v, hx, hu, hy, hv, rfl⟩
  · rintro ⟨x, y, u, v, hx, hu, hy, hv, rfl⟩
    exact ⟨x, hx, u, hu, y, hy, v, hv, rfl⟩

theorem Normal.mulPow (hc : c.Normal) (hd : d.Normal) (h : c.mulPow d p = .ok e) : e.Normal := by
  obtain ⟨x, y, u, v, -, hu, hy, hv, rfl⟩ := mulPow_eq_ok.mp h
  have hover : PowerProduct.Over Factor.IsBase y := PowerProduct.over_pow hd.base hy
  exact ⟨PowerProduct.canonical_mul MagnitudeBase.orderedOn (Magnitude.over_all _)
      (Magnitude.over_all _) hc.magnitude hu,
    PowerProduct.canonical_mul Factor.base_orderedOn hc.base hover hc.reference hv,
    PowerProduct.over_mul hc.base hover hv⟩

theorem weigh_mulPow (w : Weights) (hc : c.Normal) (hd : d.Normal) (h : c.mulPow d p = .ok e) :
    e.weigh w = c.weigh w + p.value * d.weigh w := by
  obtain ⟨x, y, u, v, hx, hu, hy, hv, rfl⟩ := mulPow_eq_ok.mp h
  rw [weigh, weigh, weigh,
    PowerProduct.weigh_mul w.onMagnitude (Magnitude.over_all _) (Magnitude.over_all _) hu,
    PowerProduct.weigh_mul w.onReference hc.base (PowerProduct.over_pow hd.base hy) hv,
    PowerProduct.weigh_pow hx, PowerProduct.weigh_pow hy]
  ring

/-- References that weigh the same under all weights are the same. -/
theorem same_reference (hc : c.Normal) (hd : d.Normal) (h : ∀ w, c.weigh w = d.weigh w) :
    PowerProduct.same c.reference d.reference = true := by
  refine PowerProduct.same_of_weigh Factor.base_orderedOn hc.base hd.base hc.reference hd.reference
    fun w hw => ?_
  rw [← weigh_ofReference hw, ← weigh_ofReference hw, h]

end CanonicalUnit

/-! ### Recipes -/

open CanonicalUnit (Weights)

namespace MeasureUnit

/-- The weight of the canonical form of a unit. -/
def weight (w : Weights) (u : MeasureUnit) : Rat :=
  match u.canonical with
  | .ok c => c.weigh w
  | .error _ => 0

theorem weight_eq {w : Weights} {u : MeasureUnit} {c : CanonicalUnit} (h : u.canonical = .ok c) :
    u.weight w = c.weigh w := by
  rw [weight, h]

end MeasureUnit

/-- Factors that are not units weigh nothing. -/
def Factor.unitWeight (w : Weights) : Factor → Rat
  | .unit u => u.weight w
  | _ => 0

/-- A unit with a canonical form that is normal. -/
def Factor.HasNormal (f : Factor) : Prop :=
  ∃ u c, f = .unit u ∧ u.canonical = .ok c ∧ c.Normal

theorem canonicalTerms_cons {start c : CanonicalUnit} {t : Term Factor} {u : MeasureUnit}
    {rest : List (Term Factor)} (hu : t.factor = .unit u)
    (h : canonicalTerms start (t :: rest) = .ok c) :
    ∃ d next, u.canonical = .ok d ∧ start.mulPow d t.power = .ok next ∧
      canonicalTerms next rest = .ok c := by
  cases t with
  | mk factor power =>
    obtain rfl : factor = .unit u := hu
    simp only [canonicalTerms, canonicalTerm, Factor.mulCanonical, bind_eq_ok] at h
    obtain ⟨next, ⟨d, hd, hnext⟩, hrest⟩ := h
    exact ⟨d, next, hd, hnext, hrest⟩

/-- Multiplying the units of a recipe gives a normal form that weighs what the recipe weighs. -/
theorem canonicalTerms_spec {recipe : List (Term Factor)} {start c : CanonicalUnit}
    (hrecipe : ∀ t ∈ recipe, ∃ u, t.factor = .unit u ∧ ∀ d, u.canonical = .ok d → d.Normal)
    (hstart : start.Normal) (h : canonicalTerms start recipe = .ok c) :
    c.Normal ∧ PowerProduct.Over Factor.HasNormal recipe ∧
      ∀ w, c.weigh w = start.weigh w + PowerProduct.weigh (Factor.unitWeight w) recipe := by
  induction recipe generalizing start with
  | nil =>
    obtain rfl := Except.ok.inj h
    exact ⟨hstart, PowerProduct.over_nil, fun w => by simp⟩
  | cons t rest ih =>
    rw [List.forall_mem_cons] at hrecipe
    obtain ⟨⟨u, hu, hnormal⟩, hrest⟩ := hrecipe
    obtain ⟨d, next, hd, hnext, hc⟩ := canonicalTerms_cons hu h
    obtain ⟨hc, hover, hweigh⟩ := ih hrest (hstart.mulPow (hnormal d hd) hnext) hc
    refine ⟨hc, PowerProduct.over_cons.mpr ⟨⟨u, d, hu, hd, hnormal d hd⟩, hover⟩, fun w => ?_⟩
    have hunit : t.factor.unitWeight w = d.weigh w := by
      rw [hu, Factor.unitWeight, MeasureUnit.weight_eq hd]
    rw [hweigh w, CanonicalUnit.weigh_mulPow w hstart (hnormal d hd) hnext, PowerProduct.weigh_cons,
      hunit]
    ring

/-! ### Sound units -/

namespace MeasureUnit

variable {u v : MeasureUnit} {c d : CanonicalUnit} {spec : Option NamedQuantity}
  {origin : Option PointOrigin}

theorem canonical_base {name : String} {symbol : Symbol}
    (h : (mk (.base name symbol) spec origin).canonical = .ok c) :
    c = ⟨[], [⟨.unit (mk (.base name symbol) spec origin), .one⟩]⟩ :=
  (Except.ok.inj h).symm

theorem canonical_defined {name : String} {symbol : Symbol} {m : Magnitude}
    (h : (mk (.defined name symbol m u) spec origin).canonical = .ok c) :
    ∃ b, u.canonical = .ok b ∧ b.scale m = .ok c :=
  bind_eq_ok.mp h

theorem canonical_prefixed {symbol : Symbol} {m : Magnitude}
    (h : (mk (.prefixed symbol m u) spec origin).canonical = .ok c) :
    ∃ b, u.canonical = .ok b ∧ b.scale m = .ok c :=
  bind_eq_ok.mp h

theorem canonical_scaled {m : Magnitude} (h : (mk (.scaled m u) spec origin).canonical = .ok c) :
    ∃ b, u.canonical = .ok b ∧ b.scale m = .ok c :=
  bind_eq_ok.mp h

theorem Sound.normal (hu : u.Sound) (h : u.canonical = .ok c) : c.Normal := by
  induction hu generalizing c with
  | one =>
    obtain rfl := Except.ok.inj h
    exact CanonicalUnit.normal_one
  | @base name symbol spec origin =>
    obtain rfl := canonical_base h
    refine ⟨PowerProduct.canonical_one, ⟨?_, ?_, ?_⟩, ?_⟩
    · exact List.pairwise_singleton _ _
    · intro t ht
      obtain rfl := List.mem_singleton.mp ht
      exact ⟨by simp, rfl⟩
    · simp [PowerProduct.capacity]
    · exact PowerProduct.over_cons.mpr ⟨⟨name, symbol, spec, origin, rfl⟩, PowerProduct.over_nil⟩
  | defined hm _ ih =>
    obtain ⟨b, hb, hscale⟩ := canonical_defined h
    exact (ih hb).scale hm hscale
  | prefixed hm _ ih =>
    obtain ⟨b, hb, hscale⟩ := canonical_prefixed h
    exact (ih hb).scale hm hscale
  | scaled hm _ ih =>
    obtain ⟨b, hb, hscale⟩ := canonical_scaled h
    exact (ih hb).scale hm hscale
  | derived hunits _ ih =>
    refine (canonicalTerms_spec (fun t ht => ?_) CanonicalUnit.normal_one h).1
    obtain ⟨u, hu⟩ := hunits t ht
    exact ⟨u, hu, fun d hd => ih t ht u hu hd⟩

/-- A recipe of sound units weighs what its canonical form weighs. -/
theorem recipe_spec {recipe : List (Term Factor)} (hrecipe : PowerProduct.Over IsSoundFactor recipe)
    (h : canonicalTerms .one recipe = .ok c) : PowerProduct.Over Factor.HasNormal recipe ∧
      ∀ w, c.weigh w = PowerProduct.weigh (Factor.unitWeight w) recipe := by
  have hunits : ∀ t ∈ recipe, ∃ u, t.factor = .unit u ∧ ∀ d, u.canonical = .ok d → d.Normal := by
    intro t ht
    obtain ⟨u, hu, hsound⟩ := hrecipe t ht
    exact ⟨u, hu, fun d hd => hsound.normal hd⟩
  obtain ⟨-, hover, hweigh⟩ := canonicalTerms_spec hunits CanonicalUnit.normal_one h
  refine ⟨hover, fun w => ?_⟩
  rw [hweigh w, CanonicalUnit.weigh_one, zero_add]

/-- Units of one form weigh the same: only a unit without definition occurs in its own canonical form,
and it is identified by its name. -/
theorem weigh_of_form (hform : u.form = v.form) (hc : u.canonical = .ok c) (hd : v.canonical = .ok d)
    (w : Weights) : c.weigh w = d.weigh w := by
  cases u with
  | mk form spec origin =>
    cases v with
    | mk form' spec' origin' =>
      obtain rfl : form = form' := hform
      cases form with
      | base name symbol =>
        obtain rfl := canonical_base hc
        obtain rfl := canonical_base hd
        have hreference : w.reference (.unit (mk (.base name symbol) spec origin)) =
            w.reference (.unit (mk (.base name symbol) spec' origin')) :=
          w.onReference.congr ⟨_, _, _, _, rfl⟩ ⟨_, _, _, _, rfl⟩ (compareText_self name)
        simpa [CanonicalUnit.weigh] using hreference
      | _ => exact congrArg (CanonicalUnit.weigh w) (Except.ok.inj (hc.symm.trans hd))

theorem name_of_cmp {name : String} (hname : u.name? = some name) (h : u.cmp v = .eq) :
    v.name? = some name := by
  cases u with
  | mk f _ _ =>
    cases v with
    | mk g _ _ =>
      have hnamed : ∃ other, g.name? = some other := by
        cases f <;> cases hname <;> cases g <;> first | exact ⟨_, rfl⟩ | cases h
      obtain ⟨other, hother⟩ := hnamed
      have hcompare : compareText name other = .eq := (UnitForm.cmp_of_name hname hother).symm.trans h
      exact Std.LawfulEqCmp.eq_of_compare hcompare ▸ hother

/-- Units of one system that compare as equal weigh the same. The induction is on the first unit; named
units need no induction hypothesis, because their name stands for one form. -/
theorem Sound.weigh_congr {W : UnitSystem} (hu : u.Sound) (hv : v.Sound) (huW : W.Holds u)
    (hvW : W.Holds v) (hc : u.canonical = .ok c) (hd : v.canonical = .ok d) (h : u.cmp v = .eq)
    (w : Weights) : c.weigh w = d.weigh w := by
  induction hu generalizing v c d with
  | one =>
    cases hv with
    | one => exact congrArg (CanonicalUnit.weigh w) (Except.ok.inj (hc.symm.trans hd))
    | _ => cases h
  | base => exact weigh_of_form (W.form_eq_of_name huW hvW rfl (name_of_cmp rfl h)) hc hd w
  | defined => exact weigh_of_form (W.form_eq_of_name huW hvW rfl (name_of_cmp rfl h)) hc hd w
  | @prefixed symbol m x spec origin hm hx ih =>
    cases hv with
    | @prefixed symbol' n y spec' origin' hn hy =>
      rw [MeasureUnit.cmp, UnitForm.cmp, Ordering.then_eq_eq] at h
      obtain ⟨b, hb, hscale⟩ := canonical_prefixed hc
      obtain ⟨b', hb', hscale'⟩ := canonical_prefixed hd
      have hsymbol : symbol.unicode = symbol'.unicode := Std.LawfulEqCmp.eq_of_compare h.2
      have hmagnitude : m = n := W.magnitude_eq_of_prefix huW hvW rfl rfl hsymbol
      have hparts := ih hy (W.part_holds huW (List.mem_singleton.mpr rfl))
        (W.part_holds hvW (List.mem_singleton.mpr rfl)) hb hb' h.1
      rw [CanonicalUnit.weigh_scale w hscale, CanonicalUnit.weigh_scale w hscale', hmagnitude, hparts]
    | _ => cases h
  | @scaled m x spec origin hm hx ih =>
    cases hv with
    | @scaled n y spec' origin' hn hy =>
      rw [MeasureUnit.cmp, UnitForm.cmp, Ordering.then_eq_eq] at h
      obtain ⟨b, hb, hscale⟩ := canonical_scaled hc
      obtain ⟨b', hb', hscale'⟩ := canonical_scaled hd
      have hmagnitude : PowerProduct.weigh w.magnitude m = PowerProduct.weigh w.magnitude n :=
        PowerProduct.weigh_of_cmp (fun s _ t _ => w.onMagnitude.congr trivial trivial) h.2
      have hparts := ih hy (W.part_holds huW (List.mem_singleton.mpr rfl))
        (W.part_holds hvW (List.mem_singleton.mpr rfl)) hb hb' h.1
      rw [CanonicalUnit.weigh_scale w hscale, CanonicalUnit.weigh_scale w hscale', hmagnitude, hparts]
    | _ => cases h
  | @derived recipe spec origin hunits hsound ih =>
    cases hv with
    | @derived recipe' spec' origin' hunits' hsound' =>
      rw [MeasureUnit.cmp, UnitForm.cmp, cmpTerms_eq_cmp] at h
      obtain ⟨hover, hweigh⟩ := recipe_spec (@Sound.factors _ spec origin (.derived hunits hsound)) hc
      obtain ⟨hover', hweigh'⟩ := recipe_spec (@Sound.factors _ spec' origin' (.derived hunits' hsound')) hd
      rw [hweigh w, hweigh' w]
      refine PowerProduct.weigh_of_cmp (fun s hs t ht hst => ?_) h
      obtain ⟨x, b, hx, hb, -⟩ := hover s hs
      obtain ⟨y, b', hy, hb', -⟩ := hover' t ht
      have hxy : x.cmp y = .eq := by
        rw [hx, hy] at hst
        exact hst
      rw [hx, hy, Factor.unitWeight, Factor.unitWeight, weight_eq hb, weight_eq hb']
      exact ih s hs x hx (hsound' t ht y hy) (W.factor_holds huW hs hx) (W.factor_holds hvW ht hy) hb
        hb' hxy
    | _ => cases h

end MeasureUnit

end Metrology
