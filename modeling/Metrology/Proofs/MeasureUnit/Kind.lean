import Metrology.Proofs.Convertibility.Kind
import Metrology.Proofs.MeasureUnit.Weight

/-!
# The kind of a product of units

A unit has the kind of its quantity, of what it is defined by, or of the product of its factors. Units
that compare as equal have the same kind, so the merging and cancelling of factors in a recipe changes
nothing: the kind of a product of units is the product of their kinds, and so for quotients and powers.
-/

namespace Metrology

/-- Units with all that they are made of, restricted to quantities of a world. A name stands for one unit,
and only a named unit is restricted to a quantity. -/
structure KindSystem (W : World) where
  Holds : MeasureUnit → Prop
  part_holds {u v : MeasureUnit} : Holds u → v ∈ u.form.parts → Holds v
  form_eq_of_name {u v : MeasureUnit} {name : String} :
    Holds u → Holds v → u.name? = some name → v.name? = some name → u.form = v.form
  spec_eq_of_name {u v : MeasureUnit} {name : String} :
    Holds u → Holds v → u.name? = some name → v.name? = some name → u.spec? = v.spec?
  named_of_spec {u : MeasureUnit} {q : NamedQuantity} :
    Holds u → u.spec? = some q → ∃ name, u.name? = some name
  spec_holds {u : MeasureUnit} {q : NamedQuantity} : Holds u → u.spec? = some q → W.Holds q

variable {W : World} {S : KindSystem W}

/-- A unit among the factors belongs to the system. -/
def KindSystem.HoldsFactor (S : KindSystem W) (f : Factor) : Prop := ∀ u, f = .unit u → S.Holds u

namespace KindSystem

variable {f g : UnitForm} {recipe : List (Term Factor)}

theorem holdsFactor_of_parts (h : ∀ u ∈ (UnitForm.derived recipe).parts, S.Holds u) :
    PowerProduct.Over S.HoldsFactor recipe := by
  intro t ht u hu
  refine h u (List.mem_filterMap.mpr ⟨t, ht, ?_⟩)
  rw [hu]

/-- A unit without a name has no quantity of its own. -/
theorem spec_eq_none {spec : Option NamedQuantity} {origin : Option PointOrigin}
    (h : S.Holds (.mk f spec origin)) (hname : f.name? = none) : spec = none := by
  cases spec with
  | none => rfl
  | some q =>
    obtain ⟨name, hsome⟩ := S.named_of_spec h rfl
    cases hname.symm.trans hsome

end KindSystem

theorem UnitForm.name?_eq_none_of_cmp {f g : UnitForm} (hname : f.name? = none)
    (h : f.cmp g = .eq) : g.name? = none := by
  cases f <;> cases hname <;> cases g <;> first | rfl | cases h

/-! ### Units that compare as equal -/

mutual

theorem MeasureUnit.quantitySpec?_congr (u v : MeasureUnit) (hu : S.Holds u) (hv : S.Holds v)
    (h : u.cmp v = .eq) : u.quantitySpec? = v.quantitySpec? := by
  cases u with
  | mk f spec origin =>
    cases v with
    | mk g spec' origin' =>
      cases hname : f.name? with
      | some name =>
        have huname : (MeasureUnit.mk f spec origin).name? = some name := hname
        have hname' := MeasureUnit.name_of_cmp huname h
        obtain rfl : f = g := S.form_eq_of_name hu hv hname hname'
        obtain rfl : spec = spec' := S.spec_eq_of_name hu hv hname hname'
        rfl
      | none =>
        obtain rfl := KindSystem.spec_eq_none hu hname
        obtain rfl := KindSystem.spec_eq_none hv (UnitForm.name?_eq_none_of_cmp hname h)
        exact UnitForm.quantitySpec?_congr f g (fun _ => S.part_holds hu) (fun _ => S.part_holds hv)
          hname h
termination_by structural u

theorem UnitForm.quantitySpec?_congr (f g : UnitForm) (hf : ∀ u ∈ f.parts, S.Holds u)
    (hg : ∀ u ∈ g.parts, S.Holds u) (hname : f.name? = none) (h : f.cmp g = .eq) :
    f.quantitySpec? = g.quantitySpec? := by
  cases f with
  | one =>
    cases g with
    | one => rfl
    | _ => cases h
  | prefixed s m u =>
    cases g with
    | prefixed t n v =>
      rw [UnitForm.cmp, Ordering.then_eq_eq] at h
      exact MeasureUnit.quantitySpec?_congr u v (hf u (by simp [UnitForm.parts]))
        (hg v (by simp [UnitForm.parts])) h.1
    | _ => cases h
  | scaled m u =>
    cases g with
    | scaled n v =>
      rw [UnitForm.cmp, Ordering.then_eq_eq] at h
      exact MeasureUnit.quantitySpec?_congr u v (hf u (by simp [UnitForm.parts]))
        (hg v (by simp [UnitForm.parts])) h.1
    | _ => cases h
  | derived e =>
    cases g with
    | derived e' =>
      rw [UnitForm.cmp] at h
      exact recipeSpec?_congr _ e e' (KindSystem.holdsFactor_of_parts hf)
        (KindSystem.holdsFactor_of_parts hg) h
    | _ => cases h
  | _ => cases hname
termination_by structural f

theorem recipeSpec?_congr (start : QuantitySpec) (e e' : List (Term Factor))
    (he : PowerProduct.Over S.HoldsFactor e) (he' : PowerProduct.Over S.HoldsFactor e')
    (h : cmpTerms e e' = .eq) : recipeSpec? start e = recipeSpec? start e' := by
  cases e with
  | nil =>
    cases e' with
    | nil => rfl
    | cons => cases h
  | cons s e =>
    cases e' with
    | nil => cases h
    | cons t e' =>
      rw [PowerProduct.over_cons] at he he'
      rw [cmpTerms, Ordering.then_eq_eq] at h
      rw [recipeSpec?, recipeSpec?, mulTermSpec?_congr start s t he.1 he'.1 h.1]
      refine congrArg (_ >>= ·) (funext fun next => ?_)
      cases next with
      | none => rfl
      | some next => exact recipeSpec?_congr next e e' he.2 he'.2 h.2
termination_by structural e

theorem mulTermSpec?_congr (start : QuantitySpec) (s t : Term Factor) (hs : S.HoldsFactor s.factor)
    (ht : S.HoldsFactor t.factor) (h : cmpTerm s t = .eq) :
    mulTermSpec? start s = mulTermSpec? start t := by
  cases s with
  | mk f p =>
    cases t with
    | mk g q =>
      rw [cmpTerm, Ordering.then_eq_eq] at h
      obtain rfl : p = q := Std.LawfulEqCmp.eq_of_compare h.2
      exact Factor.mulSpec?_congr start p f g hs ht h.1
termination_by structural s

theorem Factor.mulSpec?_congr (start : QuantitySpec) (p : Ratio) (f g : Factor)
    (hf : S.HoldsFactor f) (hg : S.HoldsFactor g) (h : f.cmp g = .eq) :
    f.mulSpec? start p = g.mulSpec? start p := by
  cases f with
  | unit u =>
    cases g with
    | unit v =>
      rw [Factor.mulSpec?, Factor.mulSpec?,
        MeasureUnit.quantitySpec?_congr u v (hf u rfl) (hg v rfl) h]
    | _ => cases h
  | _ =>
    cases g with
    | unit v => cases h
    | _ => rfl
termination_by structural f

end

/-! ### The kinds of units lie within the world -/

/-- A kind of quantities of the world. -/
structure QuantitySpec.IsKind (W : World) (s : QuantitySpec) : Prop where
  within : s.Within W
  isKindOf_eq : s.isKindOf = true

namespace QuantitySpec

variable {s : QuantitySpec}

theorem IsKind.weighs (h : s.IsKind W) :
    s.Weighs W true fun w => PowerProduct.weigh w s.product :=
  ⟨h.within, h.isKindOf_eq, fun _ => rfl⟩

theorem Weighs.isKind {m : (Factor → Rat) → Rat} (h : s.Weighs W true m) : s.IsKind W :=
  ⟨h.within, h.isKindOf_eq⟩

end QuantitySpec

/-- A recipe has a kind only if each of its factors lets the multiplication go on. -/
theorem recipeSpec?_cons {start s : QuantitySpec} {t : Term Factor} {e : List (Term Factor)}
    (h : recipeSpec? start (t :: e) = .ok (some s)) :
    ∃ next, mulTermSpec? start t = .ok (some next) ∧ recipeSpec? next e = .ok (some s) := by
  obtain ⟨next, hnext, hrest⟩ := bind_eq_ok.mp h
  cases next with
  | none => cases hrest
  | some next => exact ⟨next, hnext, hrest⟩

/-- Multiplying by a unit multiplies by the power of its kind. -/
theorem Factor.mulSpec?_unit {start s : QuantitySpec} {u : MeasureUnit} {p : Ratio}
    (h : (Factor.unit u).mulSpec? start p = .ok (some s)) :
    ∃ kind power, u.quantitySpec? = .ok (some kind) ∧ kind.pow p = .ok power ∧
      start.mul power = .ok s := by
  obtain ⟨kind, hkind, h⟩ := bind_eq_ok.mp h
  cases kind with
  | none => cases h
  | some kind =>
    obtain ⟨power, hpower, h⟩ := bind_eq_ok.mp h
    obtain ⟨product, hproduct, h⟩ := bind_eq_ok.mp h
    obtain rfl := Option.some.inj (pure_eq_ok.mp h)
    exact ⟨kind, power, hkind, hpower, hproduct⟩

mutual

theorem MeasureUnit.isKind_of_quantitySpec? (u : MeasureUnit) (hu : S.Holds u) {s : QuantitySpec}
    (h : u.quantitySpec? = .ok (some s)) : s.IsKind W := by
  cases u with
  | mk f spec origin =>
    cases spec with
    | some q =>
      obtain rfl := Option.some.inj (Except.ok.inj h)
      exact ⟨(QuantitySpec.Within.named (S.spec_holds hu rfl)).kindOf, rfl⟩
    | none => exact UnitForm.isKind_of_quantitySpec? f (fun _ => S.part_holds hu) h
termination_by structural u

theorem UnitForm.isKind_of_quantitySpec? (f : UnitForm) (hf : ∀ u ∈ f.parts, S.Holds u)
    {s : QuantitySpec} (h : f.quantitySpec? = .ok (some s)) : s.IsKind W := by
  cases f with
  | one =>
    obtain rfl := Option.some.inj (Except.ok.inj h)
    exact ⟨(QuantitySpec.Within.named W.dimensionless_holds).kindOf, rfl⟩
  | base => cases h
  | defined name symbol m u =>
    exact MeasureUnit.isKind_of_quantitySpec? u (hf u (by simp [UnitForm.parts])) h
  | prefixed symbol m u =>
    exact MeasureUnit.isKind_of_quantitySpec? u (hf u (by simp [UnitForm.parts])) h
  | scaled m u => exact MeasureUnit.isKind_of_quantitySpec? u (hf u (by simp [UnitForm.parts])) h
  | derived e =>
    exact isKind_of_recipeSpec? e (KindSystem.holdsFactor_of_parts hf)
      ⟨(QuantitySpec.Within.named W.dimensionless_holds).kindOf, rfl⟩ h
termination_by structural f

theorem isKind_of_recipeSpec? (e : List (Term Factor)) (he : PowerProduct.Over S.HoldsFactor e)
    {start s : QuantitySpec} (hstart : start.IsKind W) (h : recipeSpec? start e = .ok (some s)) :
    s.IsKind W := by
  cases e with
  | nil => exact Option.some.inj (Except.ok.inj h) ▸ hstart
  | cons t e =>
    rw [PowerProduct.over_cons] at he
    obtain ⟨next, hnext, hrest⟩ := recipeSpec?_cons h
    exact isKind_of_recipeSpec? e he.2 (isKind_of_mulTermSpec? t he.1 hstart hnext) hrest
termination_by structural e

theorem isKind_of_mulTermSpec? (t : Term Factor) (ht : S.HoldsFactor t.factor)
    {start s : QuantitySpec} (hstart : start.IsKind W) (h : mulTermSpec? start t = .ok (some s)) :
    s.IsKind W := by
  cases t with
  | mk f p => exact Factor.isKind_of_mulSpec? f ht hstart h
termination_by structural t

theorem Factor.isKind_of_mulSpec? (f : Factor) (hf : S.HoldsFactor f) {start s : QuantitySpec}
    {p : Ratio} (hstart : start.IsKind W) (h : f.mulSpec? start p = .ok (some s)) : s.IsKind W := by
  cases f with
  | unit u =>
    obtain ⟨kind, power, hkind, hpower, hproduct⟩ := Factor.mulSpec?_unit h
    have hkindW := MeasureUnit.isKind_of_quantitySpec? u (hf u rfl) hkind
    exact ((hstart.weighs.mul ((hkindW.weighs.pow p).result hpower)).result hproduct).isKind
  | _ => exact Option.some.inj (Except.ok.inj h) ▸ hstart
termination_by structural f

end

/-! ### Recipes -/

/-- A unit among the factors belongs to the system and has a kind. -/
def KindSystem.Kinded (S : KindSystem W) (f : Factor) : Prop :=
  ∀ u, f = .unit u → S.Holds u ∧ ∃ s, u.quantitySpec? = .ok (some s)

/-- The weight of the kind of a unit. Factors that are not units have no kind. -/
def Factor.kindWeight (w : Factor → Rat) : Factor → Rat
  | .unit u =>
    match u.quantitySpec? with
    | .ok (some s) => PowerProduct.weigh w s.product
    | _ => 0
  | _ => 0

theorem Factor.kindWeight_unit {w : Factor → Rat} {u : MeasureUnit} {s : QuantitySpec}
    (h : u.quantitySpec? = .ok (some s)) :
    Factor.kindWeight w (.unit u) = PowerProduct.weigh w s.product := by
  rw [kindWeight, h]

namespace KindSystem

theorem kindWeight_weight (S : KindSystem W) (w : Factor → Rat) :
    Atom.Weight S.Kinded (Factor.kindWeight w) where
  congr {f g} hf hg h := by
    cases f <;> cases g <;> first | rfl | cases h | skip
    rename_i u v
    rw [Factor.kindWeight, Factor.kindWeight,
      MeasureUnit.quantitySpec?_congr u v (hf u rfl).1 (hg v rfl).1 h]
  neutral {f} hf h := by
    cases f with
    | unit u =>
      obtain ⟨form, spec, origin⟩ := u
      cases form with
      | one =>
        obtain rfl := S.spec_eq_none (hf _ rfl).1 rfl
        rfl
      | _ => cases h
    | _ => rfl

variable {u : MeasureUnit} {e : FactorProduct} {start s : QuantitySpec} {m : (Factor → Rat) → Rat}

/-- Only a recipe of units that have a kind has one. -/
theorem kinded_of_recipeSpec? (he : PowerProduct.Over S.HoldsFactor e)
    (h : recipeSpec? start e = .ok (some s)) : PowerProduct.Over S.Kinded e := by
  induction e generalizing start with
  | nil => exact PowerProduct.over_nil
  | cons t e ih =>
    rw [PowerProduct.over_cons] at he
    obtain ⟨next, hnext, hrest⟩ := recipeSpec?_cons h
    refine PowerProduct.over_cons.mpr ⟨fun u hu => ⟨he.1 u hu, ?_⟩, ih he.2 hrest⟩
    obtain ⟨f, p⟩ := t
    obtain rfl : f = .unit u := hu
    obtain ⟨kind, -, hkind, -⟩ := Factor.mulSpec?_unit hnext
    exact ⟨kind, hkind⟩

/-- A factor multiplies by the power of its kind, within limits. -/
theorem mulSpec?_answers {f : Factor} {p : Ratio} (hf : S.Kinded f) (hstart : start.Weighs W true m) :
    Answers (f.mulSpec? start p) fun r => ∃ s, r = some s ∧
      s.Weighs W true fun w => m w + p.value * Factor.kindWeight w f := by
  cases f with
  | unit u =>
    obtain ⟨huS, kind, hkind⟩ := hf u rfl
    have hkindW := MeasureUnit.isKind_of_quantitySpec? u huS hkind
    rw [Factor.mulSpec?, hkind]
    refine (hkindW.weighs.pow p).bind fun power _ hpower => ?_
    refine (hstart.mul hpower).bind fun product _ hproduct => ?_
    exact .of_ok rfl ⟨product, rfl, hproduct.congr fun w _ => by rw [Factor.kindWeight_unit hkind]⟩
  | _ => exact .of_ok rfl ⟨start, rfl, hstart.congr fun w _ => by simp [Factor.kindWeight]⟩

/-- A recipe of units that have a kind has the product of those, within limits. -/
theorem recipeSpec?_answers (he : PowerProduct.Over S.Kinded e) (hstart : start.Weighs W true m) :
    Answers (recipeSpec? start e) fun r => ∃ s, r = some s ∧
      s.Weighs W true fun w => m w + PowerProduct.weigh (Factor.kindWeight w) e := by
  induction e generalizing start m with
  | nil =>
    exact .of_ok rfl ⟨start, rfl, hstart.congr fun w _ => by simp⟩
  | cons t e ih =>
    rw [PowerProduct.over_cons] at he
    obtain ⟨f, p⟩ := t
    refine (mulSpec?_answers he.1 hstart).bind fun r _ hr => ?_
    obtain ⟨next, rfl, hnextW⟩ := hr
    refine (ih he.2 hnextW).mono fun r _ hr => ?_
    obtain ⟨s, rfl, hs⟩ := hr
    refine ⟨s, rfl, hs.congr fun w _ => ?_⟩
    rw [PowerProduct.weigh_cons]
    ring

/-! ### Products of units -/

/-- A unit whose factors all have a kind, and that has itself one of the given weight, within limits. -/
structure Measures (S : KindSystem W) (u : MeasureUnit) (total : (Factor → Rat) → Rat) : Prop where
  kinded : PowerProduct.Over S.Kinded u.product
  weigh_eq {w : Factor → Rat} : Atom.Weight W.Covers w →
    PowerProduct.weigh (Factor.kindWeight w) u.product = total w
  kind : Answers u.quantitySpec? fun r => ∃ s, r = some s ∧ s.Weighs W true total

theorem Measures.congr {n : (Factor → Rat) → Rat} (hu : S.Measures u m)
    (hmn : ∀ w, Atom.Weight W.Covers w → m w = n w) : S.Measures u n where
  kinded := hu.kinded
  weigh_eq hw := (hu.weigh_eq hw).trans (hmn _ hw)
  kind := hu.kind.mono fun _ _ ⟨s, hr, hs⟩ => ⟨s, hr, hs.congr hmn⟩

theorem measures_one : S.Measures .one fun _ => 0 :=
  ⟨PowerProduct.over_nil, fun _ => rfl,
    .of_ok rfl ⟨_, rfl, QuantitySpec.weighs_dimensionless.kindOf⟩⟩

theorem measures_of_holds (hu : S.Holds u) (h : u.quantitySpec? = .ok (some s)) :
    S.Measures u fun w => PowerProduct.weigh w s.product := by
  have hkind : Answers u.quantitySpec? fun r => ∃ s', r = some s' ∧
      s'.Weighs W true fun w => PowerProduct.weigh w s.product :=
    .of_ok h ⟨s, rfl, (MeasureUnit.isKind_of_quantitySpec? u hu h).weighs⟩
  have hself : u.product = [⟨.unit u, .one⟩] →
      S.Measures u fun w => PowerProduct.weigh w s.product := by
    intro hproduct
    refine ⟨?_, fun hw => ?_, hkind⟩
    · rw [hproduct, PowerProduct.over_cons]
      exact ⟨fun v hv => Factor.unit.inj hv ▸ ⟨hu, s, h⟩, PowerProduct.over_nil⟩
    · rw [hproduct]
      simp [Factor.kindWeight_unit h]
  cases u with
  | mk form spec origin =>
    cases form with
    | one =>
      obtain rfl := S.spec_eq_none hu rfl
      obtain rfl := Option.some.inj (Except.ok.inj h)
      exact ⟨PowerProduct.over_nil, fun _ => rfl, hkind⟩
    | derived recipe =>
      obtain rfl := S.spec_eq_none hu rfl
      have hkinded := kinded_of_recipeSpec? (holdsFactor_of_parts fun _ => S.part_holds hu) h
      refine ⟨hkinded, fun hw => ?_, hkind⟩
      obtain ⟨s', hs', hweighs⟩ :=
        (recipeSpec?_answers hkinded QuantitySpec.weighs_dimensionless.kindOf).result h
      obtain rfl := Option.some.inj hs'
      rw [hweighs.weigh_eq hw, zero_add]
      rfl
    | _ => exact hself rfl

theorem measures_ofProduct (he : PowerProduct.Over S.Kinded e)
    (hweigh : ∀ w, Atom.Weight W.Covers w → PowerProduct.weigh (Factor.kindWeight w) e = m w) :
    S.Measures (.ofProduct e) m := by
  unfold MeasureUnit.ofProduct
  split
  · rename_i hone
    obtain rfl := PowerProduct.isOne_iff.mp hone
    exact measures_one.congr hweigh
  · split
    · rename_i u hsingle
      obtain rfl := PowerProduct.single?_eq_some.mp hsingle
      obtain ⟨huS, s, hs⟩ := (PowerProduct.over_cons.mp he).1 u rfl
      refine (measures_of_holds huS hs).congr fun w hw => ?_
      rw [← hweigh w hw]
      simp [Factor.kindWeight_unit hs]
    · refine ⟨he, fun hw => hweigh _ hw, ?_⟩
      refine (recipeSpec?_answers he QuantitySpec.weighs_dimensionless.kindOf).mono fun r _ hr => ?_
      obtain ⟨s, rfl, hs⟩ := hr
      exact ⟨s, rfl, hs.congr fun w hw => by rw [zero_add, hweigh w hw]⟩

namespace Measures

variable {a b : MeasureUnit} {n : (Factor → Rat) → Rat} {t : QuantitySpec}

theorem mul (ha : S.Measures a m) (hb : S.Measures b n) :
    Answers (a.mul b) fun u => S.Measures u fun w => m w + n w := by
  refine (PowerProduct.mul_answers _ _).bind fun recipe hrecipe _ => .of_ok rfl ?_
  refine measures_ofProduct (PowerProduct.over_mul ha.kinded hb.kinded hrecipe) fun w hw => ?_
  rw [PowerProduct.weigh_mul (S.kindWeight_weight w) ha.kinded hb.kinded hrecipe, ha.weigh_eq hw,
    hb.weigh_eq hw]

theorem div (ha : S.Measures a m) (hb : S.Measures b n) :
    Answers (a.div b) fun u => S.Measures u fun w => m w - n w := by
  refine (PowerProduct.div_answers _ _).bind fun recipe hrecipe _ => .of_ok rfl ?_
  refine measures_ofProduct (PowerProduct.over_div ha.kinded hb.kinded hrecipe) fun w hw => ?_
  rw [PowerProduct.weigh_div (S.kindWeight_weight w) ha.kinded hb.kinded hrecipe, ha.weigh_eq hw,
    hb.weigh_eq hw]

theorem pow (ha : S.Measures a m) (p : Ratio) :
    Answers (a.pow p) fun u => S.Measures u fun w => p.value * m w := by
  refine (PowerProduct.pow_answers _ p).bind fun recipe hrecipe _ => .of_ok rfl ?_
  refine measures_ofProduct (PowerProduct.over_pow ha.kinded hrecipe) fun w hw => ?_
  rw [PowerProduct.weigh_pow hrecipe, ha.weigh_eq hw]

theorem quantitySpec? (hu : S.Measures u m) (hs : s.Weighs W false m) :
    Answers u.quantitySpec? (· = some s.kindOf) :=
  hu.kind.mono fun _ _ ⟨_, hr, hkind⟩ => hkind.eq hs.kindOf ▸ hr

theorem isAssociated (hu : S.Measures u m) : Answers u.isAssociated (· = true) :=
  hu.kind.bind fun _ _ ⟨_, hr, _⟩ => .of_ok rfl (by rw [hr]; rfl)

theorem fits (hu : S.Measures u m) (ht : t.Weighs W false n)
    (hmn : ∀ w, Atom.Weight W.Covers w → n (w ∘ Factor.kindRoot) = m w) :
    Answers (u.fits t) (· = true) := by
  refine hu.kind.bind fun r _ hr => ?_
  obtain ⟨s, rfl, hs⟩ := hr
  exact hs.implicitlyConvertible ht hmn

end Measures

end KindSystem

end Metrology
