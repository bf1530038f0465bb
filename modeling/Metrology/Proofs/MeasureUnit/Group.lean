import Metrology.Proofs.MeasureUnit.NormalForm

/-!
# The group of units

Units multiply as an abelian group with rational powers, as far as `same` tells units apart. A result
may be the unit one, a copy of an operand or a recipe, depending on how the powers come out. The laws do
not look at these shapes: a unit that was built multiplies as a canonical product of units that are not
products themselves, and such a product is found again in the unit that is made of it. So each law of
units is the law of products below it.
-/

namespace Metrology

namespace MeasureUnit

variable {u v : MeasureUnit}

/-- Neither the unit one nor a product of other units. -/
def IsSimple (u : MeasureUnit) : Prop := u.isOne = false ∧ ∀ recipe, u.form ≠ .derived recipe

/-- What the recipes of sound units are made of. -/
def IsSimpleFactor (f : Factor) : Prop := ∃ u, f = .unit u ∧ u.IsSimple ∧ u.Sound

/-- A simple unit multiplies as itself; of the two other shapes each has its own product. -/
theorem product_cases (u : MeasureUnit) :
    (u.IsSimple ∧ u.product = [⟨.unit u, .one⟩]) ∨ (u.form = .one ∧ u.product = []) ∨
      ∃ recipe, u.form = .derived recipe ∧ u.product = recipe := by
  cases u with
  | mk form spec origin =>
    cases form with
    | one => exact .inr (.inl ⟨rfl, rfl⟩)
    | derived recipe => exact .inr (.inr ⟨recipe, rfl, rfl⟩)
    | _ => exact .inl ⟨⟨rfl, by rintro recipe ⟨⟩⟩, rfl⟩

/-- Only the forms of units are compared. -/
theorem cmp_eq_form (u v : MeasureUnit) : u.cmp v = u.form.cmp v.form := by
  cases u
  cases v
  rfl

theorem IsSimple.product_eq (hu : u.IsSimple) : u.product = [⟨.unit u, .one⟩] := by
  rcases u.product_cases with ⟨-, hproduct⟩ | ⟨hform, -⟩ | ⟨recipe, hform, -⟩
  · exact hproduct
  · have hone : u.isOne = true := by simp [isOne, hform]
    exact absurd hu.1 (by simp [hone])
  · exact absurd hform (hu.2 recipe)

/-! ### The order of simple units -/

theorem recipeQuantitiesIn_of_mem {P : NamedQuantity → Prop} {recipe : List (Term Factor)}
    (h : ∀ t ∈ recipe, t.factor.QuantitiesIn P) : recipeQuantitiesIn P recipe := by
  induction recipe with
  | nil => trivial
  | cons t rest ih =>
    rw [List.forall_mem_cons] at h
    cases t
    exact ⟨h.1, ih h.2⟩

/-- Units are built from units, never from quantities. -/
theorem Sound.quantitiesIn (h : u.Sound) : u.QuantitiesIn fun _ => False := by
  induction h with
  | one => trivial
  | base => trivial
  | defined _ _ ih => exact ih
  | prefixed _ _ ih => exact ih
  | scaled _ _ ih => exact ih
  | @derived recipe spec origin hunits _ ih =>
    apply recipeQuantitiesIn_of_mem
    intro t ht
    obtain ⟨u, hu⟩ := hunits t ht
    rw [hu]
    exact ih t ht u hu

theorem simple_orderedOn : Atom.OrderedOn IsSimpleFactor := by
  refine (@Factor.orderedOn (fun _ => False) (fun _ _ h => h.elim)).mono ?_
  rintro f ⟨u, rfl, -, hsound⟩
  exact hsound.quantitiesIn

/-! ### Products and their units -/

theorem ofProduct_single (u : MeasureUnit) : ofProduct [⟨.unit u, .one⟩] = u := by
  unfold ofProduct
  rw [if_neg (by simp [PowerProduct.isOne]), PowerProduct.single?_eq_some.mpr rfl]

/-- A product that is neither empty nor one unit to the first power becomes a recipe. -/
theorem ofProduct_derived {e : FactorProduct} (hne : e ≠ []) (hsingle : e.single? = none) :
    ofProduct e = .mk (.derived e) none none := by
  unfold ofProduct
  rw [if_neg (by simpa using hne), hsingle]

/-- The three shapes of a unit that is made of a product of simple units. -/
theorem ofProduct_cases {e : FactorProduct} (he : PowerProduct.Over IsSimpleFactor e) :
    e = [] ∨ (∃ u, e = [⟨.unit u, .one⟩] ∧ u.IsSimple ∧ u.Sound) ∨ (e ≠ [] ∧ e.single? = none) := by
  by_cases hne : e = []
  · exact .inl hne
  · right
    cases hsingle : e.single? with
    | none => exact .inr ⟨hne, rfl⟩
    | some f =>
      obtain rfl := PowerProduct.single?_eq_some.mp hsingle
      obtain ⟨u, rfl, hu⟩ := (PowerProduct.over_cons.mp he).1
      exact .inl ⟨u, rfl, hu⟩

theorem product_ofProduct {e : FactorProduct} (he : PowerProduct.Over IsSimpleFactor e) :
    (ofProduct e).product = e := by
  rcases ofProduct_cases he with rfl | ⟨u, rfl, hu, -⟩ | ⟨hne, hsingle⟩
  · rfl
  · rw [ofProduct_single, hu.product_eq]
  · rw [ofProduct_derived hne hsingle]
    rfl

theorem ofProduct_same {e f : FactorProduct} (he : PowerProduct.Over IsSimpleFactor e)
    (hf : PowerProduct.Over IsSimpleFactor f) (h : PowerProduct.same e f = true) :
    (ofProduct e).same (ofProduct f) = true := by
  have hcmp := PowerProduct.same_iff_cmp.mp h
  have hsame {x y : MeasureUnit} (hxy : x.cmp y = .eq) : x.same y = true := by simp [same, hxy]
  rcases ofProduct_cases he with rfl | ⟨u, rfl, -⟩ | ⟨hne, hsingle⟩
  · cases f with
    | nil => exact hsame (cmp_self _)
    | cons => cases hcmp
  · cases f with
    | nil => cases hcmp
    | cons t rest =>
      obtain ⟨hfactor, hpower, hrest⟩ := PowerProduct.cmp_cons_eq_iff.mp hcmp
      cases rest with
      | cons => cases hrest
      | nil =>
        obtain ⟨factor, power⟩ := t
        obtain ⟨v, rfl, -⟩ := (PowerProduct.over_cons.mp hf).1
        obtain rfl : Ratio.one = power := hpower
        rw [ofProduct_single, ofProduct_single]
        exact hsame hfactor
  · rcases ofProduct_cases hf with rfl | ⟨v, rfl, -⟩ | ⟨hne', hsingle'⟩
    · exact absurd (PowerProduct.eq_one_of_same h) hne
    · cases e with
      | nil => exact absurd rfl hne
      | cons s rest =>
        obtain ⟨-, hpower, hrest⟩ := PowerProduct.cmp_cons_eq_iff.mp hcmp
        cases rest with
        | cons => cases hrest
        | nil =>
          obtain ⟨factor, power⟩ := s
          obtain rfl : power = Ratio.one := hpower
          rw [PowerProduct.single?_eq_some.mpr rfl] at hsingle
          cases hsingle
    · rw [ofProduct_derived hne hsingle, ofProduct_derived hne' hsingle']
      apply hsame
      rw [cmp, UnitForm.cmp, cmpTerms_eq_cmp]
      exact hcmp

/-! ### Reduced units -/

/-- A unit that multiplies as a canonical product of simple units, and has the form that this product
makes. -/
structure Reduced (u : MeasureUnit) : Prop where
  canonical : PowerProduct.Canonical u.product
  simple : PowerProduct.Over IsSimpleFactor u.product
  form : (ofProduct u.product).form = u.form

theorem reduced_ofProduct {e : FactorProduct} (hcanonical : PowerProduct.Canonical e)
    (he : PowerProduct.Over IsSimpleFactor e) : (ofProduct e).Reduced := by
  have hproduct := product_ofProduct he
  refine ⟨hproduct.symm ▸ hcanonical, hproduct.symm ▸ he, ?_⟩
  rw [hproduct]

theorem IsSimple.reduced (hu : u.IsSimple) (hsound : u.Sound) : u.Reduced := by
  have hcanonical : PowerProduct.Canonical ([⟨.unit u, .one⟩] : FactorProduct) := by
    refine ⟨List.pairwise_singleton _ _, fun t ht => ?_, by simp [PowerProduct.capacity]⟩
    obtain rfl := List.mem_singleton.mp ht
    exact ⟨by simp, hu.1⟩
  have hsimple : PowerProduct.Over IsSimpleFactor [⟨.unit u, .one⟩] :=
    PowerProduct.over_cons.mpr ⟨⟨u, rfl, hu, hsound⟩, PowerProduct.over_nil⟩
  have hreduced := reduced_ofProduct hcanonical hsimple
  rwa [ofProduct_single] at hreduced

theorem Reduced.of_form (hu : u.Reduced) (hform : u.form = v.form) (hv : v.Sound) : v.Reduced := by
  have hproduct (recipe : FactorProduct) (hrecipe : u.product = recipe)
      (hrecipe' : v.product = recipe) : v.Reduced := by
    have heq : v.product = u.product := hrecipe'.trans hrecipe.symm
    exact ⟨heq ▸ hu.canonical, heq ▸ hu.simple, by rw [heq, hu.form, hform]⟩
  rcases v.product_cases with ⟨hsimple, -⟩ | ⟨hone, hnil⟩ | ⟨recipe, hderived, hrecipe⟩
  · exact hsimple.reduced hv
  · exact hproduct [] (by rw [product, hform, hone]) hnil
  · exact hproduct recipe (by rw [product, hform, hderived]) hrecipe

section Operations

variable {a b c : MeasureUnit}

theorem Reduced.mul (ha : a.Reduced) (hb : b.Reduced) (h : a.mul b = .ok c) : c.Reduced := by
  obtain ⟨recipe, hrecipe, rfl⟩ := mul_eq_ok.mp h
  exact reduced_ofProduct
    (PowerProduct.canonical_mul simple_orderedOn ha.simple hb.simple ha.canonical hrecipe)
    (PowerProduct.over_mul ha.simple hb.simple hrecipe)

theorem Reduced.div (ha : a.Reduced) (hb : b.Reduced) (h : a.div b = .ok c) : c.Reduced := by
  obtain ⟨recipe, hrecipe, rfl⟩ := div_eq_ok.mp h
  exact reduced_ofProduct
    (PowerProduct.canonical_div simple_orderedOn ha.simple hb.simple ha.canonical hrecipe)
    (PowerProduct.over_div ha.simple hb.simple hrecipe)

theorem Reduced.pow (ha : a.Reduced) {p : Ratio} (h : a.pow p = .ok c) : c.Reduced := by
  obtain ⟨recipe, hrecipe, rfl⟩ := pow_eq_ok.mp h
  exact reduced_ofProduct (PowerProduct.canonical_pow ha.canonical hrecipe)
    (PowerProduct.over_pow ha.simple hrecipe)

end Operations

theorem Built.reduced (h : u.Built) : u.Reduced := by
  induction h with
  | one => exact reduced_ofProduct (e := []) PowerProduct.canonical_one PowerProduct.over_nil
  | named name symbol => exact IsSimple.reduced ⟨rfl, by rintro recipe ⟨⟩⟩ .base
  | @definedAs u v w m hu hm hv hw _ _ =>
    have hsound : w.Sound := (Built.definedAs hu hm hv hw).sound
    refine IsSimple.reduced ?_ hsound
    unfold MeasureUnit.definedAs at hw
    split at hw
    · exact Except.ok.inj hw ▸ ⟨rfl, by rintro recipe ⟨⟩⟩
    · exact Except.ok.inj hw ▸ ⟨rfl, by rintro recipe ⟨⟩⟩
    · cases hw
  | associated q hu ih => exact ih.of_form rfl (hu.associated q).sound
  | withOrigin origin hu ih => exact ih.of_form rfl (hu.withOrigin origin).sound
  | @prefixed u v symbol m hm hu hv _ =>
    have hsound : v.Sound := (Built.prefixed hm hu hv).sound
    refine IsSimple.reduced ?_ hsound
    unfold MeasureUnit.prefixed at hv
    split at hv
    · exact Except.ok.inj hv ▸ ⟨rfl, by rintro recipe ⟨⟩⟩
    · exact Except.ok.inj hv ▸ ⟨rfl, by rintro recipe ⟨⟩⟩
    · cases hv
  | @scaled u m hm hu ih =>
    have hsound := (Built.scaled hm hu).sound
    unfold MeasureUnit.scaled at hsound ⊢
    split
    · exact ih
    · rename_i hone
      rw [if_neg hone] at hsound
      exact IsSimple.reduced ⟨rfl, by rintro recipe ⟨⟩⟩ hsound
  | mul _ _ h ha hb => exact ha.mul hb h
  | div _ _ h ha hb => exact ha.div hb h
  | pow _ h ha => exact ha.pow h

namespace Reduced

variable {a b c : MeasureUnit}

/-! ### Results in terms of products -/

/-- The product of a result is the product of the operands' products, term for term. -/
theorem product_mul (ha : a.Reduced) (hb : b.Reduced) :
    a.mul b = .ok c ↔ PowerProduct.mul a.product b.product = .ok c.product ∧ ofProduct c.product = c := by
  rw [mul_eq_ok]
  constructor
  · rintro ⟨recipe, hrecipe, rfl⟩
    rw [product_ofProduct (PowerProduct.over_mul ha.simple hb.simple hrecipe)]
    exact ⟨hrecipe, rfl⟩
  · rintro ⟨hrecipe, hc⟩
    exact ⟨_, hrecipe, hc⟩

theorem product_div (ha : a.Reduced) (hb : b.Reduced) :
    a.div b = .ok c ↔ PowerProduct.div a.product b.product = .ok c.product ∧ ofProduct c.product = c := by
  rw [div_eq_ok]
  constructor
  · rintro ⟨recipe, hrecipe, rfl⟩
    rw [product_ofProduct (PowerProduct.over_div ha.simple hb.simple hrecipe)]
    exact ⟨hrecipe, rfl⟩
  · rintro ⟨hrecipe, hc⟩
    exact ⟨_, hrecipe, hc⟩

theorem product_pow (ha : a.Reduced) {p : Ratio} :
    a.pow p = .ok c ↔ PowerProduct.pow a.product p = .ok c.product ∧ ofProduct c.product = c := by
  rw [pow_eq_ok]
  constructor
  · rintro ⟨recipe, hrecipe, rfl⟩
    rw [product_ofProduct (PowerProduct.over_pow ha.simple hrecipe)]
    exact ⟨hrecipe, rfl⟩
  · rintro ⟨hrecipe, hc⟩
    exact ⟨_, hrecipe, hc⟩

theorem same_of_product (ha : a.Reduced) (hb : b.Reduced)
    (h : PowerProduct.same a.product b.product = true) : a.same b = true := by
  have hunits := ofProduct_same ha.simple hb.simple h
  rw [MeasureUnit.same, cmp_eq_form] at hunits ⊢
  rwa [← ha.form, ← hb.form]

theorem restored (ha : a.Reduced) : (ofProduct a.product).same a = true := by
  have hcmp : (ofProduct a.product).cmp a = .eq := by
    rw [cmp_eq_form, ha.form]
    exact a.form.cmp_self
  simp [MeasureUnit.same, hcmp]

theorem recipe_spec (ha : a.Reduced) {recipe : FactorProduct} (h : a.form = .derived recipe) :
    recipe ≠ [] ∧ recipe.single? = none ∧ PowerProduct.Canonical recipe ∧
      PowerProduct.Over IsSimpleFactor recipe := by
  have hproduct : a.product = recipe := by rw [product, h]
  have hform := ha.form
  have hsimple := ha.simple
  rw [hproduct] at hsimple hform
  rcases ofProduct_cases hsimple with rfl | ⟨u, rfl, hu, -⟩ | ⟨hne, hsingle⟩
  · rw [h] at hform
    cases hform
  · rw [ofProduct_single, h] at hform
    exact absurd hform (hu.2 _)
  · exact ⟨hne, hsingle, hproduct ▸ ha.canonical, hsimple⟩

end Reduced

/-! ### The laws -/

/-- Units are an abelian group with rational powers. A law speaks of the results of its operations, and
the operations have results unless a power or a product passes its limit. -/
structure GroupLaws : Prop where
  /-- A unit is the unit of its product. -/
  restored : ∀ a, Built a → (ofProduct a.product).same a = true
  product_mul : ∀ a b c, Built a → Built b → a.mul b = .ok c →
    PowerProduct.mul a.product b.product = .ok c.product
  product_div : ∀ a b c, Built a → Built b → a.div b = .ok c →
    PowerProduct.div a.product b.product = .ok c.product
  product_pow : ∀ a p c, Built a → a.pow p = .ok c → PowerProduct.pow a.product p = .ok c.product
  mul_comm : ∀ a b x y, Built a → Built b → a.mul b = .ok x → b.mul a = .ok y → x.same y = true
  mul_assoc : ∀ a b c ab bc x y, Built a → Built b → Built c → a.mul b = .ok ab →
    ab.mul c = .ok x → b.mul c = .ok bc → a.mul bc = .ok y → x.same y = true
  /-- The unit one is neutral on both sides, and multiplying by it never fails. -/
  mul_one : ∀ a, Built a → ∃ x y, a.mul one = .ok x ∧ one.mul a = .ok y ∧
    x.same a = true ∧ y.same a = true
  mul_div : ∀ a b x y, Built a → Built b → a.mul b = .ok x → x.div b = .ok y → y.same a = true
  div_self : ∀ a x, Built a → a.div a = .ok x → x = one
  pow_pow : ∀ a p q r x y z, Built a → a.pow p = .ok x → x.pow q = .ok y → p.mul q = .ok r →
    a.pow r = .ok z → y.same z = true
  mul_pow : ∀ a b p ab x ap bp y, Built a → Built b → a.mul b = .ok ab → ab.pow p = .ok x →
    a.pow p = .ok ap → b.pow p = .ok bp → ap.mul bp = .ok y → x.same y = true
  /-- A recipe is never degenerate: it is not empty, it is not one unit to the first power, and it is
  made of units that are neither one nor recipes themselves. -/
  recipe : ∀ a recipe, Built a → a.form = .derived recipe →
    recipe ≠ [] ∧ PowerProduct.single? recipe = none ∧ ∀ t ∈ recipe, ∃ u, t.factor = .unit u ∧
      u.isOne = false ∧ ∀ inner, u.form ≠ .derived inner
  /-- Nothing but a limit keeps an operation from a result, and the result is a unit that was built. -/
  limits : ∀ a b p, Built a → Built b →
    Answers (a.mul b) Built ∧ Answers (a.div b) Built ∧ Answers (a.pow p) Built

theorem unit_group : GroupLaws := by
  have hS := simple_orderedOn
  constructor
  case restored =>
    intro a ha
    exact ha.reduced.restored
  case product_mul =>
    intro a b c ha hb h
    exact ((ha.reduced.product_mul hb.reduced).mp h).1
  case product_div =>
    intro a b c ha hb h
    exact ((ha.reduced.product_div hb.reduced).mp h).1
  case product_pow =>
    intro a p c ha h
    exact (ha.reduced.product_pow.mp h).1
  case mul_comm =>
    intro a b x y ha hb hx hy
    obtain ⟨hx', -⟩ := (ha.reduced.product_mul hb.reduced).mp hx
    obtain ⟨hy', -⟩ := (hb.reduced.product_mul ha.reduced).mp hy
    apply (ha.mul hb hx).reduced.same_of_product (hb.mul ha hy).reduced
    exact PowerProduct.mul_comm hS ha.reduced.simple hb.reduced.simple ha.reduced.canonical
      hb.reduced.canonical hx' hy'
  case mul_assoc =>
    intro a b c ab bc x y ha hb hc hab hx hbc hy
    have hab' := ha.mul hb hab
    have hbc' := hb.mul hc hbc
    apply (hab'.mul hc hx).reduced.same_of_product (ha.mul hbc' hy).reduced
    exact PowerProduct.mul_assoc hS ha.reduced.simple hb.reduced.simple hc.reduced.simple
      ha.reduced.canonical ((ha.reduced.product_mul hb.reduced).mp hab).1
      ((hab'.reduced.product_mul hc.reduced).mp hx).1 ((hb.reduced.product_mul hc.reduced).mp hbc).1
      ((ha.reduced.product_mul hbc'.reduced).mp hy).1
  case mul_one =>
    intro a ha
    refine ⟨_, _, ?_, ?_, ha.reduced.restored, ha.reduced.restored⟩
    · exact mul_eq_ok.mpr ⟨_, PowerProduct.mul_nil a.product, rfl⟩
    · exact mul_eq_ok.mpr ⟨_, PowerProduct.one_mul_canonical ha.reduced.canonical, rfl⟩
  case mul_div =>
    intro a b x y ha hb hx hy
    have hx' := ha.mul hb hx
    apply (hx'.div hb hy).reduced.same_of_product ha.reduced
    exact PowerProduct.mul_div_cancel hS ha.reduced.simple hb.reduced.simple ha.reduced.canonical
      ((ha.reduced.product_mul hb.reduced).mp hx).1 ((hx'.reduced.product_div hb.reduced).mp hy).1
  case div_self =>
    intro a x ha h
    obtain ⟨recipe, hrecipe, rfl⟩ := div_eq_ok.mp h
    obtain ⟨i, hi, hmul⟩ := PowerProduct.div_eq_ok.mp hrecipe
    have hone := PowerProduct.mul_inverse hS ha.reduced.simple ha.reduced.canonical hi
    obtain rfl := Except.ok.inj (hone.symm.trans hmul)
    rfl
  case pow_pow =>
    intro a p q r x y z ha hx hy hr hz
    have hx' := ha.pow hx
    apply (hx'.pow hy).reduced.same_of_product (ha.pow hz).reduced
    exact PowerProduct.pow_pow hS ha.reduced.simple ha.reduced.canonical
      (ha.reduced.product_pow.mp hx).1 (hx'.reduced.product_pow.mp hy).1 hr
      (ha.reduced.product_pow.mp hz).1
  case mul_pow =>
    intro a b p ab x ap bp y ha hb hab hx hap hbp hy
    have hab' := ha.mul hb hab
    have hap' := ha.pow hap
    have hbp' := hb.pow hbp
    apply (hab'.pow hx).reduced.same_of_product (hap'.mul hbp' hy).reduced
    exact PowerProduct.mul_pow hS ha.reduced.simple hb.reduced.simple ha.reduced.canonical
      ((ha.reduced.product_mul hb.reduced).mp hab).1 (hab'.reduced.product_pow.mp hx).1
      (ha.reduced.product_pow.mp hap).1 (hb.reduced.product_pow.mp hbp).1
      ((hap'.reduced.product_mul hbp'.reduced).mp hy).1
  case recipe =>
    intro a recipe ha h
    obtain ⟨hne, hsingle, -, hsimple⟩ := ha.reduced.recipe_spec h
    refine ⟨hne, hsingle, fun t ht => ?_⟩
    obtain ⟨u, hu, hform, -⟩ := hsimple t ht
    exact ⟨u, hu, hform⟩
  case limits =>
    intro a b p ha hb
    exact ⟨ha.mul_answers hb, ha.div_answers hb, ha.pow_answers p⟩

open UnitSystem in
/-- A kilometre times an hour is a recipe, and over the hour it is the kilometre again. -/
theorem unit_group_travel : ∃ x y recipe, kilometre.mul hour = .ok x ∧ x.form = .derived recipe ∧
    x.div hour = .ok y ∧ y.same kilometre = true := by
  obtain ⟨_, hresults⟩ := exists_eq_ok (show (do
    let x ← kilometre.mul hour
    let _ ← x.div hour
    if x.form.rank = 4 then .ok () else .error .tooManyFactors).isOk = true by decide +kernel)
  simp only [bind_eq_ok, guard_eq_ok] at hresults
  obtain ⟨x, hx, y, hy, hrank⟩ := hresults
  have hsame := unit_group.mul_div _ _ _ _ travel_kilometre.built travel_hour.built hx hy
  cases hform : x.form with
  | derived recipe => exact ⟨x, y, recipe, hx, hform, hy, hsame⟩
  | _ => simp [hform, UnitForm.rank] at hrank

end MeasureUnit

end Metrology
