import Metrology.Hierarchy
import Metrology.Proofs.PowerProduct.Group
import Metrology.Proofs.QuantitySpec.Dimension

/-!
# Specifications of a world

A specification lies within a world if its product is canonical and every factor is a quantity of the
world. Products, quotients, powers and kinds of such specifications lie within the world too, and so
does the root of a kind, which has the dimension of what it is the root of.
-/

namespace Metrology

def World.IsQuantity (W : World) (f : Factor) : Prop := ∃ q, f = .quantity q ∧ W.Holds q

namespace World

variable {W : World}

theorem covers_of_isQuantity {f : Factor} (h : W.IsQuantity f) : W.Covers f := by
  obtain ⟨q, rfl, hq⟩ := h
  exact Factor.quantitiesIn_quantity.mpr hq

theorem isQuantity_orderedOn (W : World) : Atom.OrderedOn W.IsQuantity :=
  W.orderedOn.mono fun _ => covers_of_isQuantity

end World

/-- A quantity replaced by the root of its kind. -/
def Factor.kindRoot : Factor → Factor
  | .quantity q => .quantity q.kindRoot
  | f => f

theorem World.isQuantity_kindRoot {W : World} {f : Factor} (h : W.IsQuantity f) :
    W.IsQuantity f.kindRoot := by
  obtain ⟨q, rfl, hq⟩ := h
  exact ⟨_, rfl, W.kindRoot_holds hq⟩

namespace QuantitySpec

structure Within (W : World) (s : QuantitySpec) : Prop where
  quantities : PowerProduct.Over W.IsQuantity s.product
  canonical : PowerProduct.Canonical s.product

namespace Within

variable {W : World} {s t r : QuantitySpec}

theorem covered (h : s.Within W) : PowerProduct.Over W.Covers s.product :=
  fun u hu => World.covers_of_isQuantity (h.quantities u hu)

theorem named {q : NamedQuantity} (hq : W.Holds q) : (named q).Within W where
  canonical := canonical_named
  quantities := by
    cases h : q.isDimensionless with
    | true =>
      obtain rfl := W.eq_dimensionless hq h
      exact PowerProduct.over_nil
    | false =>
      rw [named_product h, PowerProduct.over_cons]
      exact ⟨⟨q, rfl, hq⟩, PowerProduct.over_nil⟩

theorem mul (hs : s.Within W) (ht : t.Within W) (h : s.mul t = .ok r) : r.Within W := by
  obtain ⟨product, hproduct, hr⟩ := bind_eq_ok.mp h
  obtain rfl := pure_eq_ok.mp hr
  exact ⟨PowerProduct.over_mul hs.quantities ht.quantities hproduct,
    PowerProduct.canonical_mul W.isQuantity_orderedOn hs.quantities ht.quantities hs.canonical hproduct⟩

theorem div (hs : s.Within W) (ht : t.Within W) (h : s.div t = .ok r) : r.Within W := by
  obtain ⟨product, hproduct, hr⟩ := bind_eq_ok.mp h
  obtain rfl := pure_eq_ok.mp hr
  exact ⟨PowerProduct.over_div hs.quantities ht.quantities hproduct,
    PowerProduct.canonical_div W.isQuantity_orderedOn hs.quantities ht.quantities hs.canonical hproduct⟩

theorem pow (hs : s.Within W) {power : Ratio} (h : s.pow power = .ok r) : r.Within W := by
  obtain ⟨product, hproduct, hr⟩ := bind_eq_ok.mp h
  obtain rfl := pure_eq_ok.mp hr
  exact ⟨PowerProduct.over_pow hs.quantities hproduct,
    PowerProduct.canonical_pow hs.canonical hproduct⟩

theorem kindOf (hs : s.Within W) : s.kindOf.Within W := ⟨hs.quantities, hs.canonical⟩

theorem removeKind (hs : s.Within W) : s.removeKind.Within W := ⟨hs.quantities, hs.canonical⟩

theorem same_self (hs : s.Within W) : s.same s = true := by
  have hproduct : PowerProduct.same s.product s.product = true :=
    PowerProduct.same_iff_cmp.mpr (PowerProduct.cmp_self W.isQuantity_orderedOn hs.quantities)
  simp [same, hproduct]

/-- Within a world products are compared by what they are. -/
theorem product_eq_of_cmp {d e : FactorProduct} (hd : PowerProduct.Over W.IsQuantity d)
    (he : PowerProduct.Over W.IsQuantity e) (h : PowerProduct.cmp d e = .eq) : d = e := by
  induction d generalizing e with
  | nil =>
    cases e with
    | nil => rfl
    | cons => cases h
  | cons u d ih =>
    cases e with
    | nil => cases h
    | cons v e =>
      rw [PowerProduct.over_cons] at hd he
      rw [PowerProduct.cmp_cons_eq_iff] at h
      obtain ⟨hfactor, hpower, hrest⟩ := h
      obtain ⟨q, hq, hqW⟩ := hd.1
      obtain ⟨r, hr, hrW⟩ := he.1
      rw [hq, hr] at hfactor
      have hqr : q = r := (W.cmp_eq_iff hqW hrW).mp hfactor
      have huv : u = v := by
        cases u
        cases v
        simp_all
      rw [huv, ih hd.2 he.2 hrest]

theorem eq_of_same (hs : s.Within W) (ht : t.Within W) (h : s.same t = true) : s = t := by
  rw [same, Bool.and_eq_true, PowerProduct.same_iff_cmp, beq_iff_eq] at h
  have hproduct := product_eq_of_cmp hs.quantities ht.quantities h.2
  cases s
  cases t
  simp_all

end Within

/-- A name stands for its quantity and for nothing else. -/
theorem eq_named_of_named? {W : World} {s : QuantitySpec} {q : NamedQuantity} (hs : s.Within W)
    (hkind : s.isKindOf = false) (h : s.named? = some q) : s = named q ∧ W.Holds q := by
  obtain ⟨product, isKindOf⟩ := s
  obtain rfl : isKindOf = false := hkind
  unfold named? at h
  by_cases hone : PowerProduct.isOne product = true
  · rw [if_pos hone] at h
    obtain rfl : product = [] := PowerProduct.isOne_iff.mp hone
    obtain rfl := Option.some.inj h
    exact ⟨rfl, W.dimensionless_holds⟩
  · rw [if_neg hone] at h
    split at h
    · rename_i r hsingle
      obtain rfl := Option.some.inj h
      obtain rfl : product = [⟨.quantity r, .one⟩] := PowerProduct.single?_eq_some.mp hsingle
      obtain ⟨r', hr, hrW⟩ := hs.quantities _ List.mem_cons_self
      obtain rfl : r = r' := Factor.quantity.inj hr
      have hproper : r.isDimensionless = false := (hs.canonical.proper _ List.mem_cons_self).2
      refine ⟨?_, hrW⟩
      simp [named, ofProduct, hproper]
    · cases h

/-! ### Roots of kinds -/

section KindRoot

variable {W : World} {s r : QuantitySpec}

theorem kindTreeRoot_kind (h : s.isKindOf = true) : s.kindTreeRoot = .ok s.removeKind := by
  unfold kindTreeRoot
  rw [if_pos h]
  rfl

theorem kindTreeRoot_named {q : NamedQuantity} (hq : W.Holds q) :
    (named q).kindTreeRoot = .ok (named q.kindRoot) := by
  cases hproper : q.isDimensionless with
  | true =>
    obtain rfl := W.eq_dimensionless hq hproper
    rfl
  | false =>
    have hterms : PowerProduct.ofTerms [⟨Factor.quantity q.kindRoot, .one⟩] =
        .ok (named q.kindRoot).product := by
      cases hroot : q.kindRoot.isDimensionless with
      | true =>
        have hproduct : (named q.kindRoot).product = [] := by simp [named, ofProduct, hroot]
        have hneutral : Atom.isNeutral (Factor.quantity q.kindRoot) = true := hroot
        rw [hproduct, PowerProduct.ofTerms, PowerProduct.mul, List.foldlM_cons, PowerProduct.mulTerm,
          if_pos (by simp [hneutral])]
        rfl
      | false =>
        rw [← named_product hroot]
        exact PowerProduct.ofTerms_canonical canonical_named
    unfold kindTreeRoot
    rw [named_product hproper]
    simp only [named, ofProduct, Bool.false_eq_true, if_false, List.map_cons, List.map_nil, hterms]
    rfl

theorem weigh_kindRoots (w : Factor → Rat) (terms : List (Term Factor)) :
    PowerProduct.weigh w (terms.map fun t =>
      match t.factor with
      | .quantity q => ⟨.quantity q.kindRoot, t.power⟩
      | _ => t) = PowerProduct.weigh (w ∘ Factor.kindRoot) terms := by
  induction terms with
  | nil => rfl
  | cons t terms ih =>
    rw [List.map_cons, PowerProduct.weigh_cons, PowerProduct.weigh_cons, ih]
    cases t with
    | mk factor power => cases factor <;> rfl

theorem over_kindRoots {S : Factor → Prop} (hS : ∀ f, S f → S f.kindRoot) {terms : List (Term Factor)}
    (h : PowerProduct.Over S terms) : PowerProduct.Over S (terms.map fun t =>
      match t.factor with
      | .quantity q => ⟨.quantity q.kindRoot, t.power⟩
      | _ => t) := by
  intro u hu
  obtain ⟨⟨factor, power⟩, ht, rfl⟩ := List.mem_map.mp hu
  have hroot := hS factor (h _ ht)
  cases factor <;> exact hroot

/-- What is no kind has the product of the kind roots of its quantities as the root of its kind. -/
theorem kindTreeRoot_spec (hs : s.Within W) (hkind : s.isKindOf = false)
    (h : s.kindTreeRoot = .ok r) : r.Within W ∧ r.isKindOf = false ∧
      ∀ w, Atom.Weight W.Covers w →
        PowerProduct.weigh w r.product = PowerProduct.weigh (w ∘ Factor.kindRoot) s.product := by
  unfold kindTreeRoot at h
  rw [if_neg (by simp [hkind])] at h
  obtain ⟨product, hproduct, hr⟩ := bind_eq_ok.mp h
  obtain rfl := pure_eq_ok.mp hr
  have hterms := over_kindRoots (S := W.IsQuantity) (fun _ => World.isQuantity_kindRoot)
    hs.quantities
  refine ⟨⟨PowerProduct.over_mul PowerProduct.over_nil hterms hproduct, ?_⟩, rfl, fun w hw => ?_⟩
  · exact PowerProduct.canonical_mul W.isQuantity_orderedOn PowerProduct.over_nil hterms
      PowerProduct.canonical_one hproduct
  · rw [← weigh_kindRoots]
    exact PowerProduct.weigh_ofTerms hw
      (fun t ht => World.covers_of_isQuantity (hterms t ht)) hproduct

theorem kindTreeRoot_within (hs : s.Within W) (h : s.kindTreeRoot = .ok r) : r.Within W := by
  cases hkind : s.isKindOf with
  | true =>
    rw [kindTreeRoot_kind hkind] at h
    exact Except.ok.inj h ▸ hs.removeKind
  | false => exact (kindTreeRoot_spec hs hkind h).1

theorem weigh_dimension_kindRoot {terms : List (Term Factor)}
    (hterms : PowerProduct.Over W.IsQuantity terms) (w : BaseDimension → Rat) :
    PowerProduct.weigh (Factor.dimensionWeight w ∘ Factor.kindRoot) terms =
      PowerProduct.weigh (Factor.dimensionWeight w) terms := by
  induction terms with
  | nil => rfl
  | cons t terms ih =>
    rw [PowerProduct.over_cons] at hterms
    obtain ⟨⟨q, hq, hqW⟩, hrest⟩ := hterms
    rw [PowerProduct.weigh_cons, PowerProduct.weigh_cons, ih hrest, hq]
    simp only [Function.comp, Factor.kindRoot, Factor.dimensionWeight, W.dimension_kindRoot hqW]

theorem weigh_kindTreeRoot (hs : s.Within W) (h : s.kindTreeRoot = .ok r) (w : BaseDimension → Rat) :
    PowerProduct.weigh (Factor.dimensionWeight w) r.product =
      PowerProduct.weigh (Factor.dimensionWeight w) s.product := by
  cases hkind : s.isKindOf with
  | true =>
    rw [kindTreeRoot_kind hkind] at h
    exact Except.ok.inj h ▸ rfl
  | false =>
    rw [(kindTreeRoot_spec hs hkind h).2.2 _ (W.dimensionWeight_weight w),
      weigh_dimension_kindRoot hs.quantities]

end KindRoot

/-! ### Dimensions of results -/

section Dimensions

variable {W : World} {s t r : QuantitySpec} {x y z d : Dimension}

/-- A dimension is known by what it weighs. -/
theorem dimension_eq (hd : r.dimension = .ok d) (hz : PowerProduct.Canonical z)
    (h : ∀ w, Atom.Weight (fun _ => True) w →
      PowerProduct.weigh w z = PowerProduct.weigh (Factor.dimensionWeight w) r.product) : d = z := by
  obtain ⟨hcanonical, hweigh⟩ := dimension_spec hd
  refine Dimension.eq_of_weigh hcanonical hz fun w hw => ?_
  rw [hweigh w hw, h w hw]

theorem dimension_mul (hs : s.Within W) (ht : t.Within W) (h : s.mul t = .ok r)
    (hx : s.dimension = .ok x) (hy : t.dimension = .ok y) (hd : r.dimension = .ok d)
    (hz : PowerProduct.mul x y = .ok z) : d = z := by
  obtain ⟨product, hproduct, hr⟩ := bind_eq_ok.mp h
  obtain rfl := pure_eq_ok.mp hr
  obtain ⟨hxc, hweighX⟩ := dimension_spec hx
  obtain ⟨-, hweighY⟩ := dimension_spec hy
  refine dimension_eq hd
    (PowerProduct.canonical_mul BaseDimension.orderedOn x.over_all y.over_all hxc hz) fun w hw => ?_
  rw [PowerProduct.weigh_mul hw x.over_all y.over_all hz, hweighX w hw, hweighY w hw,
    PowerProduct.weigh_mul (W.dimensionWeight_weight w) hs.covered ht.covered hproduct]

theorem dimension_div (hs : s.Within W) (ht : t.Within W) (h : s.div t = .ok r)
    (hx : s.dimension = .ok x) (hy : t.dimension = .ok y) (hd : r.dimension = .ok d)
    (hz : PowerProduct.div x y = .ok z) : d = z := by
  obtain ⟨product, hproduct, hr⟩ := bind_eq_ok.mp h
  obtain rfl := pure_eq_ok.mp hr
  obtain ⟨hxc, hweighX⟩ := dimension_spec hx
  obtain ⟨-, hweighY⟩ := dimension_spec hy
  refine dimension_eq hd
    (PowerProduct.canonical_div BaseDimension.orderedOn x.over_all y.over_all hxc hz) fun w hw => ?_
  rw [PowerProduct.weigh_div hw x.over_all y.over_all hz, hweighX w hw, hweighY w hw,
    PowerProduct.weigh_div (W.dimensionWeight_weight w) hs.covered ht.covered hproduct]

theorem dimension_pow {p : Ratio} (h : s.pow p = .ok r) (hx : s.dimension = .ok x)
    (hd : r.dimension = .ok d) (hz : PowerProduct.pow x p = .ok z) : d = z := by
  obtain ⟨product, hproduct, hr⟩ := bind_eq_ok.mp h
  obtain rfl := pure_eq_ok.mp hr
  obtain ⟨hxc, hweighX⟩ := dimension_spec hx
  refine dimension_eq hd (PowerProduct.canonical_pow hxc hz) fun w hw => ?_
  rw [PowerProduct.weigh_pow hz, hweighX w hw, PowerProduct.weigh_pow hproduct]

/-- The root of a kind has the dimension of what it is the root of. -/
theorem dimension_kindTreeRoot (hs : s.Within W) (h : s.kindTreeRoot = .ok r)
    (hx : s.dimension = .ok x) (hd : r.dimension = .ok d) : d = x := by
  obtain ⟨hxc, hweighX⟩ := dimension_spec hx
  refine dimension_eq hd hxc fun w hw => ?_
  rw [hweighX w hw, weigh_kindTreeRoot hs h]

end Dimensions

end QuantitySpec

end Metrology
