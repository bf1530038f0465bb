import Metrology.Proofs.Factor.Order
import Metrology.Proofs.Hierarchy.Tree
import Metrology.QuantitySpec

/-!
# Dimensions of specifications

The dimension of a specification weighs what its product weighs when every quantity has the weight of
its own dimension. Specifications have the same dimension exactly if they agree on all these weights, in
whatever order the dimensions of the factors were multiplied.
-/

namespace Metrology

theorem Dimension.over_all (d : Dimension) : PowerProduct.Over (fun _ => True) d :=
  fun _ _ => trivial

/-- Base dimensions are their symbols, so dimensions that compare as equal are equal. -/
theorem Dimension.eq_of_same {x y : Dimension} (h : PowerProduct.same x y = true) : x = y := by
  rw [PowerProduct.same_iff_cmp] at h
  induction x generalizing y with
  | nil =>
    cases y with
    | nil => rfl
    | cons => cases h
  | cons s x ih =>
    cases y with
    | nil => cases h
    | cons t y =>
      obtain ⟨hfactor, hpower, hrest⟩ := PowerProduct.cmp_cons_eq_iff.mp h
      obtain ⟨⟨a⟩, p⟩ := s
      obtain ⟨⟨b⟩, q⟩ := t
      obtain rfl : a = b := compareText_eq_iff.mp hfactor
      obtain rfl : p = q := hpower
      rw [ih hrest]

/-- Canonical dimensions of the same weight, for every weight, are equal. -/
theorem Dimension.eq_of_weigh {x y : Dimension} (hx : PowerProduct.Canonical x)
    (hy : PowerProduct.Canonical y) (h : ∀ w, Atom.Weight (fun _ => True) w →
      PowerProduct.weigh w x = PowerProduct.weigh w y) : x = y :=
  Dimension.eq_of_same
    (PowerProduct.same_of_weigh BaseDimension.orderedOn x.over_all y.over_all hx hy h)

/-- A quantity weighs what its dimension weighs, and other factors have no dimension. -/
def Factor.dimensionWeight (w : BaseDimension → Rat) : Factor → Rat
  | .quantity q => PowerProduct.weigh w q.dimension
  | _ => 0

theorem World.dimensionWeight_weight (W : World) (w : BaseDimension → Rat) :
    Atom.Weight W.Covers (Factor.dimensionWeight w) where
  congr {f g} hf hg h := by
    cases f <;> cases g <;> first | rfl | cases h | skip
    rename_i q r
    rw [(W.cmp_eq_iff (Factor.quantitiesIn_quantity.mp hf) (Factor.quantitiesIn_quantity.mp hg)).mp h]
  neutral {f} hf h := by
    cases f with
    | quantity q =>
      rw [W.eq_dimensionless (Factor.quantitiesIn_quantity.mp hf) h]
      rfl
    | _ => rfl

namespace QuantitySpec

variable {s t : QuantitySpec} {x y : Dimension}

theorem dimension_fold {terms : List (Term Factor)} {start : Dimension}
    (hstart : PowerProduct.Canonical start)
    (h : terms.foldlM (fun d t =>
      match t.factor with
      | .quantity q => do PowerProduct.mul d (← PowerProduct.pow q.dimension t.power)
      | _ => return d) start = .ok x) :
    PowerProduct.Canonical x ∧ ∀ w, Atom.Weight (fun _ => True) w → PowerProduct.weigh w x =
      PowerProduct.weigh w start + PowerProduct.weigh (Factor.dimensionWeight w) terms := by
  induction terms generalizing start with
  | nil =>
    obtain rfl := Except.ok.inj h
    exact ⟨hstart, fun w _ => by simp⟩
  | cons t terms ih =>
    rw [List.foldlM_cons, bind_eq_ok] at h
    obtain ⟨next, hnext, hrest⟩ := h
    cases t with
    | mk factor power =>
      cases factor with
      | quantity q =>
        obtain ⟨d, hd, hmul⟩ := bind_eq_ok.mp hnext
        have hcanonical := PowerProduct.canonical_mul BaseDimension.orderedOn start.over_all (Dimension.over_all d)
          hstart hmul
        obtain ⟨hx, hweigh⟩ := ih hcanonical hrest
        refine ⟨hx, fun w hw => ?_⟩
        rw [hweigh w hw, PowerProduct.weigh_mul hw start.over_all (Dimension.over_all d) hmul,
          PowerProduct.weigh_pow hd, PowerProduct.weigh_cons, Factor.dimensionWeight]
        ring
      | _ =>
        obtain rfl := pure_eq_ok.mp hnext
        obtain ⟨hx, hweigh⟩ := ih hstart hrest
        refine ⟨hx, fun w hw => ?_⟩
        rw [hweigh w hw, PowerProduct.weigh_cons]
        show _ = _ + (power.value * 0 + _)
        ring

theorem dimension_spec (h : s.dimension = .ok x) : PowerProduct.Canonical x ∧
    ∀ w, Atom.Weight (fun _ => True) w →
      PowerProduct.weigh w x = PowerProduct.weigh (Factor.dimensionWeight w) s.product := by
  obtain ⟨hx, hweigh⟩ := dimension_fold PowerProduct.canonical_one h
  refine ⟨hx, fun w hw => ?_⟩
  rw [hweigh w hw, PowerProduct.one, PowerProduct.weigh_nil, zero_add]

theorem dimension_same_iff (hs : s.dimension = .ok x) (ht : t.dimension = .ok y) :
    PowerProduct.same x y = true ↔ ∀ w, Atom.Weight (fun _ => True) w →
      PowerProduct.weigh (Factor.dimensionWeight w) s.product =
        PowerProduct.weigh (Factor.dimensionWeight w) t.product := by
  obtain ⟨hx, hweighX⟩ := dimension_spec hs
  obtain ⟨hy, hweighY⟩ := dimension_spec ht
  constructor
  · intro h w hw
    rw [← hweighX w hw, ← hweighY w hw]
    exact PowerProduct.weigh_of_same hw x.over_all y.over_all h
  · intro h
    apply PowerProduct.same_of_weigh BaseDimension.orderedOn x.over_all y.over_all hx hy
    intro w hw
    rw [hweighX w hw, hweighY w hw, h w hw]

/-! ### Named quantities -/

section Named

variable {W : World} {p q : NamedQuantity}

theorem named_product (h : q.isDimensionless = false) :
    (named q).product = [⟨.quantity q, .one⟩] := by
  simp [named, ofProduct, h]

theorem named?_named (hq : W.Holds q) : (named q).named? = some q := by
  cases h : q.isDimensionless with
  | true =>
    obtain rfl := W.eq_dimensionless hq h
    rfl
  | false =>
    have hsingle : PowerProduct.single? (named q).product = some (.quantity q) :=
      PowerProduct.single?_eq_some.mpr (named_product h)
    unfold named?
    rw [hsingle, named_product h]
    rfl

theorem weigh_named (hq : W.Holds q) {w : Factor → Rat} (hw : Atom.Weight W.Covers w) :
    PowerProduct.weigh w (named q).product = w (.quantity q) := by
  cases h : q.isDimensionless with
  | true =>
    rw [hw.neutral (Factor.quantitiesIn_quantity.mpr hq) h]
    obtain rfl := W.eq_dimensionless hq h
    rfl
  | false => simp [named_product h]

theorem covers_named (hq : W.Holds q) : PowerProduct.Over W.Covers (named q).product := by
  cases h : q.isDimensionless with
  | true =>
    obtain rfl := W.eq_dimensionless hq h
    exact PowerProduct.over_nil
  | false =>
    rw [named_product h, PowerProduct.over_cons]
    exact ⟨Factor.quantitiesIn_quantity.mpr hq, PowerProduct.over_nil⟩

theorem canonical_named : PowerProduct.Canonical (named q).product := by
  cases h : q.isDimensionless with
  | true =>
    have hproduct : (named q).product = [] := by simp [named, ofProduct, h]
    rw [hproduct]
    exact PowerProduct.canonical_one
  | false =>
    rw [named_product h]
    refine ⟨List.pairwise_singleton _ _, fun t ht => ?_, by simp [PowerProduct.capacity]⟩
    obtain rfl := List.mem_singleton.mp ht
    exact ⟨by simp, h⟩

theorem eq_of_named_same (hp : W.Holds p) (hq : W.Holds q)
    (h : (named p).same (named q) = true) : p = q := by
  have hsame : PowerProduct.same (named p).product (named q).product = true := by
    simpa [same, named, ofProduct] using h
  rw [PowerProduct.same_iff_cmp] at hsame
  cases hpd : p.isDimensionless with
  | true =>
    cases hqd : q.isDimensionless with
    | true => rw [W.eq_dimensionless hp hpd, W.eq_dimensionless hq hqd]
    | false =>
      obtain rfl := W.eq_dimensionless hp hpd
      rw [named_product hqd] at hsame
      cases hsame
  | false =>
    cases hqd : q.isDimensionless with
    | true =>
      obtain rfl := W.eq_dimensionless hq hqd
      rw [named_product hpd] at hsame
      cases hsame
    | false =>
      rw [named_product hpd, named_product hqd, PowerProduct.cmp_cons_eq_iff] at hsame
      exact (W.cmp_eq_iff hp hq).mp hsame.1

theorem dimension_same_of_tree (hp : W.Holds p) (hq : W.Holds q) (h : p.treeRoot = q.treeRoot)
    (hx : (named p).dimension = .ok x) (hy : (named q).dimension = .ok y) :
    PowerProduct.same x y = true := by
  apply (dimension_same_iff hx hy).mpr
  intro w _
  rw [weigh_named hp (W.dimensionWeight_weight w), weigh_named hq (W.dimensionWeight_weight w),
    Factor.dimensionWeight, Factor.dimensionWeight, W.dimension_eq_of_tree hp hq h]

/-- The tree of the dimensionless quantity has no dimension to compute. -/
theorem dimension_of_dimensionless_tree (hq : W.Holds q) (h : q.treeRoot = .dimensionless) :
    (named q).dimension = .ok Dimension.one := by
  have hdimension : q.dimension = [] := by
    rw [← W.dimension_treeRoot hq, h]
    rfl
  cases hqd : q.isDimensionless with
  | true =>
    obtain rfl := W.eq_dimensionless hq hqd
    rfl
  | false =>
    unfold dimension
    rw [named_product hqd, List.foldlM_cons]
    dsimp only
    rw [hdimension]
    rfl

end Named

end QuantitySpec

end Metrology
