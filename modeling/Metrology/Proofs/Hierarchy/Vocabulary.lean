import Metrology.Proofs.PowerProduct.Factors
import Metrology.Proofs.QuantitySpec.Within

/-!
# Vocabularies

A vocabulary is a collection of quantities in which a name belongs to one quantity only, with the parents
of its quantities and whatever their equations mention. Nothing is asked of dimensions, and equations may
contain other factors than quantities.

Replacing a quantity by its equation visits the quantities that its `expansion` counts, and everything in
an equation is less complex than the quantity.
-/

namespace Metrology

structure Vocabulary where
  Holds : NamedQuantity → Prop
  dimensionless_holds : Holds .dimensionless
  parent_holds {q p : NamedQuantity} : Holds q → q.parent? = some p → Holds p
  equation_over {q : NamedQuantity} {e : FactorProduct} :
    Holds q → q.equation? = some e → PowerProduct.Over (Factor.QuantitiesIn Holds) e
  eq_of_name {a b : NamedQuantity} : Holds a → Holds b → a.name = b.name → a = b

namespace World

/-- The quantities of a world, where dimensions do not matter. -/
def vocabulary (W : World) : Vocabulary where
  Holds := W.Holds
  dimensionless_holds := W.dimensionless_holds
  parent_holds := W.parent_holds
  equation_over hq he t ht := by
    obtain ⟨r, hr, hrW⟩ := W.equation_holds hq he t ht
    rw [hr]
    exact Factor.quantitiesIn_quantity.mpr hrW
  eq_of_name := W.eq_of_name

end World

namespace Vocabulary

variable {V : Vocabulary} {p q : NamedQuantity} {e c : FactorProduct}

def Covers (V : Vocabulary) (f : Factor) : Prop := f.QuantitiesIn V.Holds

theorem orderedOn (V : Vocabulary) : Atom.OrderedOn V.Covers :=
  Factor.orderedOn fun _ _ => V.eq_of_name

theorem covers_quantity : V.Covers (.quantity q) ↔ V.Holds q := Factor.quantitiesIn_quantity

theorem covers_kindRoot {f : Factor} (h : V.Covers f) : V.Covers f.kindRoot := by
  cases f with
  | quantity q =>
    exact covers_quantity.mpr (NamedQuantity.kindRoot_of_closed (fun _ _ => V.parent_holds)
      (covers_quantity.mp h))
  | _ => exact h

/-- Quantities of one kind belong to one tree. -/
theorem haveCommonBase_of_kindRoot (hp : V.Holds p) (hq : V.Holds q)
    (h : p.kindRoot.same q.kindRoot = true) : p.haveCommonBase q = true := by
  have hclosed (r : NamedQuantity) (hr : V.Holds r) : V.Holds r.kindRoot :=
    NamedQuantity.kindRoot_of_closed (fun _ _ => V.parent_holds) hr
  have hroots : p.kindRoot = q.kindRoot :=
    V.eq_of_name (hclosed p hp) (hclosed q hq) (NamedQuantity.same_iff.mp h)
  rw [NamedQuantity.haveCommonBase, ← NamedQuantity.treeRoot_kindRoot p, hroots,
    NamedQuantity.treeRoot_kindRoot, NamedQuantity.same_iff]

/-- A canonical product of what the vocabulary covers. -/
structure Product (V : Vocabulary) (e : FactorProduct) : Prop where
  covered : PowerProduct.Over V.Covers e
  canonical : PowerProduct.Canonical e

namespace Product

theorem named (hq : V.Holds q) : V.Product (QuantitySpec.named q).product where
  canonical := QuantitySpec.canonical_named
  covered := by
    cases h : q.isDimensionless with
    | true =>
      have hproduct : (QuantitySpec.named q).product = [] := by
        simp [QuantitySpec.named, QuantitySpec.ofProduct, h]
      rw [hproduct]
      exact PowerProduct.over_nil
    | false =>
      rw [QuantitySpec.named_product h, PowerProduct.over_cons]
      exact ⟨covers_quantity.mpr hq, PowerProduct.over_nil⟩

theorem sublist (h : V.Product e) (hsub : c.Sublist e) : V.Product c :=
  ⟨fun t ht => h.covered t (hsub.mem ht), h.canonical.sublist hsub⟩

theorem mulTerm (h : V.Product e) {t : Term Factor} (ht : V.Covers t.factor)
    (hc : PowerProduct.mulTerm e t = .ok c) : V.Product c :=
  ⟨PowerProduct.over_mulTerm h.covered ht hc,
    PowerProduct.canonical_mulTerm V.orderedOn h.covered ht h.canonical hc⟩

theorem mul (h : V.Product e) {d : FactorProduct} (hd : PowerProduct.Over V.Covers d)
    (hc : PowerProduct.mul e d = .ok c) : V.Product c :=
  ⟨PowerProduct.over_mul h.covered hd hc, PowerProduct.canonical_mul V.orderedOn h.covered hd h.canonical hc⟩

theorem holds_of_named {s : QuantitySpec} (h : V.Product s.product) (hq : s.named? = some q) :
    V.Holds q := by
  unfold QuantitySpec.named? at hq
  split at hq
  · exact Option.some.inj hq ▸ V.dimensionless_holds
  · split at hq
    · rename_i r hsingle
      obtain rfl := Option.some.inj hq
      have hproduct := PowerProduct.single?_eq_some.mp hsingle
      exact covers_quantity.mp (h.covered ⟨.quantity r, .one⟩ (hproduct ▸ List.mem_singleton_self _))
    · cases hq

theorem kindTreeRoot {s r : QuantitySpec} (h : V.Product s.product) (hr : s.kindTreeRoot = .ok r) :
    V.Product r.product := by
  cases hkind : s.isKindOf with
  | true =>
    rw [QuantitySpec.kindTreeRoot_kind hkind] at hr
    exact Except.ok.inj hr ▸ h
  | false =>
    unfold QuantitySpec.kindTreeRoot at hr
    rw [if_neg (by simp [hkind])] at hr
    obtain ⟨product, hproduct, hr⟩ := bind_eq_ok.mp hr
    obtain rfl := pure_eq_ok.mp hr
    have hone : V.Product (PowerProduct.one : FactorProduct) :=
      ⟨PowerProduct.over_nil, PowerProduct.canonical_one⟩
    exact hone.mul (QuantitySpec.over_kindRoots (S := V.Covers) (fun _ => covers_kindRoot) h.covered)
      hproduct

end Product

end Vocabulary

/-! ### Complexity and expansion -/

theorem complexity_le_of_mem {e : FactorProduct} {f : Factor} (h : f ∈ e.factors) :
    f.complexity ≤ productComplexity e := by
  induction e with
  | nil => simp at h
  | cons t e ih =>
    rw [productComplexity, termComplexity]
    rw [PowerProduct.factors_cons, Multiset.mem_cons] at h
    rcases h with rfl | h
    · exact le_max_left _ _
    · exact (ih h).trans (le_max_right _ _)

namespace NamedQuantity

variable {q : NamedQuantity} {e : FactorProduct}

/-- Everything in the equation of a quantity is less complex than the quantity. -/
theorem complexity_lt_of_equation (he : q.equation? = some e) (hq : q.complexity ≠ 0) {f : Factor}
    (hf : f ∈ e.factors) : f.complexity < q.complexity := by
  have hcomplexity : q.complexity = 1 + productComplexity e := by
    cases q with
    | root name equation | child name parent equation =>
      obtain rfl : equation = some e := he
      rw [complexity] at hq ⊢
      split at hq
      · exact absurd rfl hq
      · rename_i hname
        rw [if_neg hname, equationComplexity]
  have hle := complexity_le_of_mem hf
  omega

theorem expansion_of_equation (he : q.equation? = some e) : q.expansion = productExpansion e + 1 := by
  cases q with
  | root name equation | child name parent equation =>
    obtain rfl : equation = some e := he
    rw [expansion, equationExpansion]

end NamedQuantity

theorem Factor.expansion_pos (f : Factor) : 0 < f.expansion := by
  cases f with
  | quantity q =>
    rw [Factor.expansion]
    cases q <;> exact Nat.succ_pos _
  | _ => exact Nat.one_pos

theorem productExpansion_eq (e : FactorProduct) :
    productExpansion e = (e.factors.map Factor.expansion).sum := by
  induction e with
  | nil => rfl
  | cons t e ih =>
    rw [productExpansion, termExpansion, ih, PowerProduct.factors_cons, Multiset.map_cons,
      Multiset.sum_cons]

/-- With fewer factors there is less to expand. -/
theorem sum_expansion_add_card_le {M N : Multiset Factor} (h : M ≤ N) :
    (M.map Factor.expansion).sum + N.card ≤ (N.map Factor.expansion).sum + M.card := by
  obtain ⟨D, rfl⟩ := Multiset.le_iff_exists_add.mp h
  have hD : D.card ≤ (D.map Factor.expansion).sum := by
    have hone := Multiset.card_nsmul_le_sum (s := D.map Factor.expansion) (a := 1) fun x hx => by
      obtain ⟨f, -, rfl⟩ := Multiset.mem_map.mp hx
      exact f.expansion_pos
    simpa using hone
  rw [Multiset.map_add, Multiset.sum_add, Multiset.card_add]
  omega

end Metrology
