import Metrology.Proofs.Convertibility.Reciprocal
import Metrology.Proofs.PowerProduct.Factors

/-!
# Quantities without equations

A search about quantities that have no equation, none of them in the tree of the dimensionless one, only
takes out pairs. It replaces nothing and takes nothing for dimensionless, so it never has a reason to tell
numerators from denominators.
-/

namespace Metrology

/-- A quantity without an equation, of a tree other than that of the dimensionless quantity. -/
def NamedQuantity.Plain (q : NamedQuantity) : Prop :=
  q.complexity = 0 ∧ q.treeRoot ≠ .dimensionless

theorem NamedQuantity.definesEquation_of_complexity {q : NamedQuantity}
    (hproper : q.isDimensionless = false) (h : q.complexity = 0) : q.definesEquation = true := by
  have hequation : q.equation? = none := by
    have hname : (q.name == dimensionlessName) = false := hproper
    cases q with
    | root name equation | child name parent equation =>
      rw [NamedQuantity.complexity, if_neg (by simpa [NamedQuantity.name] using hname)] at h
      cases equation with
      | none => rfl
      | some terms =>
        rw [equationComplexity] at h
        omega
  unfold definesEquation
  rw [hequation]
  cases q.parent?.bind (·.equation?) <;> rfl

/-- Every quantity of a product is plain. -/
def FactorProduct.Plain (e : FactorProduct) : Prop :=
  ∀ q, Factor.quantity q ∈ PowerProduct.factors e → q.Plain

namespace Question

open QuantitySpec (ofProduct)

variable {W : World} {q r : Question} {e f c : FactorProduct} {i : Ingredient} {side : Side} {b : Bool}
  {n : Nat}

def Plain : Question → Prop
  | .specs s t => (s.isKindOf = false ∧ t.isKindOf = false) ∧
      FactorProduct.Plain s.product ∧ FactorProduct.Plain t.product
  | .products e f => e.Plain ∧ f.Plain

theorem plain_ingredient (he : e.Plain) (hi : i ∈ e.ingredients b) : i.quantity.Plain :=
  he _ (PowerProduct.mem_factors.mpr ⟨_, FactorProduct.mem_of_ingredient hi, rfl⟩)

theorem plain_mulTerm (he : e.Plain) (hi : i ∈ e.ingredients b) {p : Ratio}
    (h : PowerProduct.mulTerm e ⟨.quantity i.quantity, p⟩ = .ok c) : c.Plain := by
  intro q hq
  have hmem := Multiset.subset_of_le (PowerProduct.factors_mulTerm h) hq
  rcases Multiset.mem_cons.mp hmem with heq | hmem
  · obtain rfl := Factor.quantity.inj heq
    exact plain_ingredient he hi
  · exact he q hmem

theorem plain_removeAt (he : e.Plain) (hi : i ∈ e.ingredients b)
    (h : PowerProduct.removeAt e i.position = .ok c) : c.Plain := by
  obtain rfl := removeAt_of_ingredient hi h
  intro q hq
  refine he q ?_
  rw [PowerProduct.factors_eraseIdx (FactorProduct.mem_ingredients.mp hi).1]
  exact Multiset.mem_cons_of_mem hq

theorem plain_named {p : NamedQuantity} (hp : p.Plain) :
    FactorProduct.Plain (QuantitySpec.named p).product := by
  intro q hq
  obtain ⟨t, ht, hfactor⟩ := PowerProduct.mem_factors.mp hq
  unfold QuantitySpec.named QuantitySpec.ofProduct at ht
  split at ht
  · cases ht
  · obtain rfl := List.mem_singleton.mp ht
    obtain rfl := Factor.quantity.inj hfactor
    exact hp

theorem plain_dimensionless : FactorProduct.Plain QuantitySpec.dimensionless.product := by
  simp [FactorProduct.Plain, QuantitySpec.dimensionless]

theorem plain_side (h : Plain (.products e f)) (side : Side) : (side.product e f).Plain := by
  cases side with
  | sourceAbove | sourceBelow => exact h.1
  | targetAbove | targetBelow => exact h.2

theorem plain_put (h : Plain (.products e f)) (side : Side) (hc : c.Plain) : (side.put e f c).Plain := by
  cases side with
  | sourceAbove | sourceBelow => exact ⟨hc, h.2⟩
  | targetAbove | targetBelow => exact ⟨h.1, hc⟩

theorem Puts.plain (h : Puts (answer n) q r) (hq : Balanced W q) (hplain : q.Plain) : r.Plain := by
  cases h with
  | roots hs => exact absurd (hs.symm.trans hplain.1.1) (by simp)
  | targetRoot _ ht => exact absurd (ht.symm.trans hplain.1.2) (by simp)
  | explodedSource hs ht hp hq' hcommon hkind =>
    exact absurd (haveCommonBase_of_named hq.1 hq.2 hs ht hp hq' hkind) (by simp [hcommon])
  | explodedTarget hs ht hp hq' hcommon hkind =>
    exact absurd (haveCommonBase_of_named hq.1 hq.2 hs ht hp hq' hkind) (by simp [hcommon])
  | factors => exact hplain.2
  | paired hpairing hno =>
    obtain ⟨i, j, -, -, hextracts⟩ := extracts_of_extractPair hpairing
    obtain ⟨shared, opposite, hextracts⟩ := hextracts hno
    exact ⟨plain_mulTerm hplain.1 hextracts.source_mem hextracts.source_eq,
      plain_mulTerm hplain.2 hextracts.target_mem hextracts.target_eq⟩
  | @lone e f side i hmost =>
    have hi := plain_ingredient (plain_side hplain side) (mem_of_mostComplex hmost)
    cases side with
    | sourceAbove | sourceBelow => exact ⟨⟨rfl, rfl⟩, plain_named hi, plain_dimensionless⟩
    | targetAbove | targetBelow => exact ⟨⟨rfl, rfl⟩, plain_dimensionless, plain_named hi⟩
  | @removed e f c side i _ hmost _ _ _ hc =>
    exact plain_put hplain side (plain_removeAt (plain_side hplain side) (mem_of_mostComplex hmost) hc)
  | @replaced e f _ _ side i _ hmost hzero =>
    exact absurd (plain_ingredient (plain_side hplain side) (mem_of_mostComplex hmost)).1 hzero

theorem ComesTo.plain (hW : W.Declared) (h : ComesTo q e f) (hq : Balanced W q) (hplain : q.Plain) :
    Balanced W (.products e f) ∧ Plain (.products e f) := by
  have hreached : ∀ {r : Question}, Relation.ReflTransGen LeadsTo q r → Balanced W r ∧ r.Plain := by
    intro r hr
    induction hr with
    | refl => exact ⟨hq, hplain⟩
    | tail _ hstep ih =>
      obtain ⟨n, hputs⟩ := hstep
      exact ⟨hputs.balanced hW ih.1, hputs.plain ih.1 ih.2⟩
  exact hreached h

theorem Plain.isEvenHanded (hW : W.Declared) (hq : Balanced W q) (hplain : q.Plain) :
    q.IsEvenHanded := by
  intro e f hreached
  obtain ⟨-, hproducts⟩ := ComesTo.plain hW hreached hq hplain
  constructor
  · intro side i hturns hzero
    exact absurd (plain_ingredient (plain_side hproducts side) (mem_of_split hturns.foremost)).1 hzero
  · intro _ _ _ _ other k hk _
    exact (plain_ingredient (plain_side hproducts other) hk).2

theorem Plain.usesOwnEquations (hW : W.Declared) (hq : Balanced W q) (hplain : q.Plain) :
    q.UsesOwnEquations := by
  intro e f side i hreached hturns _
  obtain ⟨hbalanced, hproducts⟩ := ComesTo.plain hW hreached hq hplain
  have hi := mem_of_split hturns.foremost
  exact NamedQuantity.definesEquation_of_complexity
    (FactorProduct.ingredient_holds (within_of_balanced hbalanced side) hi).2
    (plain_ingredient (plain_side hproducts side) hi).1

end Question

end Metrology
