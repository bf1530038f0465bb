import Metrology.Proofs.Convertibility.Commutation
import Metrology.Proofs.Convertibility.Reciprocal
import Metrology.Proofs.Hierarchy.Vocabulary
import Metrology.Proofs.Magnitude.Checked

/-!
# Quantities and their equations

A quantity converts to its equation and back. No factor of the equation is of the tree of the quantity,
so nothing can be paired at first, and the quantity is more complex than all the factors, so it is what
the search replaces. Then the equation is compared with itself, where each factor is paired with itself
and taken out as a whole. Only the grade of the replacement remains, and in the numerator of the source a
replacement has none.
-/

namespace Metrology

theorem sharedPower_self (positive : Bool) (a : Ratio) :
    Attains a.Negatable (sharedPower positive a a) (· = a) := by
  have hmin (b : Ratio) : b.min b = b := Ratio.ext (by rw [Ratio.value_min, min_self])
  unfold sharedPower
  cases positive with
  | true => exact .of_ok rfl (hmin a)
  | false =>
    have hneg : Attains a.Negatable a.neg fun r => r.value = -a.value := by
      rcases a.neg_attains with ⟨r, hr, -⟩ | herror
      · exact .of_ok hr (Ratio.neg_eq_ok.mp hr)
      · exact .inr herror
    refine hneg.bind fun c hc => hneg.bind fun d hd => ?_
    have hback : (c.min d).neg = .ok a := by
      rw [Ratio.neg_eq_ok, Ratio.value_min, hc, hd, min_self, neg_neg]
    exact .of_ok hback rfl

namespace FactorProduct

open QuantitySpec (ofProduct)

variable {W : World} {d : FactorProduct} {b : Bool} {i : Ingredient}

theorem within_eraseIdx (hd : (ofProduct d).Within W) (position : Nat) :
    (ofProduct (d.eraseIdx position)).Within W :=
  have hsub := List.eraseIdx_sublist d position
  ⟨fun t ht => hd.quantities t (hsub.mem ht), hd.canonical.sublist hsub⟩

/-- Dividing by all there is of a quantity removes it. -/
theorem mulTerm_opposite (hd : (ofProduct d).Within W) (hi : i ∈ d.ingredients b) {opposite : Ratio}
    (hopposite : opposite.value = -i.power.value) :
    PowerProduct.mulTerm d ⟨.quantity i.quantity, opposite⟩ = .ok (d.eraseIdx i.position) := by
  have hquantities : PowerProduct.Over W.IsQuantity d := hd.quantities
  have hcanonical : PowerProduct.Canonical d := hd.canonical
  have ht := mem_of_ingredient hi
  have hcover : W.IsQuantity (.quantity i.quantity) := hquantities _ ht
  obtain ⟨hpower, hneutral⟩ := hcanonical.proper _ ht
  have hterm : PowerProduct.Proper (⟨.quantity i.quantity, opposite⟩ : Term Factor) :=
    ⟨by rw [hopposite]; exact neg_ne_zero.mpr hpower, hneutral⟩
  have hzero : RatFits ((PowerProduct.powerOf d (.quantity i.quantity)).value + opposite.value) := by
    rw [PowerProduct.powerOf_of_mem W.isQuantity_orderedOn hquantities hcanonical.sorted ht, hopposite,
      add_neg_cancel]
    decide
  obtain ⟨c, hc, -⟩ := (PowerProduct.mulTerm_attains W.isQuantity_orderedOn hcover hquantities
    hcanonical hterm ⟨_, ht, W.isQuantity_orderedOn.self hcover⟩).result hzero
  have hcW : (ofProduct c).Within W := ⟨PowerProduct.over_mulTerm hquantities hcover hc,
    PowerProduct.canonical_mulTerm W.isQuantity_orderedOn hquantities hcover hcanonical hc⟩
  have hrestW := within_eraseIdx hd i.position
  have hsame : PowerProduct.same c (d.eraseIdx i.position) = true := by
    refine PowerProduct.same_of_weigh W.orderedOn hcW.covered hrestW.covered hcW.canonical
      hrestW.canonical fun w hw => ?_
    have hcovered : PowerProduct.Over W.Covers d := hd.covered
    rw [PowerProduct.weigh_mulTerm hw (World.covers_of_isQuantity hcover) hcovered hc,
      PowerProduct.weigh_eraseIdx (mem_ingredients.mp hi).1, hopposite]
    ring
  exact hc.trans (congrArg Except.ok (QuantitySpec.Within.product_eq_of_cmp hcW.quantities
    hrestW.quantities (PowerProduct.same_iff_cmp.mp hsame)))

end FactorProduct

namespace Question

open FactorProduct (mulTerm_opposite within_eraseIdx)
open QuantitySpec (ofProduct named)

variable {W : World} {d e f : FactorProduct} {b : Bool} {i : Ingredient} {n : Nat}
  {ask : Question → Except Fault Convertibility}

/-- A product shares its first factor with itself. -/
theorem extractPair_self (hd : (ofProduct d).Within W) (b : Bool) :
    (d.ingredients b = [] ∧ extractPair d d b = .ok none) ∨ ∃ i ∈ d.ingredients b,
      Attains i.power.Negatable (extractPair d d b)
        (· = some ⟨.yes, d.eraseIdx i.position, d.eraseIdx i.position⟩) := by
  rw [extractPair_eq]
  cases hlist : d.ingredients b with
  | nil =>
    have hpairs : candidatePairs d d b = [] := by
      rw [candidatePairs, hlist]
      rfl
    rw [hpairs]
    exact .inl ⟨rfl, rfl⟩
  | cons i rest =>
    have hi : i ∈ d.ingredients b := by simp [hlist]
    have hself : arePartners (i, i) = true := by simp [arePartners, NamedQuantity.haveCommonBase]
    have hpairs : (candidatePairs d d b).find? arePartners = some (i, i) := by
      rw [candidatePairs, hlist]
      simp [hself]
    rw [hpairs]
    refine .inr ⟨i, by simp, ?_⟩
    have htake {opposite : Ratio} (h : opposite.value = -i.power.value) :
        Attains i.power.Negatable (PowerProduct.mulTerm d ⟨.quantity i.quantity, opposite⟩)
          (· = d.eraseIdx i.position) :=
      .of_ok (mulTerm_opposite hd hi h) rfl
    have hneg : Attains i.power.Negatable i.power.neg fun r => r.value = -i.power.value := by
      rcases i.power.neg_attains with ⟨r, hr, -⟩ | herror
      · exact .of_ok hr (Ratio.neg_eq_ok.mp hr)
      · exact .inr herror
    dsimp only
    rw [NamedQuantity.convertibleInTree_self, if_neg (by simp)]
    refine (sharedPower_self b i.power).bind fun _ hshared => ?_
    rw [hshared]
    refine hneg.bind fun r hr => (htake hr).bind fun c hc => ?_
    refine hneg.bind fun r hr => (htake hr).bind fun c' hc' => ?_
    exact .of_ok rfl (by rw [hc, hc'])

theorem stepProducts_fault (hb : b = true ∨ extractPair e f true = .ok none) {fault : Fault}
    (h : extractPair e f b = .error fault) : stepProducts ask e f = .error fault := by
  have hsource : e.isEmpty = false := by
    cases e with
    | nil => cases h
    | cons => rfl
  have htarget : f.isEmpty = false := by
    cases f with
    | nil =>
      rw [extractPair_empty] at h
      cases h
    | cons => rfl
  unfold stepProducts
  rw [if_neg (by simp [htarget]), if_neg (by simp [hsource])]
  cases b with
  | true =>
    rw [h]
    rfl
  | false =>
    rw [hb.resolve_left (by simp), h]
    rfl

/-- Compared with itself a product is used up, factor by factor. -/
theorem answer_self (hd : (ofProduct d).Within W) (hn : d.length < n) :
    Attains (∀ t ∈ d, t.power.Negatable) (answer n (.products d d)) (· = .yes) := by
  induction n generalizing d with
  | zero => omega
  | succ n ih =>
    have hpair (b : Bool) (hb : b = true ∨ extractPair d d true = .ok none) (i : Ingredient)
        (hi : i ∈ d.ingredients b) (h : Attains i.power.Negatable (extractPair d d b)
          (· = some ⟨.yes, d.eraseIdx i.position, d.eraseIdx i.position⟩)) :
        Attains (∀ t ∈ d, t.power.Negatable) (answer (n + 1) (.products d d)) (· = .yes) := by
      rw [answer_succ, step]
      rcases h with ⟨p, hp, rfl⟩ | ⟨herror, hlarge⟩
      · have hshorter : (d.eraseIdx i.position).length < n := by
          have hposition := (List.getElem?_eq_some_iff.mp (FactorProduct.mem_ingredients.mp hi).1).1
          rw [List.length_eraseIdx_of_lt hposition]
          omega
        rw [stepProducts_pair hb hp, stepPairing, if_neg (by simp)]
        refine ((ih (within_eraseIdx hd _) hshorter).mono (fun h t ht => ?_) fun _ h => h).bind ?_
        · exact h t ((List.eraseIdx_sublist d i.position).mem ht)
        · rintro _ rfl
          exact .of_ok rfl rfl
      · refine .inr ⟨stepProducts_fault hb herror, fun h => hlarge ?_⟩
        exact h _ (FactorProduct.mem_of_ingredient hi)
    rcases extractPair_self hd true with ⟨habove, hnone⟩ | ⟨i, hi, h⟩
    · rcases extractPair_self hd false with ⟨hbelow, -⟩ | ⟨i, hi, h⟩
      · have hempty : d.isEmpty = true := by
          refine (FactorProduct.isEmpty_iff_quantities hd).mpr fun b => ?_
          cases b with
          | true => rw [FactorProduct.quantities, habove, List.map_nil]
          | false => rw [FactorProduct.quantities, hbelow, List.map_nil]
        obtain rfl := List.isEmpty_iff.mp hempty
        exact .of_ok (answer_nil n) rfl
      · exact hpair false (.inr hnone) i hi h
    · exact hpair true (.inl rfl) i hi h

/-- An equation of a quantity that is no mere name and mentions nothing of the tree of the quantity. -/
structure CompoundEquation (W : World) (q : NamedQuantity) (e : FactorProduct) : Prop where
  holds : W.Holds q
  equation : q.equation? = some e
  nonempty : e ≠ []
  compound (r : NamedQuantity) : e ≠ [⟨.quantity r, .one⟩]
  apart {t : Term Factor} {r : NamedQuantity} : t ∈ e → t.factor = .quantity r → r.treeRoot ≠ q.treeRoot

/-- A quantity by itself, as an ingredient. -/
def sole (q : NamedQuantity) : Ingredient := ⟨0, q, .one⟩

theorem ingredients_sole (q : NamedQuantity) (b : Bool) :
    FactorProduct.ingredients [⟨.quantity q, .one⟩] b = if b then [sole q] else [] := by
  cases b <;> rfl

theorem replaceAt_sole {q : NamedQuantity} (he : PowerProduct.Canonical e) :
    FactorProduct.replaceAt [⟨.quantity q, .one⟩] (sole q) e = .ok e := by
  have hpow : PowerProduct.pow e (sole q).power = .ok e := PowerProduct.pow_one e
  rw [FactorProduct.replaceAt, hpow]
  exact PowerProduct.one_mul_canonical he

namespace CompoundEquation

variable {q : NamedQuantity} (h : CompoundEquation W q e)

include h

theorem proper : q.isDimensionless = false := by
  refine Bool.eq_false_iff.mpr fun hone => h.nonempty ?_
  have hequation := h.equation
  rw [W.eq_dimensionless h.holds hone] at hequation
  exact (Option.some.inj hequation).symm

theorem canonical (hW : W.Declared) : PowerProduct.Canonical e :=
  ((hW q h.holds).equation h.equation).1

theorem within (hW : W.Declared) : (ofProduct e).Within W :=
  ⟨W.equation_holds h.holds h.equation, h.canonical hW⟩

theorem complexity_ne : q.complexity ≠ 0 := by
  have hname : q.name ≠ NamedQuantity.dimensionlessName := fun hname =>
    Bool.eq_false_iff.mp h.proper (NamedQuantity.isDimensionless_iff.mpr hname)
  have hequation := h.equation
  cases q with
  | root name equation | child name parent equation =>
    obtain rfl : equation = some e := hequation
    have hname' : name ≠ NamedQuantity.dimensionlessName := hname
    rw [NamedQuantity.complexity, if_neg (by simpa using hname'), equationComplexity]
    omega

theorem complexity_lt {k : Ingredient} (hk : k ∈ e.ingredients b) : k.complexity < q.complexity := by
  have hfactor : Factor.quantity k.quantity ∈ PowerProduct.factors e :=
    PowerProduct.mem_factors.mpr ⟨_, FactorProduct.mem_of_ingredient hk, rfl⟩
  have hlt := NamedQuantity.complexity_lt_of_equation h.equation h.complexity_ne hfactor
  rwa [Factor.complexity] at hlt

theorem not_partners (hW : W.Declared) {k : Ingredient} (hk : k ∈ e.ingredients b) :
    arePartners (sole q, k) = false ∧ arePartners (k, sole q) = false := by
  have hkW := FactorProduct.holds_of_ingredient (h.within hW) hk
  have htree := h.apart (FactorProduct.mem_of_ingredient hk) rfl
  refine ⟨Bool.eq_false_iff.mpr fun hcommon => ?_, Bool.eq_false_iff.mpr fun hcommon => ?_⟩
  · exact htree ((W.haveCommonBase_iff h.holds hkW).mp hcommon).symm
  · exact htree ((W.haveCommonBase_iff hkW h.holds).mp hcommon)

theorem no_pairs (hW : W.Declared) (b : Bool) :
    extractPair [⟨.quantity q, .one⟩] e b = .ok none ∧
      extractPair e [⟨.quantity q, .one⟩] b = .ok none := by
  constructor
  · rw [extractPair_eq_none, List.find?_eq_none]
    rintro ⟨i, j⟩ hpair
    obtain ⟨hi, hj⟩ := mem_candidatePairs.mp hpair
    rw [ingredients_sole] at hi
    cases b with
    | false => cases hi
    | true =>
      obtain rfl := List.mem_singleton.mp hi
      simp [(h.not_partners hW hj).1]
  · rw [extractPair_eq_none, List.find?_eq_none]
    rintro ⟨i, j⟩ hpair
    obtain ⟨hi, hj⟩ := mem_candidatePairs.mp hpair
    rw [ingredients_sole] at hj
    cases b with
    | false => cases hj
    | true =>
      obtain rfl := List.mem_singleton.mp hj
      simp [(h.not_partners hW hi).2]

/-- The quantity is the most complex ingredient, on whichever side it stands. -/
theorem mostComplex_eq :
    mostComplex [⟨.quantity q, .one⟩] e = some (.sourceAbove, sole q) ∧
      mostComplex e [⟨.quantity q, .one⟩] = some (.targetAbove, sole q) := by
  have hlt {b : Bool} {k : Ingredient} (hk : k ∈ e.ingredients b) :
      k.complexity < (sole q).complexity := h.complexity_lt hk
  have hsole {b : Bool} {k : Ingredient}
      (hk : k ∈ FactorProduct.ingredients [⟨.quantity q, .one⟩] b) : k = sole q ∧ b = true := by
    rw [ingredients_sole] at hk
    cases b with
    | false => cases hk
    | true => exact ⟨List.mem_singleton.mp hk, rfl⟩
  constructor
  · rw [mostComplex_eq_some_iff]
    refine ⟨⟨[], [], rfl, by simp, by simp⟩, fun other hother => absurd hother (by simp [Side.rank]),
      fun other k hk => ?_⟩
    cases other with
    | sourceAbove | sourceBelow => exact (hsole hk).1 ▸ le_rfl
    | targetAbove | targetBelow => exact (hlt hk).le
  · rw [mostComplex_eq_some_iff]
    refine ⟨⟨[], [], rfl, by simp, by simp⟩, fun other hother k hk => ?_, fun other k hk => ?_⟩
    · cases other with
      | sourceAbove | sourceBelow => exact hlt hk
      | targetAbove | targetBelow => exact absurd hother (by simp [Side.rank])
    · cases other with
      | sourceAbove | sourceBelow => exact (hlt hk).le
      | targetAbove | targetBelow => exact (hsole hk).1 ▸ le_rfl

theorem explode_sole : (sole q).quantity.explode? =
    some (e, if q.definesEquation then .yes else .explicit) := by
  show q.equation?.map _ = _
  rw [h.equation]
  rfl

theorem isEmpty_eq_false : e.isEmpty = false := by
  simpa using h.nonempty

/-- A quantity of the source is replaced at no cost. -/
theorem answer_forth (hW : W.Declared) (hn : e.length + 1 < n) :
    Attains (∀ t ∈ e, t.power.Negatable) (answer n (.products [⟨.quantity q, .one⟩] e)) (· = .yes) := by
  obtain ⟨n, rfl⟩ : ∃ m, n = m + 1 := ⟨n - 1, by omega⟩
  have hempty := h.isEmpty_eq_false
  have hcomplexity : (sole q).complexity ≠ 0 := h.complexity_ne
  rw [answer_succ, step, stepProducts_bare fun b => (h.no_pairs hW b).1, h.mostComplex_eq.1,
    if_neg (by simp [hempty]), if_neg (by simp)]
  dsimp only
  rw [stepIngredient, if_neg (by simp [hempty]), stepTarget, if_neg (by simp), stepReplacement,
    if_neg hcomplexity, h.explode_sole]
  dsimp only
  rw [replaceAt_sole (h.canonical hW)]
  exact answer_self (h.within hW) (by omega)

/-- A quantity of the target is replaced at the cost of an inherited equation. -/
theorem answer_back (hW : W.Declared) (hn : e.length + 1 < n) :
    Attains (∀ t ∈ e, t.power.Negatable) (answer n (.products e [⟨.quantity q, .one⟩]))
      (· = if q.definesEquation then .yes else .explicit) := by
  obtain ⟨n, rfl⟩ : ∃ m, n = m + 1 := ⟨n - 1, by omega⟩
  have hempty := h.isEmpty_eq_false
  have hcomplexity : (sole q).complexity ≠ 0 := h.complexity_ne
  rw [answer_succ, step, stepProducts_bare fun b => (h.no_pairs hW b).2, h.mostComplex_eq.2,
    if_neg (by simp), if_neg (by simp [hempty])]
  dsimp only
  rw [stepIngredient, if_neg (by simp), stepTarget, if_neg (by simp [hempty]), stepReplacement,
    if_neg hcomplexity, h.explode_sole]
  dsimp only
  rw [replaceAt_sole (h.canonical hW)]
  refine (answer_self (h.within hW) (by omega)).bind ?_
  rintro _ rfl
  exact .of_ok rfl (Convertibility.min_yes _)

end CompoundEquation

end Question

namespace QuantitySpec

open Question

variable {W : World} {q : NamedQuantity} {e : FactorProduct}

theorem named?_eq_none_of_compound (h : CompoundEquation W q e) : (ofProduct e).named? = none := by
  have hone : ¬ PowerProduct.isOne (ofProduct e).product = true := fun hone =>
    h.nonempty (PowerProduct.isOne_iff.mp hone)
  unfold named?
  rw [if_neg hone]
  cases hsingle : PowerProduct.single? (ofProduct e).product with
  | none => rfl
  | some f =>
    cases f with
    | quantity r => exact absurd (PowerProduct.single?_eq_some.mp hsingle) (h.compound r)
    | _ => rfl

/-- A quantity and its equation have one dimension but are not the same, and so they are compared factor by
factor. -/
theorem answer_compound (hW : W.Declared) (h : CompoundEquation W q e) (n : Nat) :
    answer (n + 1) (.specs (named q) (ofProduct e)) = answer n (.products [⟨.quantity q, .one⟩] e) ∧
      answer (n + 1) (.specs (ofProduct e) (named q)) = answer n (.products e [⟨.quantity q, .one⟩]) := by
  have hqW := Within.named h.holds
  have heW := h.within hW
  have hx := W.dimension_named hW h.holds
  have hy := ((hW q h.holds).equation h.equation).2.2
  have hname := named?_eq_none_of_compound h
  have hself : PowerProduct.same q.dimension q.dimension = true :=
    (dimension_same_iff hx hy).mpr fun w hw => by
      rw [← (dimension_spec hx).2 w hw, ← (dimension_spec hy).2 w hw]
  have hne : named q ≠ ofProduct e := fun heq => by
    rw [← heq, named?_named h.holds] at hname
    cases hname
  have hforth : (named q).same (ofProduct e) = false :=
    Bool.eq_false_iff.mpr fun hsame => hne (hqW.eq_of_same heW hsame)
  have hback : (ofProduct e).same (named q) = false :=
    Bool.eq_false_iff.mpr fun hsame => hne (heW.eq_of_same hqW hsame).symm
  rw [Question.answer_products hforth hx hy hself rfl rfl (.inr hname),
    Question.answer_products hback hy hx hself rfl rfl (.inl hname), named_product h.proper]
  exact ⟨rfl, rfl⟩

/-- A quantity converts to its equation, and the equation to the quantity, implicitly if it is an equation
of its own and explicitly if it is inherited. The search behind it compares any product with itself and
finds what the test for sameness finds at once. -/
theorem convertible_equation (hW : W.Declared) (h : CompoundEquation W q e) :
    Attains (∀ t ∈ e, t.power.Negatable) ((named q).convertible (ofProduct e)) (· = .yes) ∧
    Attains (∀ t ∈ e, t.power.Negatable) ((ofProduct e).convertible (named q))
      (· = if q.definesEquation then .yes else .explicit) ∧
    ∀ d n, (ofProduct d).Within W → d.length < n →
      (ofProduct d).convertible (ofProduct d) = .ok .yes ∧
        Attains (∀ t ∈ d, t.power.Negatable) (Question.answer n (.products d d)) (· = .yes) := by
  have hroom : e.length ≤ 16 := (h.canonical hW).bounded
  refine ⟨?_, ?_, fun d n hd hn => ⟨Question.answer_same hd.same_self _, answer_self hd hn⟩⟩
  · rw [convertible, searchBound, (answer_compound hW h _).1]
    exact h.answer_forth hW (by omega)
  · rw [convertible, searchBound, (answer_compound hW h _).2]
    exact h.answer_back hW (by omega)

section Paces

open Catalog NamedQuantity

/-- A pace is a length per time, and a length per time is a pace only explicitly, since the equation is that
of speed. -/
theorem convertible_equation_pace : CompoundEquation paces.toWorld pace lengthPerTime ∧
    (named pace).convertible (ofProduct lengthPerTime) = .ok .yes ∧
    (ofProduct lengthPerTime).convertible (named pace) = .ok .explicit := by
  have hpace : CompoundEquation paces.toWorld pace lengthPerTime := by
    refine ⟨.inr rfl, rfl, by simp [lengthPerTime], by simp [lengthPerTime], fun {t r} ht hr => ?_⟩
    simp only [lengthPerTime, List.mem_cons, List.not_mem_nil, or_false] at ht
    rcases ht with rfl | rfl <;> obtain rfl := Factor.quantity.inj hr <;>
      exact ne_of_apply_ne NamedQuantity.name (by decide)
  have hfits : ∀ t ∈ lengthPerTime, t.power.Negatable := by
    intro t ht
    simp only [lengthPerTime, List.mem_cons, List.not_mem_nil, or_false] at ht
    rcases ht with rfl | rfl <;> unfold Ratio.Negatable <;> decide
  have hinherited : pace.definesEquation = false := by with_unfolding_all rfl
  obtain ⟨hforth, hback, -⟩ := convertible_equation paces.toWorld_declared hpace
  obtain ⟨_, hforth, rfl⟩ := hforth.result hfits
  obtain ⟨_, hback, rfl⟩ := hback.result hfits
  rw [hinherited] at hback
  exact ⟨hpace, hforth, hback⟩

end Paces

end QuantitySpec

end Metrology
