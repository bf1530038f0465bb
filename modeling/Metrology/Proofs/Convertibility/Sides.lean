import Metrology.Proofs.Convertibility.Conservation

/-!
# Numerators and denominators

Of a product of quantities only this much matters to the search: how much of which quantity stands above
the line, and how much of which below. Two sides that hold the same amounts list the same quantities in
the same order, wherever they stand, and a pair that is taken out on one side leaves the other side as it
is.
-/

namespace Metrology

namespace FactorProduct

variable {W : World} {e f c e' : FactorProduct} {b b' b'' : Bool} {q : NamedQuantity} {i : Ingredient}

open QuantitySpec (ofProduct)

/-- The power of a quantity in a product. -/
def powerIn (e : FactorProduct) (q : NamedQuantity) : Rat :=
  PowerProduct.weigh (PowerProduct.indicator (.quantity q)) e

/-- How much of a quantity stands above the line, or below it. -/
def amount (e : FactorProduct) (b : Bool) (q : NamedQuantity) : Rat :=
  max (Exchange.sign b * e.powerIn q) 0

/-- The quantities above the line, or below it, in the order of the product. -/
def quantities (e : FactorProduct) (b : Bool) : List NamedQuantity :=
  (e.ingredients b).map (·.quantity)

/-- The same amounts of all quantities on one side of a product and on a side of another. -/
def SameAmounts (W : World) (e : FactorProduct) (b : Bool) (e' : FactorProduct) (b' : Bool) : Prop :=
  ∀ q, W.Holds q → q.isDimensionless = false → e.amount b q = e'.amount b' q

theorem indicator_weight (hq : W.Holds q) (hproper : q.isDimensionless = false) :
    Atom.Weight W.Covers (PowerProduct.indicator (.quantity q)) :=
  PowerProduct.indicator_weight W.orderedOn (Factor.quantitiesIn_quantity.mpr hq) hproper

theorem indicator_self (q : NamedQuantity) :
    PowerProduct.indicator (.quantity q) (Factor.quantity q) = 1 :=
  if_pos (NamedQuantity.cmp_self q)

theorem indicator_of_ne (hq : W.Holds q) {r : NamedQuantity} (hr : W.Holds r) (h : r ≠ q) :
    PowerProduct.indicator (.quantity q) (Factor.quantity r) = 0 :=
  if_neg ((W.cmp_eq_iff hr hq).not.mpr h)

section Ingredients

variable (he : (ofProduct e).Within W) (hi : i ∈ e.ingredients b)

include he hi

theorem ingredient_holds : W.Holds i.quantity ∧ i.quantity.isDimensionless = false := by
  have hmem := mem_of_ingredient hi
  obtain ⟨q, hq, hqW⟩ := he.quantities _ hmem
  obtain rfl := Factor.quantity.inj hq
  exact ⟨hqW, (he.canonical.proper _ hmem).2⟩

theorem powerIn_ingredient : e.powerIn i.quantity = i.power.value := by
  have hmem := mem_of_ingredient hi
  have hcover : W.Covers (.quantity i.quantity) :=
    Factor.quantitiesIn_quantity.mpr (ingredient_holds he hi).1
  have hpower := PowerProduct.powerOf_eq_weigh W.orderedOn he.covered he.canonical.sorted hcover
  exact hpower.symm.trans (congrArg Ratio.value
    (PowerProduct.powerOf_of_mem W.orderedOn he.covered he.canonical.sorted hmem))

theorem amount_ingredient : e.amount b i.quantity = Exchange.sign b * i.power.value ∧
    0 < Exchange.sign b * i.power.value := by
  have hne : i.power.value ≠ 0 := (he.canonical.proper _ (mem_of_ingredient hi)).1
  have hpositive := (mem_ingredients.mp hi).2
  have hpos : 0 < Exchange.sign b * i.power.value := by
    cases b with
    | true => simpa [Exchange.sign] using hpositive
    | false =>
      have hle : i.power.value ≤ 0 := by simpa using hpositive
      simpa [Exchange.sign] using lt_of_le_of_ne hle hne
  exact ⟨by rw [amount, powerIn_ingredient he hi, max_eq_left hpos.le], hpos⟩

end Ingredients

theorem exists_ingredient_of_amount (he : (ofProduct e).Within W) (hq : W.Holds q)
    (h : 0 < e.amount b q) : ∃ i ∈ e.ingredients b, i.quantity = q := by
  have hsign : 0 < Exchange.sign b * e.powerIn q := by
    by_contra hle
    rw [amount, max_eq_right (not_lt.mp hle)] at h
    exact lt_irrefl _ h
  have hmem : ∃ t ∈ e, Atom.cmp t.factor (.quantity q) = .eq := by
    by_contra hnone
    push Not at hnone
    rw [powerIn, PowerProduct.weigh_indicator_eq_zero hnone, mul_zero] at hsign
    exact lt_irrefl _ hsign
  obtain ⟨t, ht, hcmp⟩ := hmem
  obtain ⟨r, hr, hrW⟩ := he.quantities t ht
  rw [hr] at hcmp
  obtain rfl : r = q := (W.cmp_eq_iff hrW hq).mp hcmp
  obtain ⟨i, hi, rfl, hpower⟩ := exists_ingredient ht hr
  rw [powerIn_ingredient he hi, hpower] at hsign
  rw [Exchange.isPositive_eq_of_sign hsign] at hi
  exact ⟨i, hi, rfl⟩

theorem mem_quantities (he : (ofProduct e).Within W) : q ∈ e.quantities b ↔
    W.Holds q ∧ q.isDimensionless = false ∧ 0 < e.amount b q := by
  constructor
  · intro hq
    obtain ⟨i, hi, rfl⟩ := List.mem_map.mp hq
    obtain ⟨hiW, hproper⟩ := ingredient_holds he hi
    obtain ⟨hamount, hpos⟩ := amount_ingredient he hi
    exact ⟨hiW, hproper, hamount ▸ hpos⟩
  · rintro ⟨hq, -, hpos⟩
    obtain ⟨i, hi, rfl⟩ := exists_ingredient_of_amount he hq hpos
    exact List.mem_map_of_mem hi

/-- A side has as many factors as it lists quantities. -/
theorem count_eq_length (he : (ofProduct e).Within W) (b : Bool) :
    e.count b = (e.quantities b).length := by
  rw [quantities, List.length_map, ingredients, List.length_filterMap_eq_countP, count]
  conv_lhs => rw [← List.zipIdx_map_fst 0 e]
  rw [List.countP_map]
  refine List.countP_congr fun t ht => ?_
  obtain ⟨q, hq, -⟩ := he.quantities t.1 (List.fst_mem_of_mem_zipIdx ht)
  simp [hq]

theorem isEmpty_iff_quantities (he : (ofProduct e).Within W) :
    e.isEmpty = true ↔ ∀ b, e.quantities b = [] := by
  rw [List.isEmpty_iff]
  constructor
  · rintro rfl b
    rfl
  · intro h
    refine List.eq_nil_iff_forall_not_mem.mpr fun t ht => ?_
    obtain ⟨q, hq, -⟩ := he.quantities t ht
    obtain ⟨i, hi, -⟩ := exists_ingredient ht hq
    have hmem : i.quantity ∈ e.quantities t.power.isPositive := List.mem_map_of_mem hi
    rw [h] at hmem
    cases hmem

namespace SameAmounts

theorem refl : SameAmounts W e b e b := fun _ _ _ => rfl

theorem symm (h : SameAmounts W e b e' b') : SameAmounts W e' b' e b :=
  fun q hq hproper => (h q hq hproper).symm

theorem trans (h : SameAmounts W e b e' b') (h' : SameAmounts W e' b' f b'') :
    SameAmounts W e b f b'' :=
  fun q hq hproper => (h q hq hproper).trans (h' q hq hproper)

/-- Sides that hold the same amounts list the same quantities. -/
theorem quantities_eq (he : (ofProduct e).Within W) (he' : (ofProduct e').Within W)
    (h : SameAmounts W e b e' b') : e.quantities b = e'.quantities b' := by
  have hordered {d : FactorProduct} (hd : (ofProduct d).Within W) (b : Bool) :
      (d.quantities b).Pairwise fun q r => q.cmp r = .lt :=
    List.pairwise_map.mpr (ingredients_ordered hd.canonical.sorted)
  have hnodup {d : FactorProduct} (hd : (ofProduct d).Within W) (b : Bool) : (d.quantities b).Nodup :=
    (hordered hd b).imp fun {q r} hlt heq => by
      rw [heq, NamedQuantity.cmp_self] at hlt
      cases hlt
  refine List.Perm.eq_of_pairwise (fun q r hq hr hqr hrq => ?_) (hordered he b) (hordered he' b')
    ((List.perm_ext_iff_of_nodup (hnodup he b) (hnodup he' b')).mpr fun q => ?_)
  · have hgt := (W.cmp_gt_iff ((mem_quantities he).mp hq).1 ((mem_quantities he').mp hr).1).mpr hrq
    rw [hqr] at hgt
    cases hgt
  · rw [mem_quantities he, mem_quantities he']
    constructor
    · rintro ⟨hq, hproper, hpos⟩
      exact ⟨hq, hproper, h q hq hproper ▸ hpos⟩
    · rintro ⟨hq, hproper, hpos⟩
      exact ⟨hq, hproper, (h q hq hproper).symm ▸ hpos⟩

end SameAmounts

/-! ### Taking out a pair -/

/-- Taking out an ingredient in part changes no other amount. -/
theorem amount_takeOut (he : (ofProduct e).Within W) (hi : i ∈ e.ingredients b) {opposite : Ratio}
    {x : Rat} (hx : x ≤ e.amount b i.quantity) (hopposite : opposite.value = -(Exchange.sign b * x))
    (h : PowerProduct.mulTerm e ⟨.quantity i.quantity, opposite⟩ = .ok c) :
    c.amount b i.quantity = e.amount b i.quantity - x ∧ SameAmounts W e (!b) c (!b) ∧
      ∀ q, W.Holds q → q.isDimensionless = false → q ≠ i.quantity → c.amount b q = e.amount b q := by
  obtain ⟨hiW, hiproper⟩ := ingredient_holds he hi
  obtain ⟨hamount, hpos⟩ := amount_ingredient he hi
  have hpower (q : NamedQuantity) (hq : W.Holds q) (hproper : q.isDimensionless = false) :
      c.powerIn q = e.powerIn q +
        opposite.value * PowerProduct.indicator (.quantity q) (Factor.quantity i.quantity) :=
    PowerProduct.weigh_mulTerm (t := ⟨.quantity i.quantity, opposite⟩) (indicator_weight hq hproper)
      (Factor.quantitiesIn_quantity.mpr hiW) he.covered h
  have hself : c.powerIn i.quantity = i.power.value - Exchange.sign b * x := by
    rw [hpower _ hiW hiproper, indicator_self, powerIn_ingredient he hi, hopposite]
    ring
  have hother (q : NamedQuantity) (hq : W.Holds q) (hproper : q.isDimensionless = false)
      (hne : q ≠ i.quantity) : c.powerIn q = e.powerIn q := by
    rw [hpower q hq hproper, indicator_of_ne hq hiW hne.symm, mul_zero, add_zero]
  rw [hamount] at hx
  refine ⟨?_, fun q hq hproper => ?_, fun q hq hproper hne => ?_⟩
  · rw [hamount, amount, hself, mul_sub, Exchange.sign_mul_sign_mul, max_eq_left (by linarith)]
  · by_cases hqi : q = i.quantity
    · subst hqi
      rw [amount, amount, hself, powerIn_ingredient he hi, Exchange.sign_not, max_eq_right, max_eq_right]
      · rw [neg_mul, mul_sub, Exchange.sign_mul_sign_mul]
        linarith
      · linarith
    · rw [amount, amount, hother q hq hproper hqi]
  · rw [amount, amount, hother q hq hproper hne]

end FactorProduct

namespace Question

open FactorProduct (SameAmounts)
open QuantitySpec (ofProduct)

variable {W : World} {e f e' f' : FactorProduct} {b b' : Bool} {p p' : Pairing}

/-- Whether there is a pair, and of which quantities, is decided by what stands on the two sides. -/
theorem first_pair_of_same (hsource : e.quantities b = e'.quantities b')
    (htarget : f.quantities b = f'.quantities b') :
    ((candidatePairs e f b).find? arePartners).map (Prod.map Ingredient.quantity Ingredient.quantity) =
      ((candidatePairs e' f' b').find? arePartners).map
        (Prod.map Ingredient.quantity Ingredient.quantity) := by
  have hfind (d c : FactorProduct) (b : Bool) :
      ((candidatePairs d c b).find? arePartners).map (Prod.map Ingredient.quantity Ingredient.quantity) =
        ((d.quantities b).flatMap fun q => (c.quantities b).map fun r => (q, r)).find?
          fun pair => pair.1.haveCommonBase pair.2 := by
    rw [FactorProduct.quantities, FactorProduct.quantities, List.flatMap_map]
    have hmap : ((d.ingredients b).flatMap fun i =>
        ((c.ingredients b).map (·.quantity)).map fun r => (i.quantity, r)) =
          (candidatePairs d c b).map (Prod.map Ingredient.quantity Ingredient.quantity) := by
      rw [candidatePairs, List.map_flatMap]
      simp only [List.map_map]
      rfl
    rw [hmap, List.find?_map]
    rfl
  rw [hfind, hfind, hsource, htarget]

theorem extractPair_eq_none : extractPair e f b = .ok none ↔
    (candidatePairs e f b).find? arePartners = none := by
  rw [extractPair_eq]
  cases (candidatePairs e f b).find? arePartners with
  | none => simp [pure, Except.pure]
  | some pair =>
    simp only [reduceCtorEq, iff_false]
    intro h
    split at h
    · cases h
    · obtain ⟨_, -, h⟩ := bind_eq_ok.mp h
      obtain ⟨_, -, h⟩ := bind_eq_ok.mp h
      obtain ⟨_, -, h⟩ := bind_eq_ok.mp h
      obtain ⟨_, -, h⟩ := bind_eq_ok.mp h
      obtain ⟨_, -, h⟩ := bind_eq_ok.mp h
      cases h

theorem extractPair_none_of_same (hsource : e.quantities b = e'.quantities b')
    (htarget : f.quantities b = f'.quantities b') (h : extractPair e f b = .ok none) :
    extractPair e' f' b' = .ok none := by
  rw [extractPair_eq_none] at h ⊢
  have hfirst := first_pair_of_same hsource htarget
  rw [h] at hfirst
  exact Option.map_eq_none_iff.mp hfirst.symm

/-- What a pair leaves of the amounts of its side, and that it leaves the other side alone. -/
theorem extracts_amounts (he : (ofProduct e).Within W) (hf : (ofProduct f).Within W) {i j : Ingredient}
    {shared opposite : Ratio} (h : Extracts e f b p i j shared opposite) {x : Rat}
    (hx : x = min (e.amount b i.quantity) (f.amount b j.quantity)) :
    (p.source.amount b i.quantity = e.amount b i.quantity - x ∧
      SameAmounts W e (!b) p.source (!b) ∧ ∀ q, W.Holds q → q.isDimensionless = false →
        q ≠ i.quantity → p.source.amount b q = e.amount b q) ∧
    (p.target.amount b j.quantity = f.amount b j.quantity - x ∧
      SameAmounts W f (!b) p.target (!b) ∧ ∀ q, W.Holds q → q.isDimensionless = false →
        q ≠ j.quantity → p.target.amount b q = f.amount b q) := by
  have hopposite : opposite.value = -(Exchange.sign b * x) := by
    rw [Ratio.neg_eq_ok.mp h.opposite_eq, value_sharedPower h.shared_eq, hx,
      (FactorProduct.amount_ingredient he h.source_mem).1,
      (FactorProduct.amount_ingredient hf h.target_mem).1]
  have hsource : x ≤ e.amount b i.quantity := hx ▸ min_le_left _ _
  have htarget : x ≤ f.amount b j.quantity := hx ▸ min_le_right _ _
  exact ⟨FactorProduct.amount_takeOut he h.source_mem hsource hopposite h.source_eq,
    FactorProduct.amount_takeOut hf h.target_mem htarget hopposite h.target_eq⟩

/-- A pair of one side leaves the other side as it is. -/
theorem pairing_other (he : (ofProduct e).Within W) (hf : (ofProduct f).Within W)
    (h : extractPair e f b = .ok (some p)) (hno : p.grade ≠ .no) :
    SameAmounts W e (!b) p.source (!b) ∧ SameAmounts W f (!b) p.target (!b) := by
  obtain ⟨i, j, -, -, hextracts⟩ := extracts_of_extractPair h
  obtain ⟨shared, opposite, hextracts⟩ := hextracts hno
  obtain ⟨⟨-, hsource, -⟩, ⟨-, htarget, -⟩⟩ := extracts_amounts he hf hextracts rfl
  exact ⟨hsource, htarget⟩

theorem pairing_within (he : (ofProduct e).Within W) (hf : (ofProduct f).Within W)
    (h : extractPair e f b = .ok (some p)) (hno : p.grade ≠ .no) :
    (ofProduct p.source).Within W ∧ (ofProduct p.target).Within W := by
  obtain ⟨i, j, -, -, hextracts⟩ := extracts_of_extractPair h
  obtain ⟨shared, opposite, h⟩ := hextracts hno
  exact ⟨(FactorProduct.mulTerm_spec he (FactorProduct.holds_of_ingredient he h.source_mem) h.source_eq).1,
    (FactorProduct.mulTerm_spec hf (FactorProduct.holds_of_ingredient hf h.target_mem) h.target_eq).1⟩

section Same

variable (he : (ofProduct e).Within W) (hf : (ofProduct f).Within W) (he' : (ofProduct e').Within W)
  (hf' : (ofProduct f').Within W)

include he hf he' hf'

/-- On sides that hold the same amounts the search finds the same pair. -/
theorem pairing_of_same (hsource : SameAmounts W e b e' b') (htarget : SameAmounts W f b f' b')
    {x x' : Option Pairing} (h : extractPair e f b = .ok x) (h' : extractPair e' f' b' = .ok x') :
    (x = none ∧ x' = none) ∨ ∃ p p', x = some p ∧ x' = some p' ∧ p.grade = p'.grade ∧
      (p.grade ≠ .no → SameAmounts W p.source b p'.source b' ∧ SameAmounts W p.target b p'.target b') := by
  have hquantities := hsource.quantities_eq he he'
  have hquantities' := htarget.quantities_eq hf hf'
  cases x with
  | none =>
    have hnone := extractPair_none_of_same hquantities hquantities' h
    exact .inl ⟨rfl, Except.ok.inj (h'.symm.trans hnone)⟩
  | some p =>
    cases x' with
    | none =>
      have hnone := extractPair_none_of_same hquantities.symm hquantities'.symm h'
      cases h.symm.trans hnone
    | some p' =>
      right
      obtain ⟨i, j, hfirst, hgrade, hextracts⟩ := extracts_of_extractPair h
      obtain ⟨i', j', hfirst', hgrade', hextracts'⟩ := extracts_of_extractPair h'
      have hsame := first_pair_of_same hquantities hquantities'
      rw [hfirst, hfirst'] at hsame
      obtain ⟨hi, hj⟩ := Prod.mk.inj (Option.some.inj hsame)
      have hgrades : p.grade = p'.grade := by rw [hgrade, hgrade', hi, hj]
      refine ⟨p, p', rfl, rfl, hgrades, fun hno => ?_⟩
      obtain ⟨shared, opposite, hextracts⟩ := hextracts hno
      obtain ⟨shared', opposite', hextracts'⟩ := hextracts' (hgrades ▸ hno)
      obtain ⟨hiW, hiproper⟩ := FactorProduct.ingredient_holds he hextracts.source_mem
      obtain ⟨hjW, hjproper⟩ := FactorProduct.ingredient_holds hf hextracts.target_mem
      obtain ⟨⟨hi1, -, hi2⟩, ⟨hj1, -, hj2⟩⟩ := extracts_amounts he hf hextracts rfl
      obtain ⟨⟨hi1', -, hi2'⟩, ⟨hj1', -, hj2'⟩⟩ := extracts_amounts he' hf' hextracts' rfl
      rw [← hi, ← hj] at hi1' hj1'
      rw [← hi] at hi2'
      rw [← hj] at hj2'
      have hleastSource := hsource _ hiW hiproper
      have hleastTarget := htarget _ hjW hjproper
      constructor
      · intro q hq hproper
        by_cases hqi : q = i.quantity
        · rw [hqi, hi1, hi1', hleastSource, hleastTarget]
        · rw [hi2 q hq hproper hqi, hi2' q hq hproper hqi, hsource q hq hproper]
      · intro q hq hproper
        by_cases hqj : q = j.quantity
        · rw [hqj, hj1, hj1', hleastSource, hleastTarget]
        · rw [hj2 q hq hproper hqj, hj2' q hq hproper hqj, htarget q hq hproper]

end Same

end Question

end Metrology
