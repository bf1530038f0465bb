import Metrology.Convertibility.Search
import Metrology.Proofs.PowerProduct.Canonical

/-!
# Ingredients of products

The search looks at the quantities of one sign in a product, in the order of the product. In a sorted
product the pair it finds is the first one in both products.
-/

namespace Metrology

/-- In an ordered list nothing that satisfies a predicate stands before the element that is found. -/
theorem find?_of_pairwise {α : Type} {R : α → α → Prop} (p : α → Bool) {items : List α}
    (h : items.Pairwise R) {x : α} (hx : x ∈ items) (hp : p x = true) :
    ∃ y ∈ items, items.find? p = some y ∧ p y = true ∧ (y = x ∨ R y x) := by
  induction items with
  | nil => cases hx
  | cons y items ih =>
    rw [List.pairwise_cons] at h
    by_cases hy : p y = true
    · refine ⟨y, by simp, by simp [hy], hy, ?_⟩
      rcases List.mem_cons.mp hx with rfl | hx
      · exact .inl rfl
      · exact .inr (h.1 x hx)
    · have hxy : x ≠ y := by
        rintro rfl
        exact hy hp
      obtain ⟨z, hz, hfind, hpz, hzx⟩ := ih h.2 (List.mem_of_ne_of_mem hxy hx)
      refine ⟨z, by simp [hz], ?_, hpz, hzx⟩
      rw [List.find?_cons_of_neg hy, hfind]

namespace FactorProduct

variable {e : FactorProduct} {positive : Bool} {i : Ingredient}

theorem mem_ingredients : i ∈ e.ingredients positive ↔
    e[i.position]? = some ⟨.quantity i.quantity, i.power⟩ ∧ i.power.isPositive = positive := by
  unfold ingredients
  rw [List.mem_filterMap]
  constructor
  · rintro ⟨⟨t, position⟩, ht, hi⟩
    rw [List.mk_mem_zipIdx_iff_getElem?] at ht
    cases t with
    | mk factor power =>
      cases factor with
      | quantity q =>
        by_cases hpositive : power.isPositive = positive
        · have heq : ⟨position, q, power⟩ = i := by simpa [hpositive] using hi
          rw [← heq]
          exact ⟨ht, hpositive⟩
        · simp [hpositive] at hi
      | _ => cases hi
  · rintro ⟨ht, hpositive⟩
    refine ⟨(⟨.quantity i.quantity, i.power⟩, i.position), ?_, ?_⟩
    · rw [List.mk_mem_zipIdx_iff_getElem?]
      exact ht
    · simp [hpositive]

theorem exists_ingredient {t : Term Factor} {q : NamedQuantity} (ht : t ∈ e)
    (hq : t.factor = .quantity q) :
    ∃ i ∈ e.ingredients t.power.isPositive, i.quantity = q ∧ i.power = t.power := by
  obtain ⟨position, hposition⟩ := List.mem_iff_getElem?.mp ht
  refine ⟨⟨position, q, t.power⟩, mem_ingredients.mpr ⟨?_, rfl⟩, rfl, rfl⟩
  rw [hposition, ← hq]

theorem mem_of_ingredient (h : i ∈ e.ingredients positive) :
    ⟨.quantity i.quantity, i.power⟩ ∈ e :=
  List.mem_of_getElem? (mem_ingredients.mp h).1

theorem ingredients_ordered (h : PowerProduct.Sorted e) :
    (e.ingredients positive).Pairwise fun i j => i.quantity.cmp j.quantity = .lt := by
  have hpairs : e.zipIdx.Pairwise fun s t => Atom.cmp s.1.factor t.1.factor = .lt := by
    rw [PowerProduct.Sorted, ← List.zipIdx_map_fst 0 e] at h
    exact List.pairwise_map.mp h
  unfold ingredients
  rw [List.pairwise_filterMap]
  refine hpairs.imp ?_
  rintro ⟨s, m⟩ ⟨t, n⟩ hst i hi j hj
  cases s with
  | mk f p =>
    cases t with
    | mk g q =>
      cases f <;> first | cases hi | skip
      cases g <;> first | cases hj | skip
      simp only [Option.ite_none_right_eq_some, Option.some.injEq] at hi hj
      obtain ⟨-, rfl⟩ := hi
      obtain ⟨-, rfl⟩ := hj
      exact hst

end FactorProduct

/-- The pairs that the search tries, in the order in which it tries them. -/
def candidatePairs (source target : FactorProduct) (positive : Bool) : List (Ingredient × Ingredient) :=
  (source.ingredients positive).flatMap fun i => (target.ingredients positive).map fun j => (i, j)

/-- Ingredients of one tree are paired. -/
def arePartners (pair : Ingredient × Ingredient) : Bool :=
  pair.1.quantity.haveCommonBase pair.2.quantity

theorem mem_candidatePairs {source target : FactorProduct} {positive : Bool} {i j : Ingredient} :
    (i, j) ∈ candidatePairs source target positive ↔
      i ∈ source.ingredients positive ∧ j ∈ target.ingredients positive := by
  simp [candidatePairs]

theorem candidatePairs_ordered {source target : FactorProduct} {positive : Bool}
    (hsource : PowerProduct.Sorted source) (htarget : PowerProduct.Sorted target) :
    (candidatePairs source target positive).Pairwise fun x y =>
      x.1.quantity.cmp y.1.quantity = .lt ∨ x.1 = y.1 ∧ x.2.quantity.cmp y.2.quantity = .lt := by
  unfold candidatePairs
  rw [List.pairwise_flatMap]
  constructor
  · intro i _
    rw [List.pairwise_map]
    exact (FactorProduct.ingredients_ordered htarget).imp fun h => .inr ⟨rfl, h⟩
  · refine (FactorProduct.ingredients_ordered hsource).imp fun h x hx y hy => .inl ?_
    obtain ⟨_, -, rfl⟩ := List.mem_map.mp hx
    obtain ⟨_, -, rfl⟩ := List.mem_map.mp hy
    exact h

/-- The pair that the search takes: the first ingredient of the source with a partner, and its first
partner. -/
theorem first_pair {source target : FactorProduct} {positive : Bool} {i j : Ingredient}
    (hsource : PowerProduct.Sorted source) (htarget : PowerProduct.Sorted target)
    (hfind : (candidatePairs source target positive).find? arePartners = some (i, j)) :
    i ∈ source.ingredients positive ∧ j ∈ target.ingredients positive ∧
      i.quantity.haveCommonBase j.quantity = true ∧
      ∀ k ∈ source.ingredients positive, ∀ l ∈ target.ingredients positive,
        k.quantity.haveCommonBase l.quantity = true → i.quantity.cmp k.quantity = .lt ∨
          i.quantity = k.quantity ∧ (j.quantity = l.quantity ∨ j.quantity.cmp l.quantity = .lt) := by
  obtain ⟨hi, hj⟩ := mem_candidatePairs.mp (List.mem_of_find?_eq_some hfind)
  have hpartners : arePartners (i, j) = true := List.find?_some hfind
  refine ⟨hi, hj, hpartners, fun k hk l hl hkl => ?_⟩
  obtain ⟨y, -, hy, -, horder⟩ := find?_of_pairwise arePartners
    (candidatePairs_ordered hsource htarget) (mem_candidatePairs.mpr ⟨hk, hl⟩) hkl
  obtain rfl : (i, j) = y := Option.some.inj (hfind.symm.trans hy)
  rcases horder with heq | hlt | ⟨hik, hlt⟩
  · obtain ⟨rfl, rfl⟩ := Prod.mk.inj heq
    exact .inr ⟨rfl, .inl rfl⟩
  · exact .inl hlt
  · exact .inr ⟨congrArg Ingredient.quantity hik, .inr hlt⟩

end Metrology
