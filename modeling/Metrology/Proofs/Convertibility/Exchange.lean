import Metrology.Proofs.Convertibility.Ingredients
import Metrology.Proofs.Factor.Order
import Metrology.Proofs.Hierarchy.Tree
import Metrology.Proofs.PowerProduct.Group

/-!
# Exchanges

An exchange turns a power of one quantity into the same power of another. A list of exchanges has two
sides, and a product presents a side if it weighs what that side weighs: its terms are then the
quantities of that side, each with the sum of its powers.
-/

namespace Metrology

namespace Convertibility

variable (g h k : Convertibility)

@[simp] theorem min_yes : g.min .yes = g := by cases g <;> rfl

@[simp] theorem yes_min : yes.min g = g := by cases g <;> rfl

@[simp] theorem min_no : g.min .no = .no := by cases g <;> rfl

theorem min_comm : g.min h = h.min g := by cases g <;> cases h <;> rfl

theorem min_assoc : (g.min h).min k = g.min (h.min k) := by
  cases g <;> cases h <;> cases k <;> rfl

end Convertibility

structure Exchange where
  source : NamedQuantity
  target : NamedQuantity
  power : Rat

namespace Exchange

variable {side : Exchange → NamedQuantity} {T T' : List Exchange} {x : Exchange}

def grade (x : Exchange) : Convertibility := x.source.convertibleInTree x.target

/-- The grade of the least free exchange. -/
def leastGrade (T : List Exchange) : Convertibility := T.foldr (fun x g => x.grade.min g) .yes

def total (side : Exchange → NamedQuantity) (w : Factor → Rat) (T : List Exchange) : Rat :=
  (T.map fun x => x.power * w (.quantity (side x))).sum

/-- The sum of the powers of a quantity on one side. -/
def powerAt (side : Exchange → NamedQuantity) (q : NamedQuantity) (T : List Exchange) : Rat :=
  ((T.filter fun x => (side x).same q).map (·.power)).sum

theorem total_cons (w : Factor → Rat) :
    total side w (x :: T) = x.power * w (.quantity (side x)) + total side w T := by
  simp [total]

theorem total_perm {w : Factor → Rat} (h : T.Perm T') : total side w T = total side w T' :=
  (h.map _).sum_eq

theorem powerAt_perm {q : NamedQuantity} (h : T.Perm T') : powerAt side q T = powerAt side q T' :=
  ((h.filter _).map _).sum_eq

theorem powerAt_cons_self : powerAt side (side x) (x :: T) = x.power + powerAt side (side x) T := by
  simp [powerAt]

theorem total_indicator (q : NamedQuantity) :
    total side (PowerProduct.indicator (.quantity q)) T = powerAt side q T := by
  induction T with
  | nil => rfl
  | cons x T ih =>
    have hcmp : Atom.cmp (Factor.quantity (side x)) (.quantity q) = .eq ↔ (side x).same q = true := by
      rw [NamedQuantity.same_iff]
      exact NamedQuantity.cmp_eq_iff
    rw [total_cons, ih, powerAt, powerAt, PowerProduct.indicator]
    by_cases h : (side x).same q = true
    · simp [hcmp.mpr h, h]
    · simp [hcmp.not.mpr h, h]

theorem total_indicator_of_ne {f : Factor} (h : ∀ q, f ≠ .quantity q) :
    total side (PowerProduct.indicator f) T = 0 := by
  induction T with
  | nil => rfl
  | cons x T ih =>
    have hne : Atom.cmp (Factor.quantity (side x)) f ≠ .eq := by
      cases f with
      | quantity q => exact absurd rfl (h q)
      | _ => exact fun heq => by cases heq
    rw [total_cons, ih, PowerProduct.indicator, if_neg hne, mul_zero, add_zero]

theorem exists_of_powerAt_ne {q : NamedQuantity} (h : powerAt side q T ≠ 0) :
    ∃ x ∈ T, (side x).same q = true := by
  by_contra hnone
  push Not at hnone
  have hempty : T.filter (fun x => (side x).same q) = [] := List.filter_eq_nil_iff.mpr hnone
  rw [powerAt, hempty] at h
  exact h rfl

/-- Whether a power stands above the line. -/
def positive (x : Exchange) : Bool := decide (0 < x.power)

def sign (positive : Bool) : Rat := if positive then 1 else -1

@[simp] theorem sign_true : sign true = 1 := rfl

@[simp] theorem sign_false : sign false = -1 := rfl

theorem sign_not (b : Bool) : sign (!b) = -sign b := by
  cases b <;> simp

theorem sign_mul_sign_mul (b : Bool) (r : Rat) : sign b * (sign b * r) = r := by
  cases b <;> simp

theorem sign_mul_power (hx : x.power ≠ 0) : 0 < sign x.positive * x.power := by
  unfold sign positive
  by_cases h : 0 < x.power
  · simp [h]
  · have hneg : x.power < 0 := lt_of_le_of_ne (not_lt.mp h) hx
    simpa [h] using hneg

theorem isPositive_eq_of_sign {p : Ratio} {b : Bool} (h : 0 < sign b * p.value) :
    p.isPositive = b := by
  cases b with
  | true => simpa [sign] using h
  | false =>
    have hneg : p.value < 0 := by simpa [sign] using h
    exact Ratio.isPositive_eq_false_iff.mpr hneg.le

theorem sign_mul_powerAt {q : NamedQuantity} {b : Bool} (hne : ∀ x ∈ T, x.power ≠ 0)
    (hsign : ∀ x ∈ T, (side x).same q = true → x.positive = b) : 0 ≤ sign b * powerAt side q T := by
  rw [powerAt, ← List.sum_map_mul_left]
  apply List.sum_nonneg
  intro r hr
  obtain ⟨x, hx, rfl⟩ := List.mem_map.mp hr
  obtain ⟨hxT, hxq⟩ := List.mem_filter.mp hx
  rw [← hsign x hxT hxq]
  exact (sign_mul_power (hne x hxT)).le

end Exchange

/-- The quantities on one side belong to the world, and each of them stands above the line or below it,
not on both sides of it. -/
structure Coherent (W : World) (side : Exchange → NamedQuantity) (T : List Exchange) : Prop where
  holds : ∀ x ∈ T, W.Holds (side x)
  power_ne : ∀ x ∈ T, x.power ≠ 0
  sign : ∀ x ∈ T, ∀ y ∈ T, side x = side y → (side x).isDimensionless = false →
    x.positive = y.positive

namespace Coherent

variable {W : World} {side : Exchange → NamedQuantity} {T T' : List Exchange} {x : Exchange}

theorem subset (h : Coherent W side T) (hT : ∀ x ∈ T', x ∈ T) : Coherent W side T' where
  holds x hx := h.holds x (hT x hx)
  power_ne x hx := h.power_ne x (hT x hx)
  sign x hx y hy := h.sign x (hT x hx) y (hT y hy)

/-- What remains of a power after one exchange has the sign of that exchange. -/
theorem rest_nonneg (h : Coherent W side T) (hT : T.Perm (x :: T'))
    (hproper : (side x).isDimensionless = false) :
    0 ≤ Exchange.sign x.positive * Exchange.powerAt side (side x) T' := by
  have hsub : ∀ y ∈ T', y ∈ T := fun y hy => hT.mem_iff.mpr (List.mem_cons_of_mem x hy)
  have hx : x ∈ T := hT.mem_iff.mpr (by simp)
  apply Exchange.sign_mul_powerAt (fun y hy => h.power_ne y (hsub y hy))
  intro y hy hsame
  have hyx : side y = side x := (W.same_iff_eq (h.holds y (hsub y hy)) (h.holds x hx)).mp hsame
  exact h.sign y (hsub y hy) x hx hyx (hyx ▸ hproper)

theorem sign_mul_powerAt_pos (h : Coherent W side T) (hx : x ∈ T)
    (hproper : (side x).isDimensionless = false) :
    0 < Exchange.sign x.positive * Exchange.powerAt side (side x) T := by
  obtain ⟨S, U, rfl⟩ := List.append_of_mem hx
  have hT : (S ++ x :: U).Perm (x :: (S ++ U)) := List.perm_middle
  rw [Exchange.powerAt_perm hT, Exchange.powerAt_cons_self, mul_add]
  exact add_pos_of_pos_of_nonneg (Exchange.sign_mul_power (h.power_ne x hx))
    (h.rest_nonneg hT hproper)

end Coherent

/-- A canonical product whose terms are the quantities on one side of a list of exchanges. -/
structure Presents (W : World) (side : Exchange → NamedQuantity) (T : List Exchange)
    (e : FactorProduct) : Prop where
  covered : PowerProduct.Over W.Covers e
  canonical : PowerProduct.Canonical e
  weigh_eq : ∀ w, Atom.Weight W.Covers w → PowerProduct.weigh w e = Exchange.total side w T

namespace Presents

open Exchange

variable {W : World} {side : Exchange → NamedQuantity} {T : List Exchange} {e : FactorProduct}

/-- A term of the product is a quantity of that side with the sum of its powers. -/
theorem term (h : Presents W side T e) {t : Term Factor} (ht : t ∈ e) :
    ∃ q, t.factor = .quantity q ∧ W.Holds q ∧ q.isDimensionless = false ∧
      t.power.value = powerAt side q T := by
  have hcover := h.covered t ht
  obtain ⟨hpower, hproper⟩ := h.canonical.proper t ht
  have hvalue : t.power.value = total side (PowerProduct.indicator t.factor) T := by
    rw [← h.weigh_eq _ (PowerProduct.indicator_weight W.orderedOn hcover hproper),
      ← PowerProduct.powerOf_eq_weigh W.orderedOn h.covered h.canonical.sorted hcover,
      PowerProduct.powerOf_of_mem W.orderedOn h.covered h.canonical.sorted ht]
  cases hfactor : t.factor with
  | quantity q =>
    rw [hfactor] at hcover hproper hvalue
    refine ⟨q, rfl, Factor.quantitiesIn_quantity.mp hcover, hproper, ?_⟩
    rw [hvalue, total_indicator]
  | _ =>
    rw [hfactor, total_indicator_of_ne (by simp)] at hvalue
    exact absurd hvalue hpower

theorem mem (h : Presents W side T e) {q : NamedQuantity} (hq : W.Holds q)
    (hproper : q.isDimensionless = false) (hne : powerAt side q T ≠ 0) :
    ∃ t ∈ e, t.factor = .quantity q := by
  have hcover : W.Covers (.quantity q) := Factor.quantitiesIn_quantity.mpr hq
  have hvalue : (e.powerOf (.quantity q)).value = powerAt side q T := by
    rw [PowerProduct.powerOf_eq_weigh W.orderedOn h.covered h.canonical.sorted hcover,
      h.weigh_eq _ (PowerProduct.indicator_weight W.orderedOn hcover hproper), total_indicator]
  by_contra hnone
  refine hne ?_
  rw [← hvalue, PowerProduct.powerOf_eq_zero]
  · rfl
  · intro t ht heq
    obtain ⟨r, hr, hrW, -, -⟩ := h.term ht
    rw [hr] at heq
    exact hnone ⟨t, ht, hr.trans (congrArg _ ((W.cmp_eq_iff hrW hq).mp heq))⟩

/-- The exchanges of a quantity are an ingredient of their sign. -/
theorem exists_ingredient (h : Presents W side T e) (hT : Coherent W side T) {x : Exchange}
    (hx : x ∈ T) (hproper : (side x).isDimensionless = false) :
    ∃ i ∈ e.ingredients x.positive, i.quantity = side x := by
  have hpos := hT.sign_mul_powerAt_pos hx hproper
  have hne : powerAt side (side x) T ≠ 0 := by
    intro hzero
    rw [hzero, mul_zero] at hpos
    exact lt_irrefl _ hpos
  obtain ⟨t, ht, hfactor⟩ := h.mem (hT.holds x hx) hproper hne
  obtain ⟨i, hi, hquantity, -⟩ := FactorProduct.exists_ingredient ht hfactor
  obtain ⟨q, hq, -, -, hvalue⟩ := h.term ht
  obtain rfl : q = side x := Factor.quantity.inj (hq.symm.trans hfactor)
  rw [← hvalue] at hpos
  exact ⟨i, isPositive_eq_of_sign hpos ▸ hi, hquantity⟩

theorem exists_exchange (h : Presents W side T e) (hT : Coherent W side T) {i : Ingredient} {b : Bool}
    (hi : i ∈ e.ingredients b) : W.Holds i.quantity ∧ i.quantity.isDimensionless = false ∧
      i.power.value = powerAt side i.quantity T ∧ ∃ x ∈ T, side x = i.quantity ∧ x.positive = b := by
  have ht := FactorProduct.mem_of_ingredient hi
  obtain ⟨q, hq, hqW, hproper, hvalue⟩ := h.term ht
  obtain rfl : i.quantity = q := Factor.quantity.inj hq
  have hne : powerAt side i.quantity T ≠ 0 := by
    rw [← hvalue]
    exact (h.canonical.proper _ ht).1
  obtain ⟨x, hx, hsame⟩ := exists_of_powerAt_ne hne
  have hside : side x = i.quantity := (W.same_iff_eq (hT.holds x hx) hqW).mp hsame
  refine ⟨hqW, hproper, hvalue, x, hx, hside, ?_⟩
  have hpos := hT.sign_mul_powerAt_pos hx (hside ▸ hproper)
  have hpower := (FactorProduct.mem_ingredients.mp hi).2
  rw [hside, ← hvalue] at hpos
  exact (isPositive_eq_of_sign hpos).symm.trans hpower

end Presents

end Metrology
