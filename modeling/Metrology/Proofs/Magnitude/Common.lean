import Metrology.Proofs.Factor.Order
import Metrology.Proofs.PowerProduct.Group

/-!
# The common part of two magnitudes

The common part has the smaller of the two powers at every base. It is computed in two passes, one over
each operand, and each pass multiplies by the terms of that operand with other powers.
-/

namespace Metrology

namespace PowerProduct

variable {α : Type}

/-- The terms of a product with other powers, which may be zero. -/
def withPowers (e : PowerProduct α) (power : Term α → Ratio) : List (Term α) :=
  e.map fun t => ⟨t.factor, power t⟩

theorem over_withPowers {S : α → Prop} {e : PowerProduct α} (power : Term α → Ratio)
    (he : Over S e) : Over S (e.withPowers power) := by
  intro t ht
  obtain ⟨s, hs, rfl⟩ := List.mem_map.mp ht
  exact he s hs

variable [Atom α] {S : α → Prop} {e : PowerProduct α}

theorem sorted_withPowers (power : Term α → Ratio) (he : Sorted e) :
    Sorted (e.withPowers power) := by
  rw [sorted_iff_map] at he ⊢
  rwa [withPowers, List.map_map]

theorem powerOf_congr (hS : Atom.OrderedOn S) (he : Over S e) {f g : α} (hf : S f) (hg : S g)
    (h : Atom.cmp f g = .eq) : e.powerOf f = e.powerOf g := by
  induction e with
  | nil => rfl
  | cons t e ih =>
    rw [over_cons] at he
    rw [powerOf_cons, powerOf_cons, hS.congr_right he.1 hf hg h, ih he.2]

/-- If the new powers of an atom are a function of the old ones, so is its power in the product. -/
theorem powerOf_withPowers {power : Term α → Ratio} {f : α} (change : Ratio → Ratio)
    (hzero : change .zero = .zero)
    (h : ∀ t ∈ e, Atom.cmp t.factor f = .eq → power t = change t.power) :
    powerOf (e.withPowers power) f = change (e.powerOf f) := by
  induction e with
  | nil => exact hzero.symm
  | cons t e ih =>
    rw [List.forall_mem_cons] at h
    show powerOf (⟨t.factor, power t⟩ :: withPowers e power) f = _
    rw [powerOf_cons, powerOf_cons]
    by_cases htf : Atom.cmp t.factor f = .eq
    · rw [if_pos htf, if_pos htf, h.1 htf]
    · rw [if_neg htf, if_neg htf, ih h.2]

end PowerProduct

namespace Magnitude

open PowerProduct

variable {a b c : Magnitude}

/-- The powers of the first operand, cut down to those of the second one. -/
def sharedPower (b : Magnitude) (t : Term MagnitudeBase) : Ratio :=
  t.power.min (b.powerOf t.factor)

/-- The negative powers of the second operand at bases that the first one does not have. -/
def missingPower (a : Magnitude) (t : Term MagnitudeBase) : Ratio :=
  if (a.powerOf t.factor).isZero then t.power.min .zero else .zero

theorem common_eq_ok : common a b = .ok c ↔
    ∃ shared, ofTerms (a.withPowers (sharedPower b)) = .ok shared ∧
      PowerProduct.mul shared (b.withPowers (missingPower a)) = .ok c := by
  have hfirst : (a.foldlM (fun e t => mulTerm e ⟨t.factor, t.power.min (b.powerOf t.factor)⟩) one) =
      ofTerms (a.withPowers (sharedPower b)) := by
    rw [ofTerms, PowerProduct.mul, withPowers, List.foldlM_map]
    rfl
  have hsecond (shared : Magnitude) : (b.foldlM (fun e t =>
      if (a.powerOf t.factor).isZero then mulTerm e ⟨t.factor, t.power.min .zero⟩ else return e)
      shared) = PowerProduct.mul shared (b.withPowers (missingPower a)) := by
    rw [PowerProduct.mul, withPowers, List.foldlM_map]
    congr 1
    funext e t
    unfold missingPower
    by_cases hzero : (a.powerOf t.factor).isZero
    · rw [if_pos hzero, if_pos hzero]
    · rw [if_neg hzero, if_neg hzero]
      rfl
  rw [common, hfirst, bind_eq_ok]
  simp only [hsecond]

theorem over_common {S : MagnitudeBase → Prop} (ha : Over S a) (hb : Over S b)
    (h : common a b = .ok c) : Over S c := by
  obtain ⟨shared, hshared, hmul⟩ := common_eq_ok.mp h
  exact over_mul (over_mul over_nil (over_withPowers _ ha) hshared) (over_withPowers _ hb) hmul

theorem canonical_common (h : common a b = .ok c) : Canonical c := by
  obtain ⟨shared, hshared, hmul⟩ := common_eq_ok.mp h
  have hcanonical : Canonical shared :=
    canonical_mul MagnitudeBase.orderedOn over_nil (over_all _) canonical_one hshared
  exact canonical_mul MagnitudeBase.orderedOn (over_all shared) (over_all _) hcanonical hmul

theorem powerOf_sharedPower (ha : Canonical a) (f : MagnitudeBase) :
    (powerOf (a.withPowers (sharedPower b)) f).value =
      if (a.powerOf f).value = 0 then 0 else min (a.powerOf f).value (b.powerOf f).value := by
  rw [powerOf_withPowers (fun q => if q.isZero then .zero else q.min (b.powerOf f))]
  · by_cases hzero : (a.powerOf f).value = 0
    · rw [if_pos (Ratio.isZero_iff.mpr hzero), if_pos hzero, Ratio.value_zero]
    · rw [if_neg (by simpa using hzero), if_neg hzero, Ratio.value_min]
  · rfl
  · intro t ht htf
    have hpower : t.power.isZero = false := by simpa using (ha.proper t ht).1
    rw [hpower, sharedPower,
      powerOf_congr MagnitudeBase.orderedOn b.over_all trivial trivial htf]
    rfl

theorem powerOf_missingPower (f : MagnitudeBase) :
    (powerOf (b.withPowers (missingPower a)) f).value =
      if (a.powerOf f).value = 0 then min (b.powerOf f).value 0 else 0 := by
  rw [powerOf_withPowers (fun q => if (a.powerOf f).isZero then q.min .zero else .zero)]
  · by_cases hzero : (a.powerOf f).value = 0
    · rw [if_pos (Ratio.isZero_iff.mpr hzero), if_pos hzero, Ratio.value_min, Ratio.value_zero]
    · rw [if_neg (by simpa using hzero), if_neg hzero, Ratio.value_zero]
  · by_cases hzero : (a.powerOf f).isZero
    · rw [if_pos hzero]
      apply Ratio.ext
      simp
    · rw [if_neg hzero]
  · intro t _ htf
    rw [missingPower, powerOf_congr MagnitudeBase.orderedOn a.over_all trivial trivial htf]

/-- The common part has the smaller power at every base, a base that does not occur counting as power
zero. -/
theorem powerOf_common (ha : Canonical a) (hb : Canonical b) (h : common a b = .ok c)
    (f : MagnitudeBase) :
    (c.powerOf f).value = min (a.powerOf f).value (b.powerOf f).value := by
  have hc := canonical_common h
  by_cases hneutral : Atom.isNeutral f = true
  · rw [powerOf_neutral MagnitudeBase.orderedOn c.over_all hc trivial hneutral,
      powerOf_neutral MagnitudeBase.orderedOn a.over_all ha trivial hneutral,
      powerOf_neutral MagnitudeBase.orderedOn b.over_all hb trivial hneutral, min_self]
  · obtain ⟨shared, hshared, hmul⟩ := common_eq_ok.mp h
    have hweight := indicator_weight MagnitudeBase.orderedOn trivial (by simpa using hneutral)
    rw [powerOf_eq_weigh MagnitudeBase.orderedOn c.over_all hc.sorted trivial,
      weigh_mul hweight (over_all shared) (over_all _) hmul,
      weigh_ofTerms hweight (over_all _) hshared,
      ← powerOf_eq_weigh MagnitudeBase.orderedOn (over_all _) (sorted_withPowers _ ha.sorted) trivial,
      ← powerOf_eq_weigh MagnitudeBase.orderedOn (over_all _) (sorted_withPowers _ hb.sorted) trivial,
      powerOf_sharedPower ha, powerOf_missingPower]
    by_cases hzero : (a.powerOf f).value = 0
    · rw [if_pos hzero, if_pos hzero, hzero, zero_add, min_comm]
    · rw [if_neg hzero, if_neg hzero, add_zero]

end Magnitude

end Metrology
