import Metrology.Proofs.Order

/-!
# Results of ratio arithmetic

An operation on ratios has the exact rational result or none, so a result is known by its value. The
rest of the theory computes with values and never looks at numerators again.
-/

namespace Metrology

/-- A computation of two steps succeeds exactly when both steps do. -/
@[simp] theorem bind_eq_ok {ε α β : Type} {first : Except ε α} {next : α → Except ε β} {b : β} :
    (first >>= next) = .ok b ↔ ∃ a, first = .ok a ∧ next a = .ok b := by
  cases first with
  | error fault => simp [bind, Except.bind]
  | ok a => simp [bind, Except.bind]

@[simp] theorem pure_eq_ok {ε α : Type} {a b : α} : (pure a : Except ε α) = .ok b ↔ a = b := by
  simp [pure, Except.pure]

/-- Results are collected one by one. -/
theorem mapM_eq_ok {ε α β : Type} {f : α → Except ε β} {k : List α} {l : List β} :
    k.mapM f = .ok l ↔ List.Forall₂ (fun a b => f a = .ok b) k l := by
  induction k generalizing l with
  | nil => rw [List.mapM_nil, pure_eq_ok, List.forall₂_nil_left_iff, eq_comm]
  | cons a k ih =>
    rw [List.mapM_cons, bind_eq_ok, List.forall₂_cons_left_iff]
    constructor
    · rintro ⟨b, hb, hrest⟩
      obtain ⟨rest, hrest, hl⟩ := bind_eq_ok.mp hrest
      exact ⟨b, rest, hb, ih.mp hrest, (pure_eq_ok.mp hl).symm⟩
    · rintro ⟨b, rest, hb, hrest, rfl⟩
      exact ⟨b, hb, bind_eq_ok.mpr ⟨rest, ih.mpr hrest, rfl⟩⟩

/-- A check succeeds exactly when its condition holds. -/
theorem guard_eq_ok {ε : Type} {P : Prop} [Decidable P] {fault : ε} {u : Unit} :
    (if P then .ok () else .error fault : Except ε Unit) = .ok u ↔ P := by
  by_cases h : P
  · simp [h]
  · simp [h]

/-- Faults stay faults where failures are reported as well. -/
theorem liftM_eq_ok {α : Type} {computation : Except Fault α} {a : α} :
    (liftM computation : Except Failure α) = .ok a ↔ computation = .ok a := by
  cases computation with
  | error fault => simp [liftM, monadLift, MonadLift.monadLift, Except.mapError]
  | ok b => simp [liftM, monadLift, MonadLift.monadLift, Except.mapError]

theorem exists_eq_ok {ε α : Type} {computation : Except ε α} (h : computation.isOk = true) :
    ∃ a, computation = .ok a := by
  cases computation with
  | error fault => cases h
  | ok a => exact ⟨a, rfl⟩

/-- A computation has a result with `P`, or else it overflows because `fits` fails. -/
def Attains {α : Type} (fits : Prop) (computation : Except Fault α) (P : α → Prop) : Prop :=
  (∃ a, computation = .ok a ∧ P a) ∨ computation = .error .overflow ∧ ¬ fits

namespace Attains

variable {α β : Type} {fits fits' : Prop} {computation : Except Fault α} {P Q : α → Prop} {a : α}

theorem of_ok (h : computation = .ok a) (ha : P a) : Attains fits computation P := .inl ⟨a, h, ha⟩

theorem bind {next : α → Except Fault β} {R : β → Prop} (h : Attains fits computation P)
    (hnext : ∀ a, P a → Attains fits (next a) R) : Attains fits (computation >>= next) R := by
  rcases h with ⟨a, ha, hP⟩ | ⟨herror, hfits⟩
  · rw [ha]
    exact hnext a hP
  · rw [herror]
    exact .inr ⟨rfl, hfits⟩

theorem mono (h : Attains fits computation P) (hfits : fits' → fits) (hPQ : ∀ a, P a → Q a) :
    Attains fits' computation Q := by
  rcases h with ⟨a, ha, hP⟩ | ⟨herror, hfails⟩
  · exact .inl ⟨a, ha, hPQ a hP⟩
  · exact .inr ⟨herror, fun h => hfails (hfits h)⟩

theorem result (h : Attains fits computation P) (hfits : fits) : ∃ a, computation = .ok a ∧ P a :=
  h.resolve_right fun hfails => hfails.2 hfits

theorem of_eq_ok (h : Attains fits computation P) (ha : computation = .ok a) : P a := by
  rcases h with ⟨b, hb, hP⟩ | ⟨herror, -⟩
  · obtain rfl := Except.ok.inj (hb.symm.trans ha)
    exact hP
  · cases herror.symm.trans ha

end Attains

namespace Ratio

@[ext] theorem ext {a b : Ratio} (h : a.value = b.value) : a = b := by
  cases a
  cases b
  simp_all

@[simp] theorem ofRat_eq_ok {q : Rat} {r : Ratio} : ofRat q = .ok r ↔ r.value = q := by
  unfold ofRat ofRat?
  by_cases hfits : RatFits q
  · simp only [dif_pos hfits, Except.ok.injEq]
    constructor
    · rintro rfl
      rfl
    · intro h
      exact ext h.symm
  · simp only [dif_neg hfits, reduceCtorEq, false_iff]
    intro h
    exact hfits (h ▸ r.fits)

/-- A value that does not fit is an overflow, and there is no other failure. -/
theorem ofRat_eq_error {q : Rat} {fault : Fault} (h : ofRat q = .error fault) :
    fault = .overflow ∧ ¬ RatFits q := by
  unfold ofRat ofRat? at h
  by_cases hfits : RatFits q
  · simp [dif_pos hfits] at h
  · simp only [dif_neg hfits, Except.error.injEq] at h
    exact ⟨h.symm, hfits⟩

theorem ofRat_attains (q : Rat) : Attains (RatFits q) (ofRat q) fun r => r.value = q := by
  cases h : ofRat q with
  | ok r => exact .of_ok rfl (ofRat_eq_ok.mp h)
  | error fault =>
    obtain ⟨rfl, hfits⟩ := ofRat_eq_error h
    exact .inr ⟨rfl, hfits⟩

@[simp] theorem value_zero : zero.value = 0 := rfl

@[simp] theorem value_one : one.value = 1 := rfl

@[simp] theorem value_minusOne : minusOne.value = -1 := rfl

@[simp] theorem add_eq_ok {a b r : Ratio} : a.add b = .ok r ↔ r.value = a.value + b.value :=
  ofRat_eq_ok

@[simp] theorem mul_eq_ok {a b r : Ratio} : a.mul b = .ok r ↔ r.value = a.value * b.value :=
  ofRat_eq_ok

@[simp] theorem neg_eq_ok {a r : Ratio} : a.neg = .ok r ↔ r.value = -a.value :=
  ofRat_eq_ok

/-- Only the least numerator has no negation. -/
theorem fits_neg_iff (r : Ratio) : RatFits (-r.value) ↔ r.num ≠ -9223372036854775808 := by
  have hnum : Fits64 r.num := r.fits.1
  have hden : Fits64 r.value.den := r.fits.2
  unfold RatFits
  rw [Rat.neg_num, Rat.neg_den]
  unfold Fits64 num at *
  omega

@[simp] theorem isZero_iff {r : Ratio} : r.isZero = true ↔ r.value = 0 := by
  simp [isZero, num, Rat.num_eq_zero]

@[simp] theorem isZero_eq_false_iff {r : Ratio} : r.isZero = false ↔ r.value ≠ 0 := by
  rw [← Bool.not_eq_true, isZero_iff]

@[simp] theorem isPositive_iff {r : Ratio} : r.isPositive = true ↔ 0 < r.value := by
  simp [isPositive, num, Rat.num_pos]

@[simp] theorem isPositive_eq_false_iff {r : Ratio} : r.isPositive = false ↔ r.value ≤ 0 := by
  rw [← Bool.not_eq_true, isPositive_iff, not_lt]

/-! ### The order of ratios is the order of their values -/

theorem cmp_eq_compare (a b : Ratio) : a.cmp b = compare a.value b.value := by
  unfold cmp
  rcases lt_trichotomy a.value b.value with h | h | h
  · rw [if_pos h, compare_lt_iff_lt.mpr h]
  · simp [h]
  · rw [if_neg h.not_gt, if_pos h, compare_gt_iff_gt.mpr h]

instance : Std.TransCmp cmp where
  eq_swap {a b} := by
    rw [cmp_eq_compare, cmp_eq_compare]
    exact Std.OrientedCmp.eq_swap
  isLE_trans {a b c} hab hbc := by
    rw [cmp_eq_compare] at hab hbc ⊢
    exact Std.TransCmp.isLE_trans hab hbc

instance : Std.LawfulEqCmp cmp where
  compare_self {a} := by
    rw [cmp_eq_compare]
    exact Std.ReflCmp.compare_self
  eq_of_compare {a b} h := by
    rw [cmp_eq_compare, compare_eq_iff_eq] at h
    exact ext h

theorem cmp_self (a : Ratio) : a.cmp a = .eq := Std.ReflCmp.compare_self

theorem cmp_consistent (a b c : Ratio) : Consistent (a.cmp b) (b.cmp c) (a.cmp c) :=
  .of_transCmp a b c

/-- The smaller of two ratios has the smaller value. -/
@[simp] theorem value_min (a b : Ratio) : (a.min b).value = Min.min a.value b.value := by
  unfold min
  rw [cmp_eq_compare]
  rcases lt_trichotomy a.value b.value with h | h | h
  · simp [compare_lt_iff_lt.mpr h, h.le]
  · simp [h]
  · simp [compare_gt_iff_gt.mpr h, h.le]

end Ratio

end Metrology
