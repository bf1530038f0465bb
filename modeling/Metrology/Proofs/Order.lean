import Metrology.PowerProduct
import Mathlib

/-!
# Comparisons that are orders

The comparison of factors recurses through units and recipes, so its laws are proved for three given
values at a time. `Consistent` says that the three results of comparing `a` with `b`, `b` with `c` and
`a` with `c` fit one order; it survives lexicographic composition, and a reflexive comparison with
consistent results is a total order.
-/

namespace Metrology

/-- The results of comparing `a` with `b`, `b` with `c` and `a` with `c` fit one order. -/
def Consistent (ab bc ac : Ordering) : Prop :=
  (ab = .eq → ac = bc) ∧ (bc = .eq → ac = ab) ∧ (ab = bc → ac = ab)

instance (ab bc ac : Ordering) : Decidable (Consistent ab bc ac) :=
  inferInstanceAs (Decidable (_ ∧ _ ∧ _))

namespace Consistent

theorem lexicographic {ab bc ac ab' bc' ac' : Ordering} (h : Consistent ab bc ac)
    (h' : Consistent ab' bc' ac') : Consistent (ab.then ab') (bc.then bc') (ac.then ac') := by
  revert ab bc ac ab' bc' ac'
  decide

/-- Where `b` lies on one side of both `a` and `c` nothing is said about these two. -/
theorem of_swap {ab ac : Ordering} (h : ab ≠ .eq) : Consistent ab ab.swap ac := by
  cases ab <;> simp_all [Consistent]

theorem of_ne_right {ab bc : Ordering} (h : bc ≠ .eq) : Consistent ab bc bc := by
  cases bc <;> simp_all [Consistent]

theorem of_ne_left {ab bc : Ordering} (h : ab ≠ .eq) : Consistent ab bc ab := by
  cases ab <;> simp_all [Consistent]

variable {α : Type} {cmp : α → α → Ordering}

theorem of_transCmp [Std.TransCmp cmp] (a b c : α) :
    Consistent (cmp a b) (cmp b c) (cmp a c) := by
  refine ⟨Std.TransCmp.congr_left, fun h => (Std.TransCmp.congr_right h).symm, fun h => ?_⟩
  cases hab : cmp a b with
  | lt => exact Std.TransCmp.lt_trans hab (h ▸ hab)
  | eq => exact Std.TransCmp.eq_trans hab (h ▸ hab)
  | gt => exact Std.TransCmp.gt_trans hab (h ▸ hab)

/-- A comparison that looks at ranks first is consistent on values that are not all of one rank. -/
theorem of_rank (rank : α → Nat)
    (hcmp : ∀ a b, rank a ≠ rank b → cmp a b = compare (rank a) (rank b)) {a b c : α}
    (hne : ¬ (rank a = rank b ∧ rank b = rank c)) : Consistent (cmp a b) (cmp b c) (cmp a c) := by
  have hstrict : ∀ {m n : Nat}, m ≠ n → compare m n ≠ .eq := by simp
  by_cases hac : rank a = rank c
  · have hab : rank a ≠ rank b := fun h => hne ⟨h, h ▸ hac⟩
    have hswap : compare (rank b) (rank c) = (compare (rank a) (rank b)).swap := by
      rw [← hac]
      exact Std.OrientedCmp.eq_swap
    rw [hcmp a b hab, hcmp b c (hac ▸ hab.symm), hswap]
    exact of_swap (hstrict hab)
  · rw [hcmp a c hac]
    by_cases hab : rank a = rank b
    · rw [hcmp b c (hab ▸ hac), hab]
      exact of_ne_right (hstrict (hab ▸ hac))
    · rw [hcmp a b hab]
      by_cases hbc : rank b = rank c
      · rw [hbc]
        exact of_ne_left (hstrict hac)
      · rw [hcmp b c hbc]
        exact of_transCmp (rank a) (rank b) (rank c)

theorem swap_eq {a b : α} (hself : cmp a a = .eq) (h : Consistent (cmp a b) (cmp b a) (cmp a a)) :
    cmp a b = (cmp b a).swap := by
  rw [hself] at h
  cases hab : cmp a b <;> cases hba : cmp b a <;> simp_all [Consistent]

theorem isLE_trans {ab bc ac : Ordering} (h : Consistent ab bc ac) (hab : ab.isLE) (hbc : bc.isLE) :
    ac.isLE := by
  cases ab <;> cases bc <;> simp_all [Consistent]

end Consistent

namespace Atom

variable {α : Type} [Atom α]

/-- The comparison of the atoms in `S`. -/
def cmpOn (S : α → Prop) (a b : {a // S a}) : Ordering := Atom.cmp a.1 b.1

/-- The comparison is a total order on the atoms in `S`, up to atoms that it does not tell apart, and
it tells neutral atoms from all others. -/
structure OrderedOn (S : α → Prop) : Prop where
  trans : Std.TransCmp (cmpOn S)
  neutral_congr {a b : α} : S a → S b → Atom.cmp a b = .eq → Atom.isNeutral a = Atom.isNeutral b

namespace OrderedOn

variable {S : α → Prop} {a b c : α}

theorem self (hS : OrderedOn S) (ha : S a) : Atom.cmp a a = .eq :=
  have := hS.trans
  @Std.ReflCmp.compare_self _ (cmpOn S) _ ⟨a, ha⟩

theorem eq_symm (hS : OrderedOn S) (ha : S a) (hb : S b) (h : Atom.cmp a b = .eq) :
    Atom.cmp b a = .eq :=
  have := hS.trans
  @Std.OrientedCmp.eq_symm _ (cmpOn S) _ ⟨a, ha⟩ ⟨b, hb⟩ h

theorem gt_iff_lt (hS : OrderedOn S) (ha : S a) (hb : S b) :
    Atom.cmp a b = .gt ↔ Atom.cmp b a = .lt :=
  have := hS.trans
  @Std.OrientedCmp.gt_iff_lt _ (cmpOn S) _ ⟨a, ha⟩ ⟨b, hb⟩

theorem lt_trans (hS : OrderedOn S) (ha : S a) (hb : S b) (hc : S c)
    (hab : Atom.cmp a b = .lt) (hbc : Atom.cmp b c = .lt) : Atom.cmp a c = .lt :=
  have := hS.trans
  @Std.TransCmp.lt_trans _ (cmpOn S) _ ⟨a, ha⟩ ⟨b, hb⟩ ⟨c, hc⟩ hab hbc

theorem congr_left (hS : OrderedOn S) (ha : S a) (hb : S b) (hc : S c)
    (hab : Atom.cmp a b = .eq) : Atom.cmp a c = Atom.cmp b c :=
  have := hS.trans
  @Std.TransCmp.congr_left _ (cmpOn S) _ ⟨a, ha⟩ ⟨b, hb⟩ ⟨c, hc⟩ hab

theorem congr_right (hS : OrderedOn S) (ha : S a) (hb : S b) (hc : S c)
    (hbc : Atom.cmp b c = .eq) : Atom.cmp a b = Atom.cmp a c :=
  have := hS.trans
  @Std.TransCmp.congr_right _ (cmpOn S) _ ⟨a, ha⟩ ⟨b, hb⟩ ⟨c, hc⟩ hbc

theorem mono {T : α → Prop} (hS : OrderedOn S) (hT : ∀ a, T a → S a) : OrderedOn T where
  trans :=
    have := hS.trans
    { eq_swap := fun {a b} =>
        @Std.OrientedCmp.eq_swap _ (cmpOn S) _ ⟨a.1, hT _ a.2⟩ ⟨b.1, hT _ b.2⟩
      isLE_trans := fun {a b c} =>
        @Std.TransCmp.isLE_trans _ (cmpOn S) _ ⟨a.1, hT _ a.2⟩ ⟨b.1, hT _ b.2⟩ ⟨c.1, hT _ c.2⟩ }
  neutral_congr ha hb h := hS.neutral_congr (hT _ ha) (hT _ hb) h

theorem of_consistent (hself : ∀ a, S a → Atom.cmp a a = .eq)
    (hcmp : ∀ a b c, S a → S b → S c →
      Consistent (Atom.cmp a b) (Atom.cmp b c) (Atom.cmp a c))
    (hneutral : ∀ a b, S a → S b → Atom.cmp a b = .eq → Atom.isNeutral a = Atom.isNeutral b) :
    OrderedOn S where
  trans :=
    { eq_swap := fun {a b} =>
        Consistent.swap_eq (hself a.1 a.2) (hcmp a.1 b.1 a.1 a.2 b.2 a.2)
      isLE_trans := fun {a b c} => (hcmp a.1 b.1 c.1 a.2 b.2 c.2).isLE_trans }
  neutral_congr ha hb := hneutral _ _ ha hb

theorem consistent (hS : OrderedOn S) (ha : S a) (hb : S b) (hc : S c) :
    Consistent (Atom.cmp a b) (Atom.cmp b c) (Atom.cmp a c) :=
  have := hS.trans
  @Consistent.of_transCmp _ (cmpOn S) _ ⟨a, ha⟩ ⟨b, hb⟩ ⟨c, hc⟩

end OrderedOn

end Atom

end Metrology
