import Metrology.Convertibility.Search
import Metrology.Proofs.Factor.World

/-!
# Quantities of one tree

Within a world the tree of a quantity is its root, and the quantities of one tree share their dimension.
Conversion within a tree is implicit only towards an ancestor of the same kind, and a quantity that
stands below the dimensionless one converts to it at least explicitly.
-/

namespace Metrology

namespace NamedQuantity

theorem treeRoot_kindRoot (q : NamedQuantity) : q.kindRoot.treeRoot = q.treeRoot := by
  induction q using climb with
  | top q h => rw [kindRoot_top h]
  | step q p h ih =>
    rw [kindRoot_step h, treeRoot_step h]
    split
    · rw [treeRoot_step h]
    · exact ih

/-- A quantity lies below its parent and whatever that lies below. -/
theorem isChildOf_step {q p r : NamedQuantity} (h : q.parent? = some p)
    (hr : p = r ∨ p.isChildOf r = true) : q.isChildOf r = true := by
  rcases hr with rfl | hchild
  · simp [isChildOf, depth_step h, advance_step h]
  · simp only [isChildOf, Bool.and_eq_true, decide_eq_true_eq] at hchild ⊢
    have hsteps : q.depth - r.depth = (p.depth - r.depth) + 1 := by
      rw [depth_step h]
      omega
    rw [hsteps, advance_step h, depth_step h]
    exact ⟨by omega, hchild.2⟩

theorem eq_treeRoot_or_isChildOf (q : NamedQuantity) :
    q = q.treeRoot ∨ q.isChildOf q.treeRoot = true := by
  induction q using climb with
  | top q h => exact .inl (treeRoot_top h).symm
  | step q p h ih =>
    rw [treeRoot_step h]
    exact .inr (isChildOf_step h ih)

theorem kindRoot_kindRoot (q : NamedQuantity) : q.kindRoot.kindRoot = q.kindRoot := by
  induction q using climb with
  | top q h => rw [kindRoot_top h, kindRoot_top h]
  | step q p h ih =>
    rw [kindRoot_step h]
    split
    · rename_i hkind
      rw [kindRoot_step h, if_pos hkind]
    · exact ih

theorem eq_kindRoot_or_isChildOf (q : NamedQuantity) :
    q = q.kindRoot ∨ q.isChildOf q.kindRoot = true := by
  induction q using climb with
  | top q h => exact .inl (kindRoot_top h).symm
  | step q p h ih =>
    rw [kindRoot_step h]
    split
    · exact .inl rfl
    · exact .inr (isChildOf_step h ih)

theorem convertibleInTree_kindRoot (q : NamedQuantity) : q.convertibleInTree q.kindRoot = .yes := by
  have hkind : q.kindRoot.same q.kindRoot.kindRoot = true := by
    rw [kindRoot_kindRoot]
    simp
  rcases q.eq_kindRoot_or_isChildOf with hroot | hchild
  · have hsame : q.same q.kindRoot = true := by
      rw [← hroot]
      simp
    simp [convertibleInTree, hsame]
  · simp [convertibleInTree, hkind, hchild]

theorem treeRoot_dimensionless : dimensionless.treeRoot = dimensionless := treeRoot_top rfl

@[simp] theorem convertibleInTree_self (q : NamedQuantity) : q.convertibleInTree q = .yes := by
  simp [convertibleInTree]

end NamedQuantity

namespace World

variable {W : World} {a b : NamedQuantity}

theorem haveCommonBase_iff (ha : W.Holds a) (hb : W.Holds b) :
    a.haveCommonBase b = true ↔ a.treeRoot = b.treeRoot :=
  W.forest.haveCommonBase_iff ha hb

theorem dimension_treeRoot (ha : W.Holds a) : a.treeRoot.dimension = a.dimension := by
  induction a using NamedQuantity.climb with
  | top q h => rw [NamedQuantity.treeRoot_top h]
  | step q p h ih =>
    rw [NamedQuantity.treeRoot_step h, ih (W.parent_holds ha h), W.dimension_parent ha h]

theorem dimension_kindRoot (ha : W.Holds a) : a.kindRoot.dimension = a.dimension := by
  rw [← W.dimension_treeRoot (W.kindRoot_holds ha), NamedQuantity.treeRoot_kindRoot,
    W.dimension_treeRoot ha]

theorem dimension_eq_of_tree (ha : W.Holds a) (hb : W.Holds b) (h : a.treeRoot = b.treeRoot) :
    a.dimension = b.dimension := by
  rw [← W.dimension_treeRoot ha, h, W.dimension_treeRoot hb]

theorem treeRoot_eq_of_kindRoot (ha : W.Holds a) (hb : W.Holds b)
    (h : a.kindRoot.same b.kindRoot = true) : a.treeRoot = b.treeRoot := by
  rw [← NamedQuantity.treeRoot_kindRoot a, ← NamedQuantity.treeRoot_kindRoot b,
    (W.same_iff_eq (W.kindRoot_holds ha) (W.kindRoot_holds hb)).mp h]

/-- Implicit conversion within a tree stays within a kind. -/
theorem kindRoot_eq_of_convertibleInTree (ha : W.Holds a) (hb : W.Holds b)
    (h : a.convertibleInTree b = .yes) : a.kindRoot = b.kindRoot := by
  unfold NamedQuantity.convertibleInTree at h
  by_cases hkind : a.kindRoot.same b.kindRoot = true
  · exact (W.same_iff_eq (W.kindRoot_holds ha) (W.kindRoot_holds hb)).mp hkind
  · by_cases hsame : a.same b = true
    · rw [(W.same_iff_eq ha hb).mp hsame]
    · by_cases hchild : a.isChildOf b = true
      · simp [hkind, hsame, hchild] at h
      · by_cases hparent : b.isChildOf a = true
        · simp [hsame, hchild, hparent] at h
        · simp [hkind, hsame, hchild, hparent] at h

theorem treeRoot_eq_of_convertibleInTree (ha : W.Holds a) (hb : W.Holds b)
    (h : a.convertibleInTree b = .yes) : a.treeRoot = b.treeRoot := by
  rw [← NamedQuantity.treeRoot_kindRoot a, ← NamedQuantity.treeRoot_kindRoot b,
    W.kindRoot_eq_of_convertibleInTree ha hb h]

/-- A quantity of the tree of the dimensionless quantity converts to that one. -/
theorem convertibleInTree_dimensionless (h : a.treeRoot = .dimensionless) :
    a.convertibleInTree .dimensionless ≠ .no := by
  rcases a.eq_treeRoot_or_isChildOf with hroot | hchild
  · rw [hroot, h, NamedQuantity.convertibleInTree_self]
    decide
  · rw [h] at hchild
    by_cases hsame : a.same .dimensionless = true
    · simp [NamedQuantity.convertibleInTree, hsame]
    · by_cases hkind : a.kindRoot.same NamedQuantity.dimensionless.kindRoot = true
      · simp [NamedQuantity.convertibleInTree, hsame, hchild, hkind]
      · simp [NamedQuantity.convertibleInTree, hsame, hchild, hkind]

end World

end Metrology
