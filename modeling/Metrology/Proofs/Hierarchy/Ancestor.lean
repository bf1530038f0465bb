import Metrology.Proofs.Hierarchy.Tree

/-!
# Ancestors

A quantity lies below another one if a chain of parent links leads from it to that one. The hierarchy
asks the same question by comparing depths and climbing the difference, and within a forest the two
agree. Depth strictly falls along a chain, so nothing lies below itself.
-/

namespace Metrology

namespace NamedQuantity

/-- `b` is a proper ancestor of `a`. -/
def Below (a b : NamedQuantity) : Prop := Relation.TransGen (fun q p => q.parent? = some p) a b

variable {a b : NamedQuantity}

theorem below_iff : a.Below b ↔ ∃ p, a.parent? = some p ∧ (p = b ∨ p.Below b) := by
  unfold Below
  rw [Relation.TransGen.head'_iff]
  refine exists_congr fun p => and_congr_right fun _ => ?_
  rw [Relation.reflTransGen_iff_eq_or_transGen, eq_comm]

theorem Below.depth_lt (h : a.Below b) : b.depth < a.depth := by
  induction h using Relation.TransGen.head_induction_on with
  | single hparent => rw [depth_step hparent]; omega
  | head hparent _ ih => rw [depth_step hparent]; omega

theorem Below.ne (h : a.Below b) : a ≠ b := by
  rintro rfl
  exact absurd h.depth_lt (lt_irrefl _)

theorem Below.not_below (h : a.Below b) : ¬ b.Below a := by
  intro hback
  have := h.depth_lt
  have := hback.depth_lt
  omega

theorem Below.treeRoot_eq (h : a.Below b) : a.treeRoot = b.treeRoot := by
  induction h using Relation.TransGen.head_induction_on with
  | single hparent => exact treeRoot_step hparent
  | head hparent _ ih => rw [treeRoot_step hparent, ih]

theorem Below.isChildOf (h : a.Below b) : a.isChildOf b = true := by
  induction h using Relation.TransGen.head_induction_on with
  | single hparent => exact isChildOf_step hparent (.inl rfl)
  | head hparent _ ih => exact isChildOf_step hparent (.inr ih)

/-- Climbing one step or more leads to an ancestor, as long as there is somewhere to climb. -/
theorem below_advance {n : Nat} (hpos : 0 < n) (hn : n ≤ a.depth) : a.Below (a.advance n) := by
  induction a using climb generalizing n with
  | top a h =>
    rw [depth_top h] at hn
    omega
  | step a p h ih =>
    rw [depth_step h] at hn
    obtain ⟨n, rfl⟩ : ∃ m, n = m + 1 := ⟨n - 1, by omega⟩
    rw [advance_step h, below_iff]
    refine ⟨p, h, ?_⟩
    cases n with
    | zero => exact .inl advance_zero.symm
    | succ n => exact .inr (ih (by omega) (by omega))

end NamedQuantity

namespace Forest

variable {F : Forest} {a b : NamedQuantity}

theorem below_holds (ha : F.Holds a) (h : a.Below b) : F.Holds b := by
  induction h with
  | single hparent => exact F.parent_holds ha hparent
  | tail _ hparent ih => exact F.parent_holds ih hparent

/-- The comparison of depths finds exactly the ancestors. -/
theorem isChildOf_iff_below (ha : F.Holds a) (hb : F.Holds b) : a.isChildOf b = true ↔ a.Below b := by
  constructor
  · intro h
    simp only [NamedQuantity.isChildOf, Bool.and_eq_true, decide_eq_true_eq] at h
    have habove : a.Below (a.advance (a.depth - b.depth)) :=
      NamedQuantity.below_advance (by omega) (Nat.sub_le _ _)
    rwa [(F.same_iff_eq (F.below_holds ha habove) hb).mp h.2] at habove
  · exact fun h => h.isChildOf

end Forest

namespace World

variable {W : World} {a b : NamedQuantity}

theorem isChildOf_iff_below (ha : W.Holds a) (hb : W.Holds b) : a.isChildOf b = true ↔ a.Below b :=
  W.forest.isChildOf_iff_below ha hb

end World

end Metrology
