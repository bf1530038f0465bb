import Metrology.Catalog.Isq
import Metrology.Proofs.Convertibility.Specification
import Metrology.Proofs.Hierarchy.Ancestor
import Metrology.Proofs.Hierarchy.Declared

/-!
# Conversion between named quantities

How freely one named quantity becomes another is decided by where the two stand in their trees and by
nothing else. The search looks at dimensions first and at equations last, but quantities of one tree
share their dimension, and quantities of different trees have no kind in common, so neither changes the
answer.
-/

namespace Metrology

namespace NamedQuantity

/-- The grade of a conversion from `a` to `b` that the trees of the two call for. -/
structure GradedByTree (a b : NamedQuantity) (grade : Convertibility) : Prop where
  yes_iff : grade = .yes ↔ a = b ∨ a.Below b ∧ a.kindRoot = b.kindRoot
  explicitBeyondKind_iff : grade = .explicitBeyondKind ↔ a.Below b ∧ a.kindRoot ≠ b.kindRoot
  explicit_iff : grade = .explicit ↔ b.Below a
  cast_iff : grade = .cast ↔
    (a ≠ b ∧ ¬ a.Below b ∧ ¬ b.Below a) ∧ a.treeRoot = b.treeRoot ∧ a.kindRoot = b.kindRoot
  no_iff : grade = .no ↔
    (a ≠ b ∧ ¬ a.Below b ∧ ¬ b.Below a) ∧ ¬ (a.treeRoot = b.treeRoot ∧ a.kindRoot = b.kindRoot)
  no_of_treeRoot_ne : a.treeRoot ≠ b.treeRoot → grade = .no

variable {W : World} {a b : NamedQuantity}

theorem convertibleInTree_graded (ha : W.Holds a) (hb : W.Holds b) (htree : a.treeRoot = b.treeRoot) :
    GradedByTree a b (a.convertibleInTree b) := by
  have hsame := W.same_iff_eq ha hb
  have hkind := W.same_iff_eq (W.kindRoot_holds ha) (W.kindRoot_holds hb)
  have habove := W.isChildOf_iff_below ha hb
  have hbelow := W.isChildOf_iff_below hb ha
  by_cases heq : a = b
  · have hirrefl : ¬ b.Below b := fun h => h.ne rfl
    subst heq
    rw [convertibleInTree_self]
    constructor <;> simp [hirrefl]
  by_cases hab : a.Below b
  · have hba : ¬ b.Below a := hab.not_below
    by_cases hroot : a.kindRoot = b.kindRoot
    · have hgrade : a.convertibleInTree b = .yes := by
        simp only [convertibleInTree, hsame, hkind.mpr hroot, habove, heq, hab, if_true, if_false]
      rw [hgrade]
      constructor <;> simp [heq, hab, hba, hroot, htree]
    · have hgrade : a.convertibleInTree b = .explicitBeyondKind := by
        simp only [convertibleInTree, hsame, hkind, habove, heq, hab, hroot, if_true, if_false]
      rw [hgrade]
      constructor <;> simp [heq, hab, hba, hroot, htree]
  by_cases hba : b.Below a
  · have hgrade : a.convertibleInTree b = .explicit := by
      simp only [convertibleInTree, hsame, habove, hbelow, heq, hab, hba, if_true, if_false]
    rw [hgrade]
    constructor <;> simp [heq, hab, hba, htree]
  by_cases hroot : a.kindRoot = b.kindRoot
  · have hgrade : a.convertibleInTree b = .cast := by
      simp only [convertibleInTree, hsame, hkind.mpr hroot, habove, hbelow, heq, hab, hba, if_true,
        if_false]
    rw [hgrade]
    constructor <;> simp [heq, hab, hba, hroot, htree]
  · have hgrade : a.convertibleInTree b = .no := by
      simp only [convertibleInTree, hsame, hkind, habove, hbelow, heq, hab, hba, hroot, if_false]
    rw [hgrade]
    constructor <;> simp [heq, hab, hba, hroot, htree]

/-- A kind lies within one tree, and so does a line of ancestors. -/
theorem no_graded (htree : a.treeRoot ≠ b.treeRoot) :
    GradedByTree a b .no := by
  have heq : a ≠ b := fun h => htree (h ▸ rfl)
  have hab : ¬ a.Below b := fun h => htree h.treeRoot_eq
  have hba : ¬ b.Below a := fun h => htree h.treeRoot_eq.symm
  constructor <;> simp [heq, hab, hba, htree]

end NamedQuantity

namespace QuantitySpec

variable {W : World} {a b : NamedQuantity}

/-- Between named quantities there always is an answer, and it is the one the trees call for. -/
theorem named_convertibility (hW : W.Declared) (ha : W.Holds a) (hb : W.Holds b) :
    ∃ grade, (named a).convertible (named b) = .ok grade ∧ a.GradedByTree b grade := by
  have hx := W.dimension_named hW ha
  have hy := W.dimension_named hW hb
  unfold convertible searchBound
  by_cases htree : a.treeRoot = b.treeRoot
  · exact ⟨_, Question.answer_named ha hb htree hx hy _,
      NamedQuantity.convertibleInTree_graded ha hb htree⟩
  · exact ⟨.no, Question.answer_named_apart ha hb htree hx hy _, NamedQuantity.no_graded htree⟩

section Heights

open Catalog NamedQuantity

def heightKind : NamedQuantity := Isq.height.markKind

def altitude : NamedQuantity := childOf (Isq.nameOf "Altitude") heightKind

def heights : World :=
  World.ofList [Isq.length, Isq.width, heightKind, altitude]
    (by
      intro q hq p hp
      simp only [List.mem_cons, List.not_mem_nil, or_false] at hq
      rcases hq with rfl | rfl | rfl | rfl <;> cases hp <;> exact ⟨by simp [heightKind], rfl⟩)
    (by decide) (by decide)

theorem heights_declared : heights.Declared := by
  have hlength : Isq.length.Declared := .ofDimension _ (by decide)
  have hheight : heightKind.Declared := .markKind (.childOf _ hlength)
  intro q hq
  have hq : q ∈ [.dimensionless, Isq.length, Isq.width, heightKind, altitude] := hq
  simp only [List.mem_cons, List.not_mem_nil, or_false] at hq
  rcases hq with rfl | rfl | rfl | rfl | rfl
  · exact .dimensionless
  · exact hlength
  · exact .childOf _ hlength
  · exact hheight
  · exact .childOf _ hheight

/-- An altitude is a length only beyond its kind, and no width at all. -/
theorem named_convertibility_altitude : (∃ grade, (named altitude).convertible (named Isq.length) =
      .ok grade ∧ altitude.GradedByTree Isq.length grade ∧ grade = .explicitBeyondKind) ∧
    ∃ grade, (named altitude).convertible (named Isq.width) = .ok grade ∧
      altitude.GradedByTree Isq.width grade ∧ grade = .no := by
  have hlength : heights.Holds Isq.length := List.mem_cons_of_mem _ (by simp)
  have hwidth : heights.Holds Isq.width := List.mem_cons_of_mem _ (by simp)
  have haltitude : heights.Holds altitude := List.mem_cons_of_mem _ (by simp)
  have hkind : altitude.kindRoot ≠ Isq.length.kindRoot :=
    fun h => absurd (congrArg NamedQuantity.name h) (by decide)
  have hkind' : altitude.kindRoot ≠ Isq.width.kindRoot :=
    fun h => absurd (congrArg NamedQuantity.name h) (by decide)
  have hbelow : altitude.Below Isq.length := .tail (.single rfl) rfl
  have hapart : ¬ altitude.Below Isq.width := fun h => absurd h.isChildOf (by decide)
  have hapart' : ¬ Isq.width.Below altitude := fun h => absurd h.isChildOf (by decide)
  have hne : altitude ≠ Isq.width := fun h => absurd (congrArg NamedQuantity.name h) (by decide)
  obtain ⟨g, hg, hgrade⟩ := named_convertibility heights_declared haltitude hlength
  obtain ⟨g', hg', hgrade'⟩ := named_convertibility heights_declared haltitude hwidth
  exact ⟨⟨g, hg, hgrade, hgrade.explicitBeyondKind_iff.mpr ⟨hbelow, hkind⟩⟩, g', hg', hgrade',
    hgrade'.no_iff.mpr ⟨⟨hne, hapart, hapart'⟩, fun h => hkind' h.2⟩⟩

end Heights

end QuantitySpec

end Metrology
