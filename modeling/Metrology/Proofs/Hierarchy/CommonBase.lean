import Metrology.Catalog.Isq
import Metrology.Proofs.Hierarchy.CommonAncestor

/-!
# The order of ancestors and its closest common ancestors

Standing below is the strict order that the parent links generate, and within one tree any two quantities
have a closest common ancestor in it. Climbing both paths in step finds that ancestor, whichever of the
two is named first, and fails for quantities of different trees and for no others.
-/

namespace Metrology

open NamedQuantity

structure CommonBaseLaws (F : Forest) : Prop where
  /-- The roots are compared, and the roots are the same where any ancestor is. -/
  related : ∀ a b, F.Holds a → F.Holds b →
    (a.haveCommonBase b = true ↔ ∃ d, a.AtOrBelow d ∧ b.AtOrBelow d)
  fails : ∀ a b, F.Holds a → F.Holds b →
    ((∃ fault, a.commonBase b = .error fault) ↔ a.haveCommonBase b = false)
  fault : ∀ a b fault, F.Holds a → F.Holds b → a.commonBase b = .error fault → fault = .noCommonBase
  lowest : ∀ a b c, F.Holds a → F.Holds b → a.commonBase b = .ok c →
    F.Holds c ∧ LowestCommonAncestor a b c
  comm : ∀ a b, F.Holds a → F.Holds b → a.commonBase b = b.commonBase a
  self_iff : ∀ a b, F.Holds a → F.Holds b → (a.commonBase b = .ok a ↔ a = b ∨ b.isChildOf a = true)
  /-- The order generated by the parent links. -/
  below_iff : ∀ a b, F.Holds a → F.Holds b →
    (a.isChildOf b = true ↔ Relation.TransGen (fun q p => q.parent? = some p) a b)
  irrefl : ∀ a, F.Holds a → a.isChildOf a = false
  trans : ∀ a b c, F.Holds a → F.Holds b → F.Holds c →
    a.isChildOf b = true → b.isChildOf c = true → a.isChildOf c = true

namespace NamedQuantity

theorem LowestCommonAncestor.eq_left_iff {a b c : NamedQuantity} (h : LowestCommonAncestor a b c) :
    c = a ↔ b.AtOrBelow a := by
  constructor
  · rintro rfl
    exact h.right
  · exact fun hb => h.eq (LowestCommonAncestor.of_atOrBelow hb).symm

end NamedQuantity

namespace Forest

variable {F : Forest} {a b c : NamedQuantity}

theorem haveCommonBase_iff_exists (ha : F.Holds a) (hb : F.Holds b) :
    a.haveCommonBase b = true ↔ ∃ d, a.AtOrBelow d ∧ b.AtOrBelow d := by
  rw [F.haveCommonBase_iff ha hb]
  constructor
  · intro htree
    obtain ⟨c, -, hc⟩ := F.commonBase_spec ha hb htree
    exact ⟨c, hc.left, hc.right⟩
  · rintro ⟨d, had, hbd⟩
    exact had.treeRoot_eq.trans hbd.treeRoot_eq.symm

theorem commonBase_fails_iff (ha : F.Holds a) (hb : F.Holds b) :
    (∃ fault, a.commonBase b = .error fault) ↔ a.haveCommonBase b = false := by
  rw [Bool.eq_false_iff, Ne, F.haveCommonBase_iff ha hb]
  rcases F.commonBase_cases ha hb with ⟨htree, c, hc, -⟩ | ⟨htree, herror⟩
  · simp [hc, htree]
  · simp [herror, htree]

theorem commonBase_eq_left_iff (ha : F.Holds a) (hb : F.Holds b) :
    a.commonBase b = .ok a ↔ a = b ∨ b.isChildOf a = true := by
  have habove : a = b ∨ b.isChildOf a = true ↔ b.AtOrBelow a := by
    rw [F.isChildOf_iff_below hb ha, AtOrBelow, eq_comm]
  rw [habove]
  rcases F.commonBase_cases ha hb with ⟨-, c, hc, -, hlowest⟩ | ⟨htree, herror⟩
  · rw [hc, Except.ok.injEq, hlowest.eq_left_iff]
  · rw [herror]
    simp only [reduceCtorEq, false_iff]
    exact fun h => htree h.treeRoot_eq.symm

theorem common_base_laws (F : Forest) : CommonBaseLaws F where
  related _ _ ha hb := F.haveCommonBase_iff_exists ha hb
  fails _ _ ha hb := F.commonBase_fails_iff ha hb
  fault a b fault ha hb h := by
    rcases F.commonBase_cases ha hb with ⟨-, c, hc, -⟩ | ⟨-, herror⟩
    · rw [hc] at h
      cases h
    · exact (Except.error.inj (herror.symm.trans h)).symm
  lowest a b c ha hb h := by
    rcases F.commonBase_cases ha hb with ⟨-, d, hd, hdF, hlowest⟩ | ⟨-, herror⟩
    · obtain rfl := Except.ok.inj (hd.symm.trans h)
      exact ⟨hdF, hlowest⟩
    · rw [herror] at h
      cases h
  comm _ _ ha hb := F.commonBase_comm ha hb
  self_iff _ _ ha hb := F.commonBase_eq_left_iff ha hb
  below_iff _ _ ha hb := F.isChildOf_iff_below ha hb
  irrefl a ha := by
    rw [Bool.eq_false_iff, Ne, F.isChildOf_iff_below ha ha]
    exact fun h => h.ne rfl
  trans a b c ha hb hc hab hbc := by
    rw [F.isChildOf_iff_below ha hb] at hab
    rw [F.isChildOf_iff_below hb hc] at hbc
    exact Below.isChildOf (Relation.TransGen.trans hab hbc)

open Catalog in
def lengthsAndTimes : Forest :=
  ofList [Isq.length, Isq.width, Isq.radius, Isq.pathLength, Isq.distance, Isq.time, Isq.duration]
    (by
      intro q hq p hp
      simp only [List.mem_cons, List.not_mem_nil, or_false] at hq
      rcases hq with rfl | rfl | rfl | rfl | rfl | rfl | rfl <;> cases hp <;> simp)
    (by decide)

open Catalog in
/-- A distance and a radius, three steps apart, meet in the length; a radius and a width in the width,
which is one of them; a distance and a duration nowhere. -/
theorem common_base_laws_lengths :
    Isq.distance.commonBase Isq.radius = .ok Isq.length ∧
      Isq.radius.commonBase Isq.width = .ok Isq.width ∧ Isq.radius.isChildOf Isq.length = true ∧
      ∃ fault, Isq.distance.commonBase Isq.duration = .error fault := by
  have laws := common_base_laws lengthsAndTimes
  have hlength : lengthsAndTimes.Holds Isq.length := by simp [lengthsAndTimes, ofList]
  have hwidth : lengthsAndTimes.Holds Isq.width := by simp [lengthsAndTimes, ofList]
  have hradius : lengthsAndTimes.Holds Isq.radius := by simp [lengthsAndTimes, ofList]
  have hdistance : lengthsAndTimes.Holds Isq.distance := by simp [lengthsAndTimes, ofList]
  have hduration : lengthsAndTimes.Holds Isq.duration := by simp [lengthsAndTimes, ofList]
  refine ⟨?_, ?_, ?_, (laws.fails _ _ hdistance hduration).mpr (by decide)⟩
  · with_unfolding_all rfl
  · rw [laws.comm _ _ hradius hwidth]
    exact (laws.self_iff _ _ hwidth hradius).mpr (.inr (by decide))
  · exact (laws.below_iff _ _ hradius hlength).mpr (.tail (.single rfl) rfl)

end Forest

end Metrology
