import Metrology.Proofs.Convertibility.CommonSpec
import Metrology.Proofs.Convertibility.Named
import Metrology.Proofs.Hierarchy.CommonAncestor

/-!
# The common specification of named quantities

Two named quantities have a common specification exactly if they are of one kind, and it is their closest
common ancestor. A kind is connected, so that ancestor is of the kind as well and both quantities convert
to it implicitly. Quantities of different kinds meet, if at all, above the kind of one of them, where the
other tests find nothing either.
-/

namespace Metrology

namespace QuantitySpec

open NamedQuantity

section Named

variable {W : World} {a b : NamedQuantity}

/-- A named quantity becomes its ancestors of the same kind and nothing else that is named. -/
theorem implicitlyConvertible_named (hW : W.Declared) (ha : W.Holds a) (hb : W.Holds b) :
    ∃ implicit, (named a).implicitlyConvertible (named b) = .ok implicit ∧
      (implicit = true ↔ a.AtOrBelow b ∧ a.kindRoot = b.kindRoot) := by
  have hx := W.dimension_named hW ha
  have hy := W.dimension_named hW hb
  have hgrade : ∃ grade, (named a).convertible (named b) = .ok grade ∧ a.GradedByTree b grade := by
    unfold convertible searchBound
    by_cases htree : a.treeRoot = b.treeRoot
    · exact ⟨_, Question.answer_named ha hb htree hx hy _, convertibleInTree_graded ha hb htree⟩
    · exact ⟨.no, Question.answer_named_apart ha hb htree hx hy _, no_graded htree⟩
  obtain ⟨grade, hanswer, hgraded⟩ := hgrade
  refine ⟨decide (grade = .yes), by rw [implicitlyConvertible, hanswer]; rfl, ?_⟩
  rw [decide_eq_true_eq, hgraded.yes_iff, AtOrBelow, or_and_right]
  exact or_congr_left ⟨fun h => ⟨h, congrArg kindRoot h⟩, And.left⟩

theorem implicitlyConvertible_named_eq_true (hW : W.Declared) (ha : W.Holds a) (hb : W.Holds b)
    (h : a.AtOrBelow b) (hkind : a.kindRoot = b.kindRoot) :
    (named a).implicitlyConvertible (named b) = .ok true := by
  obtain ⟨implicit, hrun, himplicit⟩ := implicitlyConvertible_named hW ha hb
  rw [hrun, himplicit.mpr ⟨h, hkind⟩]

theorem implicitlyConvertible_named_eq_false (hW : W.Declared) (ha : W.Holds a) (hb : W.Holds b)
    (h : a.kindRoot = b.kindRoot → ¬ a.AtOrBelow b) :
    (named a).implicitlyConvertible (named b) = .ok false := by
  obtain ⟨implicit, hrun, himplicit⟩ := implicitlyConvertible_named hW ha hb
  rw [hrun]
  cases implicit with
  | false => rfl
  | true =>
    obtain ⟨hbelow, hkind⟩ := himplicit.mp rfl
    exact absurd hbelow (h hkind)

/-- Of quantities that differ, the one that stands above the other in its kind serves for both. -/
theorem common?_named_above (hW : W.Declared) (ha : W.Holds a) (hb : W.Holds b) (hne : a ≠ b)
    (hkind : a.kindRoot = b.kindRoot) (h : a.AtOrBelow b ∨ b.AtOrBelow a) :
    ∃ c, (named a).common? (named b) = .ok (some (named c)) ∧ LowestCommonAncestor a b c := by
  have hsame : ¬ (named a).same (named b) = true := fun h => hne (eq_of_named_same ha hb h)
  unfold common?
  rw [if_neg hsame]
  rcases h with h | h
  · have hback : ¬ b.AtOrBelow a := fun hback => hne (h.eq_of_depth (le_antisymm hback.depth_le h.depth_le))
    refine ⟨b, ?_, .of_atOrBelow h⟩
    rw [implicitlyConvertible_named_eq_true hW ha hb h hkind,
      implicitlyConvertible_named_eq_false hW hb ha fun _ => hback]
    rfl
  · have hforth : ¬ a.AtOrBelow b :=
      fun hforth => hne (hforth.eq_of_depth (le_antisymm h.depth_le hforth.depth_le))
    refine ⟨a, ?_, (LowestCommonAncestor.of_atOrBelow h).symm⟩
    rw [implicitlyConvertible_named_eq_false hW ha hb fun _ => hforth,
      implicitlyConvertible_named_eq_true hW hb ha h hkind.symm]
    rfl

/-- Quantities of which neither becomes the other are asked for their trees. -/
theorem common?_named_apart (hW : W.Declared) (ha : W.Holds a) (hb : W.Holds b) (hne : a ≠ b)
    (hforth : a.kindRoot = b.kindRoot → ¬ a.AtOrBelow b)
    (hback : b.kindRoot = a.kindRoot → ¬ b.AtOrBelow a) :
    (named a).common? (named b) =
      if a.haveCommonBase b then commonAncestor? (named a) (named b) a b
      else commonKindRoot? (named a) (named b) := by
  have hsame : ¬ (named a).same (named b) = true := fun h => hne (eq_of_named_same ha hb h)
  unfold common?
  rw [if_neg hsame, implicitlyConvertible_named_eq_false hW ha hb hforth,
    implicitlyConvertible_named_eq_false hW hb ha hback, named?_named ha, named?_named hb]
  rfl

theorem commonAncestor?_named (hW : W.Declared) (ha : W.Holds a) (hb : W.Holds b)
    (htree : a.treeRoot = b.treeRoot) : ∃ c, LowestCommonAncestor a b c ∧
      (a.kindRoot = b.kindRoot → commonAncestor? (named a) (named b) a b = .ok (some (named c))) ∧
      (a.kindRoot ≠ b.kindRoot → commonAncestor? (named a) (named b) a b = .ok none) := by
  obtain ⟨c, hbase, hc⟩ := W.commonBase_spec ha hb htree
  have hcW := W.atOrBelow_holds ha hc.left
  refine ⟨c, hc, fun hkind => ?_, fun hkind => ?_⟩
  · have hroot := hc.kindRoot_eq hkind
    simp only [commonAncestor?, hbase, bind, Except.bind,
      implicitlyConvertible_named_eq_true hW ha hcW hc.left hroot.symm,
      implicitlyConvertible_named_eq_true hW hb hcW hc.right (hkind.symm.trans hroot.symm)]
    rfl
  · by_cases hroot : a.kindRoot = c.kindRoot
    · -- The ancestor is of the kind of one operand and thus not of that of the other.
      have hapart : b.kindRoot = c.kindRoot → ¬ b.AtOrBelow c :=
        fun h => absurd (hroot.trans h.symm) hkind
      simp only [commonAncestor?, hbase, bind, Except.bind,
        implicitlyConvertible_named_eq_true hW ha hcW hc.left hroot,
        implicitlyConvertible_named_eq_false hW hb hcW hapart]
      rfl
    · simp only [commonAncestor?, hbase, bind, Except.bind,
        implicitlyConvertible_named_eq_false hW ha hcW fun h => absurd h hroot]
      rfl

theorem commonKindRoot?_named (hW : W.Declared) (ha : W.Holds a) (hb : W.Holds b)
    (htree : a.treeRoot ≠ b.treeRoot) : commonKindRoot? (named a) (named b) = .ok none := by
  have happart {p q : NamedQuantity} (h : p.treeRoot ≠ q.treeRoot) :
      p.kindRoot.kindRoot = q.kindRoot.kindRoot → ¬ p.kindRoot.AtOrBelow q.kindRoot := by
    intro _ hbelow
    have := hbelow.treeRoot_eq
    rw [treeRoot_kindRoot, treeRoot_kindRoot] at this
    exact h this
  unfold commonKindRoot?
  rw [kindTreeRoot_named ha, kindTreeRoot_named hb]
  simp only [bind, Except.bind,
    implicitlyConvertible_named_eq_false hW (W.kindRoot_holds ha) (W.kindRoot_holds hb) (happart htree),
    implicitlyConvertible_named_eq_false hW (W.kindRoot_holds hb) (W.kindRoot_holds ha)
      (happart htree.symm)]
  rfl

/-- Named quantities of one kind have their closest common ancestor as common specification, which is
the deepest there is, and others have none. -/
theorem common_named (hW : W.Declared) (ha : W.Holds a) (hb : W.Holds b) :
    (a.kindRoot = b.kindRoot → ∃ c, (named a).common? (named b) = .ok (some (named c)) ∧
      LowestCommonAncestor a b c ∧
      ∀ d, a.AtOrBelow d → b.AtOrBelow d → d ≠ c → d.depth < c.depth) ∧
    (a.kindRoot ≠ b.kindRoot → (named a).common? (named b) = .ok none) := by
  have hrun : (a.kindRoot = b.kindRoot ∧ ∃ c, (named a).common? (named b) = .ok (some (named c)) ∧
      LowestCommonAncestor a b c) ∨
      a.kindRoot ≠ b.kindRoot ∧ (named a).common? (named b) = .ok none := by
    by_cases heq : a = b
    · subst heq
      refine .inl ⟨rfl, a, ?_, .of_atOrBelow (.refl a)⟩
      rw [common?, if_pos (Within.named ha).same_self]
      rfl
    by_cases hkind : a.kindRoot = b.kindRoot
    · refine .inl ⟨hkind, ?_⟩
      by_cases habove : a.AtOrBelow b ∨ b.AtOrBelow a
      · exact common?_named_above hW ha hb heq hkind habove
      rw [not_or] at habove
      have htree := W.treeRoot_eq_of_kindRoot ha hb (by rw [hkind]; simp)
      obtain ⟨c, hc, hresult, -⟩ := commonAncestor?_named hW ha hb htree
      refine ⟨c, ?_, hc⟩
      rw [common?_named_apart hW ha hb heq (fun _ => habove.1) (fun _ => habove.2),
        if_pos ((W.haveCommonBase_iff ha hb).mpr htree), hresult hkind]
    · refine .inr ⟨hkind, ?_⟩
      rw [common?_named_apart hW ha hb heq (fun h => absurd h hkind) (fun h => absurd h.symm hkind)]
      by_cases htree : a.treeRoot = b.treeRoot
      · obtain ⟨c, -, -, hresult⟩ := commonAncestor?_named hW ha hb htree
        rw [if_pos ((W.haveCommonBase_iff ha hb).mpr htree), hresult hkind]
      · rw [if_neg fun h => htree ((W.haveCommonBase_iff ha hb).mp h),
          commonKindRoot?_named hW ha hb htree]
  rcases hrun with ⟨hkind, c, hresult, hc⟩ | ⟨hkind, hresult⟩
  · exact ⟨fun _ => ⟨c, hresult, hc, fun d hda hdb => hc.deepest hda hdb⟩, fun h => absurd hkind h⟩
  · exact ⟨fun h => absurd h hkind, fun _ => hresult⟩

section Heights

open Catalog

theorem lengths_declared : World.lengths.Declared := by
  have hlength : Isq.length.Declared := .ofDimension _ (by decide)
  intro q hq
  have hq : q ∈ [.dimensionless, Isq.length, Isq.width, Isq.height, Isq.pathLength, Isq.distance] := hq
  simp only [List.mem_cons, List.not_mem_nil, or_false] at hq
  rcases hq with rfl | rfl | rfl | rfl | rfl | rfl
  · exact .dimensionless
  · exact hlength
  · exact .childOf _ hlength
  · exact .childOf _ hlength
  · exact .childOf _ hlength
  · exact .childOf _ (.childOf _ hlength)

/-- A distance, which is a path length, and a height meet in the length, while an altitude, which is of a
kind of its own, and a width have nothing in common, though both are lengths. -/
theorem common_named_distance :
    (named Isq.distance).common? (named Isq.height) = .ok (some (named Isq.length)) ∧
      (named altitude).common? (named Isq.width) = .ok none := by
  have hdistance : World.lengths.Holds Isq.distance := World.lengths_holds (by simp)
  have hheight : World.lengths.Holds Isq.height := World.lengths_holds (by simp)
  have hwidth : heights.Holds Isq.width := List.mem_cons_of_mem _ (by simp)
  have haltitude : heights.Holds altitude := List.mem_cons_of_mem _ (by simp)
  have hkind : altitude.kindRoot ≠ Isq.width.kindRoot :=
    fun h => absurd (congrArg NamedQuantity.name h) (by decide)
  obtain ⟨c, hresult, hc, -⟩ := (common_named lengths_declared hdistance hheight).1 rfl
  have hlength : LowestCommonAncestor Isq.distance Isq.height Isq.length := by
    refine ⟨.inr (.tail (.single rfl) rfl), .inr (.single rfl), fun {d} hd hd' => ?_⟩
    rcases (atOrBelow_step rfl).mp hd' with rfl | hlength
    · rcases hd with heq | hbelow
      · exact absurd (congrArg NamedQuantity.name heq) (by decide)
      · exact absurd hbelow.isChildOf (by decide)
    · exact hlength
  rw [hresult, hc.eq hlength]
  exact ⟨rfl, (common_named heights_declared haltitude hwidth).2 hkind⟩

end Heights

end Named

end QuantitySpec

end Metrology
