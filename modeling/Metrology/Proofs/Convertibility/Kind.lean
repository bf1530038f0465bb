import Metrology.Proofs.Convertibility.Specification
import Metrology.Proofs.PowerProduct.Limit

/-!
# What a kind converts to

A kind converts implicitly to every product of quantities that it is the kind of. Neither side is looked
at factor by factor: the roots of the kinds are multiplied to one product, in whatever order, and that is
compared as a whole. Only a limit of powers and products can prevent this.
-/

namespace Metrology

variable {W : World}

/-- A weight of factors, applied to the roots of kinds, is a weight of factors. -/
theorem World.kindRoot_weight {w : Factor → Rat} (hw : Atom.Weight W.Covers w) :
    Atom.Weight W.Covers (w ∘ Factor.kindRoot) where
  congr {f g} hf hg h := by
    cases f <;> cases g <;> first | exact hw.congr hf hg h | cases h | skip
    rename_i q r
    rw [(W.cmp_eq_iff (Factor.quantitiesIn_quantity.mp hf) (Factor.quantitiesIn_quantity.mp hg)).mp h]
  neutral {f} hf h := by
    cases f with
    | quantity q =>
      obtain rfl := W.eq_dimensionless (Factor.quantitiesIn_quantity.mp hf) h
      exact hw.neutral hf h
    | _ => exact hw.neutral hf h

namespace QuantitySpec

/-- A specification of the world, a kind or none, that has a given weight for every weight of its
factors. -/
structure Weighs (W : World) (s : QuantitySpec) (isKindOf : Bool) (total : (Factor → Rat) → Rat) :
    Prop where
  within : s.Within W
  isKindOf_eq : s.isKindOf = isKindOf
  weigh_eq {w : Factor → Rat} : Atom.Weight W.Covers w → PowerProduct.weigh w s.product = total w

variable {s t : QuantitySpec} {b : Bool} {m n : (Factor → Rat) → Rat}

theorem weighs_named {q : NamedQuantity} (hq : W.Holds q) :
    (named q).Weighs W false fun w => w (.quantity q) :=
  ⟨.named hq, rfl, fun hw => weigh_named hq hw⟩

theorem weighs_dimensionless : dimensionless.Weighs W false fun _ => 0 :=
  ⟨.named W.dimensionless_holds, rfl, fun _ => rfl⟩

namespace Weighs

theorem congr (hs : s.Weighs W b m) (hmn : ∀ w, Atom.Weight W.Covers w → m w = n w) :
    s.Weighs W b n :=
  ⟨hs.within, hs.isKindOf_eq, fun hw => (hs.weigh_eq hw).trans (hmn _ hw)⟩

theorem kindOf (hs : s.Weighs W b m) : s.kindOf.Weighs W true m :=
  ⟨hs.within.kindOf, rfl, hs.weigh_eq⟩

/-- The weights determine the specification. -/
theorem eq (hs : s.Weighs W b m) (ht : t.Weighs W b m) : s = t := by
  have hproduct : PowerProduct.same s.product t.product = true :=
    PowerProduct.same_of_weigh W.orderedOn hs.within.covered ht.within.covered hs.within.canonical
      ht.within.canonical fun w hw => by rw [hs.weigh_eq hw, ht.weigh_eq hw]
  apply hs.within.eq_of_same ht.within
  simp [same, hs.isKindOf_eq, ht.isKindOf_eq, hproduct]

theorem mul (hs : s.Weighs W b m) (ht : t.Weighs W b n) :
    Answers (s.mul t) fun r => r.Weighs W b fun w => m w + n w := by
  refine (PowerProduct.mul_answers _ _).bind fun product hproduct _ => ?_
  have hmul : s.mul t = .ok ⟨product, s.isKindOf && t.isKindOf⟩ := by
    rw [QuantitySpec.mul, hproduct]
    rfl
  refine .of_ok rfl ⟨hs.within.mul ht.within hmul, ?_, fun hw => ?_⟩
  · simp [hs.isKindOf_eq, ht.isKindOf_eq]
  · rw [PowerProduct.weigh_mul hw hs.within.covered ht.within.covered hproduct, hs.weigh_eq hw,
      ht.weigh_eq hw]

theorem div (hs : s.Weighs W b m) (ht : t.Weighs W b n) :
    Answers (s.div t) fun r => r.Weighs W b fun w => m w - n w := by
  refine (PowerProduct.div_answers _ _).bind fun product hproduct _ => ?_
  have hdiv : s.div t = .ok ⟨product, s.isKindOf && t.isKindOf⟩ := by
    rw [QuantitySpec.div, hproduct]
    rfl
  refine .of_ok rfl ⟨hs.within.div ht.within hdiv, ?_, fun hw => ?_⟩
  · simp [hs.isKindOf_eq, ht.isKindOf_eq]
  · rw [PowerProduct.weigh_div hw hs.within.covered ht.within.covered hproduct, hs.weigh_eq hw,
      ht.weigh_eq hw]

theorem pow (hs : s.Weighs W b m) (p : Ratio) :
    Answers (s.pow p) fun r => r.Weighs W b fun w => p.value * m w := by
  refine (PowerProduct.pow_answers _ p).bind fun product hproduct _ => ?_
  have hpow : s.pow p = .ok { s with product } := by
    rw [QuantitySpec.pow, hproduct]
    rfl
  refine .of_ok rfl ⟨hs.within.pow hpow, hs.isKindOf_eq, fun hw => ?_⟩
  rw [PowerProduct.weigh_pow hproduct, hs.weigh_eq hw]

end Weighs

/-! ### Conversion of kinds -/

theorem dimension_answers (s : QuantitySpec) : Answers s.dimension fun _ => True := by
  refine .foldlM (fun d t _ => ?_) Dimension.one
  split
  · exact (PowerProduct.pow_answers _ _).bind fun _ _ _ => PowerProduct.mul_answers d _
  · exact .of_ok rfl trivial

theorem Weighs.kindTreeRoot (hs : s.Weighs W false m) :
    Answers s.kindTreeRoot fun r => r.Weighs W false fun w => m (w ∘ Factor.kindRoot) := by
  have hanswers : Answers s.kindTreeRoot fun _ => True := by
    unfold QuantitySpec.kindTreeRoot
    rw [if_neg (by simp [hs.isKindOf_eq])]
    exact (PowerProduct.mul_answers _ _).bind fun _ _ _ => .of_ok rfl trivial
  refine hanswers.mono fun r hr _ => ?_
  obtain ⟨hrW, hrkind, hweigh⟩ := kindTreeRoot_spec hs.within hs.isKindOf_eq hr
  exact ⟨hrW, hrkind, fun hw => (hweigh _ hw).trans (hs.weigh_eq (World.kindRoot_weight hw))⟩

/-- A kind has the dimension of the quantities that it is the kind of. -/
theorem Weighs.weigh_dimension (hs : s.Weighs W true m) (ht : t.Weighs W false n)
    (hmn : ∀ w, Atom.Weight W.Covers w → n (w ∘ Factor.kindRoot) = m w) (w : BaseDimension → Rat) :
    PowerProduct.weigh (Factor.dimensionWeight w) s.product =
      PowerProduct.weigh (Factor.dimensionWeight w) t.product := by
  rw [hs.weigh_eq (W.dimensionWeight_weight w), ← hmn _ (W.dimensionWeight_weight w),
    ← ht.weigh_eq (World.kindRoot_weight (W.dimensionWeight_weight w)),
    weigh_dimension_kindRoot ht.within.quantities]

theorem not_implicitlyConvertible_of_dimension (hs : s.Within W) (ht : t.Within W) {y : Dimension}
    (hy : t.dimension = .ok y) (h : ∀ x, s.dimension = .ok x → PowerProduct.same x y = false) :
    Answers (s.implicitlyConvertible t) (· = false) := by
  have hsame : s.same t = false := by
    by_contra hsame
    obtain rfl := hs.eq_of_same ht (by simpa using hsame)
    have hself : PowerProduct.same y y = true := (dimension_same_iff hy hy).mpr fun _ _ => rfl
    rw [h y hy] at hself
    cases hself
  have hno : ∀ k, Answers (Question.answer (k + 1) (.specs s t)) (· = .no) := by
    intro k
    rw [Question.answer, if_neg (by simp [hsame])]
    refine (dimension_answers s).bind fun x hx _ => ?_
    rw [hy]
    exact .of_ok (if_pos (by simp [h x hx])) rfl
  exact (hno _).bind fun grade _ hgrade => .of_ok rfl (by simp [hgrade])

/-- A kind converts to whatever weighs as much as the kind if quantities weigh what the roots of their
kinds weigh. -/
theorem Weighs.implicitlyConvertible (hs : s.Weighs W true m) (ht : t.Weighs W false n)
    (hmn : ∀ w, Atom.Weight W.Covers w → n (w ∘ Factor.kindRoot) = m w) :
    Answers (s.implicitlyConvertible t) (· = true) := by
  have hsame : s.same t = false := by simp [same, hs.isKindOf_eq, ht.isKindOf_eq]
  have hyes : ∀ k, Answers (Question.answer (k + 2) (.specs s t)) (· = .yes) := by
    intro k
    rw [Question.answer, if_neg (by simp [hsame])]
    refine (dimension_answers s).bind fun x hx _ => (dimension_answers t).bind fun y hy _ => ?_
    have hdimension : PowerProduct.same x y = true :=
      (dimension_same_iff hx hy).mpr fun w _ => hs.weigh_dimension ht hmn w
    rw [if_neg (by simp [hdimension]), if_pos (by simp [hs.isKindOf_eq])]
    refine ht.kindTreeRoot.bind fun root _ hroot => ?_
    have hsRoot : s.removeKind.Weighs W false m := ⟨hs.within.removeKind, rfl, hs.weigh_eq⟩
    obtain rfl : s.removeKind = root := hsRoot.eq (hroot.congr hmn)
    rw [if_pos hs.isKindOf_eq, kindTreeRoot_kind hs.isKindOf_eq]
    have hself := Question.answer_same hsRoot.within.same_self k
    exact .of_ok (by simp [bind, Except.bind, hself]) rfl
  exact (hyes _).bind fun grade _ hgrade => .of_ok rfl (by simp [hgrade])

end QuantitySpec

end Metrology
