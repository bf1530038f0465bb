import Metrology.Proofs.Convertibility.Fuel
import Metrology.Proofs.QuantitySpec.Within

/-!
# Questions about specifications

Specifications of different dimensions never convert. Otherwise a kind is replaced by its root, named
quantities of one tree are compared within it, and what has no name is compared factor by factor.
-/

namespace Metrology

namespace Question

variable {W : World} {s t : QuantitySpec} {p q : NamedQuantity} {x y : Dimension}
  {g : Convertibility} {n : Nat}

theorem answer_same (h : s.same t = true) (n : Nat) : answer (n + 1) (.specs s t) = .ok .yes := by
  rw [answer, if_pos h]
  rfl

theorem dimension_of_answer (hsame : s.same t = false) (h : answer n (.specs s t) = .ok g) :
    ∃ x y, s.dimension = .ok x ∧ t.dimension = .ok y := by
  cases n with
  | zero => cases h
  | succ n =>
    rw [answer, if_neg (by simp [hsame])] at h
    obtain ⟨x, hx, hrest⟩ := bind_eq_ok.mp h
    obtain ⟨y, hy, -⟩ := bind_eq_ok.mp hrest
    exact ⟨x, y, hx, hy⟩

/-- Only specifications of one dimension convert. -/
theorem weigh_of_answer (hs : s.Within W) (ht : t.Within W) (h : answer n (.specs s t) = .ok g)
    (hg : g ≠ .no) {w : BaseDimension → Rat} (hw : Atom.Weight (fun _ => True) w) :
    PowerProduct.weigh (Factor.dimensionWeight w) s.product =
      PowerProduct.weigh (Factor.dimensionWeight w) t.product := by
  cases hsame : s.same t with
  | true =>
    have hproduct : PowerProduct.same s.product t.product = true := by
      rw [QuantitySpec.same, Bool.and_eq_true] at hsame
      exact hsame.2
    exact PowerProduct.weigh_of_same (W.dimensionWeight_weight w) hs.covered ht.covered hproduct
  | false =>
    obtain ⟨x, y, hx, hy⟩ := dimension_of_answer hsame h
    cases n with
    | zero => cases h
    | succ n =>
      rw [answer, if_neg (by simp [hsame]), hx, hy] at h
      simp only [bind, Except.bind] at h
      by_cases hdimension : PowerProduct.same x y = true
      · exact (QuantitySpec.dimension_same_iff hx hy).mp hdimension w hw
      · rw [if_pos (by simp [hdimension])] at h
        exact absurd (Except.ok.inj h).symm hg

section Step

variable (hsame : s.same t = false) (hx : s.dimension = .ok x) (hy : t.dimension = .ok y)
  (hxy : PowerProduct.same x y = true)

include hsame hx hy hxy

/-- A kind converts as its root does, and an explicit conversion of its root is enough. -/
theorem answer_kind_source (hs : s.isKindOf = true) (n : Nat) :
    answer (n + 1) (.specs s t) = do
      let targetRoot ← t.kindTreeRoot
      let grade ← answer n (.specs s.removeKind targetRoot)
      return if grade = .explicit then .yes else grade := by
  rw [answer, if_neg (by simp [hsame]), hx, hy, QuantitySpec.kindTreeRoot_kind hs]
  simp only [bind, Except.bind, hxy, hs, Bool.not_true, Bool.false_eq_true, if_false, Bool.true_or,
    if_true]

theorem answer_kind_target (hs : s.isKindOf = false) (ht : t.isKindOf = true) (n : Nat) :
    answer (n + 1) (.specs s t) = answer n (.specs s t.removeKind) := by
  rw [answer, if_neg (by simp [hsame]), hx, hy, QuantitySpec.kindTreeRoot_kind ht]
  simp only [bind, Except.bind, hxy, hs, ht, Bool.not_true, Bool.false_eq_true, if_false,
    Bool.or_true, if_true]

theorem answer_products (hs : s.isKindOf = false) (ht : t.isKindOf = false)
    (hname : s.named? = none ∨ t.named? = none) (n : Nat) :
    answer (n + 1) (.specs s t) = answer n (.products s.product t.product) := by
  rw [answer, if_neg (by simp [hsame]), hx, hy]
  simp only [bind, Except.bind, hxy, hs, ht, Bool.not_true, Bool.false_eq_true, if_false,
    Bool.or_self]
  cases hsource : s.named? with
  | none => rfl
  | some p =>
    rw [hname.resolve_left (by simp [hsource])]

end Step

/-! ### Named quantities -/

theorem answer_named (hp : W.Holds p) (hq : W.Holds q) (htree : p.treeRoot = q.treeRoot)
    (hx : (QuantitySpec.named p).dimension = .ok x) (hy : (QuantitySpec.named q).dimension = .ok y)
    (n : Nat) :
    answer (n + 1) (.specs (.named p) (.named q)) = .ok (p.convertibleInTree q) := by
  by_cases hsame : (QuantitySpec.named p).same (.named q) = true
  · rw [answer_same hsame]
    obtain rfl := QuantitySpec.eq_of_named_same hp hq hsame
    rw [NamedQuantity.convertibleInTree_self]
  · have hdimension := QuantitySpec.dimension_same_of_tree hp hq htree hx hy
    have hcommon : p.haveCommonBase q = true := (W.haveCommonBase_iff hp hq).mpr htree
    rw [answer, if_neg hsame, hx, hy, QuantitySpec.named?_named hp, QuantitySpec.named?_named hq]
    simp only [bind, Except.bind, hdimension, hcommon]
    rfl

/-- Quantities of different trees are of different kinds, so the search never gets as far as to compare
their equations. -/
theorem answer_named_apart (hp : W.Holds p) (hq : W.Holds q) (htree : p.treeRoot ≠ q.treeRoot)
    (hx : (QuantitySpec.named p).dimension = .ok x) (hy : (QuantitySpec.named q).dimension = .ok y)
    (n : Nat) : answer (n + 1) (.specs (.named p) (.named q)) = .ok .no := by
  have hsame : (QuantitySpec.named p).same (.named q) = false := by
    apply Bool.eq_false_iff.mpr
    intro hsame
    exact htree (QuantitySpec.eq_of_named_same hp hq hsame ▸ rfl)
  have hcommon : p.haveCommonBase q = false := by
    rw [Bool.eq_false_iff, Ne, W.haveCommonBase_iff hp hq]
    exact htree
  have hkind : p.kindRoot.same q.kindRoot = false :=
    Bool.eq_false_iff.mpr fun hkind => htree (W.treeRoot_eq_of_kindRoot hp hq hkind)
  rw [answer, if_neg (by simp [hsame]), hx, hy, QuantitySpec.named?_named hp,
    QuantitySpec.named?_named hq]
  simp only [bind, Except.bind, hcommon, hkind]
  by_cases hdimension : PowerProduct.same x y = true
  · simp [hdimension, QuantitySpec.named, QuantitySpec.ofProduct, pure, Except.pure]
  · simp [hdimension, pure, Except.pure]

/-- Between named quantities implicit conversion stays within a tree. -/
theorem convertibleInTree_of_answer (hp : W.Holds p) (hq : W.Holds q)
    (h : answer n (.specs (.named p) (.named q)) = .ok .yes) : p.convertibleInTree q = .yes := by
  cases hsame : (QuantitySpec.named p).same (.named q) with
  | true =>
    obtain rfl := QuantitySpec.eq_of_named_same hp hq hsame
    exact p.convertibleInTree_self
  | false =>
    obtain ⟨x, y, hx, hy⟩ := dimension_of_answer hsame h
    cases n with
    | zero => cases h
    | succ n =>
      by_cases htree : p.treeRoot = q.treeRoot
      · rw [answer_named hp hq htree hx hy] at h
        exact Except.ok.inj h
      · rw [answer_named_apart hp hq htree hx hy] at h
        cases h

end Question

end Metrology
