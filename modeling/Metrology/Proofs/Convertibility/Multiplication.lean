import Metrology.Proofs.Convertibility.Search

/-!
# Multiplication and implicit conversion

A product of two quantities is sorted by their names, and the search pairs the factors of one tree in
that order. So a product converts implicitly to the product of what its factors convert to, unless both
factors belong to one tree and their targets are sorted the other way round. Then each factor meets the
target of the other.
-/

namespace Metrology

namespace NamedQuantity

/-- `a` stands before `b` in the product of both. The dimensionless quantity stands in no product. -/
def leads (a b : NamedQuantity) : Bool :=
  !a.isDimensionless && (b.isDimensionless || a.cmp b == .lt)

/-- The factors belong to one tree and their targets are sorted the other way round. -/
def exchanged (a a' b b' : NamedQuantity) : Bool :=
  a.haveCommonBase b && (a.leads b && b'.leads a' || b.leads a && a'.leads b')

/-- How freely the product of `a` and `b` converts to that of `a'` and `b'`. -/
def productGrade (a a' b b' : NamedQuantity) : Convertibility :=
  if a.exchanged a' b b' then (a.convertibleInTree b').min (b.convertibleInTree a') else .yes

theorem leads_iff {a b : NamedQuantity} : a.leads b = true ↔
    a.isDimensionless = false ∧ (b.isDimensionless = true ∨ a.cmp b = .lt) := by
  simp [leads]

theorem convertibleInTree_of_dimensionless {W : World} {q : NamedQuantity} (hq : W.Holds q)
    (h : dimensionless.convertibleInTree q = .yes) : q = .dimensionless := by
  by_cases hsame : dimensionless.same q = true
  · exact ((W.same_iff_eq W.dimensionless_holds hq).mp hsame).symm
  · have hchild : dimensionless.isChildOf q = false := by
      simp [isChildOf, depth_top parent?_dimensionless]
    unfold convertibleInTree at h
    simp only [if_neg hsame, hchild, Bool.false_eq_true, if_false] at h
    split at h
    · cases h
    · split at h <;> cases h

end NamedQuantity

/-! ### Matchings of two exchanges -/

namespace Matching

variable {W : World} {a a' b b' : NamedQuantity}

theorem pair (ha : W.Holds a) (ha' : W.Holds a') (hb : W.Holds b) (hb' : W.Holds b')
    (haa' : a.treeRoot = a'.treeRoot) (hbb' : b.treeRoot = b'.treeRoot)
    (haproper : a.isDimensionless = false) (hbproper : b.isDimensionless = false)
    (hdistinct : ¬ (a = b ∧ a' = b'))
    (horder : a.treeRoot = b.treeRoot →
      Exchange.Precedes ⟨a, a', 1⟩ ⟨b, b', 1⟩ ∨ Exchange.Precedes ⟨b, b', 1⟩ ⟨a, a', 1⟩) :
    Matching W [⟨a, a', 1⟩, ⟨b, b', 1⟩] := by
  constructor
  case source => exact ⟨by simp [ha, hb], by simp, by simp [Exchange.positive]⟩
  case target => exact ⟨by simp [ha', hb'], by simp, by simp [Exchange.positive]⟩
  case tree => simp [haa', hbb']
  case source_proper => simp [haproper, hbproper]
  case vanishing => simp [Exchange.positive]
  case uncrossed =>
    intro x hx y hy htree _
    simp only [List.mem_cons, List.not_mem_nil, or_false] at hx hy
    rcases hx with rfl | rfl <;> rcases hy with rfl | rfl
    · exact .inl (Exchange.precedes_self _)
    · exact horder htree
    · exact (horder htree.symm).symm
    · exact .inl (Exchange.precedes_self _)
  case distinct => simpa using hdistinct

theorem square (ha : W.Holds a) (ha' : W.Holds a') (haa' : a.treeRoot = a'.treeRoot)
    (haproper : a.isDimensionless = false) : Matching W [⟨a, a', 2⟩] :=
  .single (x := ⟨a, a', 2⟩) ha ha' haa' haproper (by simp) fun _ => by simp [Exchange.positive]

theorem leads_asymm (ha : W.Holds a) (hb : W.Holds b) (h : a.leads b = true) : b.leads a = false := by
  rw [NamedQuantity.leads_iff] at h
  apply Bool.eq_false_iff.mpr
  intro hback
  rw [NamedQuantity.leads_iff] at hback
  rcases h.2 with hdim | hlt
  · rw [hback.1] at hdim
    cases hdim
  · rcases hback.2 with hdim | hgt
    · rw [h.1] at hdim
      cases hdim
    · rw [(W.cmp_gt_iff ha hb).mpr hgt] at hlt
      cases hlt

theorem precedes_of_leads (ha : W.Holds a) (ha' : W.Holds a') (hb : W.Holds b) (hb' : W.Holds b')
    (hbproper : b.isDimensionless = false) (hsource : b.leads a = false) (htarget : b'.leads a' = false) :
    Exchange.Precedes ⟨a, a', 1⟩ ⟨b, b', 1⟩ := by
  rw [Bool.eq_false_iff, Ne, NamedQuantity.leads_iff] at hsource htarget
  refine ⟨fun hgt => hsource ⟨hbproper, .inr ((W.cmp_gt_iff ha hb).mp hgt)⟩, ?_⟩
  show b'.isDimensionless = true ∨ a'.isDimensionless = false ∧ a'.cmp b' ≠ .gt
  cases hdim : b'.isDimensionless with
  | true => exact .inl rfl
  | false =>
    refine .inr ⟨Bool.eq_false_iff.mpr fun hdim' => htarget ⟨hdim, .inl hdim'⟩, fun hgt => ?_⟩
    exact htarget ⟨hdim, .inr ((W.cmp_gt_iff ha' hb').mp hgt)⟩

/-- Unless the factors are exchanged, one of them comes first together with its target. -/
theorem precedes_of_not_exchanged (ha : W.Holds a) (ha' : W.Holds a') (hb : W.Holds b)
    (hb' : W.Holds b') (haproper : a.isDimensionless = false) (hbproper : b.isDimensionless = false)
    (h : a.exchanged a' b b' = false) (htree : a.treeRoot = b.treeRoot) :
    Exchange.Precedes ⟨a, a', 1⟩ ⟨b, b', 1⟩ ∨ Exchange.Precedes ⟨b, b', 1⟩ ⟨a, a', 1⟩ := by
  have hcommon : a.haveCommonBase b = true := (W.haveCommonBase_iff ha hb).mpr htree
  simp only [NamedQuantity.exchanged, hcommon, Bool.true_and, Bool.or_eq_false_iff] at h
  cases hba : b.leads a with
  | true =>
    have hback : a'.leads b' = false := by simpa [hba] using h.2
    exact .inr (precedes_of_leads hb hb' ha ha' haproper (leads_asymm hb ha hba) hback)
  | false =>
    cases hba' : b'.leads a' with
    | true =>
      have hforth : a.leads b = false := by simpa [hba'] using h.1
      exact .inr (precedes_of_leads hb hb' ha ha' haproper hforth (leads_asymm hb' ha' hba'))
    | false => exact .inl (precedes_of_leads ha ha' hb hb' hbproper hba hba')

theorem treeRoot_eq_of_exchanged (ha : W.Holds a) (hb : W.Holds b) (h : a.exchanged a' b b' = true) :
    a.treeRoot = b.treeRoot := by
  rw [NamedQuantity.exchanged, Bool.and_eq_true] at h
  exact (W.haveCommonBase_iff ha hb).mp h.1

/-- No factor is exchanged with itself. -/
theorem ne_of_exchanged (ha : W.Holds a) (h : a.exchanged a' b b' = true) : a ≠ b := by
  rintro rfl
  have hself : a.leads a = false := by
    by_contra hleads
    exact hleads (leads_asymm ha ha (Bool.of_not_eq_false hleads))
  simp [NamedQuantity.exchanged, hself] at h

/-- Factors that are their own targets are not exchanged. -/
theorem productGrade_self (ha : W.Holds a) (hb : W.Holds b) : a.productGrade a b b = .yes := by
  unfold NamedQuantity.productGrade
  split
  · rename_i hexchanged
    simp only [NamedQuantity.exchanged, Bool.and_eq_true, Bool.or_eq_true] at hexchanged
    rcases hexchanged.2 with ⟨hab, hba⟩ | ⟨hba, hab⟩
    · rw [leads_asymm ha hb hab] at hba
      cases hba
    · rw [leads_asymm ha hb hab] at hba
      cases hba
  · rfl

/-- Of exchanged factors, one comes first together with the target of the other. -/
theorem precedes_of_exchanged (ha : W.Holds a) (ha' : W.Holds a') (hb : W.Holds b) (hb' : W.Holds b')
    (haproper : a.isDimensionless = false) (hbproper : b.isDimensionless = false)
    (h : a.exchanged a' b b' = true) :
    Exchange.Precedes ⟨a, b', 1⟩ ⟨b, a', 1⟩ ∨ Exchange.Precedes ⟨b, a', 1⟩ ⟨a, b', 1⟩ := by
  simp only [NamedQuantity.exchanged, Bool.and_eq_true, Bool.or_eq_true] at h
  rcases h.2 with ⟨hab, hba'⟩ | ⟨hba, hab'⟩
  · exact .inl (precedes_of_leads ha hb' hb ha' hbproper (leads_asymm ha hb hab)
      (leads_asymm hb' ha' hba'))
  · exact .inr (precedes_of_leads hb ha' ha hb' haproper (leads_asymm hb ha hba)
      (leads_asymm ha' hb' hab'))

theorem sumsFit_of_le_two {T : List Exchange} (hnat : ∀ x ∈ T, ∃ n : Nat, x.power = n)
    (hsum : (T.map (·.power)).sum ≤ 2) : SumsFit T := by
  intro l hl
  obtain ⟨m, hm, hmT⟩ := hl
  have hle : l.sum ≤ 2 := by
    rw [← hm.sum_eq]
    refine (hmT.sum_le_sum fun r hr => ?_).trans hsum
    obtain ⟨x, hx, rfl⟩ := List.mem_map.mp hr
    obtain ⟨n, hn⟩ := hnat x hx
    rw [hn]
    exact Nat.cast_nonneg n
  have hwhole : ∀ r ∈ l, ∃ n : Nat, r = n := by
    intro r hr
    obtain ⟨x, hx, rfl⟩ := List.mem_map.mp (hmT.mem (hm.mem_iff.mpr hr))
    exact hnat x hx
  have hsum : ∃ n : Nat, l.sum = n := by
    clear hm hle
    induction l with
    | nil => exact ⟨0, by simp⟩
    | cons r l ih =>
      obtain ⟨n, hn⟩ := hwhole r List.mem_cons_self
      obtain ⟨k, hk⟩ := ih fun r hr => hwhole r (List.mem_cons_of_mem _ hr)
      exact ⟨n + k, by rw [List.sum_cons, hn, hk]; push_cast; rfl⟩
  obtain ⟨n, hn⟩ := hsum
  rw [hn] at hle ⊢
  have hn : n ≤ 2 := by exact_mod_cast hle
  interval_cases n <;> decide

theorem sumsFit_pair : SumsFit [⟨a, a', 1⟩, ⟨b, b', 1⟩] :=
  sumsFit_of_le_two (by simpa using ⟨1, Nat.cast_one.symm⟩) (by norm_num)

theorem sumsFit_square : SumsFit [⟨a, a', 2⟩] :=
  sumsFit_of_le_two (by simpa using ⟨2, rfl⟩) (by norm_num)

end Matching

namespace QuantitySpec

section Product

variable {W : World} {a b : NamedQuantity}

/-- Two factors make a product of two terms, or the square of one. -/
theorem exists_mul_terms (hb : b.isDimensionless = false) :
    ∃ e, PowerProduct.mul [⟨Factor.quantity a, .one⟩] [⟨.quantity b, .one⟩] = .ok e ∧ e ≠ [] ∧
      PowerProduct.single? e = none := by
  have hproper : (Ratio.one.isZero || Atom.isNeutral (Factor.quantity b)) = false := by
    rw [show Atom.isNeutral (Factor.quantity b) = b.isDimensionless from rfl, hb]
    rfl
  unfold PowerProduct.mul PowerProduct.mulTerm
  simp only [List.foldlM_cons, List.foldlM_nil, hproper, Bool.false_eq_true, if_false, PowerProduct.place]
  cases Atom.cmp (Factor.quantity a) (.quantity b) with
  | lt => exact ⟨_, rfl, by simp, rfl⟩
  | eq =>
    obtain ⟨two, htwo⟩ : ∃ two, Ratio.one.add .one = .ok two := ⟨⟨2, by decide⟩, by norm_num⟩
    have hvalue : two.value = 2 := by
      rw [Ratio.add_eq_ok.mp htwo]
      norm_num
    have hzero : two.isZero = false := by
      rw [Bool.eq_false_iff, Ne, Ratio.isZero_iff, hvalue]
      norm_num
    have hone : two ≠ .one := by
      rintro rfl
      norm_num at hvalue
    refine ⟨[⟨.quantity a, two⟩], ?_, by simp, by simp [PowerProduct.single?, hone]⟩
    simp only [htwo, bind, Except.bind, hzero, Bool.false_eq_true, if_false]
    rfl
  | gt => exact ⟨_, rfl, by simp, rfl⟩

theorem dimensionless_mul_named (b : NamedQuantity) :
    (named .dimensionless).mul (named b) = .ok (named b) := by
  have hproduct : PowerProduct.mul (named .dimensionless).product (named b).product =
      .ok (named b).product := PowerProduct.one_mul_canonical canonical_named
  rw [QuantitySpec.mul, hproduct]
  rfl

theorem mul_named_dimensionless (a : NamedQuantity) :
    (named a).mul (named .dimensionless) = .ok (named a) := rfl

/-- Two quantities always have a product, and no name stands for it unless one of them is the
dimensionless quantity. -/
theorem exists_mul_named (ha : W.Holds a) (hb : W.Holds b) : ∃ s, (named a).mul (named b) = .ok s ∧
    (a.isDimensionless = false → b.isDimensionless = false → s.named? = none) := by
  cases haproper : a.isDimensionless with
  | true =>
    obtain rfl := W.eq_dimensionless ha haproper
    exact ⟨_, dimensionless_mul_named b, fun h => by cases h⟩
  | false =>
    cases hbproper : b.isDimensionless with
    | true =>
      obtain rfl := W.eq_dimensionless hb hbproper
      exact ⟨_, mul_named_dimensionless a, fun _ h => by cases h⟩
    | false =>
      obtain ⟨e, hproduct, hne, hsingle⟩ := @exists_mul_terms a b hbproper
      rw [← named_product haproper, ← named_product hbproper] at hproduct
      refine ⟨⟨e, false⟩, by rw [QuantitySpec.mul, hproduct]; rfl, fun _ _ => ?_⟩
      have hone : PowerProduct.isOne e = false := by simpa [Bool.eq_false_iff] using hne
      unfold named?
      simp only [hone, hsingle]
      rfl

theorem mul_named_spec {s : QuantitySpec} (ha : W.Holds a) (hb : W.Holds b)
    (h : (named a).mul (named b) = .ok s) : s.Within W ∧ s.isKindOf = false ∧
      ∀ w, Atom.Weight W.Covers w →
        PowerProduct.weigh w s.product = w (.quantity a) + w (.quantity b) := by
  refine ⟨(Within.named ha).mul (.named hb) h, ?_⟩
  obtain ⟨product, hproduct, hs⟩ := bind_eq_ok.mp h
  obtain rfl := pure_eq_ok.mp hs
  refine ⟨rfl, fun w hw => ?_⟩
  rw [← weigh_named ha hw, ← weigh_named hb hw]
  exact PowerProduct.weigh_mul hw (covers_named ha) (covers_named hb) hproduct

theorem presents_pair {s : QuantitySpec} {side : Exchange → NamedQuantity} {x y : Exchange}
    (hs : s.Within W) (hx : x.power = 1) (hy : y.power = 1)
    (hweigh : ∀ w, Atom.Weight W.Covers w →
      PowerProduct.weigh w s.product = w (.quantity (side x)) + w (.quantity (side y))) :
    Presents W side [x, y] s.product where
  covered := hs.covered
  canonical := hs.canonical
  weigh_eq w hw := by simp [hweigh w hw, Exchange.total, hx, hy]

/-- What both factors present together if they are one and the same. -/
theorem presents_square {s : QuantitySpec} {side : Exchange → NamedQuantity} {x : Exchange}
    (hs : s.Within W) (hx : x.power = 2)
    (hweigh : ∀ w, Atom.Weight W.Covers w →
      PowerProduct.weigh w s.product = w (.quantity (side x)) + w (.quantity (side x))) :
    Presents W side [x] s.product where
  covered := hs.covered
  canonical := hs.canonical
  weigh_eq w hw := by simp [hweigh w hw, Exchange.total, hx, two_mul]

end Product

section Factors

variable {W : World} {a a' b b' : NamedQuantity} {s t : QuantitySpec}
  (ha : W.Holds a) (ha' : W.Holds a') (hb : W.Holds b) (hb' : W.Holds b')
  (haproper : a.isDimensionless = false) (hbproper : b.isDimensionless = false)
  (hfirst : a.convertibleInTree a' = .yes) (hsecond : b.convertibleInTree b' = .yes)
  (hs : s.Within W) (ht : t.Within W)
  (hsweigh : ∀ w, Atom.Weight W.Covers w →
    PowerProduct.weigh w s.product = w (.quantity a) + w (.quantity b))
  (htweigh : ∀ w, Atom.Weight W.Covers w →
    PowerProduct.weigh w t.product = w (.quantity a') + w (.quantity b'))

include ha ha' hb hb' haproper hbproper hfirst hsecond hs ht hsweigh htweigh

/-- The matching that the search finds between two products of two factors: each factor with its own
target, or with that of the other if the factors are exchanged. -/
theorem exists_matching :
    ∃ T, Matching W T ∧ T.length ≤ 2 ∧ SumsFit T ∧ Presents W Exchange.source T s.product ∧
      Presents W Exchange.target T t.product ∧ Exchange.leastGrade T = a.productGrade a' b b' := by
  have haa' := W.treeRoot_eq_of_convertibleInTree ha ha' hfirst
  have hbb' := W.treeRoot_eq_of_convertibleInTree hb hb' hsecond
  cases hexchanged : a.exchanged a' b b' with
  | true =>
    have htree := Matching.treeRoot_eq_of_exchanged ha hb hexchanged
    have hne : ¬ (a = b ∧ b' = a') := fun h => Matching.ne_of_exchanged ha hexchanged h.1
    refine ⟨[⟨a, b', 1⟩, ⟨b, a', 1⟩], .pair ha hb' hb ha' (htree.trans hbb') (htree.symm.trans haa')
      haproper hbproper hne fun _ =>
        Matching.precedes_of_exchanged ha ha' hb hb' haproper hbproper hexchanged, le_refl 2,
      Matching.sumsFit_pair, presents_pair hs rfl rfl hsweigh, presents_pair ht rfl rfl ?_, ?_⟩
    · intro w hw
      rw [htweigh w hw, add_comm]
    · rw [NamedQuantity.productGrade, if_pos hexchanged]
      show Convertibility.min _ (Convertibility.min _ .yes) = _
      rw [Convertibility.min_yes]
      rfl
  | false =>
    have hgrade : a.productGrade a' b b' = .yes := by simp [NamedQuantity.productGrade, hexchanged]
    rw [hgrade]
    by_cases hsame : a = b ∧ a' = b'
    · obtain ⟨rfl, rfl⟩ := hsame
      refine ⟨[⟨a, a', 2⟩], .square ha ha' haa' haproper, Nat.le_succ 1, Matching.sumsFit_square,
        presents_square hs rfl hsweigh, presents_square ht rfl htweigh, ?_⟩
      simp [Exchange.leastGrade, Exchange.grade, hfirst, Convertibility.min]
    · refine ⟨[⟨a, a', 1⟩, ⟨b, b', 1⟩], .pair ha ha' hb hb' haa' hbb' haproper hbproper hsame
        (Matching.precedes_of_not_exchanged ha ha' hb hb' haproper hbproper hexchanged), le_refl 2,
        Matching.sumsFit_pair, presents_pair hs rfl rfl hsweigh, presents_pair ht rfl rfl htweigh, ?_⟩
      simp [Exchange.leastGrade, Exchange.grade, hfirst, hsecond, Convertibility.min]

theorem productGrade_of_same (hsame : s.same t = true) : a.productGrade a' b b' = .yes := by
  have hproduct : PowerProduct.same s.product t.product = true := by
    rw [same, Bool.and_eq_true] at hsame
    exact hsame.2
  have hweigh : ∀ w, Atom.Weight W.Covers w →
      PowerProduct.weigh w t.product = w (.quantity a) + w (.quantity b) := by
    intro w hw
    rw [← PowerProduct.weigh_of_same hw hs.covered ht.covered hproduct, hsweigh w hw]
  -- Two matchings with the same sides get the same answer, and one of them exchanges nothing.
  obtain ⟨T, hT, hlength, hfits, hsource, htarget, hgrade⟩ := exists_matching ha ha' hb hb' haproper
    hbproper hfirst hsecond hs ht hsweigh htweigh
  obtain ⟨S, hS, hlength', hfits', hsource', htarget', hgrade'⟩ := exists_matching ha ha hb hb haproper
    hbproper a.convertibleInTree_self b.convertibleInTree_self hs ht hsweigh hweigh
  obtain ⟨g, hg, rfl⟩ := (Question.answer_matching hT hsource htarget (n := 4) (by omega)).result hfits
  obtain ⟨h, hh, rfl⟩ := (Question.answer_matching hS hsource' htarget' (n := 4) (by omega)).result hfits'
  rw [← hgrade, Question.answer_unique hg hh, hgrade', Matching.productGrade_self ha hb]

end Factors

/-- The product of two quantities converts to the product of what they convert to implicitly, unless
they are exchanged. -/
theorem convertible_mul {W : World} {a a' b b' : NamedQuantity} (ha : W.Holds a) (ha' : W.Holds a')
    (hb : W.Holds b) (hb' : W.Holds b') (haa' : (named a).convertible (named a') = .ok .yes)
    (hbb' : (named b).convertible (named b') = .ok .yes) :
    ∃ s t, (named a).mul (named b) = .ok s ∧ (named a').mul (named b') = .ok t ∧
      (∀ g, s.convertible t = .ok g → g = a.productGrade a' b b') ∧
      ∀ x y, s.dimension = .ok x → t.dimension = .ok y → ∃ g, s.convertible t = .ok g := by
  have hfirst : a.convertibleInTree a' = .yes := Question.convertibleInTree_of_answer ha ha' haa'
  have hsecond : b.convertibleInTree b' = .yes := Question.convertibleInTree_of_answer hb hb' hbb'
  cases haproper : a.isDimensionless with
  | true =>
    obtain rfl := W.eq_dimensionless ha haproper
    obtain rfl := NamedQuantity.convertibleInTree_of_dimensionless ha' hfirst
    have hgrade : NamedQuantity.dimensionless.productGrade .dimensionless b b' = .yes := by
      simp [NamedQuantity.productGrade, NamedQuantity.exchanged, NamedQuantity.leads, haproper]
    refine ⟨_, _, dimensionless_mul_named b, dimensionless_mul_named b', fun g hg => ?_,
      fun _ _ _ _ => ⟨_, hbb'⟩⟩
    rw [hgrade, Except.ok.inj (hg.symm.trans hbb')]
  | false =>
    cases hbproper : b.isDimensionless with
    | true =>
      obtain rfl := W.eq_dimensionless hb hbproper
      obtain rfl := NamedQuantity.convertibleInTree_of_dimensionless hb' hsecond
      have hgrade : a.productGrade a' .dimensionless .dimensionless = .yes := by
        simp [NamedQuantity.productGrade, NamedQuantity.exchanged, NamedQuantity.leads, hbproper]
      refine ⟨_, _, mul_named_dimensionless a, mul_named_dimensionless a', fun g hg => ?_,
        fun _ _ _ _ => ⟨_, haa'⟩⟩
      rw [hgrade, Except.ok.inj (hg.symm.trans haa')]
    | false =>
      obtain ⟨s, hs, hname⟩ := exists_mul_named ha hb
      -- Either target may still be dimensionless, so nothing is said about the name of the other side.
      obtain ⟨t, ht, -⟩ := exists_mul_named ha' hb'
      obtain ⟨hsW, hskind, hsweigh⟩ := mul_named_spec ha hb hs
      obtain ⟨htW, htkind, htweigh⟩ := mul_named_spec ha' hb' ht
      refine ⟨s, t, hs, ht, ?_⟩
      cases hsame : s.same t with
      | true =>
        have hconvertible : s.convertible t = .ok .yes := Question.answer_same hsame _
        rw [productGrade_of_same ha ha' hb hb' haproper hbproper hfirst hsecond hsW htW hsweigh htweigh
          hsame, hconvertible]
        exact ⟨fun g hg => (Except.ok.inj hg).symm, fun _ _ _ _ => ⟨_, rfl⟩⟩
      | false =>
        obtain ⟨T, hT, hlength, hfits, hsource, htarget, hgrade⟩ := exists_matching ha ha' hb hb' haproper
          hbproper hfirst hsecond hsW htW hsweigh htweigh
        have hresult : ∀ x y, s.dimension = .ok x → t.dimension = .ok y →
            s.convertible t = .ok (a.productGrade a' b b') := by
          intro x y hx hy
          obtain ⟨g, hg, rfl⟩ := (convertible_matching hT hsource htarget hskind htkind
            (hname haproper hbproper) hsame hx hy (by omega)).result hfits
          rw [hg, hgrade]
        refine ⟨fun g hg => ?_, fun x y hx hy => ⟨_, hresult x y hx hy⟩⟩
        obtain ⟨x, y, hx, hy⟩ := Question.dimension_of_answer hsame hg
        exact Except.ok.inj (hg.symm.trans (hresult x y hx hy))

section Lengths

open Catalog

/-- A distance is a path length and a height is a height, but in the product of both the height meets
the path length first. -/
theorem convertible_mul_lengths :
    (named Isq.distance).convertible (named Isq.pathLength) = .ok .yes ∧
      (named Isq.height).convertible (named Isq.height) = .ok .yes ∧
      ∃ s t, (named Isq.distance).mul (named Isq.height) = .ok s ∧
        (named Isq.pathLength).mul (named Isq.height) = .ok t ∧ s.convertible t = .ok .cast := by
  have hdistance : World.lengths.Holds Isq.distance := World.lengths_holds (by simp)
  have hpathLength : World.lengths.Holds Isq.pathLength := World.lengths_holds (by simp)
  have hheight : World.lengths.Holds Isq.height := World.lengths_holds (by simp)
  have hfirst : (named Isq.distance).convertible (named Isq.pathLength) = .ok .yes := by
    decide +kernel
  have hsecond : (named Isq.height).convertible (named Isq.height) = .ok .yes := by
    decide +kernel
  obtain ⟨s, t, hs, ht, hgrade, hresult⟩ :=
    convertible_mul hdistance hpathLength hheight hheight hfirst hsecond
  refine ⟨hfirst, hsecond, s, t, hs, ht, ?_⟩
  have hdimensions : ((do
      let s ← (named Isq.distance).mul (named Isq.height)
      let t ← (named Isq.pathLength).mul (named Isq.height)
      return (← s.dimension, ← t.dimension)) : Except Fault _).isOk = true := by
    decide +kernel
  obtain ⟨_, hdimensions⟩ := exists_eq_ok hdimensions
  obtain ⟨s', hs', hrest⟩ := bind_eq_ok.mp hdimensions
  obtain ⟨t', ht', hrest⟩ := bind_eq_ok.mp hrest
  obtain ⟨x, hx, hrest⟩ := bind_eq_ok.mp hrest
  obtain ⟨y, hy, -⟩ := bind_eq_ok.mp hrest
  obtain rfl := Except.ok.inj (hs.symm.trans hs')
  obtain rfl := Except.ok.inj (ht.symm.trans ht')
  obtain ⟨g, hg⟩ := hresult x y hx hy
  rw [hg, hgrade g hg]
  decide +kernel

theorem not_convertible_mul_yes : ¬ ∀ (W : World) (a a' b b' : NamedQuantity), W.Holds a → W.Holds a' →
    W.Holds b → W.Holds b' → (named a).convertible (named a') = .ok .yes →
    (named b).convertible (named b') = .ok .yes → ∀ s t, (named a).mul (named b) = .ok s →
    (named a').mul (named b') = .ok t → s.convertible t = .ok .yes := by
  intro hcompatible
  have hdistance : World.lengths.Holds Isq.distance := World.lengths_holds (by simp)
  have hpathLength : World.lengths.Holds Isq.pathLength := World.lengths_holds (by simp)
  have hheight : World.lengths.Holds Isq.height := World.lengths_holds (by simp)
  have hconvertible : (do
      let s ← (named Isq.distance).mul (named Isq.height)
      let t ← (named Isq.pathLength).mul (named Isq.height)
      s.convertible t) = .ok .cast := by
    decide +kernel
  obtain ⟨s, hs, hrest⟩ := bind_eq_ok.mp hconvertible
  obtain ⟨t, ht, hcast⟩ := bind_eq_ok.mp hrest
  have hyes := hcompatible World.lengths Isq.distance Isq.pathLength Isq.height Isq.height hdistance
    hpathLength hheight hheight (by decide +kernel) (by decide +kernel) s t hs ht
  rw [hcast] at hyes
  cases hyes

end Lengths

end QuantitySpec

end Metrology
