import Metrology.Proofs.Convertibility.Search

/-!
# Conversion to the root of a kind

A named quantity converts implicitly to the root of its kind. A product need not: the powers of the
roots may cancel where those of the quantities do not. It does convert if no tree contributes two kinds
or stands on both sides of the line. A kind converts to whatever its root converts to.
-/

namespace Metrology

namespace Exchange

theorem leastGrade_eq_yes {T : List Exchange} (h : ∀ x ∈ T, x.grade = .yes) : leastGrade T = .yes := by
  induction T with
  | nil => rfl
  | cons x T ih =>
    rw [List.forall_mem_cons] at h
    rw [leastGrade_cons, h.1, ih h.2]
    rfl

end Exchange

namespace FactorProduct

def kindExchanges (e : FactorProduct) : List Exchange :=
  e.filterMap fun t =>
    match t.factor with
    | .quantity q => some ⟨q, q.kindRoot, t.power.value⟩
    | _ => none

section Exchanges

variable {W : World} {e : FactorProduct}

theorem mem_kindExchanges {x : Exchange} : x ∈ e.kindExchanges ↔
    ∃ q p, ⟨.quantity q, p⟩ ∈ e ∧ x = ⟨q, q.kindRoot, p.value⟩ := by
  unfold kindExchanges
  rw [List.mem_filterMap]
  constructor
  · rintro ⟨⟨factor, power⟩, ht, hx⟩
    cases factor with
    | quantity q => exact ⟨q, power, ht, (Option.some.inj hx).symm⟩
    | _ => cases hx
  · rintro ⟨q, p, ht, rfl⟩
    exact ⟨_, ht, rfl⟩

/-- Either side of the exchanges weighs what the quantities or the roots of their kinds weigh. -/
theorem total_kindExchanges {side : Exchange → NamedQuantity} {g : Factor → Factor}
    (hside : ∀ q p, Factor.quantity (side ⟨q, q.kindRoot, p⟩) = g (.quantity q))
    (he : PowerProduct.Over W.IsQuantity e) (w : Factor → Rat) :
    Exchange.total side w e.kindExchanges = PowerProduct.weigh (w ∘ g) e := by
  induction e with
  | nil => rfl
  | cons t e ih =>
    rw [PowerProduct.over_cons] at he
    obtain ⟨⟨q, hq, -⟩, hrest⟩ := he
    obtain ⟨factor, power⟩ := t
    obtain rfl : factor = .quantity q := hq
    have hcons : kindExchanges (⟨.quantity q, power⟩ :: e) =
        ⟨q, q.kindRoot, power.value⟩ :: kindExchanges e := rfl
    rw [hcons, Exchange.total_cons, ih hrest, PowerProduct.weigh_cons, hside]
    rfl

end Exchanges

end FactorProduct

namespace QuantitySpec

/-- The quantities of one tree are of one kind and stand on one side of the line, and those of the
dimensionless kind stand above it. -/
structure Unmixed (s : QuantitySpec) : Prop where
  kind {q r : NamedQuantity} {p p' : Ratio} : ⟨.quantity q, p⟩ ∈ s.product →
    ⟨.quantity r, p'⟩ ∈ s.product → q.treeRoot = r.treeRoot →
    q.kindRoot = r.kindRoot ∧ p.isPositive = p'.isPositive
  above {q : NamedQuantity} {p : Ratio} : ⟨.quantity q, p⟩ ∈ s.product →
    q.kindRoot.isDimensionless = true → p.isPositive = true

section Unmixed

variable {W : World} {s r : QuantitySpec}

theorem Within.holds (hs : s.Within W) {q : NamedQuantity} {p : Ratio}
    (ht : ⟨.quantity q, p⟩ ∈ s.product) : W.Holds q := by
  obtain ⟨r, hr, hrW⟩ := hs.quantities _ ht
  exact Factor.quantity.inj hr ▸ hrW

theorem positive_kindExchange (q r : NamedQuantity) (p : Ratio) :
    Exchange.positive ⟨q, r, p.value⟩ = p.isPositive := by
  rw [Bool.eq_iff_iff, Ratio.isPositive_iff, Exchange.positive, decide_eq_true_eq]

namespace Unmixed

/-- Either side of the exchanges stays in the tree of the quantity, so no quantity of that side stands on
both sides of the line. -/
theorem coherent (h : s.Unmixed) (hs : s.Within W) {side : Exchange → NamedQuantity}
    (hholds : ∀ q p, W.Holds q → W.Holds (side ⟨q, q.kindRoot, p⟩))
    (htree : ∀ q p, (side ⟨q, q.kindRoot, p⟩).treeRoot = q.treeRoot) :
    Coherent W side (FactorProduct.kindExchanges s.product) where
  holds x hx := by
    obtain ⟨q, p, ht, rfl⟩ := FactorProduct.mem_kindExchanges.mp hx
    exact hholds q p.value (hs.holds ht)
  power_ne x hx := by
    obtain ⟨q, p, ht, rfl⟩ := FactorProduct.mem_kindExchanges.mp hx
    exact (hs.canonical.proper _ ht).1
  sign x hx y hy hxy _ := by
    obtain ⟨q, p, ht, rfl⟩ := FactorProduct.mem_kindExchanges.mp hx
    obtain ⟨q', p', ht', rfl⟩ := FactorProduct.mem_kindExchanges.mp hy
    have hsame : q.treeRoot = q'.treeRoot := by
      rw [← htree q p.value, hxy, htree q' p'.value]
    rw [positive_kindExchange, positive_kindExchange]
    exact (h.kind ht ht' hsame).2

/-- Of two exchanges in one tree the targets are the same, so the sources decide. -/
theorem precedes (h : s.Unmixed) (hs : s.Within W) {x y : Exchange}
    (hx : x ∈ FactorProduct.kindExchanges s.product) (hy : y ∈ FactorProduct.kindExchanges s.product)
    (htree : x.source.treeRoot = y.source.treeRoot) : x.Precedes y ∨ y.Precedes x := by
  obtain ⟨q, p, ht, rfl⟩ := FactorProduct.mem_kindExchanges.mp hx
  obtain ⟨q', p', ht', rfl⟩ := FactorProduct.mem_kindExchanges.mp hy
  have hkind : q.kindRoot = q'.kindRoot := (h.kind ht ht' htree).1
  have htargets : q'.kindRoot.isDimensionless = true ∨
      q'.kindRoot.isDimensionless = false ∧ q'.kindRoot.cmp q'.kindRoot ≠ .gt := by
    cases q'.kindRoot.isDimensionless with
    | true => exact .inl rfl
    | false => exact .inr ⟨rfl, by simp [NamedQuantity.cmp_self]⟩
  unfold Exchange.Precedes
  dsimp only
  rw [hkind]
  by_cases hgt : q.cmp q' = .gt
  · have hlt : q'.cmp q = .lt := (W.cmp_gt_iff (hs.holds ht) (hs.holds ht')).mp hgt
    exact .inr ⟨by simp [hlt], htargets⟩
  · exact .inl ⟨hgt, htargets⟩

end Unmixed

theorem kindExchanges_pairwise (hs : s.Within W) :
    (FactorProduct.kindExchanges s.product).Pairwise fun x y =>
      ¬ (x.source = y.source ∧ x.target = y.target) := by
  unfold FactorProduct.kindExchanges
  rw [List.pairwise_filterMap]
  apply hs.canonical.sorted.imp
  rintro ⟨factor, power⟩ ⟨factor', power'⟩ hlt x hx y hy ⟨hxy, -⟩
  cases factor with
  | quantity q =>
    cases factor' with
    | quantity q' =>
      obtain rfl := Option.some.inj hx
      obtain rfl := Option.some.inj hy
      obtain rfl : q = q' := hxy
      have hself : q.cmp q = .lt := hlt
      rw [NamedQuantity.cmp_self] at hself
      cases hself
    | _ => cases hy
  | _ => cases hx

/-- Where nothing is mixed the exchanges for the roots are a matching. -/
theorem Unmixed.matching (h : s.Unmixed) (hs : s.Within W) :
    Matching W (FactorProduct.kindExchanges s.product) where
  source := h.coherent hs (fun _ _ hq => hq) fun _ _ => rfl
  target := h.coherent hs (fun _ _ hq => W.kindRoot_holds hq) fun q _ => q.treeRoot_kindRoot
  tree x hx := by
    obtain ⟨q, p, -, rfl⟩ := FactorProduct.mem_kindExchanges.mp hx
    exact q.treeRoot_kindRoot.symm
  source_proper x hx := by
    obtain ⟨q, p, ht, rfl⟩ := FactorProduct.mem_kindExchanges.mp hx
    exact (hs.canonical.proper _ ht).2
  vanishing x hx hdim := by
    obtain ⟨q, p, ht, rfl⟩ := FactorProduct.mem_kindExchanges.mp hx
    rw [positive_kindExchange]
    exact h.above ht hdim
  uncrossed x hx y hy htree _ := h.precedes hs hx hy htree
  distinct := kindExchanges_pairwise hs

/-- Where nothing is mixed the conversion to the root of the kind is implicit. -/
theorem convertible_kindTreeRoot (hs : s.Within W) (hkind : s.isKindOf = false) (h : s.Unmixed)
    (hroot : s.kindTreeRoot = .ok r) {g : Convertibility} (hg : s.convertible r = .ok g) :
    g = .yes := by
  cases hsame : s.same r with
  | true =>
    have hyes : s.convertible r = .ok .yes := Question.answer_same hsame _
    exact Except.ok.inj (hg.symm.trans hyes)
  | false =>
    obtain ⟨x, y, hx, hy⟩ := Question.dimension_of_answer hsame hg
    cases hname : s.named? with
    | some q =>
      obtain ⟨rfl, hq⟩ := eq_named_of_named? hs hkind hname
      obtain rfl : named q.kindRoot = r := Except.ok.inj ((kindTreeRoot_named hq).symm.trans hroot)
      have hanswer := Question.answer_named hq (W.kindRoot_holds hq)
        (NamedQuantity.treeRoot_kindRoot q).symm hx hy
      unfold convertible searchBound at hg
      rw [hanswer, NamedQuantity.convertibleInTree_kindRoot] at hg
      exact (Except.ok.inj hg).symm
    | none =>
      obtain ⟨hr, hrkind, hweigh⟩ := kindTreeRoot_spec hs hkind hroot
      have hsource : Presents W Exchange.source (FactorProduct.kindExchanges s.product) s.product :=
        ⟨hs.covered, hs.canonical, fun w _ =>
          (FactorProduct.total_kindExchanges (g := id) (fun _ _ => rfl) hs.quantities w).symm⟩
      have htarget : Presents W Exchange.target (FactorProduct.kindExchanges s.product) r.product := by
        refine ⟨hr.covered, hr.canonical, fun w hw => ?_⟩
        rw [hweigh w hw]
        exact (FactorProduct.total_kindExchanges (g := Factor.kindRoot) (fun _ _ => rfl)
          hs.quantities w).symm
      have hlength : (FactorProduct.kindExchanges s.product).length ≤ 128 := by
        have hfew := hs.canonical.bounded
        have hle : (FactorProduct.kindExchanges s.product).length ≤ s.product.length :=
          List.length_filterMap_le _ _
        exact (hle.trans hfew).trans (by decide)
      rcases convertible_matching (h.matching hs) hsource htarget hkind hrkind hname hsame hx hy hlength
        with ⟨g', hg', hgrade⟩ | ⟨herror, -⟩
      · rw [Except.ok.inj (hg.symm.trans hg'), hgrade]
        apply Exchange.leastGrade_eq_yes
        intro x hx
        obtain ⟨q, p, -, rfl⟩ := FactorProduct.mem_kindExchanges.mp hx
        exact q.convertibleInTree_kindRoot
      · rw [herror] at hg
        cases hg

end Unmixed

/-! ### Kinds -/

section Kinds

variable {W : World} {s t sRoot tRoot : QuantitySpec} {g : Convertibility}

/-- A kind converts implicitly to whatever its root converts to the root of. -/
theorem convertible_of_roots (hs : s.Within W) (ht : t.Within W) (hkind : s.isKindOf = true)
    (hsRoot : s.kindTreeRoot = .ok sRoot) (htRoot : t.kindTreeRoot = .ok tRoot)
    (hroots : sRoot.convertible tRoot = .ok .yes) (hg : s.convertible t = .ok g) : g = .yes := by
  cases hsame : s.same t with
  | true =>
    have hyes : s.convertible t = .ok .yes := Question.answer_same hsame _
    exact Except.ok.inj (hg.symm.trans hyes)
  | false =>
    obtain ⟨x, y, hx, hy⟩ := Question.dimension_of_answer hsame hg
    have hdimension : PowerProduct.same x y = true := by
      apply (dimension_same_iff hx hy).mpr
      intro w hw
      rw [← weigh_kindTreeRoot hs hsRoot, ← weigh_kindTreeRoot ht htRoot]
      exact Question.weigh_of_answer (kindTreeRoot_within hs hsRoot) (kindTreeRoot_within ht htRoot)
        hroots (by decide) hw
    unfold convertible searchBound at hg
    rw [Question.answer_kind_source hsame hx hy hdimension hkind] at hg
    obtain ⟨targetRoot, htarget, hrest⟩ := bind_eq_ok.mp hg
    obtain ⟨grade, hgrade, hresult⟩ := bind_eq_ok.mp hrest
    obtain rfl := Except.ok.inj (htarget.symm.trans htRoot)
    obtain rfl := Except.ok.inj ((kindTreeRoot_kind hkind).symm.trans hsRoot)
    rw [Question.answer_unique hgrade hroots] at hresult
    exact (pure_eq_ok.mp hresult).symm

theorem convertible_of_target_root (hs : s.Within W) (ht : t.Within W) (hskind : s.isKindOf = false)
    (htkind : t.isKindOf = true) (htRoot : t.kindTreeRoot = .ok tRoot)
    (hroot : s.convertible tRoot = .ok .yes) (hg : s.convertible t = .ok g) : g = .yes := by
  have hsame : s.same t = false := by simp [same, hskind, htkind]
  obtain ⟨x, y, hx, hy⟩ := Question.dimension_of_answer hsame hg
  have hdimension : PowerProduct.same x y = true := by
    apply (dimension_same_iff hx hy).mpr
    intro w hw
    rw [← weigh_kindTreeRoot ht htRoot]
    exact Question.weigh_of_answer hs (kindTreeRoot_within ht htRoot) hroot (by decide) hw
  unfold convertible searchBound at hg
  rw [Question.answer_kind_target hsame hx hy hdimension hskind htkind] at hg
  obtain rfl := Except.ok.inj ((kindTreeRoot_kind htkind).symm.trans htRoot)
  exact Question.answer_unique hg hroot

end Kinds

end QuantitySpec

end Metrology
