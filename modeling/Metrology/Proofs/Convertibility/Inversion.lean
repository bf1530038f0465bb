import Metrology.Proofs.Convertibility.Commutation
import Metrology.Proofs.Convertibility.Plain
import Metrology.Proofs.Convertibility.Named

/-!
# Inversion of both sides

Reciprocals convert as freely as the quantities themselves if the search never comes to a state where it
tells numerators from denominators. Names have to be looked at apart, since a quantity is compared by its
name and its reciprocal is not.
-/

namespace Metrology

namespace QuantitySpec

variable {W : World} {a b a' b' s t : QuantitySpec} {g g' : Convertibility}

/-- Names of one dimension are names of one tree, and the dimensionless quantity is compared with no
other one of its tree. -/
def NamedAlike (s t : QuantitySpec) : Prop :=
  ∀ p q, s.named? = some p → t.named? = some q → p.dimension = q.dimension →
    p.treeRoot = q.treeRoot ∧ p.isDimensionless = q.isDimensionless

theorem inverse_spec (ha : a.Within W) (h : a.inverse = .ok a') :
    a'.Within W ∧ a'.isKindOf = a.isKindOf ∧ FactorProduct.Reciprocal W a.product a'.product ∧
      ∀ w, PowerProduct.weigh w a'.product = -PowerProduct.weigh w a.product := by
  have hwithin := ha.pow h
  obtain ⟨product, hproduct, hr⟩ := bind_eq_ok.mp h
  obtain rfl := pure_eq_ok.mp hr
  exact ⟨hwithin, rfl, FactorProduct.reciprocal_of_inverse hproduct,
    fun w => PowerProduct.weigh_inverse hproduct⟩

theorem same_of_weigh (hs : s.Within W) (ht : t.Within W) (hkind : s.isKindOf = t.isKindOf)
    (h : ∀ w, Atom.Weight W.Covers w → PowerProduct.weigh w s.product = PowerProduct.weigh w t.product) :
    s.same t = true := by
  rw [same, hkind, beq_self_eq_true, Bool.true_and]
  exact PowerProduct.same_of_weigh W.orderedOn hs.covered ht.covered hs.canonical ht.canonical h

theorem same_inverse (ha : a.Within W) (hb : b.Within W) (hkind : a.isKindOf = b.isKindOf)
    (ha' : a.inverse = .ok a') (hb' : b.inverse = .ok b') : a'.same b' = a.same b := by
  obtain ⟨haW', hakind', -, haweigh⟩ := inverse_spec ha ha'
  obtain ⟨hbW', hbkind', -, hbweigh⟩ := inverse_spec hb hb'
  rw [Bool.eq_iff_iff]
  constructor
  · intro hsame
    obtain rfl := haW'.eq_of_same hbW' hsame
    refine same_of_weigh ha hb hkind fun w _ => ?_
    rw [← neg_inj, ← haweigh, ← hbweigh]
  · intro hsame
    obtain rfl := ha.eq_of_same hb hsame
    obtain rfl := Except.ok.inj (ha'.symm.trans hb')
    exact haW'.same_self

/-- A quantity to the power minus one is compared with another one of its tree within the tree. -/
theorem convertible_opposite {p q : NamedQuantity} (hp : W.Holds p) (hq : W.Holds q)
    (htree : p.treeRoot = q.treeRoot) (hpproper : p.isDimensionless = false)
    (hqproper : q.isDimensionless = false) (hs : s.Within W) (ht : t.Within W)
    (hskind : s.isKindOf = false) (htkind : t.isKindOf = false) (hsame : s.same t = false)
    (hsweigh : ∀ w, Atom.Weight W.Covers w → PowerProduct.weigh w s.product = -w (.quantity p))
    (htweigh : ∀ w, Atom.Weight W.Covers w → PowerProduct.weigh w t.product = -w (.quantity q))
    (h : s.convertible t = .ok g) : g = p.convertibleInTree q := by
  have hmatching : Matching W [⟨p, q, -1⟩] :=
    .single (x := ⟨p, q, -1⟩) hp hq htree hpproper (by simp) fun hvanish => by
      rw [hqproper] at hvanish
      cases hvanish
  have hpresents {side : Exchange → NamedQuantity} {r : QuantitySpec} (hr : r.Within W)
      (hweigh : ∀ w, Atom.Weight W.Covers w → PowerProduct.weigh w r.product =
        -w (.quantity (side ⟨p, q, -1⟩))) : Presents W side [⟨p, q, -1⟩] r.product :=
    ⟨hr.covered, hr.canonical, fun w hw => by simp [hweigh w hw, Exchange.total]⟩
  have hname : s.named? = none := by
    by_contra hsome
    obtain ⟨r, hr⟩ := Option.ne_none_iff_exists'.mp hsome
    obtain ⟨hnamed, hrW⟩ := eq_named_of_named? hs hskind hr
    have hweight := FactorProduct.indicator_weight hp hpproper
    have hpower := hsweigh _ hweight
    rw [hnamed, weigh_named hrW hweight, FactorProduct.indicator_self] at hpower
    by_cases hrp : r = p
    · rw [hrp, FactorProduct.indicator_self] at hpower
      norm_num at hpower
    · rw [FactorProduct.indicator_of_ne hp hrW hrp] at hpower
      norm_num at hpower
  obtain ⟨x, y, hx, hy⟩ := Question.dimension_of_answer hsame h
  have hattains := convertible_matching hmatching (hpresents hs hsweigh) (hpresents ht htweigh) hskind
    htkind hname hsame hx hy (Nat.le_add_left 1 127)
  rcases hattains with ⟨g', hg', rfl⟩ | ⟨herror, -⟩
  · exact (Except.ok.inj (h.symm.trans hg')).trans (Convertibility.min_yes _)
  · cases h.symm.trans herror

/-- What has a name is its quantity, and its reciprocal weighs the opposite. -/
theorem convertible_inverse_named (ha : a.Within W) (hb : b.Within W) (hW : W.Declared)
    (hakind : a.isKindOf = false) (hbkind : b.isKindOf = false) (hs : s.Within W) (ht : t.Within W)
    (hskind : s.isKindOf = false) (htkind : t.isKindOf = false) (hsame : s.same t = false)
    (hsweigh : ∀ w, PowerProduct.weigh w s.product = -PowerProduct.weigh w a.product)
    (htweigh : ∀ w, PowerProduct.weigh w t.product = -PowerProduct.weigh w b.product)
    {p q : NamedQuantity} (hp : a.named? = some p) (hq : b.named? = some q)
    (htree : p.treeRoot = q.treeRoot) (hproper : p.isDimensionless = q.isDimensionless)
    (hg : a.convertible b = .ok g) (hg' : s.convertible t = .ok g') : g = g' := by
  obtain ⟨rfl, hpW⟩ := eq_named_of_named? ha hakind hp
  obtain ⟨rfl, hqW⟩ := eq_named_of_named? hb hbkind hq
  have hx := W.dimension_named hW hpW
  have hy := W.dimension_named hW hqW
  have hgrade : g = p.convertibleInTree q :=
    Except.ok.inj (hg.symm.trans (Question.answer_named hpW hqW htree hx hy _))
  have hpproper : p.isDimensionless = false := by
    by_contra hdim
    have hpdim : p.isDimensionless = true := by simpa using hdim
    obtain rfl := W.eq_dimensionless hpW hpdim
    obtain rfl := W.eq_dimensionless hqW (hproper ▸ hpdim)
    rw [same_of_weigh hs ht (hskind.trans htkind.symm) fun w _ => by rw [hsweigh, htweigh]] at hsame
    cases hsame
  rw [hgrade]
  refine (convertible_opposite hpW hqW htree hpproper (hproper ▸ hpproper) hs ht hskind htkind hsame
    (fun w hw => ?_) (fun w hw => ?_) hg').symm
  · rw [hsweigh, weigh_named hpW hw]
  · rw [htweigh, weigh_named hqW hw]

theorem no_of_dimension_ne {n : Nat} (hs : s.Within W) (ht : t.Within W)
    (h : Question.answer n (.specs s t) = .ok g) {x y : Dimension} (hx : s.dimension = .ok x)
    (hy : t.dimension = .ok y) (hne : PowerProduct.same x y ≠ true) : g = .no := by
  by_contra hg
  exact hne ((dimension_same_iff hx hy).mpr fun w hw => Question.weigh_of_answer hs ht h hg hw)

theorem NamedAlike.of_dimension (h : NamedAlike a b) (hW : W.Declared) (ha : a.Within W)
    (hb : b.Within W) (hakind : a.isKindOf = false) (hbkind : b.isKindOf = false) {p q : NamedQuantity}
    (hp : a.named? = some p) (hq : b.named? = some q) {x y : Dimension} (hx : a.dimension = .ok x)
    (hy : b.dimension = .ok y) (hxy : PowerProduct.same x y = true) :
    p.treeRoot = q.treeRoot ∧ p.isDimensionless = q.isDimensionless := by
  refine h p q hp hq ?_
  obtain ⟨rfl, hpW⟩ := eq_named_of_named? ha hakind hp
  obtain ⟨rfl, hqW⟩ := eq_named_of_named? hb hbkind hq
  obtain rfl := Except.ok.inj (hx.symm.trans (W.dimension_named hW hpW))
  obtain rfl := Except.ok.inj (hy.symm.trans (W.dimension_named hW hqW))
  exact Dimension.eq_of_same hxy

theorem answer_factors (hakind : a.isKindOf = false) (hbkind : b.isKindOf = false)
    (hname : ¬ ∃ p q, a.named? = some p ∧ b.named? = some q) (hsame : a.same b = false) {x y : Dimension}
    (hx : a.dimension = .ok x) (hy : b.dimension = .ok y) (hxy : PowerProduct.same x y = true)
    (hg : a.convertible b = .ok g) : Question.ComesTo (.specs a b) a.product b.product ∧
      ∃ n, Question.answer n (.products a.product b.product) = .ok g := by
  have hname : a.named? = none ∨ b.named? = none := by
    by_contra hboth
    obtain ⟨ha, hb⟩ := not_or.mp hboth
    obtain ⟨p, hp⟩ := Option.ne_none_iff_exists'.mp ha
    obtain ⟨q, hq⟩ := Option.ne_none_iff_exists'.mp hb
    exact hname ⟨p, q, hp, hq⟩
  refine ⟨.single ⟨0, .factors hx hy hxy hakind hbkind hname⟩, ?_⟩
  exact ⟨_, (Question.answer_products hsame hx hy hxy hakind hbkind hname _).symm.trans hg⟩

/-- Where the search is even-handed, reciprocals convert as freely as the quantities themselves, up to
whether the conversion is explicit or implicit, and altogether as freely if no equation used on the source
is inherited. -/
theorem convertible_inverse (hW : W.Declared) (ha : a.Within W) (hb : b.Within W)
    (hakind : a.isKindOf = false) (hbkind : b.isKindOf = false) (ha' : a.inverse = .ok a')
    (hb' : b.inverse = .ok b') (hnames : NamedAlike a b) (hnames' : NamedAlike a' b')
    (heven : Question.IsEvenHanded (.specs a b)) (hg : a.convertible b = .ok g)
    (hg' : a'.convertible b' = .ok g') : g.min .explicit = g'.min .explicit ∧
      (Question.UsesOwnEquations (.specs a b) → g = g') := by
  suffices h : Convertibility.Agrees (Question.UsesOwnEquations (.specs a b)) g g' from
    ⟨h.upToExplicit, h.full⟩
  have hequal (heq : g = g') : Convertibility.Agrees (Question.UsesOwnEquations (.specs a b)) g g' :=
    heq ▸ .refl g
  obtain ⟨haW', hakind', harec, haweigh⟩ := inverse_spec ha ha'
  obtain ⟨hbW', hbkind', hbrec, hbweigh⟩ := inverse_spec hb hb'
  rw [hakind] at hakind'
  rw [hbkind] at hbkind'
  have hsame' := same_inverse ha hb (hakind.trans hbkind.symm) ha' hb'
  cases hsame : a.same b with
  | true =>
    have hyes := hg.symm.trans (Question.answer_same hsame _)
    have hyes' := hg'.symm.trans (Question.answer_same (hsame'.trans hsame) _)
    exact hequal (Except.ok.inj (hyes.trans hyes'.symm))
  | false =>
    rw [hsame] at hsame'
    obtain ⟨x, y, hx, hy⟩ := Question.dimension_of_answer hsame hg
    obtain ⟨x', y', hx', hy'⟩ := Question.dimension_of_answer hsame' hg'
    have hdimension : PowerProduct.same x' y' = true ↔ PowerProduct.same x y = true := by
      rw [dimension_same_iff hx hy, dimension_same_iff hx' hy']
      simp only [haweigh, hbweigh, neg_inj]
    by_cases hxy : PowerProduct.same x y = true
    · have hxy' := hdimension.mpr hxy
      by_cases hnamed : ∃ p q, a.named? = some p ∧ b.named? = some q
      · obtain ⟨p, q, hp, hq⟩ := hnamed
        obtain ⟨htree, hproper⟩ := hnames.of_dimension hW ha hb hakind hbkind hp hq hx hy hxy
        exact hequal (convertible_inverse_named ha hb hW hakind hbkind haW' hbW' hakind' hbkind' hsame'
          haweigh hbweigh hp hq htree hproper hg hg')
      by_cases hnamed' : ∃ p q, a'.named? = some p ∧ b'.named? = some q
      · obtain ⟨p, q, hp, hq⟩ := hnamed'
        obtain ⟨htree, hproper⟩ := hnames'.of_dimension hW haW' hbW' hakind' hbkind' hp hq hx' hy' hxy'
        refine hequal (convertible_inverse_named haW' hbW' hW hakind' hbkind' ha hb hakind hbkind hsame
          (fun w => ?_) (fun w => ?_) hp hq htree hproper hg' hg).symm
        · rw [haweigh, neg_neg]
        · rw [hbweigh, neg_neg]
      obtain ⟨hreached, n, hproducts⟩ := answer_factors hakind hbkind hnamed hsame hx hy hxy hg
      obtain ⟨-, m, hproducts'⟩ := answer_factors hakind' hbkind' hnamed' hsame' hx' hy' hxy' hg'
      exact Question.answer_inverted hW heven
        ⟨⟨ha.quantities, ha.canonical⟩, ⟨hb.quantities, hb.canonical⟩, ⟨haW'.quantities, haW'.canonical⟩,
          ⟨hbW'.quantities, hbW'.canonical⟩, harec, hbrec⟩ hreached hproducts hproducts'
    · have hno := no_of_dimension_ne ha hb hg hx hy hxy
      have hno' := no_of_dimension_ne haW' hbW' hg' hx' hy' (hdimension.not.mpr hxy)
      exact hequal (hno.trans hno'.symm)

end QuantitySpec

/-- A world with one more quantity, whose parent and whose equation it holds already. -/
def DeclaredWorld.add (D : DeclaredWorld) (new : NamedQuantity) (hnew : new.Declared)
    (hparent : ∀ p, new.parent? = some p → D.Holds p)
    (hequation : ∀ e t r, new.equation? = some e → t ∈ e → t.factor = .quantity r → D.Holds r)
    (hname : ∀ q, D.Holds q → q.name ≠ new.name) : DeclaredWorld where
  Holds q := D.Holds q ∨ q = new
  declared := by
    rintro q (hq | rfl)
    · exact D.declared hq
    · exact hnew
  dimensionless_holds := .inl D.dimensionless_holds
  parent_holds := by
    rintro q p (hq | rfl) hp
    · exact .inl (D.parent_holds hq hp)
    · exact .inl (hparent p hp)
  equation_holds := by
    rintro q r e t (hq | rfl) he ht hr
    · exact .inl (D.equation_holds hq he ht hr)
    · exact .inl (hequation e t r he ht hr)
  eq_of_name := by
    rintro a b (ha | rfl) (hb | rfl) hab
    · exact D.eq_of_name ha hb hab
    · exact absurd hab (hname a ha)
    · exact absurd hab.symm (hname b hb)
    · rfl

namespace QuantitySpec

section Angles

open Catalog NamedQuantity

/-- A length per time becomes a width per time explicitly only, and so do their reciprocals. -/
theorem convertible_inverse_widening : ∃ a' b', (ofProduct lengthPerTime).inverse = .ok a' ∧
    (ofProduct widening).inverse = .ok b' ∧
    (ofProduct lengthPerTime).convertible (ofProduct widening) = .ok .explicit ∧
    a'.convertible b' = .ok .explicit := by
  have hg : (ofProduct lengthPerTime).convertible (ofProduct widening) = .ok .explicit := by
    with_unfolding_all rfl
  have ha' : (ofProduct lengthPerTime).inverse =
      .ok (ofProduct [⟨.quantity Isq.length, .minusOne⟩, ⟨.quantity Isq.time, .one⟩]) := by
    with_unfolding_all rfl
  have hb' : (ofProduct widening).inverse =
      .ok (ofProduct [⟨.quantity Isq.width, .minusOne⟩, ⟨.quantity Isq.time, .one⟩]) := by
    with_unfolding_all rfl
  obtain ⟨g', hg'⟩ : ∃ g',
      (ofProduct [⟨.quantity Isq.length, .minusOne⟩, ⟨.quantity Isq.time, .one⟩]).convertible
        (ofProduct [⟨.quantity Isq.width, .minusOne⟩, ⟨.quantity Isq.time, .one⟩]) = .ok g' :=
    ⟨.explicit, by with_unfolding_all rfl⟩
  have hplain : Question.Plain (.specs (ofProduct lengthPerTime) (ofProduct widening)) := by
    refine ⟨⟨rfl, rfl⟩, fun q hq => ?_, fun q hq => ?_⟩ <;>
      simp only [ofProduct, lengthPerTime, widening, PowerProduct.factors_cons, PowerProduct.factors_nil,
        Multiset.mem_cons, Multiset.notMem_zero, or_false, Factor.quantity.injEq] at hq <;>
      rcases hq with rfl | rfl <;>
      exact ⟨by decide, ne_of_apply_ne NamedQuantity.name (by decide)⟩
  have hbalanced : Question.Balanced paces.toWorld (.specs (ofProduct lengthPerTime) (ofProduct widening)) :=
    ⟨lengthPerTime_within, widening_within⟩
  have hW := paces.toWorld_declared
  obtain ⟨-, hfull⟩ := convertible_inverse hW lengthPerTime_within widening_within rfl rfl ha' hb'
    (by rintro _ _ ⟨⟩) (by rintro _ _ ⟨⟩) (hplain.isEvenHanded hW hbalanced) hg hg'
  exact ⟨_, _, ha', hb', hg, hfull (hplain.usesOwnEquations hW hbalanced) ▸ hg'⟩

def perRadius : FactorProduct := [⟨.quantity Isq.length, .one⟩, ⟨.quantity Isq.radius, .minusOne⟩]

/-- The measure of an angle is dimensionless, but of a kind of its own. -/
def angle : NamedQuantity :=
  .child (Isq.nameOf "AngularMeasure") .dimensionless (some perRadius) Dimension.one .scalar true

theorem angle_declared : angle.Declared := by
  have hdimension : (ofProduct perRadius).dimension = .ok Dimension.one := by with_unfolding_all rfl
  have hconvertible : (ofProduct perRadius).convertible (named .dimensionless) = .ok .yes := by
    with_unfolding_all rfl
  have hequation : (childOf (Isq.nameOf "AngularMeasure") .dimensionless).withEquation
      (ofProduct perRadius) = .ok (.child (Isq.nameOf "AngularMeasure") .dimensionless (some perRadius)
        Dimension.one .scalar false) := by
    simp only [childOf, withEquation]
    rw [hdimension, hconvertible]
    rfl
  have hwidth : Isq.width.Declared := .childOf _ (.ofDimension _ (by decide))
  refine .markKind (.withEquation (.childOf _ .dimensionless) ?_ ?_ ?_ hequation)
  · exact ⟨by decide +kernel, by decide +kernel, by decide⟩
  · simp [ofProduct, perRadius]
  · intro t ht r hr
    simp only [ofProduct, perRadius, List.mem_cons, List.not_mem_nil, or_false] at ht
    rcases ht with rfl | rfl <;> obtain rfl := Factor.quantity.inj hr
    · exact .ofDimension _ (by decide)
    · exact .childOf _ hwidth

def angles : DeclaredWorld :=
  (speeds.addChild (Isq.nameOf "Radius") Isq.width (by simp [speeds, speedQuantities])
    (by
      have hnames : ∀ q ∈ speedQuantities, q.name ≠ Isq.nameOf "Radius" := by decide
      exact hnames)).add angle angle_declared
    (by
      intro p hp
      obtain rfl := Option.some.inj hp
      exact .inl (by simp [speeds, speedQuantities]))
    (by
      intro e t r he ht hr
      obtain rfl := Option.some.inj he
      simp only [perRadius, List.mem_cons, List.not_mem_nil, or_false] at ht
      rcases ht with rfl | rfl <;> obtain rfl := Factor.quantity.inj hr
      · exact .inl (by simp [speeds, speedQuantities])
      · exact .inr rfl)
    (by
      have hnames : ∀ q ∈ speedQuantities, q.name ≠ angle.name := by decide
      rintro q (hq | rfl)
      · exact hnames q hq
      · decide)

/-- An angle becomes a dimensionless quantity only explicitly, beyond its kind, but the reciprocal of an
angle does so implicitly. -/
theorem convertible_inverse_angle : ¬ ∀ (W : World) (a b a' b' : QuantitySpec) (g g' : Convertibility),
    W.Declared → a.Within W → b.Within W → a.isKindOf = false → b.isKindOf = false →
    a.inverse = .ok a' → b.inverse = .ok b' → a.convertible b = .ok g → a'.convertible b' = .ok g' →
    g = g' := by
  intro hinvariant
  have hangle : (named angle).Within angles.toWorld := .named (.inr rfl)
  have hone : dimensionless.Within angles.toWorld := .named angles.toWorld.dimensionless_holds
  have hg : (named angle).convertible dimensionless = .ok .explicitBeyondKind := by
    with_unfolding_all rfl
  have hg' : (ofProduct [⟨.quantity angle, .minusOne⟩]).convertible dimensionless = .ok .yes := by
    with_unfolding_all rfl
  have hinverse : (named angle).inverse = .ok (ofProduct [⟨.quantity angle, .minusOne⟩]) := by
    with_unfolding_all rfl
  cases hinvariant angles.toWorld _ _ _ _ _ _ angles.toWorld_declared hangle hone rfl rfl hinverse rfl hg hg'

end Angles

end QuantitySpec

end Metrology
