import Metrology.Proofs.Factor.Order
import Metrology.Proofs.PowerProduct.Group
import Metrology.Proofs.PowerProduct.Limit

/-!
# Expressions

An expression is a canonical product of factors. Where a name belongs to one quantity, expressions are
the free abelian group with rational exponents over the factors: an expression is the function that
gives each factor its power, and every operation is what it is on such functions. The laws speak of
operations that have a result, and every operation has one unless a power overflows or a product has too
many factors.
-/

namespace Metrology

namespace FactorProduct

/-- A canonical product whose factors mention only quantities with `P`. -/
structure Expression (P : NamedQuantity → Prop) (e : FactorProduct) : Prop where
  covered : PowerProduct.Over (Factor.QuantitiesIn P) e
  canonical : PowerProduct.Canonical e

section Operations

variable {P : NamedQuantity → Prop} {a b c : FactorProduct}

theorem Expression.mul (hS : Atom.OrderedOn (Factor.QuantitiesIn P)) (ha : Expression P a)
    (hb : Expression P b) (h : PowerProduct.mul a b = .ok c) : Expression P c :=
  ⟨PowerProduct.over_mul ha.covered hb.covered h, PowerProduct.canonical_mul hS ha.covered hb.covered ha.canonical h⟩

theorem Expression.div (hS : Atom.OrderedOn (Factor.QuantitiesIn P)) (ha : Expression P a)
    (hb : Expression P b) (h : PowerProduct.div a b = .ok c) : Expression P c :=
  ⟨PowerProduct.over_div ha.covered hb.covered h,
    PowerProduct.canonical_div hS ha.covered hb.covered ha.canonical h⟩

theorem Expression.pow (ha : Expression P a) {p : Ratio} (h : PowerProduct.pow a p = .ok c) :
    Expression P c :=
  ⟨PowerProduct.over_pow ha.covered h, PowerProduct.canonical_pow ha.canonical h⟩

theorem Expression.ofTerms (hS : Atom.OrderedOn (Factor.QuantitiesIn P)) {terms : List (Term Factor)}
    (hterms : PowerProduct.Over (Factor.QuantitiesIn P) terms) (h : PowerProduct.ofTerms terms = .ok c) :
    Expression P c :=
  ⟨PowerProduct.over_mul PowerProduct.over_nil hterms h,
    PowerProduct.canonical_mul hS PowerProduct.over_nil hterms PowerProduct.canonical_one h⟩

end Operations

structure FreeGroup (P : NamedQuantity → Prop) : Prop where
  powerOf_mul : ∀ a b c, Expression P a → Expression P b → PowerProduct.mul a b = .ok c →
    Expression P c ∧ ∀ f : Factor, f.QuantitiesIn P →
      (c.powerOf f).value = (a.powerOf f).value + (b.powerOf f).value
  powerOf_pow : ∀ a p c, Expression P a → PowerProduct.pow a p = .ok c →
    Expression P c ∧ ∀ f : Factor, f.QuantitiesIn P →
      (c.powerOf f).value = p.value * (a.powerOf f).value
  powerOf_ofTerms : ∀ terms c, PowerProduct.Over (Factor.QuantitiesIn P) terms →
    PowerProduct.ofTerms terms = .ok c →
    Expression P c ∧ ∀ f : Factor, f.QuantitiesIn P →
      (c.powerOf f).value = if f.isNeutral then 0 else PowerProduct.totalPower terms f
  /-- An expression has no other data than its powers. -/
  same_of_powers : ∀ a b, Expression P a → Expression P b →
    (∀ f : Factor, f.QuantitiesIn P → a.powerOf f = b.powerOf f) → PowerProduct.same a b = true
  mul_comm : ∀ a b x y, Expression P a → Expression P b → PowerProduct.mul a b = .ok x →
    PowerProduct.mul b a = .ok y → PowerProduct.same x y = true
  mul_assoc : ∀ a b c ab bc x y, Expression P a → Expression P b → Expression P c →
    PowerProduct.mul a b = .ok ab → PowerProduct.mul ab c = .ok x →
    PowerProduct.mul b c = .ok bc → PowerProduct.mul a bc = .ok y → PowerProduct.same x y = true
  mul_one : ∀ a, Expression P a →
    PowerProduct.mul a PowerProduct.one = .ok a ∧ PowerProduct.mul PowerProduct.one a = .ok a
  mul_inverse : ∀ a i, Expression P a → PowerProduct.inverse a = .ok i →
    PowerProduct.mul a i = .ok PowerProduct.one
  mul_div : ∀ a b x y, Expression P a → Expression P b → PowerProduct.mul a b = .ok x →
    PowerProduct.div x b = .ok y → PowerProduct.same y a = true
  mul_pow : ∀ a b p ab ap bp x y, Expression P a → Expression P b → PowerProduct.mul a b = .ok ab →
    PowerProduct.pow ab p = .ok x → PowerProduct.pow a p = .ok ap → PowerProduct.pow b p = .ok bp →
    PowerProduct.mul ap bp = .ok y → PowerProduct.same x y = true
  pow_pow : ∀ a p q r ap x y, Expression P a → PowerProduct.pow a p = .ok ap →
    PowerProduct.pow ap q = .ok x → p.mul q = .ok r → PowerProduct.pow a r = .ok y →
    PowerProduct.same x y = true
  ofTerms_perm : ∀ s t x y, PowerProduct.Over (Factor.QuantitiesIn P) s → List.Perm s t →
    PowerProduct.ofTerms s = .ok x → PowerProduct.ofTerms t = .ok y → PowerProduct.same x y = true
  /-- The terms of an expression already are in their canonical form. -/
  ofTerms_self : ∀ e, Expression P e → PowerProduct.ofTerms e = .ok e
  limits : ∀ a b p, Expression P a → Expression P b →
    Answers (PowerProduct.mul a b) (Expression P) ∧ Answers (PowerProduct.div a b) (Expression P) ∧
      Answers (PowerProduct.pow a p) (Expression P)
  ofTerms_limits : ∀ terms, PowerProduct.Over (Factor.QuantitiesIn P) terms →
    Answers (PowerProduct.ofTerms terms) (Expression P)

theorem free_group {P : NamedQuantity → Prop}
    (hnames : ∀ q r, P q → P r → q.name = r.name → q = r) : FreeGroup P := by
  have hS := Factor.orderedOn hnames
  constructor
  case powerOf_mul =>
    intro a b c ha hb h
    refine ⟨ha.mul hS hb h, fun f hf => ?_⟩
    exact PowerProduct.powerOf_mul hS ha.covered hb.covered ha.canonical hb.canonical h hf
  case powerOf_pow =>
    intro a p c ha h
    exact ⟨ha.pow h, fun f hf => PowerProduct.powerOf_pow hS ha.covered ha.canonical h hf⟩
  case powerOf_ofTerms =>
    intro terms c hterms h
    exact ⟨.ofTerms hS hterms h, fun f hf => PowerProduct.powerOf_ofTerms hS hterms h hf⟩
  case same_of_powers =>
    intro a b ha hb h
    exact PowerProduct.same_of_powerOf hS ha.covered hb.covered ha.canonical hb.canonical h
  case mul_comm =>
    intro a b x y ha hb hx hy
    exact PowerProduct.mul_comm hS ha.covered hb.covered ha.canonical hb.canonical hx hy
  case mul_assoc =>
    intro a b c ab bc x y ha hb hc hab hx hbc hy
    exact PowerProduct.mul_assoc hS ha.covered hb.covered hc.covered ha.canonical hab hx hbc hy
  case mul_one =>
    intro a ha
    exact ⟨PowerProduct.mul_nil a, PowerProduct.one_mul_canonical ha.canonical⟩
  case mul_inverse =>
    intro a i ha h
    exact PowerProduct.mul_inverse hS ha.covered ha.canonical h
  case mul_div =>
    intro a b x y ha hb hx hy
    exact PowerProduct.mul_div_cancel hS ha.covered hb.covered ha.canonical hx hy
  case mul_pow =>
    intro a b p ab ap bp x y ha hb hab hx hap hbp hy
    exact PowerProduct.mul_pow hS ha.covered hb.covered ha.canonical hab hx hap hbp hy
  case pow_pow =>
    intro a p q r ap x y ha hap hx hr hy
    exact PowerProduct.pow_pow hS ha.covered ha.canonical hap hx hr hy
  case ofTerms_perm =>
    intro s t x y hs hperm hx hy
    exact PowerProduct.ofTerms_perm hS hs hperm hx hy
  case ofTerms_self =>
    intro e he
    exact PowerProduct.ofTerms_canonical he.canonical
  case limits =>
    intro a b p ha hb
    refine ⟨?_, ?_, ?_⟩
    · exact (PowerProduct.mul_answers a b).mono fun c hc _ => ha.mul hS hb hc
    · exact (PowerProduct.div_answers a b).mono fun c hc _ => ha.div hS hb hc
    · exact (PowerProduct.pow_answers a p).mono fun c hc _ => ha.pow hc
  case ofTerms_limits =>
    intro terms hterms
    exact (PowerProduct.mul_answers _ terms).mono fun c hc _ => .ofTerms hS hterms hc

/-- The root of a height, and a width times the root of a height: the roots make a whole power. -/
theorem free_group_lengths :
    FreeGroup World.lengths.Holds ∧ ∃ a b c, Expression World.lengths.Holds a ∧
      Expression World.lengths.Holds b ∧ PowerProduct.mul a b = .ok c ∧
      (c.powerOf (.quantity Catalog.Isq.height)).value = 1 := by
  have hgroup : FreeGroup World.lengths.Holds := free_group fun _ _ => World.lengths.eq_of_name
  have hheight : World.lengths.Holds Catalog.Isq.height := World.lengths_holds (by simp)
  have hwidth : World.lengths.Holds Catalog.Isq.width := World.lengths_holds (by simp)
  let half : Ratio := ⟨⟨1, 2, by decide, by decide⟩, by decide⟩
  let root : Term Factor := ⟨.quantity Catalog.Isq.height, half⟩
  let width : Term Factor := ⟨.quantity Catalog.Isq.width, .one⟩
  have hroot : Expression World.lengths.Holds [root] :=
    ⟨by simpa [root] using hheight, by decide⟩
  have hboth : Expression World.lengths.Holds [root, width] :=
    ⟨by simpa [root, width] using ⟨hheight, hwidth⟩, by decide⟩
  obtain ⟨c, hproduct⟩ := exists_eq_ok
    (show (PowerProduct.mul [root] [root, width]).isOk = true by decide +kernel)
  refine ⟨hgroup, _, _, c, hroot, hboth, hproduct, ?_⟩
  rw [(hgroup.powerOf_mul _ _ _ hroot hboth hproduct).2 _ (Factor.quantitiesIn_quantity.mpr hheight)]
  decide +kernel

end FactorProduct

end Metrology
