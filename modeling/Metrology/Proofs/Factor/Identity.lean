import Metrology.Catalog.Si
import Metrology.Proofs.Factor.Order

/-!
# What the order of factors identifies

A comparison that finds two factors equal takes the one for the other, so it has to say exactly when two
factors are the same. `Identical` states that without comparing anything: base dimensions, primes,
constants and quantities by their symbols and names, named units by their names whether they are defined
or not, and other units by what they are built from. The four comparisons recurse into each other, and
together they are one total order up to identity.
-/

namespace Metrology

namespace PowerProduct

variable {α : Type} {same : α → α → Prop} {a b : PowerProduct α}

/-- The same powers of factors that are the same, one after the other. -/
def Agree (same : α → α → Prop) (a b : PowerProduct α) : Prop :=
  List.Forall₂ (fun s t => same s.factor t.factor ∧ s.power = t.power) a b

theorem cmp_eq_iff_agree [Atom α] (hsame : ∀ f g, Atom.cmp f g = .eq ↔ same f g) :
    cmp a b = .eq ↔ Agree same a b := by
  unfold Agree
  induction a generalizing b with
  | nil => cases b <;> simp [cmp]
  | cons s a ih =>
    cases b with
    | nil => simp [cmp]
    | cons t b => rw [cmp_cons_eq_iff, hsame, ih, List.forall₂_cons, and_assoc]

end PowerProduct

/-! ### Identity -/

namespace MagnitudeBase

inductive Identical : MagnitudeBase → MagnitudeBase → Prop where
  | prime (p : Nat) : Identical (.prime p) (.prime p)
  | constant {c d : Constant} : c.symbol.unicode = d.symbol.unicode →
      Identical (.constant c) (.constant d)

theorem cmp_eq_iff_identical (a b : MagnitudeBase) : Atom.cmp a b = .eq ↔ a.Identical b := by
  constructor
  · intro h
    cases a <;> cases b
    · exact Nat.compare_eq_eq.mp h ▸ .prime _
    · cases h
    · cases h
    · exact .constant (compareText_eq_iff.mp h)
  · rintro (p | hsymbol)
    · exact cmp_self _
    · exact compareText_eq_iff.mpr hsymbol

end MagnitudeBase

mutual

inductive Factor.Identical : Factor → Factor → Prop where
  | dimension {d e : BaseDimension} : d.symbol = e.symbol →
      Factor.Identical (.dimension d) (.dimension e)
  | prime (p : Nat) : Factor.Identical (.prime p) (.prime p)
  | constant {c d : Constant} : c.symbol.unicode = d.symbol.unicode →
      Factor.Identical (.constant c) (.constant d)
  | unit {u v : MeasureUnit} : UnitForm.Identical u.form v.form →
      Factor.Identical (.unit u) (.unit v)
  | quantity {q r : NamedQuantity} : q.name = r.name → Factor.Identical (.quantity q) (.quantity r)

/-- The magnitude of a prefix does not matter, nor does the definition of a named unit. -/
inductive UnitForm.Identical : UnitForm → UnitForm → Prop where
  | one : UnitForm.Identical .one .one
  | named {f g : UnitForm} {name : String} : f.name? = some name → g.name? = some name →
      UnitForm.Identical f g
  | prefixed {s t : Symbol} {m n : Magnitude} {u v : MeasureUnit} : s.unicode = t.unicode →
      UnitForm.Identical u.form v.form → UnitForm.Identical (.prefixed s m u) (.prefixed t n v)
  | scaled {m n : Magnitude} {u v : MeasureUnit} : PowerProduct.Agree MagnitudeBase.Identical m n →
      UnitForm.Identical u.form v.form → UnitForm.Identical (.scaled m u) (.scaled n v)
  | derived {e f : List (Term Factor)} : RecipesIdentical e f →
      UnitForm.Identical (.derived e) (.derived f)

inductive RecipesIdentical : List (Term Factor) → List (Term Factor) → Prop where
  | nil : RecipesIdentical [] []
  | cons {s t : Term Factor} {e f : List (Term Factor)} : Factor.Identical s.factor t.factor →
      s.power = t.power → RecipesIdentical e f → RecipesIdentical (s :: e) (t :: f)

end

def MeasureUnit.Identical (u v : MeasureUnit) : Prop := u.form.Identical v.form

theorem Factor.Identical.rank_eq {a b : Factor} (h : a.Identical b) : a.rank = b.rank := by
  cases h <;> rfl

theorem UnitForm.Identical.rank_eq {f g : UnitForm} (h : f.Identical g) : f.rank = g.rank := by
  cases h with
  | named hf hg => cases f <;> cases hf <;> cases g <;> cases hg <;> rfl
  | _ => rfl

theorem UnitForm.identical_of_name {f g : UnitForm} {m n : String} (hf : f.name? = some m)
    (hg : g.name? = some n) : f.Identical g ↔ m = n := by
  constructor
  · intro h
    cases h with
    | named hf' hg' => rw [← Option.some.inj (hf'.symm.trans hf), ← Option.some.inj (hg'.symm.trans hg)]
    | _ => cases hf
  · rintro rfl
    exact .named hf hg

/-! ### Comparison finds exactly the identical -/

mutual

theorem Factor.cmp_eq_iff_identical (a b : Factor) : a.cmp b = .eq ↔ a.Identical b := by
  by_cases hrank : a.rank = b.rank
  · cases a with
    | dimension d =>
      cases b <;> simp only [Factor.rank, reduceCtorEq] at hrank
      rw [Factor.cmp, compareText_eq_iff]
      exact ⟨.dimension, fun h => by cases h; assumption⟩
    | prime p =>
      cases b <;> simp [Factor.rank] at hrank
      rw [Factor.cmp, Nat.compare_eq_eq]
      exact ⟨fun h => h ▸ .prime p, fun h => by cases h; rfl⟩
    | constant c =>
      cases b <;> simp [Factor.rank] at hrank
      rw [Factor.cmp, Symbol.cmp, compareText_eq_iff]
      exact ⟨.constant, fun h => by cases h; assumption⟩
    | unit u =>
      cases b <;> simp [Factor.rank] at hrank
      rw [Factor.cmp, MeasureUnit.cmp_eq_iff_identical u]
      exact ⟨.unit, fun h => by cases h; assumption⟩
    | quantity q =>
      cases b <;> simp [Factor.rank] at hrank
      rw [Factor.cmp, NamedQuantity.cmp_eq_iff]
      exact ⟨.quantity, fun h => by cases h; assumption⟩
  · rw [Factor.cmp_of_rank_ne a b hrank, Nat.compare_eq_eq]
    exact ⟨fun h => absurd h hrank, fun h => absurd h.rank_eq hrank⟩
termination_by structural a

theorem MeasureUnit.cmp_eq_iff_identical (u v : MeasureUnit) : u.cmp v = .eq ↔ u.Identical v := by
  cases u with
  | mk f _ _ =>
    cases v with
    | mk g _ _ => exact UnitForm.cmp_eq_iff_identical f g
termination_by structural u

theorem UnitForm.cmp_eq_iff_identical (f g : UnitForm) : f.cmp g = .eq ↔ f.Identical g := by
  by_cases hrank : f.rank = g.rank
  · cases f with
    | one =>
      cases g <;> simp [UnitForm.rank] at hrank
      exact ⟨fun _ => .one, fun _ => rfl⟩
    | base m _ =>
      cases g <;> simp [UnitForm.rank] at hrank
      all_goals
        rw [UnitForm.cmp_of_name rfl rfl, UnitForm.identical_of_name rfl rfl, compareText_eq_iff]
    | defined m _ _ _ =>
      cases g <;> simp [UnitForm.rank] at hrank
      all_goals
        rw [UnitForm.cmp_of_name rfl rfl, UnitForm.identical_of_name rfl rfl, compareText_eq_iff]
    | prefixed s m u =>
      cases g <;> simp [UnitForm.rank] at hrank
      rw [UnitForm.cmp, Ordering.then_eq_eq, MeasureUnit.cmp_eq_iff_identical u, Symbol.cmp,
        compareText_eq_iff]
      refine ⟨fun h => .prefixed h.2 h.1, fun h => ?_⟩
      cases h with
      | named hname => cases hname
      | prefixed hsymbol hunit => exact ⟨hunit, hsymbol⟩
    | scaled m u =>
      cases g <;> simp [UnitForm.rank] at hrank
      rw [UnitForm.cmp, Ordering.then_eq_eq, MeasureUnit.cmp_eq_iff_identical u,
        PowerProduct.cmp_eq_iff_agree MagnitudeBase.cmp_eq_iff_identical]
      refine ⟨fun h => .scaled h.2 h.1, fun h => ?_⟩
      cases h with
      | named hname => cases hname
      | scaled hmagnitude hunit => exact ⟨hunit, hmagnitude⟩
    | derived e =>
      cases g <;> simp [UnitForm.rank] at hrank
      rw [UnitForm.cmp, cmpTerms_eq_iff_identical e]
      refine ⟨.derived, fun h => ?_⟩
      cases h with
      | named hname => cases hname
      | derived hrecipe => exact hrecipe
  · rw [UnitForm.cmp_of_rank_ne f g hrank, Nat.compare_eq_eq]
    exact ⟨fun h => absurd h hrank, fun h => absurd h.rank_eq hrank⟩
termination_by structural f

theorem cmpTerms_eq_iff_identical (e f : List (Term Factor)) :
    cmpTerms e f = .eq ↔ RecipesIdentical e f := by
  cases e with
  | nil =>
    cases f with
    | nil => exact ⟨fun _ => .nil, fun _ => rfl⟩
    | cons t f => exact ⟨fun h => (nomatch h), fun h => (nomatch h)⟩
  | cons s e =>
    cases f with
    | nil => exact ⟨fun h => (nomatch h), fun h => (nomatch h)⟩
    | cons t f =>
      rw [cmpTerms, Ordering.then_eq_eq, cmpTerms_eq_iff_identical e, cmpTerm_eq_iff_identical s]
      constructor
      · rintro ⟨⟨hfactor, hpower⟩, hrest⟩
        exact .cons hfactor hpower hrest
      · rintro (_ | ⟨hfactor, hpower, hrest⟩)
        exact ⟨⟨hfactor, hpower⟩, hrest⟩
termination_by structural e

theorem cmpTerm_eq_iff_identical (s t : Term Factor) :
    cmpTerm s t = .eq ↔ s.factor.Identical t.factor ∧ s.power = t.power := by
  cases s with
  | mk f p =>
    cases t with
    | mk g q =>
      rw [cmpTerm, Ordering.then_eq_eq, Factor.cmp_eq_iff_identical f,
        Std.LawfulEqCmp.compare_eq_iff_eq]
termination_by structural s

end

/-! ### The laws -/

/-- On the values with `S` a comparison is a total order, and it does not tell apart exactly those that
are the same. -/
structure TotalOrderOn {α : Type} (S : α → Prop) (cmp : α → α → Ordering) (same : α → α → Prop) :
    Prop where
  swap {a b : α} : S a → S b → cmp a b = (cmp b a).swap
  isLE_trans {a b c : α} : S a → S b → S c → (cmp a b).isLE → (cmp b c).isLE → (cmp a c).isLE
  lt_trans {a b c : α} : S a → S b → S c → cmp a b = .lt → cmp b c = .lt → cmp a c = .lt
  eq_iff {a b : α} : S a → S b → (cmp a b = .eq ↔ same a b)

theorem TotalOrderOn.of_consistent {α : Type} {S : α → Prop} {cmp : α → α → Ordering}
    {same : α → α → Prop} (hself : ∀ a, S a → cmp a a = .eq)
    (hcmp : ∀ a b c, S a → S b → S c → Consistent (cmp a b) (cmp b c) (cmp a c))
    (heq : ∀ a b, cmp a b = .eq ↔ same a b) : TotalOrderOn S cmp same where
  swap {a b} ha hb := (hcmp a b a ha hb ha).swap_eq (hself a ha)
  isLE_trans {a b c} ha hb hc := (hcmp a b c ha hb hc).isLE_trans
  lt_trans {a b c} ha hb hc hab hbc := (hcmp a b c ha hb hc).2.2 (hab.trans hbc.symm) |>.trans hab
  eq_iff {a b} _ _ := heq a b

/-- The comparisons of factors, units, quantities and expressions are one total order up to identity. -/
structure ComparisonLaws (P : NamedQuantity → Prop) : Prop where
  factors : TotalOrderOn (Factor.QuantitiesIn P) Factor.cmp Factor.Identical
  units : TotalOrderOn (MeasureUnit.QuantitiesIn P) MeasureUnit.cmp MeasureUnit.Identical
  quantities : TotalOrderOn P NamedQuantity.cmp fun q r => q.name = r.name
  expressions : TotalOrderOn (PowerProduct.Over (Factor.QuantitiesIn P))
    (PowerProduct.cmp : FactorProduct → FactorProduct → Ordering) (PowerProduct.Agree Factor.Identical)

theorem comparison_laws {P : NamedQuantity → Prop} (hP : NamedQuantity.Coherent P) :
    ComparisonLaws P where
  factors := .of_consistent (fun f _ => f.cmp_self) (Factor.cmp_consistent hP)
    Factor.cmp_eq_iff_identical
  units := .of_consistent (fun u _ => u.cmp_self) (MeasureUnit.cmp_consistent hP)
    MeasureUnit.cmp_eq_iff_identical
  quantities := .of_consistent (fun q _ => q.cmp_self)
    (fun _ _ _ => NamedQuantity.cmp_consistent hP) fun _ _ => NamedQuantity.cmp_eq_iff
  expressions := .of_consistent
    (fun _ => PowerProduct.cmp_self (Factor.orderedOn_of_coherent hP))
    (fun _ _ _ => PowerProduct.cmp_consistent (Factor.orderedOn_of_coherent hP))
    fun _ _ => PowerProduct.cmp_eq_iff_agree Factor.cmp_eq_iff_identical

section Lengths

open Catalog

/-- A prefix of this symbol in front of the metre, whatever it multiplies by. -/
def prefixedMetre (symbol : String) (magnitude : Magnitude) : MeasureUnit :=
  .mk (.prefixed (.plain symbol) magnitude Si.metre) none none

/-- The names of lengths decide, and of two prefixes with one symbol neither comes first. -/
theorem comparison_laws_lengths :
    (Factor.quantity Isq.distance).cmp (.quantity Isq.width) = .lt ∧
      (prefixedMetre "k" [⟨.prime 2, .one⟩]).cmp (prefixedMetre "k" [⟨.prime 3, .one⟩]) = .eq := by
  have laws := comparison_laws (NamedQuantity.Coherent.of_unique fun _ _ => World.lengths.eq_of_name)
  have hholds : ∀ q ∈ [Isq.distance, Isq.height, Isq.width],
      (Factor.quantity q).QuantitiesIn World.lengths.Holds := by
    intro q hq
    rw [Factor.quantitiesIn_quantity]
    apply World.lengths_holds
    simp only [List.mem_cons, List.not_mem_nil, or_false] at hq
    rcases hq with rfl | rfl | rfl <;> simp
  refine ⟨laws.factors.lt_trans (hholds _ (by simp)) (hholds Isq.height (by simp))
    (hholds _ (by simp)) (by decide +kernel) (by decide +kernel), ?_⟩
  have hprefixed : ∀ symbol magnitude,
      (prefixedMetre symbol magnitude).QuantitiesIn World.lengths.Holds := by
    intro symbol magnitude
    have hmetre : Si.metre.QuantitiesIn World.lengths.Holds := by trivial
    simpa [prefixedMetre, MeasureUnit.QuantitiesIn, UnitForm.QuantitiesIn] using hmetre
  exact (laws.units.eq_iff (hprefixed _ _) (hprefixed _ _)).mpr (.prefixed rfl (.named rfl rfl))

end Lengths

end Metrology
