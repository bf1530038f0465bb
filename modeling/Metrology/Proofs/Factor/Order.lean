import Metrology.Proofs.Factor.World
import Metrology.Proofs.PowerProduct.Weight

/-!
# The order of factors

Within a world the comparison of factors is a total order, although it recurses from factors through
units and recipes back to factors. Units are compared by rank and then by what identifies them;
quantities by the names of their tree, of their kind and of themselves, which is a key because a name
belongs to one quantity.
-/

namespace Metrology

instance : Std.TransCmp compareText := inferInstanceAs (Std.TransOrd String)

instance : Std.LawfulEqCmp compareText := inferInstanceAs (Std.LawfulEqOrd String)

theorem compareText_eq_iff {a b : String} : compareText a b = .eq ↔ a = b :=
  Std.LawfulEqCmp.compare_eq_iff_eq

theorem compareText_self (a : String) : compareText a a = .eq := Std.ReflCmp.compare_self

theorem compareText_consistent (a b c : String) :
    Consistent (compareText a b) (compareText b c) (compareText a c) :=
  .of_transCmp a b c

theorem compareText_swap (a b : String) : (compareText a b).swap = compareText b a :=
  Std.OrientedCmp.eq_swap.symm

/-! ### Bases of dimensions and of magnitudes -/

theorem BaseDimension.orderedOn : Atom.OrderedOn fun _ : BaseDimension => True :=
  .of_consistent (fun d _ => compareText_self d.symbol)
    (fun a b c _ _ _ => compareText_consistent a.symbol b.symbol c.symbol) fun _ _ _ _ _ => rfl

namespace MagnitudeBase

theorem cmp_self (b : MagnitudeBase) : b.cmp b = .eq := by
  cases b with
  | prime p => exact Nat.compare_eq_eq.mpr rfl
  | constant c => exact compareText_self c.symbol.unicode

theorem cmp_consistent (a b c : MagnitudeBase) :
    Consistent (a.cmp b) (b.cmp c) (a.cmp c) := by
  let rank (b : MagnitudeBase) : Nat := (!b.isPrime).toNat
  by_cases hrank : rank a = rank b ∧ rank b = rank c
  · cases a with
    | prime p =>
      cases b with
      | prime q =>
        cases c with
        | prime r => exact @Consistent.of_transCmp Nat compare _ p q r
        | constant => cases hrank.2
      | constant => cases hrank.1
    | constant x =>
      cases b with
      | prime => cases hrank.1
      | constant y =>
        cases c with
        | prime => cases hrank.2
        | constant z => exact compareText_consistent x.symbol.unicode y.symbol.unicode z.symbol.unicode
  · refine .of_rank rank (fun a b h => ?_) hrank
    cases a <;> cases b <;> first | rfl | exact absurd rfl h

theorem orderedOn : Atom.OrderedOn fun _ : MagnitudeBase => True := by
  refine .of_consistent (fun b _ => cmp_self b) (fun a b c _ _ _ => cmp_consistent a b c) ?_
  intro a b _ _ h
  cases a <;> cases b
  · have hpq := Nat.compare_eq_eq.mp h
    exact congrArg (· == 1) hpq
  · cases h
  · cases h
  · rfl

end MagnitudeBase

/-! ### Products -/

namespace PowerProduct

variable {α : Type} [Atom α] {S : α → Prop}

theorem cmp_self (hS : Atom.OrderedOn S) {e : PowerProduct α} (he : Over S e) :
    cmp e e = .eq := by
  induction e with
  | nil => rfl
  | cons t e ih =>
    rw [over_cons] at he
    exact cmp_cons_eq_iff.mpr ⟨hS.self he.1, rfl, ih he.2⟩

theorem cmp_consistent (hS : Atom.OrderedOn S) {a b c : PowerProduct α} (ha : Over S a)
    (hb : Over S b) (hc : Over S c) : Consistent (cmp a b) (cmp b c) (cmp a c) := by
  induction a generalizing b c with
  | nil => cases b <;> cases c <;> simp [cmp, Consistent]
  | cons s a ih =>
    cases b with
    | nil => cases c <;> simp [cmp, Consistent]
    | cons t b =>
      cases c with
      | nil => exact .of_ne_right (by simp [cmp])
      | cons u c =>
        rw [over_cons] at ha hb hc
        exact (hS.consistent ha.1 hb.1 hc.1).lexicographic
          ((Ratio.cmp_consistent s.power t.power u.power).lexicographic (ih ha.2 hb.2 hc.2))

end PowerProduct

theorem Magnitude.over_all (m : Magnitude) : PowerProduct.Over (fun _ => True) m :=
  fun _ _ => trivial

/-! ### Quantities -/

namespace NamedQuantity

theorem cmp_self (q : NamedQuantity) : q.cmp q = .eq := by
  simp [cmp]

/-- Quantities of one name agree on the names of their tree and of their kind, as they do wherever a name
belongs to one quantity only. -/
def Coherent (P : NamedQuantity → Prop) : Prop :=
  ∀ a b, P a → P b → a.name = b.name →
    a.treeRoot.name = b.treeRoot.name ∧ a.kindRoot.name = b.kindRoot.name

theorem Coherent.of_unique {P : NamedQuantity → Prop}
    (h : ∀ a b, P a → P b → a.name = b.name → a = b) : Coherent P := by
  intro a b ha hb hab
  obtain rfl := h a b ha hb hab
  exact ⟨rfl, rfl⟩

/-- Where names are coherent, quantities compare by three names in a row. -/
theorem Coherent.cmp_eq_names {P : NamedQuantity → Prop} (hP : Coherent P) {a b : NamedQuantity}
    (ha : P a) (hb : P b) :
    a.cmp b = (compareText a.treeRoot.name b.treeRoot.name).then
      ((compareText a.kindRoot.name b.kindRoot.name).then (compareText a.name b.name)) := by
  unfold cmp
  by_cases hab : a.name = b.name
  · obtain ⟨htree, hkind⟩ := hP a b ha hb hab
    simp [hab, htree, hkind, compareText_self]
  · rw [if_neg (by simpa using hab)]

theorem cmp_consistent {P : NamedQuantity → Prop} (hP : Coherent P) {a b c : NamedQuantity}
    (ha : P a) (hb : P b) (hc : P c) : Consistent (a.cmp b) (b.cmp c) (a.cmp c) := by
  rw [hP.cmp_eq_names ha hb, hP.cmp_eq_names hb hc, hP.cmp_eq_names ha hc]
  exact (compareText_consistent _ _ _).lexicographic
    ((compareText_consistent _ _ _).lexicographic (compareText_consistent _ _ _))

/-- Only quantities of one name compare as equal. -/
theorem cmp_eq_iff {a b : NamedQuantity} : a.cmp b = .eq ↔ a.name = b.name := by
  unfold cmp
  by_cases hab : a.name = b.name
  · simp [hab]
  · rw [if_neg (by simpa using hab)]
    simp [Ordering.then_eq_eq, hab]

end NamedQuantity

/-! ### Factors, units and recipes -/

theorem Factor.cmp_of_rank_ne (a b : Factor) (h : a.rank ≠ b.rank) :
    a.cmp b = compare a.rank b.rank := by
  cases a <;> cases b <;> first | rfl | exact absurd rfl h

theorem UnitForm.cmp_of_rank_ne (f g : UnitForm) (h : f.rank ≠ g.rank) :
    f.cmp g = compare f.rank g.rank := by
  cases f <;> cases g <;> first | rfl | exact absurd rfl h

/-- Named units compare by their names, whether they have a definition or not. -/
theorem UnitForm.cmp_of_name {f g : UnitForm} {m n : String} (hf : f.name? = some m)
    (hg : g.name? = some n) : f.cmp g = compareText m n := by
  cases f <;> cases hf <;> cases g <;> cases hg <;> rfl

mutual

theorem Factor.cmp_self (f : Factor) : f.cmp f = .eq := by
  match f with
  | .dimension d => exact compareText_self d.symbol
  | .prime p => exact Nat.compare_eq_eq.mpr rfl
  | .constant c => exact compareText_self c.symbol.unicode
  | .unit u => exact MeasureUnit.cmp_self u
  | .quantity q => exact q.cmp_self
termination_by structural f

theorem MeasureUnit.cmp_self (u : MeasureUnit) : u.cmp u = .eq := by
  match u with
  | .mk form _ _ => exact UnitForm.cmp_self form
termination_by structural u

theorem UnitForm.cmp_self (f : UnitForm) : f.cmp f = .eq := by
  match f with
  | .one => rfl
  | .base name _ => exact compareText_self name
  | .defined name _ _ _ => exact compareText_self name
  | .prefixed symbol _ unit =>
    rw [UnitForm.cmp, MeasureUnit.cmp_self unit]
    exact compareText_self symbol.unicode
  | .scaled magnitude unit =>
    rw [UnitForm.cmp, MeasureUnit.cmp_self unit]
    exact PowerProduct.cmp_self MagnitudeBase.orderedOn magnitude.over_all
  | .derived recipe => exact cmpTerms_self recipe
termination_by structural f

theorem cmpTerms_self (e : List (Term Factor)) : cmpTerms e e = .eq := by
  match e with
  | [] => rfl
  | t :: rest =>
    rw [cmpTerms, cmpTerm_self t]
    exact cmpTerms_self rest
termination_by structural e

theorem cmpTerm_self (t : Term Factor) : cmpTerm t t = .eq := by
  match t with
  | ⟨factor, power⟩ =>
    rw [cmpTerm, Factor.cmp_self factor]
    exact power.cmp_self
termination_by structural t

end

section Consistent

variable {P : NamedQuantity → Prop}

mutual

theorem Factor.cmp_consistent (hP : NamedQuantity.Coherent P) (a b c : Factor)
    (ha : a.QuantitiesIn P) (hb : b.QuantitiesIn P) (hc : c.QuantitiesIn P) :
    Consistent (a.cmp b) (b.cmp c) (a.cmp c) := by
  by_cases hrank : a.rank = b.rank ∧ b.rank = c.rank
  · cases a with
    | dimension d =>
      cases b <;> cases c <;> simp [Factor.rank] at hrank
      exact compareText_consistent _ _ _
    | prime p =>
      cases b <;> cases c <;> simp [Factor.rank] at hrank
      exact @Consistent.of_transCmp Nat compare _ _ _ _
    | constant x =>
      cases b <;> cases c <;> simp [Factor.rank] at hrank
      exact compareText_consistent _ _ _
    | unit u =>
      cases b <;> cases c <;> simp [Factor.rank] at hrank
      exact MeasureUnit.cmp_consistent hP u _ _ ha hb hc
    | quantity q =>
      cases b <;> cases c <;> simp [Factor.rank] at hrank
      exact NamedQuantity.cmp_consistent hP ha hb hc
  · exact .of_rank Factor.rank Factor.cmp_of_rank_ne hrank
termination_by structural a

theorem MeasureUnit.cmp_consistent (hP : NamedQuantity.Coherent P)
    (u v w : MeasureUnit) (hu : u.QuantitiesIn P) (hv : v.QuantitiesIn P) (hw : w.QuantitiesIn P) :
    Consistent (u.cmp v) (v.cmp w) (u.cmp w) := by
  cases u with
  | mk f _ _ =>
    cases v with
    | mk g _ _ =>
      cases w with
      | mk h _ _ => exact UnitForm.cmp_consistent hP f g h hu hv hw
termination_by structural u

theorem UnitForm.cmp_consistent (hP : NamedQuantity.Coherent P)
    (f g h : UnitForm) (hf : f.QuantitiesIn P) (hg : g.QuantitiesIn P) (hh : h.QuantitiesIn P) :
    Consistent (f.cmp g) (g.cmp h) (f.cmp h) := by
  by_cases hrank : f.rank = g.rank ∧ g.rank = h.rank
  · cases f with
    | one =>
      cases g <;> cases h <;> simp [UnitForm.rank] at hrank
      decide
    | base m _ =>
      cases g <;> cases h <;> simp [UnitForm.rank] at hrank
      all_goals exact compareText_consistent _ _ _
    | defined m _ _ _ =>
      cases g <;> cases h <;> simp [UnitForm.rank] at hrank
      all_goals exact compareText_consistent _ _ _
    | prefixed s _ u =>
      cases g <;> cases h <;> simp [UnitForm.rank] at hrank
      exact (MeasureUnit.cmp_consistent hP u _ _ hf hg hh).lexicographic
        (compareText_consistent _ _ _)
    | scaled m u =>
      cases g <;> cases h <;> simp [UnitForm.rank] at hrank
      exact (MeasureUnit.cmp_consistent hP u _ _ hf hg hh).lexicographic
        (PowerProduct.cmp_consistent MagnitudeBase.orderedOn m.over_all
          (Magnitude.over_all _) (Magnitude.over_all _))
    | derived e =>
      cases g <;> cases h <;> simp [UnitForm.rank] at hrank
      exact cmpTerms_consistent hP e _ _ hf hg hh
  · exact .of_rank UnitForm.rank UnitForm.cmp_of_rank_ne hrank
termination_by structural f

theorem cmpTerms_consistent (hP : NamedQuantity.Coherent P)
    (a b c : List (Term Factor)) (ha : recipeQuantitiesIn P a) (hb : recipeQuantitiesIn P b)
    (hc : recipeQuantitiesIn P c) :
    Consistent (cmpTerms a b) (cmpTerms b c) (cmpTerms a c) := by
  cases a with
  | nil => cases b <;> cases c <;> simp [cmpTerms, Consistent]
  | cons s a =>
    cases b with
    | nil => cases c <;> simp [cmpTerms, Consistent]
    | cons t b =>
      cases c with
      | nil => exact .of_ne_right (by simp [cmpTerms])
      | cons r c =>
        exact (cmpTerm_consistent hP s t r ha.1 hb.1 hc.1).lexicographic
          (cmpTerms_consistent hP a b c ha.2 hb.2 hc.2)
termination_by structural a

theorem cmpTerm_consistent (hP : NamedQuantity.Coherent P)
    (s t r : Term Factor) (hs : termQuantitiesIn P s) (ht : termQuantitiesIn P t)
    (hr : termQuantitiesIn P r) : Consistent (cmpTerm s t) (cmpTerm t r) (cmpTerm s r) := by
  cases s with
  | mk f p =>
    cases t with
    | mk g q =>
      cases r with
      | mk h o =>
        exact (Factor.cmp_consistent hP f g h hs ht hr).lexicographic (p.cmp_consistent q o)
termination_by structural s

end

end Consistent

/-! ### The comparison read backwards -/

theorem PowerProduct.cmp_swap {α : Type} [Atom α] {S : α → Prop} (hS : Atom.OrderedOn S)
    {a b : PowerProduct α} (ha : Over S a) (hb : Over S b) : (cmp a b).swap = cmp b a := by
  rw [Consistent.swap_eq (cmp_self hS ha) (cmp_consistent hS ha hb ha), Ordering.swap_swap]

theorem NamedQuantity.cmp_swap (q r : NamedQuantity) : (q.cmp r).swap = r.cmp q := by
  unfold cmp
  by_cases hname : q.name = r.name
  · simp [hname]
  · rw [if_neg (by simpa using hname), if_neg (by simpa using Ne.symm hname), Ordering.swap_then,
      Ordering.swap_then, compareText_swap, compareText_swap, compareText_swap]

mutual

theorem Factor.cmp_swap (a b : Factor) : (a.cmp b).swap = b.cmp a := by
  by_cases hrank : a.rank = b.rank
  · cases a with
    | dimension d =>
      cases b <;> simp [Factor.rank] at hrank
      exact compareText_swap _ _
    | prime p =>
      cases b <;> simp [Factor.rank] at hrank
      exact Nat.compare_swap _ _
    | constant c =>
      cases b <;> simp [Factor.rank] at hrank
      exact compareText_swap _ _
    | unit u =>
      cases b <;> simp [Factor.rank] at hrank
      exact MeasureUnit.cmp_swap u _
    | quantity q =>
      cases b <;> simp [Factor.rank] at hrank
      exact q.cmp_swap _
  · rw [Factor.cmp_of_rank_ne a b hrank, Factor.cmp_of_rank_ne b a (Ne.symm hrank), Nat.compare_swap]
termination_by structural a

theorem MeasureUnit.cmp_swap (u v : MeasureUnit) : (u.cmp v).swap = v.cmp u := by
  cases u with
  | mk f _ _ =>
    cases v with
    | mk g _ _ => exact UnitForm.cmp_swap f g
termination_by structural u

theorem UnitForm.cmp_swap (f g : UnitForm) : (f.cmp g).swap = g.cmp f := by
  by_cases hrank : f.rank = g.rank
  · cases f with
    | one =>
      cases g <;> simp [UnitForm.rank] at hrank
      rfl
    | base m _ =>
      cases g <;> simp [UnitForm.rank] at hrank
      all_goals exact compareText_swap _ _
    | defined m _ _ _ =>
      cases g <;> simp [UnitForm.rank] at hrank
      all_goals exact compareText_swap _ _
    | prefixed symbol _ u =>
      cases g <;> simp [UnitForm.rank] at hrank
      rw [UnitForm.cmp, UnitForm.cmp, Ordering.swap_then, MeasureUnit.cmp_swap u]
      exact congrArg _ (compareText_swap _ _)
    | scaled m u =>
      cases g <;> simp [UnitForm.rank] at hrank
      rw [UnitForm.cmp, UnitForm.cmp, Ordering.swap_then, MeasureUnit.cmp_swap u,
        PowerProduct.cmp_swap MagnitudeBase.orderedOn m.over_all (Magnitude.over_all _)]
    | derived e =>
      cases g <;> simp [UnitForm.rank] at hrank
      exact cmpTerms_swap e _
  · rw [UnitForm.cmp_of_rank_ne f g hrank, UnitForm.cmp_of_rank_ne g f (Ne.symm hrank),
      Nat.compare_swap]
termination_by structural f

theorem cmpTerms_swap (a b : List (Term Factor)) : (cmpTerms a b).swap = cmpTerms b a := by
  cases a with
  | nil => cases b <;> rfl
  | cons s a =>
    cases b with
    | nil => rfl
    | cons t b => rw [cmpTerms, cmpTerms, Ordering.swap_then, cmpTerm_swap s t, cmpTerms_swap a b]
termination_by structural a

theorem cmpTerm_swap (s t : Term Factor) : (cmpTerm s t).swap = cmpTerm t s := by
  cases s with
  | mk f p =>
    cases t with
    | mk g q =>
      have hpower : (p.cmp q).swap = q.cmp p := by
        rw [Ratio.cmp_eq_compare, Ratio.cmp_eq_compare, ← Std.OrientedCmp.eq_swap]
      rw [cmpTerm, cmpTerm, Ordering.swap_then, Factor.cmp_swap f g, hpower]
termination_by structural s

end

/-- Of two factors at most one comes before the other. -/
theorem Factor.cmp_asymm {a b : Factor} (h : a.cmp b = .lt) : b.cmp a ≠ .lt := by
  rw [← Factor.cmp_swap, h]
  decide

/-! ### The order of a world -/

/-- Factors that compare as equal are both neutral or both not. -/
theorem Factor.isNeutral_congr {a b : Factor} (h : a.cmp b = .eq) : a.isNeutral = b.isNeutral := by
  have hrank : a.rank = b.rank := by
    by_contra hne
    rw [Factor.cmp_of_rank_ne a b hne] at h
    exact hne (Nat.compare_eq_eq.mp h)
  cases a <;> cases b <;> simp [Factor.rank] at hrank
  · rfl
  · exact congrArg (· == 1) (Nat.compare_eq_eq.mp h)
  · rfl
  · rename_i u v
    cases u with
    | mk f _ _ =>
      cases v with
      | mk g _ _ =>
        cases f <;> cases g <;> first | rfl | cases h
  · exact congrArg (· == NamedQuantity.dimensionlessName) (NamedQuantity.cmp_eq_iff.mp h)

/-- Factors whose quantities have coherent names are totally ordered. -/
theorem Factor.orderedOn_of_coherent {P : NamedQuantity → Prop} (hP : NamedQuantity.Coherent P) :
    Atom.OrderedOn (Factor.QuantitiesIn P) :=
  .of_consistent (fun f _ => f.cmp_self) (fun a b c => Factor.cmp_consistent hP a b c)
    fun _ _ _ _ => Factor.isNeutral_congr

theorem Factor.orderedOn {P : NamedQuantity → Prop}
    (hP : ∀ a b, P a → P b → a.name = b.name → a = b) :
    Atom.OrderedOn (Factor.QuantitiesIn P) :=
  Factor.orderedOn_of_coherent (.of_unique hP)

theorem World.orderedOn (W : World) : Atom.OrderedOn W.Covers :=
  Factor.orderedOn fun _ _ => W.eq_of_name

namespace World

variable {W : World} {a b : NamedQuantity}

theorem cmp_eq_iff (ha : W.Holds a) (hb : W.Holds b) : a.cmp b = .eq ↔ a = b := by
  rw [NamedQuantity.cmp_eq_iff]
  exact ⟨W.eq_of_name ha hb, fun h => h ▸ rfl⟩

theorem cmp_gt_iff (ha : W.Holds a) (hb : W.Holds b) : a.cmp b = .gt ↔ b.cmp a = .lt :=
  W.orderedOn.gt_iff_lt (Factor.quantitiesIn_quantity.mpr ha) (Factor.quantitiesIn_quantity.mpr hb)

end World

end Metrology
