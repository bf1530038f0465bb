import Metrology.Catalog.Si
import Metrology.Proofs.PowerProduct.Canonical

/-!
# Units that can be built

A unit is built step by step from named units, and every recipe inside a unit that was built is a
product of units that were built themselves. Two units may be compared if they belong to one system of
units, where a name belongs to one unit and a prefix symbol to one magnitude.
-/

namespace Metrology

namespace MeasureUnit

/-- The units that the operations on units construct, each in any number of steps. -/
inductive Built : MeasureUnit → Prop where
  | one : Built .one
  | named (name : String) (symbol : Symbol) : Built (.named name symbol)
  | definedAs {u v w : MeasureUnit} {m : Magnitude} : Built u → PowerProduct.Canonical m → Built v →
      u.definedAs m v = .ok w → Built w
  | associated {u : MeasureUnit} (q : NamedQuantity) : Built u → Built (u.associated q)
  | withOrigin {u : MeasureUnit} (origin : PointOrigin) : Built u → Built (u.withOrigin origin)
  | prefixed {u v : MeasureUnit} {symbol : Symbol} {m : Magnitude} : PowerProduct.Canonical m →
      Built u → MeasureUnit.prefixed symbol m u = .ok v → Built v
  | scaled {u : MeasureUnit} {m : Magnitude} : PowerProduct.Canonical m → Built u →
      Built (MeasureUnit.scaled m u)
  | mul {a b c : MeasureUnit} : Built a → Built b → a.mul b = .ok c → Built c
  | div {a b c : MeasureUnit} : Built a → Built b → a.div b = .ok c → Built c
  | pow {a c : MeasureUnit} {p : Ratio} : Built a → a.pow p = .ok c → Built c

/-- All magnitudes inside a unit are canonical, and all factors of its recipes are units. -/
inductive Sound : MeasureUnit → Prop where
  | one {spec : Option NamedQuantity} {origin : Option PointOrigin} : Sound (.mk .one spec origin)
  | base {name : String} {symbol : Symbol} {spec : Option NamedQuantity}
      {origin : Option PointOrigin} : Sound (.mk (.base name symbol) spec origin)
  | defined {name : String} {symbol : Symbol} {m : Magnitude} {u : MeasureUnit}
      {spec : Option NamedQuantity} {origin : Option PointOrigin} :
      PowerProduct.Canonical m → Sound u → Sound (.mk (.defined name symbol m u) spec origin)
  | prefixed {symbol : Symbol} {m : Magnitude} {u : MeasureUnit} {spec : Option NamedQuantity}
      {origin : Option PointOrigin} :
      PowerProduct.Canonical m → Sound u → Sound (.mk (.prefixed symbol m u) spec origin)
  | scaled {m : Magnitude} {u : MeasureUnit} {spec : Option NamedQuantity}
      {origin : Option PointOrigin} :
      PowerProduct.Canonical m → Sound u → Sound (.mk (.scaled m u) spec origin)
  | derived {recipe : List (Term Factor)} {spec : Option NamedQuantity}
      {origin : Option PointOrigin} :
      (∀ t ∈ recipe, ∃ u, t.factor = .unit u) →
      (∀ t ∈ recipe, ∀ u, t.factor = .unit u → Sound u) →
      Sound (.mk (.derived recipe) spec origin)

/-- What sound units multiply as. -/
def IsSoundFactor (f : Factor) : Prop := ∃ u, f = .unit u ∧ Sound u

/-- Only the form of a unit matters. -/
theorem Sound.of_form {u v : MeasureUnit} (h : u.Sound) (hform : u.form = v.form) : v.Sound := by
  cases u
  cases v
  obtain rfl := hform
  cases h with
  | one => exact .one
  | base => exact .base
  | defined hm hunit => exact .defined hm hunit
  | prefixed hm hunit => exact .prefixed hm hunit
  | scaled hm hunit => exact .scaled hm hunit
  | derived hunits hsound => exact .derived hunits hsound

theorem Sound.factors {recipe : List (Term Factor)} {spec : Option NamedQuantity}
    {origin : Option PointOrigin} (h : Sound (.mk (.derived recipe) spec origin)) :
    PowerProduct.Over IsSoundFactor recipe := by
  cases h with
  | derived hunits hsound =>
    intro t ht
    obtain ⟨u, hu⟩ := hunits t ht
    exact ⟨u, hu, hsound t ht u hu⟩

theorem Sound.product {u : MeasureUnit} (h : u.Sound) : PowerProduct.Over IsSoundFactor u.product := by
  have hself : PowerProduct.Over IsSoundFactor [⟨.unit u, .one⟩] := by
    rw [PowerProduct.over_cons]
    exact ⟨⟨u, rfl, h⟩, PowerProduct.over_nil⟩
  cases h with
  | one => exact PowerProduct.over_nil
  | derived hunits hsound =>
    exact @Sound.factors _ none none (.derived hunits hsound)
  | _ => exact hself

theorem Sound.ofProduct {recipe : FactorProduct} (h : PowerProduct.Over IsSoundFactor recipe) :
    (MeasureUnit.ofProduct recipe).Sound := by
  have hderived : Sound (.mk (.derived recipe) none none) := by
    refine .derived (fun t ht => ?_) fun t ht u hu => ?_
    · obtain ⟨u, hu, -⟩ := h t ht
      exact ⟨u, hu⟩
    · obtain ⟨v, hv, hsound⟩ := h t ht
      obtain rfl : v = u := Factor.unit.inj (hv.symm.trans hu)
      exact hsound
  unfold MeasureUnit.ofProduct
  split
  · exact .one
  · split
    · rename_i u hsingle
      obtain rfl := PowerProduct.single?_eq_some.mp hsingle
      obtain ⟨v, hv, hsound⟩ := (PowerProduct.over_cons.mp h).1
      exact Factor.unit.inj hv ▸ hsound
    · exact hderived

section Results

variable {a b c : MeasureUnit}

theorem mul_eq_ok : a.mul b = .ok c ↔
    ∃ recipe, PowerProduct.mul a.product b.product = .ok recipe ∧ ofProduct recipe = c := by
  rw [mul, bind_eq_ok]
  simp

theorem div_eq_ok : a.div b = .ok c ↔
    ∃ recipe, PowerProduct.div a.product b.product = .ok recipe ∧ ofProduct recipe = c := by
  rw [div, bind_eq_ok]
  simp

theorem pow_eq_ok {p : Ratio} : a.pow p = .ok c ↔
    ∃ recipe, PowerProduct.pow a.product p = .ok recipe ∧ ofProduct recipe = c := by
  rw [pow, bind_eq_ok]
  simp

end Results

theorem Built.sound {u : MeasureUnit} (h : u.Built) : u.Sound := by
  induction h with
  | one => exact .one
  | named name symbol => exact .base
  | @definedAs u v w m _ hm _ hw hu hv =>
    unfold MeasureUnit.definedAs at hw
    split at hw
    · exact Except.ok.inj hw ▸ .defined hm hv
    · exact Except.ok.inj hw ▸ .defined hm hv
    · cases hw
  | associated q _ hu => exact hu.of_form rfl
  | withOrigin origin _ hu => exact hu.of_form rfl
  | @prefixed u v symbol m hm _ hv hu =>
    unfold MeasureUnit.prefixed at hv
    split at hv
    · exact Except.ok.inj hv ▸ .prefixed hm hu
    · exact Except.ok.inj hv ▸ .prefixed hm hu
    · cases hv
  | @scaled u m hm _ hu =>
    unfold MeasureUnit.scaled
    split
    · exact hu
    · exact .scaled hm hu
  | mul _ _ hc ha hb =>
    obtain ⟨recipe, hrecipe, rfl⟩ := mul_eq_ok.mp hc
    exact .ofProduct (PowerProduct.over_mul ha.product hb.product hrecipe)
  | div _ _ hc ha hb =>
    obtain ⟨recipe, hrecipe, rfl⟩ := div_eq_ok.mp hc
    exact .ofProduct (PowerProduct.over_div ha.product hb.product hrecipe)
  | pow _ hc ha =>
    obtain ⟨recipe, hrecipe, rfl⟩ := pow_eq_ok.mp hc
    exact .ofProduct (PowerProduct.over_pow ha.product hrecipe)

end MeasureUnit

namespace UnitForm

/-- The units that a form is directly made of. -/
def parts : UnitForm → List MeasureUnit
  | .one | .base .. => []
  | .defined _ _ _ unit | .prefixed _ _ unit | .scaled _ unit => [unit]
  | .derived recipe => recipe.filterMap fun t =>
    match t.factor with
    | .unit u => some u
    | _ => none

end UnitForm

/-- A collection of units, with all that they are made of, in which a name stands for one form and a
prefix symbol for one magnitude. -/
structure UnitSystem where
  Holds : MeasureUnit → Prop
  part_holds {u v : MeasureUnit} : Holds u → v ∈ u.form.parts → Holds v
  form_eq_of_name {u v : MeasureUnit} {name : String} :
    Holds u → Holds v → u.name? = some name → v.name? = some name → u.form = v.form
  magnitude_eq_of_prefix {u v x y : MeasureUnit} {s t : Symbol} {m n : Magnitude} :
    Holds u → Holds v → u.form = .prefixed s m x → v.form = .prefixed t n y →
      s.unicode = t.unicode → m = n

theorem UnitSystem.factor_holds {W : UnitSystem} {recipe : List (Term Factor)}
    {spec : Option NamedQuantity} {origin : Option PointOrigin}
    (h : W.Holds (.mk (.derived recipe) spec origin)) {t : Term Factor} (ht : t ∈ recipe)
    {u : MeasureUnit} (hu : t.factor = .unit u) : W.Holds u := by
  refine W.part_holds h (List.mem_filterMap.mpr ⟨t, ht, ?_⟩)
  rw [hu]

namespace UnitSystem

open Catalog

def thousand : Magnitude := [⟨.prime 2, ⟨3, by decide⟩⟩, ⟨.prime 5, ⟨3, by decide⟩⟩]

def secondsPerHour : Magnitude :=
  [⟨.prime 2, ⟨4, by decide⟩⟩, ⟨.prime 3, ⟨2, by decide⟩⟩, ⟨.prime 5, ⟨2, by decide⟩⟩]

def kilometre : MeasureUnit := .mk (.prefixed (.plain "k") thousand Si.metre) none none

def hour : MeasureUnit :=
  .mk (.defined (Si.nameOf "Hour") (.plain "h") secondsPerHour Si.second) none none

/-- The units that speeds are made of. -/
def travel : UnitSystem where
  Holds u := u ∈ [Si.metre, Si.second, kilometre, hour]
  part_holds {u v} hu hv := by
    simp only [List.mem_cons, List.not_mem_nil, or_false] at hu
    rcases hu with rfl | rfl | rfl | rfl
    · cases hv
    · cases hv
    · rw [List.mem_singleton.mp hv]
      simp
    · rw [List.mem_singleton.mp hv]
      simp
  form_eq_of_name {u v name} hu hv hname hname' := by
    have hnames := hname.trans hname'.symm
    simp only [List.mem_cons, List.not_mem_nil, or_false] at hu hv
    rcases hu with rfl | rfl | rfl | rfl <;> rcases hv with rfl | rfl | rfl | rfl <;>
      first | rfl | exact absurd hnames (by decide)
  magnitude_eq_of_prefix {u v x y s t m n} hu hv hform hform' _ := by
    simp only [List.mem_cons, List.not_mem_nil, or_false] at hu hv
    rcases hu with rfl | rfl | rfl | rfl <;> cases hform
    rcases hv with rfl | rfl | rfl | rfl <;> cases hform'
    rfl

end UnitSystem

end Metrology
