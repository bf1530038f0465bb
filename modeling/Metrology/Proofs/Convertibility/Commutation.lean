import Metrology.Proofs.Convertibility.CommonSpec
import Metrology.Proofs.Convertibility.Conservation
import Metrology.Proofs.Hierarchy.CommonAncestor

/-!
# Exchanging the operands of a common specification

The common specification does not depend on which operand comes first, with one exception. Ties between
operands that become each other are broken by a rule that knows no order, and a closest common ancestor
is the same from either side. But two roots of kinds may become each other as well, when one is a named
quantity and the other its equation, and there the root of the second operand is taken.
-/

namespace Metrology

namespace QuantitySpec

variable {W : World} {a b aRoot bRoot : QuantitySpec} {x y : Option QuantitySpec}

theorem same_comm (ha : a.Within W) (hb : b.Within W) : a.same b = b.same a := by
  rw [Bool.eq_iff_iff]
  constructor
  · intro h
    obtain rfl := ha.eq_of_same hb h
    exact h
  · intro h
    obtain rfl := hb.eq_of_same ha h
    exact h

/-- The first of two specifications in the order of products, where marks for kinds do not differ. -/
theorem first_comm (ha : a.Within W) (hb : b.Within W) (hkind : a.isKindOf = b.isKindOf) :
    (if PowerProduct.cmp a.product b.product = .gt then b else a) =
      if PowerProduct.cmp b.product a.product = .gt then a else b := by
  have hswap : PowerProduct.cmp a.product b.product = (PowerProduct.cmp b.product a.product).swap :=
    Consistent.swap_eq (PowerProduct.cmp_self W.isQuantity_orderedOn ha.quantities)
      (PowerProduct.cmp_consistent W.isQuantity_orderedOn ha.quantities hb.quantities ha.quantities)
  rw [hswap]
  cases h : PowerProduct.cmp b.product a.product with
  | lt => rfl
  | gt => rfl
  | eq =>
    have hsame : b.same a = true := by
      simp [same, PowerProduct.same, h, hkind]
    rw [hb.eq_of_same ha hsame]
    rfl

/-- Which of two specifications stands for both does not depend on which comes first. -/
theorem preferred_comm (ha : a.Within W) (hb : b.Within W) : a.preferred b = b.preferred a := by
  unfold preferred
  cases hakind : a.isKindOf <;> cases hbkind : b.isKindOf
  case false.true => simp
  case true.false => simp
  all_goals
    have hfirst := first_comm ha hb (hakind.trans hbkind.symm)
    cases a.named?.isSome <;> cases b.named?.isSome <;> simp [hfirst]

theorem Related.symm (ha : a.Within W) (hb : b.Within W) (h : a.Related b) : b.Related a := by
  rcases h with hsame | hforth | hback | ⟨p, q, hp, hq, hcommon⟩
  · exact .inl (same_comm ha hb ▸ hsame)
  · exact .inr (.inr (.inl hforth))
  · exact .inr (.inl hback)
  · have hswap : q.haveCommonBase p = true := by
      rw [NamedQuantity.haveCommonBase, NamedQuantity.same_iff] at hcommon ⊢
      exact hcommon.symm
    exact .inr (.inr (.inr ⟨q, p, hq, hp, hswap⟩))

/-- Two different roots of kinds that become each other stand for operands that are not related. -/
structure Tied (a b aRoot bRoot : QuantitySpec) : Prop where
  unrelated : ¬ a.Related b
  source : a.kindTreeRoot = .ok aRoot
  target : b.kindTreeRoot = .ok bRoot
  forth : aRoot.Becomes bRoot
  back : bRoot.Becomes aRoot
  different : aRoot.same bRoot = false

/-- What the order of the operands changes. -/
structure Commutation (a b : QuantitySpec) (x y : Option QuantitySpec) : Prop where
  untied : (∀ aRoot bRoot, ¬ Tied a b aRoot bRoot) → x = y
  tied {aRoot bRoot : QuantitySpec} : Tied a b aRoot bRoot → x = some bRoot ∧ y = some aRoot

theorem commonKindRoot?_eq (haRoot : a.kindTreeRoot = .ok aRoot) (hbRoot : b.kindTreeRoot = .ok bRoot) :
    commonKindRoot? a b = do
      if ← aRoot.implicitlyConvertible bRoot then return some bRoot
      if ← bRoot.implicitlyConvertible aRoot then return some aRoot
      return none := by
  rw [commonKindRoot?, haRoot, hbRoot]
  rfl

/-- The order in which the roots are compared matters only if they become each other. -/
theorem commonKindRoot?_comm (haRoot : a.kindTreeRoot = .ok aRoot)
    (hbRoot : b.kindTreeRoot = .ok bRoot) (hx : commonKindRoot? a b = .ok x)
    (hy : commonKindRoot? b a = .ok y) :
    (aRoot.Becomes bRoot ∧ bRoot.Becomes aRoot ∧ x = some bRoot ∧ y = some aRoot) ∨
      ¬ (aRoot.Becomes bRoot ∧ bRoot.Becomes aRoot) ∧ x = y := by
  rw [commonKindRoot?_eq haRoot hbRoot] at hx
  rw [commonKindRoot?_eq hbRoot haRoot] at hy
  obtain ⟨forth, hforth, hx⟩ := bind_eq_ok.mp hx
  obtain ⟨back, hback, hy⟩ := bind_eq_ok.mp hy
  have hneither : forth = false ∨ back = false → ¬ (aRoot.Becomes bRoot ∧ bRoot.Becomes aRoot) := by
    rintro (rfl | rfl) ⟨hforth', hback'⟩
    · exact (not_becomes_iff hforth).mpr rfl hforth'
    · exact (not_becomes_iff hback).mpr rfl hback'
  cases forth <;> cases back
  case true.true =>
    exact .inl ⟨hforth, hback, (pure_eq_ok.mp hx).symm, (pure_eq_ok.mp hy).symm⟩
  case true.false =>
    rw [if_neg Bool.false_ne_true, hforth] at hy
    exact .inr ⟨hneither (.inr rfl), (pure_eq_ok.mp hx).symm.trans (pure_eq_ok.mp hy)⟩
  case false.true =>
    rw [if_neg Bool.false_ne_true, hback] at hx
    exact .inr ⟨hneither (.inl rfl), (pure_eq_ok.mp hx).symm.trans (pure_eq_ok.mp hy)⟩
  case false.false =>
    rw [if_neg Bool.false_ne_true, hback] at hx
    rw [if_neg Bool.false_ne_true, hforth] at hy
    exact .inr ⟨hneither (.inl rfl), (pure_eq_ok.mp hx).symm.trans (pure_eq_ok.mp hy)⟩

theorem commonAncestor?_comm {p q : NamedQuantity} (hp : W.Holds p) (hq : W.Holds q)
    (hx : commonAncestor? a b p q = .ok x) (hy : commonAncestor? b a q p = .ok y) : x = y := by
  unfold commonAncestor? at hx hy
  rw [W.forest.commonBase_comm hq hp] at hy
  obtain ⟨base, hbase, hx⟩ := bind_eq_ok.mp hx
  obtain ⟨base', hbase', hy⟩ := bind_eq_ok.mp hy
  obtain rfl := Except.ok.inj (hbase.symm.trans hbase')
  obtain ⟨forth, hforth, hx⟩ := bind_eq_ok.mp hx
  obtain ⟨back, hback, hy⟩ := bind_eq_ok.mp hy
  cases forth <;> cases back
  case true.true =>
    rw [if_pos rfl, hback] at hx
    rw [if_pos rfl, hforth] at hy
    exact (pure_eq_ok.mp hx).symm.trans (pure_eq_ok.mp hy)
  case true.false =>
    rw [if_pos rfl, hback] at hx
    exact (pure_eq_ok.mp hx).symm.trans (pure_eq_ok.mp hy)
  case false.true =>
    rw [if_pos rfl, hforth] at hy
    exact (pure_eq_ok.mp hx).symm.trans (pure_eq_ok.mp hy)
  case false.false => exact (pure_eq_ok.mp hx).symm.trans (pure_eq_ok.mp hy)

theorem kindTreeRoot_of_commonKindRoot? (h : commonKindRoot? a b = .ok x) :
    ∃ aRoot bRoot, a.kindTreeRoot = .ok aRoot ∧ b.kindTreeRoot = .ok bRoot := by
  obtain ⟨aRoot, haRoot, h⟩ := bind_eq_ok.mp h
  obtain ⟨bRoot, hbRoot, -⟩ := bind_eq_ok.mp h
  exact ⟨aRoot, bRoot, haRoot, hbRoot⟩

/-- Where the roots of kinds stand for the operands, their order matters exactly in a tie. -/
theorem commutation_of_roots (ha : a.Within W) (hb : b.Within W) (hunrelated : ¬ a.Related b)
    (hx : commonKindRoot? a b = .ok x) (hy : commonKindRoot? b a = .ok y) : Commutation a b x y := by
  obtain ⟨aRoot, bRoot, haRoot, hbRoot⟩ := kindTreeRoot_of_commonKindRoot? hx
  rcases commonKindRoot?_comm haRoot hbRoot hx hy with ⟨hforth, hback, rfl, rfl⟩ | ⟨hone, rfl⟩
  · constructor
    · intro huntied
      cases hsame : aRoot.same bRoot with
      | true =>
        rw [(kindTreeRoot_within ha haRoot).eq_of_same (kindTreeRoot_within hb hbRoot) hsame]
      | false =>
        exact absurd ⟨hunrelated, haRoot, hbRoot, hforth, hback, hsame⟩ (huntied aRoot bRoot)
    · intro aRoot' bRoot' htied
      obtain rfl := Except.ok.inj (haRoot.symm.trans htied.source)
      obtain rfl := Except.ok.inj (hbRoot.symm.trans htied.target)
      exact ⟨rfl, rfl⟩
  · refine ⟨fun _ => rfl, fun {aRoot' bRoot'} htied => absurd ⟨?_, ?_⟩ hone⟩
    · exact Except.ok.inj (haRoot.symm.trans htied.source) ▸
        Except.ok.inj (hbRoot.symm.trans htied.target) ▸ htied.forth
    · exact Except.ok.inj (haRoot.symm.trans htied.source) ▸
        Except.ok.inj (hbRoot.symm.trans htied.target) ▸ htied.back

/-- The common specification of two operands depends on their order exactly in a tie between the roots
of their kinds, where it is the root of the second one. -/
theorem common_commutation (ha : a.Within W) (hb : b.Within W) (hx : a.common? b = .ok x)
    (hy : b.common? a = .ok y) : Commutation a b x y := by
  have hrelated (h : a.Related b) (hxy : x = y) : Commutation a b x y :=
    ⟨fun _ => hxy, fun htied => absurd h htied.unrelated⟩
  cases hsame : a.same b with
  | true =>
    obtain rfl := ha.eq_of_same hb hsame
    exact hrelated (.inl hsame) (Except.ok.inj (hx.symm.trans hy))
  | false =>
    have hsame' : b.same a = false := same_comm hb ha ▸ hsame
    obtain ⟨forth, back, hforth, hback⟩ := exists_directions hsame hx
    by_cases hone : forth = true ∨ back = true
    · have heq := preferred_comm ha hb
      rw [common?_of_becomes hsame hforth hback hone] at hx
      rw [common?_of_becomes hsame' hback hforth hone.symm] at hy
      obtain rfl := Except.ok.inj hx
      obtain rfl := Except.ok.inj hy
      cases forth <;> cases back
      case true.true => exact hrelated (.inr (.inl hforth)) (congrArg some heq)
      case true.false => exact hrelated (.inr (.inl hforth)) rfl
      case false.true => exact hrelated (.inr (.inr (.inl hback))) rfl
      case false.false => simp at hone
    · obtain ⟨rfl, rfl⟩ : forth = false ∧ back = false := by simpa using hone
      rcases common?_apart hsame hforth hback hx with ⟨p, q, hp, hq, hcommon, hx⟩ | ⟨hunrelated, hx⟩
      · have htree : a.Related b := .inr (.inr (.inr ⟨p, q, hp, hq, hcommon⟩))
        rcases common?_apart hsame' hback hforth hy with ⟨q', p', hq', hp', -, hy⟩ | ⟨hunrelated, -⟩
        · obtain rfl := Option.some.inj (hp.symm.trans hp')
          obtain rfl := Option.some.inj (hq.symm.trans hq')
          have hpW : W.Holds p := (eq_named_of_named? ha.removeKind rfl hp).2
          have hqW : W.Holds q := (eq_named_of_named? hb.removeKind rfl hq).2
          exact hrelated htree (commonAncestor?_comm hpW hqW hx hy)
        · exact absurd (htree.symm ha hb) hunrelated
      · rcases common?_apart hsame' hback hforth hy with ⟨q, p, hq, hp, hcommon, -⟩ | ⟨-, hy⟩
        · have htree : b.Related a := .inr (.inr (.inr ⟨q, p, hq, hp, hcommon⟩))
          exact absurd (htree.symm hb ha) hunrelated
        · exact commutation_of_roots ha hb hunrelated hx hy

end QuantitySpec

/-- A world with one more quantity, a child of one that it holds. -/
def DeclaredWorld.addChild (D : DeclaredWorld) (name : String) (parent : NamedQuantity)
    (hparent : D.Holds parent) (hname : ∀ q, D.Holds q → q.name ≠ name) : DeclaredWorld where
  Holds q := D.Holds q ∨ q = .childOf name parent
  declared := by
    rintro q (hq | rfl)
    · exact D.declared hq
    · exact .childOf name (D.declared hparent)
  dimensionless_holds := .inl D.dimensionless_holds
  parent_holds := by
    rintro q p (hq | rfl) hp
    · exact .inl (D.parent_holds hq hp)
    · exact .inl (Option.some.inj hp ▸ hparent)
  equation_holds := by
    rintro q r e t (hq | rfl) he ht hr
    · exact .inl (D.equation_holds hq he ht hr)
    · exact .inl (D.equation_holds hparent he ht hr)
  eq_of_name := by
    rintro a b (ha | rfl) (hb | rfl) hab
    · exact D.eq_of_name ha hb hab
    · exact absurd hab (hname a ha)
    · exact absurd hab.symm (hname b hb)
    · rfl

namespace QuantitySpec

section Paces

open Catalog NamedQuantity

def pace : NamedQuantity := childOf (Isq.nameOf "Pace") speed

/-- Speeds with a special one. -/
def paces : DeclaredWorld :=
  speeds.addChild (Isq.nameOf "Pace") speed (by simp [speeds, speedQuantities]) (by
    have hnames : ∀ q ∈ speedQuantities, q.name ≠ Isq.nameOf "Pace" := by decide
    exact hnames)

/-- A width per time. -/
def widening : FactorProduct := [⟨.quantity Isq.width, .one⟩, ⟨.quantity Isq.time, .minusOne⟩]

theorem widening_within : (ofProduct widening).Within paces.toWorld := by
  refine ⟨?_, by decide +kernel, by decide +kernel, by decide⟩
  intro t ht
  simp only [ofProduct, widening, List.mem_cons, List.not_mem_nil, or_false] at ht
  rcases ht with rfl | rfl
  · exact ⟨Isq.width, rfl, .inl (by simp [speeds, speedQuantities])⟩
  · exact ⟨Isq.time, rfl, .inl (by simp [speeds, speedQuantities])⟩

def lengthPerTime : FactorProduct := [⟨.quantity Isq.length, .one⟩, ⟨.quantity Isq.time, .minusOne⟩]

theorem lengthPerTime_within : (ofProduct lengthPerTime).Within paces.toWorld := by
  refine ⟨?_, by decide +kernel, by decide +kernel, by decide⟩
  intro t ht
  simp only [ofProduct, lengthPerTime, List.mem_cons, List.not_mem_nil, or_false] at ht
  rcases ht with rfl | rfl
  · exact ⟨Isq.length, rfl, .inl (by simp [speeds, speedQuantities])⟩
  · exact ⟨Isq.time, rfl, .inl (by simp [speeds, speedQuantities])⟩

theorem pace_within : (named pace).Within paces.toWorld := .named (.inr rfl)

theorem eq_ok_some {ε α : Type} {computation : Except ε (Option α)} {a : α}
    (h : computation.toOption.bind id = some a) : computation = .ok (some a) := by
  cases computation with
  | error => cases h
  | ok x => exact congrArg Except.ok h

theorem common_pace_widening : (named pace).common? (ofProduct widening) =
    .ok (some (ofProduct [⟨.quantity Isq.length, .one⟩, ⟨.quantity Isq.time, .minusOne⟩])) := by
  apply eq_ok_some
  with_unfolding_all rfl

theorem common_widening_pace : (ofProduct widening).common? (named pace) =
    .ok (some (named speed)) := by
  apply eq_ok_some
  with_unfolding_all rfl

/-- A pace and a width per time are both measured as a length per time or as a speed, whichever is the
kind of the second operand. -/
theorem common_commutation_pace :
    Commutation (named pace) (ofProduct widening)
      (some (ofProduct [⟨.quantity Isq.length, .one⟩, ⟨.quantity Isq.time, .minusOne⟩]))
      (some (named speed)) :=
  common_commutation pace_within widening_within common_pace_widening common_widening_pace

/-- The two orders of one addition can give different specifications. -/
theorem common_not_symmetric : ¬ ∀ (W : World) (a b : QuantitySpec) (x y : Option QuantitySpec),
    a.Within W → b.Within W → a.common? b = .ok x → b.common? a = .ok y →
    (x = none ∧ y = none) ∨ ∃ s t, x = some s ∧ y = some t ∧ s.same t = true := by
  intro hsymmetric
  rcases hsymmetric paces.toWorld _ _ _ _ pace_within widening_within common_pace_widening
      common_widening_pace with ⟨hx, -⟩ | ⟨s, t, hs, ht, hsame⟩
  · cases hx
  · obtain rfl := Option.some.inj hs
    obtain rfl := Option.some.inj ht
    revert hsame
    decide +kernel

end Paces

end QuantitySpec

end Metrology
