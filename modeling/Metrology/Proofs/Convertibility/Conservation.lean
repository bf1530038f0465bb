import Metrology.Proofs.Convertibility.Calls
import Metrology.Proofs.Hierarchy.Dimension

/-!
# The search conserves dimensions

The search begins with two products of one dimension, and whatever it does to them, it does to both sides
or leaves the dimension of the side it changes alone. It takes the same power of two quantities of one
tree out of both, it removes a quantity only if that has no dimension, and it replaces a quantity by an
equation, which has its dimension. So all products it ever compares have one dimension. What a question
consults is among the questions its step puts, and those are known one by one.
-/

namespace Metrology

/-- Under an exact weight of base dimensions both products weigh the same. -/
def FactorProduct.SameDimension (e f : FactorProduct) : Prop :=
  ∀ w, Atom.Weight (fun _ => True) w →
    PowerProduct.weigh (Factor.dimensionWeight w) e = PowerProduct.weigh (Factor.dimensionWeight w) f

namespace FactorProduct.SameDimension

variable {d e f : FactorProduct}

theorem symm (h : e.SameDimension f) : f.SameDimension e := fun w hw => (h w hw).symm

theorem trans (hde : d.SameDimension e) (hef : e.SameDimension f) : d.SameDimension f :=
  fun w hw => (hde w hw).trans (hef w hw)

end FactorProduct.SameDimension

namespace Question

/-- A question about the quantities of a world, where products have to have one dimension. -/
def Balanced (W : World) : Question → Prop
  | .specs source target => source.Within W ∧ target.Within W
  | .products source target => (QuantitySpec.ofProduct source).Within W ∧
      (QuantitySpec.ofProduct target).Within W ∧ source.SameDimension target

end Question

namespace FactorProduct

variable {W : World} {e f d c : FactorProduct} {i : Ingredient} {b : Bool}

open QuantitySpec (ofProduct)

theorem holds_of_ingredient (he : (ofProduct e).Within W) (hi : i ∈ e.ingredients b) :
    W.Holds i.quantity := by
  obtain ⟨q, hq, hqW⟩ := he.quantities _ (mem_of_ingredient hi)
  obtain rfl := Factor.quantity.inj hq
  exact hqW

theorem removeAt_spec (he : (ofProduct e).Within W) (hi : i ∈ e.ingredients b)
    (h : PowerProduct.removeAt e i.position = .ok c) : (ofProduct c).Within W ∧
      ∀ w, PowerProduct.weigh w e = i.power.value * w (.quantity i.quantity) + PowerProduct.weigh w c := by
  obtain rfl := removeAt_of_ingredient hi h
  have hsub := List.eraseIdx_sublist e i.position
  exact ⟨⟨fun t ht => he.quantities t (hsub.mem ht), he.canonical.sublist hsub⟩,
    fun w => PowerProduct.weigh_eraseIdx (mem_ingredients.mp hi).1⟩

/-- An equation within the world that has the dimension of a quantity. -/
structure Expresses (W : World) (equation : FactorProduct) (q : NamedQuantity) : Prop where
  within : (ofProduct equation).Within W
  dimension : ∀ w, Atom.Weight (fun _ => True) w →
    PowerProduct.weigh (Factor.dimensionWeight w) equation = PowerProduct.weigh w q.dimension

theorem expresses_of_explode (hW : W.Declared) {q : NamedQuantity} (hq : W.Holds q)
    {grade : Convertibility} (h : q.explode? = some (e, grade)) : Expresses W e q := by
  obtain ⟨equation, hequation, heq⟩ := Option.map_eq_some_iff.mp h
  obtain rfl := (Prod.mk.inj heq).1
  obtain ⟨hcanonical, -, hdimension⟩ := (hW q hq).equation hequation
  exact ⟨⟨W.equation_holds hq hequation, hcanonical⟩,
    fun w hw => ((QuantitySpec.dimension_spec hdimension).2 w hw).symm⟩

/-- Replacing an ingredient by its equation replaces its weight by that of the equation. -/
theorem replaceAt_weigh (hW : W.Declared) (he : (ofProduct e).Within W) (hi : i ∈ e.ingredients b)
    {grade : Convertibility} (hexplode : i.quantity.explode? = some (d, grade))
    (h : e.replaceAt i d = .ok c) : (ofProduct c).Within W ∧ ∀ w, Atom.Weight W.Covers w →
      PowerProduct.weigh w c = PowerProduct.weigh w e +
        i.power.value * (PowerProduct.weigh w d - w (.quantity i.quantity)) := by
  have hd := (expresses_of_explode hW (holds_of_ingredient he hi) hexplode).within
  obtain ⟨power, hpower, h⟩ := bind_eq_ok.mp h
  obtain ⟨rest, hrest, hc⟩ := bind_eq_ok.mp h
  obtain ⟨hrestW, hweigh⟩ := removeAt_spec he hi hrest
  have hover := PowerProduct.over_pow hd.quantities hpower
  refine ⟨⟨PowerProduct.over_mul hrestW.quantities hover hc,
    PowerProduct.canonical_mul W.isQuantity_orderedOn hrestW.quantities hover hrestW.canonical hc⟩,
    fun w hw => ?_⟩
  have hmul : PowerProduct.weigh w c = PowerProduct.weigh w rest + PowerProduct.weigh w power :=
    PowerProduct.weigh_mul hw hrestW.covered (fun t ht => World.covers_of_isQuantity (hover t ht)) hc
  rw [hmul, PowerProduct.weigh_pow hpower, hweigh]
  ring

theorem replaceAt_spec (hW : W.Declared) (he : (ofProduct e).Within W) (hi : i ∈ e.ingredients b)
    {grade : Convertibility} (hexplode : i.quantity.explode? = some (d, grade))
    (h : e.replaceAt i d = .ok c) : (ofProduct c).Within W ∧ c.SameDimension e := by
  obtain ⟨hcW, hweigh⟩ := replaceAt_weigh hW he hi hexplode h
  refine ⟨hcW, fun w hw => ?_⟩
  have hdimension := (expresses_of_explode hW (holds_of_ingredient he hi) hexplode).dimension w hw
  rw [hweigh _ (W.dimensionWeight_weight w), hdimension, Factor.dimensionWeight, sub_self, mul_zero,
    add_zero]

theorem mulTerm_spec (he : (ofProduct e).Within W) {q : NamedQuantity} (hq : W.Holds q) {p : Ratio}
    (h : PowerProduct.mulTerm e ⟨.quantity q, p⟩ = .ok c) : (ofProduct c).Within W ∧
      ∀ w, PowerProduct.weigh (Factor.dimensionWeight w) c =
        PowerProduct.weigh (Factor.dimensionWeight w) e + p.value * PowerProduct.weigh w q.dimension := by
  have hcover : W.IsQuantity (.quantity q) := ⟨q, rfl, hq⟩
  exact ⟨⟨PowerProduct.over_mulTerm he.quantities hcover h,
      PowerProduct.canonical_mulTerm W.isQuantity_orderedOn he.quantities hcover he.canonical h⟩,
    fun w => PowerProduct.weigh_mulTerm (W.dimensionWeight_weight w)
      (World.covers_of_isQuantity hcover) he.covered h⟩

end FactorProduct

namespace Question

variable {W : World} {e f c : FactorProduct} {i : Ingredient} {b : Bool} {n : Nat}

open QuantitySpec (ofProduct)

/-- The same power of two quantities of one tree is taken out of both products. -/
theorem extractPair_balanced (h : Balanced W (.products e f)) {p : Pairing}
    (hp : extractPair e f b = .ok (some p)) (hgrade : p.grade ≠ .no) :
    Balanced W (.products p.source p.target) := by
  obtain ⟨i, j, -, -, hextracts⟩ := extracts_of_extractPair hp
  obtain ⟨shared, opposite, hextracts⟩ := hextracts hgrade
  obtain ⟨he, hf, hsame⟩ := h
  have hiW := FactorProduct.holds_of_ingredient he hextracts.source_mem
  have hjW := FactorProduct.holds_of_ingredient hf hextracts.target_mem
  have htree := (W.haveCommonBase_iff hiW hjW).mp hextracts.haveCommonBase
  obtain ⟨hsourceW, hweighSource⟩ := FactorProduct.mulTerm_spec he hiW hextracts.source_eq
  obtain ⟨htargetW, hweighTarget⟩ := FactorProduct.mulTerm_spec hf hjW hextracts.target_eq
  refine ⟨hsourceW, htargetW, fun w hw => ?_⟩
  rw [hweighSource, hweighTarget, hsame w hw, W.dimension_eq_of_tree hiW hjW htree]

theorem sameDimension_of_answer {s t : QuantitySpec} (hs : s.Within W) (ht : t.Within W)
    {g : Convertibility} (h : answer n (.specs s t) = .ok g) (hg : g ≠ .no) :
    FactorProduct.SameDimension s.product t.product :=
  fun _ hw => weigh_of_answer hs ht h hg hw

theorem removeAt_sameDimension (he : (ofProduct e).Within W) (hi : i ∈ e.ingredients b)
    (hlone : FactorProduct.SameDimension (QuantitySpec.named i.quantity).product
      (QuantitySpec.named .dimensionless).product)
    (h : PowerProduct.removeAt e i.position = .ok c) : c.SameDimension e := by
  intro w hw
  have hzero : PowerProduct.weigh w i.quantity.dimension = 0 := by
    have hweigh := hlone w hw
    rwa [QuantitySpec.weigh_named (FactorProduct.holds_of_ingredient he hi)
      (W.dimensionWeight_weight w)] at hweigh
  rw [(FactorProduct.removeAt_spec he hi h).2, Factor.dimensionWeight, hzero, mul_zero, zero_add]

/-- Quantities of one kind are of one tree, so nothing is asked about the equations of two names. -/
theorem haveCommonBase_of_named {s t : QuantitySpec} (hs : s.Within W) (ht : t.Within W)
    (hskind : s.isKindOf = false) (htkind : t.isKindOf = false) {p q : NamedQuantity}
    (hp : s.named? = some p) (hq : t.named? = some q) (hkind : p.kindRoot.same q.kindRoot = true) :
    p.haveCommonBase q = true := by
  have hpW := (QuantitySpec.eq_named_of_named? hs hskind hp).2
  have hqW := (QuantitySpec.eq_named_of_named? ht htkind hq).2
  exact (W.haveCommonBase_iff hpW hqW).mpr (W.treeRoot_eq_of_kindRoot hpW hqW hkind)

/-- What stands on a side may be replaced by what has its dimension. -/
theorem put_balanced (h : Balanced W (.products e f)) {side : Side} (hc : (ofProduct c).Within W)
    (hsame : c.SameDimension (side.product e f)) : Balanced W (side.put e f c) := by
  obtain ⟨he, hf, hef⟩ := h
  cases side with
  | sourceAbove | sourceBelow => exact ⟨hc, hf, hsame.trans hef⟩
  | targetAbove | targetBelow => exact ⟨he, hc, hef.trans hsame.symm⟩

theorem within_of_balanced (h : Balanced W (.products e f)) (side : Side) :
    (ofProduct (side.product e f)).Within W := by
  cases side with
  | sourceAbove | sourceBelow => exact h.1
  | targetAbove | targetBelow => exact h.2.1

/-- An ingredient that converts to the dimensionless quantity, or that one to it, has no dimension. -/
theorem removed_balanced (h : Balanced W (.products e f)) {side : Side}
    (hi : i ∈ (side.product e f).ingredients side.isAbove) {grade : Convertibility}
    (hlone : answer n (side.lone i) = .ok grade) (hno : grade ≠ .no)
    (hc : PowerProduct.removeAt (side.product e f) i.position = .ok c) :
    Balanced W (side.put e f c) := by
  have heW := within_of_balanced h side
  have hiW := FactorProduct.holds_of_ingredient heW hi
  refine put_balanced h (FactorProduct.removeAt_spec heW hi hc).1 (removeAt_sameDimension heW hi ?_ hc)
  have hnamed := QuantitySpec.Within.named hiW
  have hone := QuantitySpec.Within.named W.dimensionless_holds
  cases side with
  | sourceAbove | sourceBelow => exact sameDimension_of_answer hnamed hone hlone hno
  | targetAbove | targetBelow => exact (sameDimension_of_answer hone hnamed hlone hno).symm

theorem Puts.balanced (hW : W.Declared) {q r : Question} (h : Puts (answer n) q r)
    (hq : Balanced W q) : Balanced W r := by
  cases h with
  | roots _ hsource htarget =>
    exact ⟨QuantitySpec.kindTreeRoot_within hq.1 hsource, QuantitySpec.kindTreeRoot_within hq.2 htarget⟩
  | targetRoot _ _ htarget => exact ⟨hq.1, QuantitySpec.kindTreeRoot_within hq.2 htarget⟩
  | explodedSource hs ht hp hq' hcommon hkind _ | explodedTarget hs ht hp hq' hcommon hkind _ =>
    have hcommon' := haveCommonBase_of_named hq.1 hq.2 hs ht hp hq' hkind
    exact absurd hcommon' (by simp [hcommon])
  | factors hx hy hxy _ _ _ =>
    obtain ⟨hs, ht⟩ := hq
    exact ⟨⟨hs.quantities, hs.canonical⟩, ⟨ht.quantities, ht.canonical⟩,
      (QuantitySpec.dimension_same_iff hx hy).mp hxy⟩
  | paired hpairing hgrade => exact extractPair_balanced hq hpairing hgrade
  | lone hmost _ =>
    have hiW := FactorProduct.holds_of_ingredient (within_of_balanced hq _) (mem_of_mostComplex hmost)
    rename_i side _ _
    cases side with
    | sourceAbove | sourceBelow => exact ⟨.named hiW, .named W.dimensionless_holds⟩
    | targetAbove | targetBelow => exact ⟨.named W.dimensionless_holds, .named hiW⟩
  | removed hmost _ hlone hno hc => exact removed_balanced hq (mem_of_mostComplex hmost) hlone hno hc
  | replaced hmost _ hexplode hc =>
    obtain ⟨hcW, hsame⟩ := FactorProduct.replaceAt_spec hW (within_of_balanced hq _)
      (mem_of_mostComplex hmost) hexplode hc
    exact put_balanced hq hcW hsame

/-! ### All questions of a search -/

/-- With `n` questions left, a step about `q` puts `r`: another answer to `r` alone would make a
difference to it. -/
def Consults (n : Nat) (q r : Question) : Prop :=
  ∃ ask, (∀ s, s ≠ r → ask s = answer n s) ∧ step ask q ≠ answer (n + 1) q

/-- The questions that the search for `q` comes to, each with the number of questions left. -/
inductive Asked (start : Nat) (q : Question) : Nat → Question → Prop where
  | outset : Asked start q start q
  | nested {n : Nat} {r s : Question} : Asked start q (n + 1) r → Consults n r s → Asked start q n s

/-- A step that hands a question on as another one puts that one. -/
theorem consults_of_step {q r : Question} (h : ∀ ask, step ask q = ask r) : Consults n q r := by
  classical
  obtain ⟨other, hother⟩ : ∃ other, other ≠ answer n r := by
    by_cases hno : answer n r = .ok .no
    · exact ⟨.ok .yes, by simp [hno]⟩
    · exact ⟨.ok .no, Ne.symm hno⟩
  refine ⟨Function.update (answer n) r other, fun s hs => Function.update_of_ne hs _ _, ?_⟩
  rwa [answer_succ, h, h, Function.update_self]

theorem Consults.balanced (hW : W.Declared) {q r : Question} (h : Consults n q r)
    (hq : Balanced W q) : Balanced W r := by
  obtain ⟨ask, hask, hne⟩ := h
  by_contra hr
  have hstep : step (answer n) q = step ask q := step_congr fun s hs => by
    refine (hask s ?_).symm
    rintro rfl
    exact hr (hs.balanced hW hq)
  exact hne (hstep.symm.trans (answer_succ n q).symm)

theorem Asked.balanced (hW : W.Declared) {q r : Question} {start : Nat} (h : Asked start q n r)
    (hq : Balanced W q) : Balanced W r := by
  induction h with
  | outset => exact hq
  | nested _ hconsults ih => exact hconsults.balanced hW ih

end Question

/-! ### The laws -/

/-- What is known about the dimensions of a world of declared quantities. The computations of the
specifications and dimensions that a law mentions may fail, but where they do not the law holds. -/
structure DimensionLaws (D : DeclaredWorld) : Prop where
  parent {q p : NamedQuantity} : D.Holds q → q.parent? = some p → q.dimension = p.dimension
  treeRoot {q : NamedQuantity} : D.Holds q → q.dimension = q.treeRoot.dimension
  equation {q : NamedQuantity} {e : FactorProduct} : D.Holds q → q.equation? = some e →
    (QuantitySpec.ofProduct e).dimension = .ok q.dimension
  mul {s t r : QuantitySpec} {x y z d : Dimension} : s.Within D.toWorld → t.Within D.toWorld →
    s.mul t = .ok r → s.dimension = .ok x → t.dimension = .ok y → r.dimension = .ok d →
    PowerProduct.mul x y = .ok z → d = z
  div {s t r : QuantitySpec} {x y z d : Dimension} : s.Within D.toWorld → t.Within D.toWorld →
    s.div t = .ok r → s.dimension = .ok x → t.dimension = .ok y → r.dimension = .ok d →
    PowerProduct.div x y = .ok z → d = z
  pow {s r : QuantitySpec} {p : Ratio} {x z d : Dimension} : s.Within D.toWorld →
    s.pow p = .ok r → s.dimension = .ok x → r.dimension = .ok d → PowerProduct.pow x p = .ok z → d = z
  kindTreeRoot {s r : QuantitySpec} {x d : Dimension} : s.Within D.toWorld →
    s.kindTreeRoot = .ok r → s.dimension = .ok x → r.dimension = .ok d → d = x
  /-- However many questions are allowed, the search only compares products of one dimension. -/
  search {s t : QuantitySpec} {start n : Nat} {e f : FactorProduct} : s.Within D.toWorld →
    t.Within D.toWorld → Question.Asked start (.specs s t) n (.products e f) →
    e.SameDimension f ∧ ∀ x y, (QuantitySpec.ofProduct e).dimension = .ok x →
      (QuantitySpec.ofProduct f).dimension = .ok y → x = y

theorem FactorProduct.SameDimension.eq {e f : FactorProduct} (h : e.SameDimension f) {x y : Dimension}
    (hx : (QuantitySpec.ofProduct e).dimension = .ok x)
    (hy : (QuantitySpec.ofProduct f).dimension = .ok y) : x = y :=
  Dimension.eq_of_same ((QuantitySpec.dimension_same_iff hx hy).mpr h)

theorem dimension_laws (D : DeclaredWorld) : DimensionLaws D where
  parent hq hp := ((D.declared hq).parent hp).2
  treeRoot hq := (World.dimension_treeRoot (W := D.toWorld) hq).symm
  equation hq he := ((D.declared hq).equation he).2.2
  mul := QuantitySpec.dimension_mul
  div := QuantitySpec.dimension_div
  pow _ := QuantitySpec.dimension_pow
  kindTreeRoot := QuantitySpec.dimension_kindTreeRoot
  search hs ht h := by
    obtain ⟨-, -, hsame⟩ := h.balanced D.toWorld_declared ⟨hs, ht⟩
    exact ⟨hsame, fun x y hx hy => hsame.eq hx hy⟩

section Speeds

open Catalog NamedQuantity

def speed : NamedQuantity :=
  .root (Isq.nameOf "Speed") (some [⟨.quantity Isq.length, .one⟩, ⟨.quantity Isq.time, .minusOne⟩])
    [⟨⟨"L"⟩, .one⟩, ⟨⟨"T"⟩, .minusOne⟩] .scalar false

theorem speed_declared : speed.Declared := by
  have hspeed : ofEquation (Isq.nameOf "Speed")
      ⟨[⟨.quantity Isq.length, .one⟩, ⟨.quantity Isq.time, .minusOne⟩], false⟩ = .ok speed := by
    with_unfolding_all rfl
  refine .ofEquation ⟨by decide +kernel, by decide +kernel, by decide⟩ ?_ ?_ hspeed
  · simp
  · intro t ht r hr
    simp only [List.mem_cons, List.not_mem_nil, or_false] at ht
    rcases ht with rfl | rfl <;> obtain rfl := Factor.quantity.inj hr <;>
      exact .ofDimension _ (by decide)

def speedQuantities : List NamedQuantity :=
  [.dimensionless, Isq.length, Isq.width, Isq.time, speed]

/-- Speed with the quantities it is declared from. -/
def speeds : DeclaredWorld where
  Holds q := q ∈ speedQuantities
  declared {q} hq := by
    simp only [speedQuantities, List.mem_cons, List.not_mem_nil, or_false] at hq
    rcases hq with rfl | rfl | rfl | rfl | rfl
    · exact .dimensionless
    · exact .ofDimension _ (by decide)
    · exact .childOf _ (.ofDimension _ (by decide))
    · exact .ofDimension _ (by decide)
    · exact speed_declared
  dimensionless_holds := List.mem_cons_self
  parent_holds {q p} hq hp := by
    simp only [speedQuantities, List.mem_cons, List.not_mem_nil, or_false] at hq
    rcases hq with rfl | rfl | rfl | rfl | rfl <;> cases hp
    simp [speedQuantities]
  equation_holds {q r e t} hq he ht hr := by
    simp only [speedQuantities, List.mem_cons, List.not_mem_nil, or_false] at hq
    rcases hq with rfl | rfl | rfl | rfl | rfl
    · obtain rfl := Option.some.inj he
      cases ht
    · cases he
    · cases he
    · cases he
    · obtain rfl := Option.some.inj he
      simp only [List.mem_cons, List.not_mem_nil, or_false] at ht
      rcases ht with rfl | rfl <;> obtain rfl := Factor.quantity.inj hr <;> simp [speedQuantities]
  eq_of_name {a b} ha hb hab := by
    have hnames : (speedQuantities.map (·.name)).Nodup := by decide
    exact List.inj_on_of_nodup_map hnames ha hb hab

/-- How far something gets at a speed in a time. -/
def travel : FactorProduct := [⟨.quantity speed, .one⟩, ⟨.quantity Isq.time, .one⟩]

theorem travel_within : (QuantitySpec.ofProduct travel).Within speeds.toWorld := by
  refine ⟨?_, by decide +kernel, by decide +kernel, by decide⟩
  intro t ht
  simp only [QuantitySpec.ofProduct, travel, List.mem_cons, List.not_mem_nil, or_false] at ht
  rcases ht with rfl | rfl
  · exact ⟨speed, rfl, by simp [DeclaredWorld.toWorld, speeds, speedQuantities]⟩
  · exact ⟨Isq.time, rfl, by simp [DeclaredWorld.toWorld, speeds, speedQuantities]⟩

theorem width_within : (QuantitySpec.named Isq.width).Within speeds.toWorld :=
  .named (by simp [DeclaredWorld.toWorld, speeds, speedQuantities])

/-- The search whether a travel is a width replaces the speed, and then compares a length with a
width. -/
theorem dimension_laws_travel : Question.Asked 256 (.specs (.ofProduct travel) (.named Isq.width)) 254
      (.products [⟨.quantity Isq.length, .one⟩] [⟨.quantity Isq.width, .one⟩]) ∧
    FactorProduct.SameDimension [⟨.quantity Isq.length, .one⟩] [⟨.quantity Isq.width, .one⟩] := by
  have hfactors : Question.Consults 255 (.specs (.ofProduct travel) (.named Isq.width))
      (.products travel [⟨.quantity Isq.width, .one⟩]) :=
    Question.consults_of_step fun ask => by with_unfolding_all rfl
  have hreplaced : Question.Consults 254 (.products travel [⟨.quantity Isq.width, .one⟩])
      (.products [⟨.quantity Isq.length, .one⟩] [⟨.quantity Isq.width, .one⟩]) :=
    Question.consults_of_step fun ask => by with_unfolding_all rfl
  have hasked := (Question.Asked.outset.nested hfactors).nested hreplaced
  exact ⟨hasked, ((dimension_laws speeds).search travel_within width_within hasked).1⟩

end Speeds

end Metrology
