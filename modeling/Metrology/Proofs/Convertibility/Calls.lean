import Metrology.Proofs.Convertibility.Kind
import Metrology.Proofs.Convertibility.Search
import Metrology.Proofs.Convertibility.Step

/-!
# The questions of a step

A step of the search puts at most three questions: the roots of kinds, the factors of two specifications,
a lone ingredient, and the products that are left after pairing, removing or replacing ingredients. The
list is complete, since a step has the same result for any `ask` that answers the questions on it in the
same way. Apart from them a step only computes, and no computation of products runs out of questions.
-/

namespace Metrology

/-- The computation does not end for want of a deeper search. -/
def Finishes {α : Type} (computation : Except Fault α) : Prop :=
  computation ≠ .error .searchUnfinished

/-- The same result and, if `finishing` is asked for, not that of a search cut short. -/
def Settled {α : Type} (finishing : Prop) (x y : Except Fault α) : Prop :=
  x = y ∧ (finishing → Finishes x)

section Settled

variable {α β : Type} {finishing : Prop} {x y : Except Fault α} {f g : α → Except Fault β}
  {P : α → Prop}

theorem Finishes.of_ok {a : α} (h : x = .ok a) : Finishes x := by
  rw [h]
  rintro ⟨⟩

theorem Finishes.bind (hx : Finishes x) (hf : ∀ a, x = .ok a → Finishes (f a)) :
    Finishes (x >>= f) := by
  cases x with
  | error fault => exact fun h => hx (congrArg Except.error (Except.error.inj h))
  | ok a => exact hf a rfl

theorem Answers.finishes (h : Answers x P) : Finishes x := by
  rcases h with ⟨a, ha, -⟩ | ⟨fault, hfault, hlimit⟩
  · exact .of_ok ha
  · rw [hfault]
    rintro hunfinished
    obtain rfl := Except.error.inj hunfinished
    rcases hlimit with h | h <;> cases h

namespace Settled

theorem ok (a : α) : Settled finishing (.ok a) (.ok a) := ⟨rfl, fun _ => .of_ok rfl⟩

/-- A question that both sides begin with. -/
theorem bind (hxy : Settled finishing x y) (hfg : ∀ a, x = .ok a → Settled finishing (f a) (g a)) :
    Settled finishing (x >>= f) (y >>= g) := by
  obtain ⟨rfl, hx⟩ := hxy
  cases x with
  | error fault =>
    exact ⟨rfl, fun h hunfinished => hx h (congrArg Except.error (Except.error.inj hunfinished))⟩
  | ok a => exact hfg a rfl

/-- A computation that both sides begin with. -/
theorem bind_left (hx : Finishes x) (hfg : ∀ a, x = .ok a → Settled finishing (f a) (g a)) :
    Settled finishing (x >>= f) (x >>= g) :=
  bind ⟨rfl, fun _ => hx⟩ hfg

end Settled

end Settled

/-! ### Computations that finish -/

theorem removeAt_finishes {α : Type} (e : PowerProduct α) (position : Nat) :
    Finishes (PowerProduct.removeAt e position) := by
  unfold PowerProduct.removeAt
  split
  · rintro ⟨⟩
  split
  · rintro ⟨⟩
  split <;> exact .of_ok rfl

theorem removeAt_of_ingredient {e c : FactorProduct} {i : Ingredient} {b : Bool}
    (hi : i ∈ e.ingredients b) (h : PowerProduct.removeAt e i.position = .ok c) :
    c = e.eraseIdx i.position := by
  have hposition := (FactorProduct.mem_ingredients.mp hi).1
  unfold PowerProduct.removeAt at h
  rw [if_pos (List.getElem?_eq_some_iff.mp hposition).1] at h
  split at h
  · cases h
  · split at h
    · cases h
    · exact (Except.ok.inj h).symm

theorem replaceAt_finishes (e : FactorProduct) (i : Ingredient) (equation : FactorProduct) :
    Finishes (e.replaceAt i equation) :=
  (PowerProduct.pow_answers equation i.power).finishes.bind fun power _ =>
    (removeAt_finishes e i.position).bind fun rest _ => (PowerProduct.mul_answers rest power).finishes

theorem sharedPower_answers (positive : Bool) (a b : Ratio) :
    Answers (sharedPower positive a b) fun _ => True := by
  unfold sharedPower
  cases positive with
  | true => exact .of_ok rfl trivial
  | false =>
    exact (Ratio.ofRat_answers _).bind fun _ _ _ => (Ratio.ofRat_answers _).bind fun _ _ _ =>
      Ratio.ofRat_answers _

theorem extractPair_finishes (source target : FactorProduct) (positive : Bool) :
    Finishes (extractPair source target positive) := by
  rw [extractPair_eq]
  cases (candidatePairs source target positive).find? arePartners with
  | none => exact .of_ok rfl
  | some pair =>
    dsimp only
    split
    · exact .of_ok rfl
    · refine (sharedPower_answers positive _ _).finishes.bind fun shared _ => ?_
      refine (Ratio.ofRat_answers _).finishes.bind fun opposite _ => ?_
      refine (PowerProduct.mulTerm_answers source _).finishes.bind fun rest _ => ?_
      refine (Ratio.ofRat_answers _).finishes.bind fun opposite' _ => ?_
      exact (PowerProduct.mulTerm_answers target _).finishes.bind fun rest' _ => .of_ok rfl

/-- Two ingredients of one tree and the same power, taken out of both products. -/
structure Extracts (source target : FactorProduct) (positive : Bool) (pairing : Pairing)
    (i j : Ingredient) (shared opposite : Ratio) : Prop where
  first : (candidatePairs source target positive).find? arePartners = some (i, j)
  shared_eq : sharedPower positive i.power j.power = .ok shared
  opposite_eq : shared.neg = .ok opposite
  source_eq : PowerProduct.mulTerm source ⟨.quantity i.quantity, opposite⟩ = .ok pairing.source
  target_eq : PowerProduct.mulTerm target ⟨.quantity j.quantity, opposite⟩ = .ok pairing.target

namespace Extracts

variable {source target : FactorProduct} {positive : Bool} {pairing : Pairing} {i j : Ingredient}
  {shared opposite : Ratio}

theorem source_mem (h : Extracts source target positive pairing i j shared opposite) :
    i ∈ source.ingredients positive :=
  (mem_candidatePairs.mp (List.mem_of_find?_eq_some h.first)).1

theorem target_mem (h : Extracts source target positive pairing i j shared opposite) :
    j ∈ target.ingredients positive :=
  (mem_candidatePairs.mp (List.mem_of_find?_eq_some h.first)).2

theorem haveCommonBase (h : Extracts source target positive pairing i j shared opposite) :
    i.quantity.haveCommonBase j.quantity = true :=
  List.find?_some (p := arePartners) h.first

end Extracts

theorem extracts_of_extractPair {source target : FactorProduct} {positive : Bool} {pairing : Pairing}
    (h : extractPair source target positive = .ok (some pairing)) : ∃ i j,
      (candidatePairs source target positive).find? arePartners = some (i, j) ∧
        pairing.grade = i.quantity.convertibleInTree j.quantity ∧ (pairing.grade ≠ .no →
          ∃ shared opposite, Extracts source target positive pairing i j shared opposite) := by
  rw [extractPair_eq] at h
  cases hfind : (candidatePairs source target positive).find? arePartners with
  | none =>
    rw [hfind] at h
    cases h
  | some pair =>
    obtain ⟨i, j⟩ := pair
    rw [hfind] at h
    refine ⟨i, j, rfl, ?_⟩
    dsimp only at h
    split at h
    · rename_i hno
      obtain rfl := Option.some.inj (Except.ok.inj h)
      exact ⟨hno.symm, fun hgrade => absurd rfl hgrade⟩
    · obtain ⟨shared, hshared, h⟩ := bind_eq_ok.mp h
      obtain ⟨opposite, hopposite, h⟩ := bind_eq_ok.mp h
      obtain ⟨restSource, hsource, h⟩ := bind_eq_ok.mp h
      obtain ⟨opposite', hopposite', h⟩ := bind_eq_ok.mp h
      obtain ⟨restTarget, htarget, h⟩ := bind_eq_ok.mp h
      obtain rfl := Option.some.inj (Except.ok.inj h)
      obtain rfl : opposite = opposite' := Except.ok.inj (hopposite.symm.trans hopposite')
      exact ⟨rfl, fun _ => ⟨shared, opposite, hfind, hshared, hopposite, hsource, htarget⟩⟩

theorem value_of_sharedPower {positive : Bool} {a b s : Ratio} (h : sharedPower positive a b = .ok s) :
    s.value = a.value ∨ s.value = b.value := by
  rw [value_sharedPower h]
  rcases min_choice (Exchange.sign positive * a.value) (Exchange.sign positive * b.value) with
    hmin | hmin
  · exact .inl (by rw [hmin, Exchange.sign_mul_sign_mul])
  · exact .inr (by rw [hmin, Exchange.sign_mul_sign_mul])

theorem explodeTo_finishes (complexity fuel : Nat) (e : FactorProduct) (grade : Convertibility) :
    Finishes (explodeTo complexity fuel e grade) := by
  induction fuel generalizing e grade with
  | zero => exact .of_ok rfl
  | succ fuel ih =>
    unfold explodeTo
    split
    · exact .of_ok rfl
    dsimp only
    split
    · exact .of_ok rfl
    split
    · exact .of_ok rfl
    · refine (PowerProduct.pow_answers _ _).finishes.bind fun power _ => ?_
      refine (removeAt_finishes _ _).bind fun rest _ => ?_
      exact (PowerProduct.mul_answers _ _).finishes.bind fun next _ => ih next _

namespace QuantitySpec

theorem kindTreeRoot_finishes (s : QuantitySpec) : Finishes s.kindTreeRoot := by
  unfold kindTreeRoot
  split
  · exact .of_ok rfl
  · exact (PowerProduct.mul_answers _ _).finishes.bind fun _ _ => .of_ok rfl

end QuantitySpec

/-! ### The questions -/

namespace Side

def isAbove : Side → Bool
  | .sourceAbove | .targetAbove => true
  | .sourceBelow | .targetBelow => false

/-- The one of two products on a side. -/
def product (source target : FactorProduct) : Side → FactorProduct
  | .sourceAbove | .sourceBelow => source
  | .targetAbove | .targetBelow => target

/-- Two products with another one in place of that on a side. -/
def put (source target c : FactorProduct) : Side → Question
  | .sourceAbove | .sourceBelow => .products c target
  | .targetAbove | .targetBelow => .products source c

/-- The question whether an ingredient that stands alone on a side is dimensionless. -/
def lone (i : Ingredient) : Side → Question
  | .sourceAbove | .sourceBelow => .specs (.named i.quantity) .dimensionless
  | .targetAbove | .targetBelow => .specs .dimensionless (.named i.quantity)

/-- The ingredient stands in a numerator, and the other product is empty. -/
def IsLone (source target : FactorProduct) (side : Side) : Prop :=
  side = .sourceAbove ∧ target.isEmpty = true ∨ side = .targetAbove ∧ source.isEmpty = true

end Side

theorem mem_of_mostComplex {source target : FactorProduct} {side : Side} {i : Ingredient}
    (h : mostComplex source target = some (side, i)) :
    i ∈ (side.product source target).ingredients side.isAbove := by
  have hmem := firstMaximal_mem h
  simp only [List.mem_append, List.mem_map, Prod.mk.injEq] at hmem
  rcases hmem with ((⟨k, hk, rfl, rfl⟩ | ⟨k, hk, rfl, rfl⟩) | ⟨k, hk, rfl, rfl⟩) | ⟨k, hk, rfl, rfl⟩ <;>
    exact hk

theorem mostComplex_max {source target : FactorProduct} {side : Side} {i : Ingredient}
    (h : mostComplex source target = some (side, i)) (other : Side) {k : Ingredient}
    (hk : k ∈ (other.product source target).ingredients other.isAbove) : k.complexity ≤ i.complexity := by
  refine (firstMaximal_spec h).2 (other, k) ?_
  simp only [List.mem_append, List.mem_map, Prod.mk.injEq]
  cases other with
  | sourceAbove => exact .inl (.inl (.inl ⟨k, hk, rfl, rfl⟩))
  | sourceBelow => exact .inl (.inl (.inr ⟨k, hk, rfl, rfl⟩))
  | targetAbove => exact .inl (.inr ⟨k, hk, rfl, rfl⟩)
  | targetBelow => exact .inr ⟨k, hk, rfl, rfl⟩

namespace Question

open QuantitySpec (ofProduct)

/-- The questions that a step puts if `ask` answers them. -/
inductive Puts (ask : Question → Except Fault Convertibility) : Question → Question → Prop where
  | roots {s t sRoot tRoot : QuantitySpec} : s.isKindOf = true → s.kindTreeRoot = .ok sRoot →
      t.kindTreeRoot = .ok tRoot → Puts ask (.specs s t) (.specs sRoot tRoot)
  | targetRoot {s t tRoot : QuantitySpec} : s.isKindOf = false → t.isKindOf = true →
      t.kindTreeRoot = .ok tRoot → Puts ask (.specs s t) (.specs s tRoot)
  | explodedSource {s t : QuantitySpec} {p q : NamedQuantity} {e : FactorProduct}
      {grade : Convertibility} : s.isKindOf = false → t.isKindOf = false → s.named? = some p →
      t.named? = some q → p.haveCommonBase q = false → p.kindRoot.same q.kindRoot = true →
      explodeTo q.complexity p.expansion (QuantitySpec.named p).product .yes = .ok (e, grade) →
      Puts ask (.specs s t) (.specs (ofProduct e) (.named q))
  | explodedTarget {s t : QuantitySpec} {p q : NamedQuantity} {e : FactorProduct}
      {grade : Convertibility} : s.isKindOf = false → t.isKindOf = false → s.named? = some p →
      t.named? = some q → p.haveCommonBase q = false → p.kindRoot.same q.kindRoot = true →
      explodeTo p.complexity q.expansion (QuantitySpec.named q).product .yes = .ok (e, grade) →
      Puts ask (.specs s t) (.specs (.named p) (ofProduct e))
  | factors {s t : QuantitySpec} {x y : Dimension} : s.dimension = .ok x → t.dimension = .ok y →
      PowerProduct.same x y = true → s.isKindOf = false → t.isKindOf = false →
      (s.named? = none ∨ t.named? = none) → Puts ask (.specs s t) (.products s.product t.product)
  | paired {e f : FactorProduct} {positive : Bool} {pairing : Pairing} :
      extractPair e f positive = .ok (some pairing) → pairing.grade ≠ .no →
      Puts ask (.products e f) (.products pairing.source pairing.target)
  | lone {e f : FactorProduct} {side : Side} {i : Ingredient} : mostComplex e f = some (side, i) →
      side.IsLone e f → Puts ask (.products e f) (side.lone i)
  | removed {e f c : FactorProduct} {side : Side} {i : Ingredient} {grade : Convertibility} :
      mostComplex e f = some (side, i) → side.IsLone e f → ask (side.lone i) = .ok grade →
      grade ≠ .no → PowerProduct.removeAt (side.product e f) i.position = .ok c →
      Puts ask (.products e f) (side.put e f c)
  | replaced {e f c equation : FactorProduct} {side : Side} {i : Ingredient} {grade : Convertibility} :
      mostComplex e f = some (side, i) → i.complexity ≠ 0 →
      i.quantity.explode? = some (equation, grade) → (side.product e f).replaceAt i equation = .ok c →
      Puts ask (.products e f) (side.put e f c)

/-- The questions that a step puts to anything that answers them. -/
def Calls (q r : Question) : Prop := ∃ ask, Puts ask q r

/-- The questions that a step of the search itself puts. -/
def LeadsTo (q r : Question) : Prop := ∃ n, Puts (answer n) q r

/-! ### The list is complete -/

section Settles

variable {finishing : Prop} {e f : FactorProduct} {s t : QuantitySpec} {p q : NamedQuantity}
  {i : Ingredient} {side : Side} {ask ask' : Question → Except Fault Convertibility}

theorem stepKinds_settles (hkind : (s.isKindOf || t.isKindOf) = true)
    (h : ∀ r, Puts ask (.specs s t) r → Settled finishing (ask r) (ask' r)) :
    Settled finishing (stepKinds ask s t) (stepKinds ask' s t) := by
  refine .bind_left t.kindTreeRoot_finishes fun tRoot htarget => ?_
  cases hs : s.isKindOf with
  | true =>
    refine .bind_left s.kindTreeRoot_finishes fun sRoot hsource => ?_
    exact (h _ (.roots hs hsource htarget)).bind fun grade _ => .ok _
  | false =>
    have ht : t.isKindOf = true := by simpa [hs] using hkind
    exact h _ (.targetRoot hs ht htarget)

theorem stepNamed_settles (hs : s.isKindOf = false) (ht : t.isKindOf = false) (hp : s.named? = some p)
    (hq : t.named? = some q) (h : ∀ r, Puts ask (.specs s t) r → Settled finishing (ask r) (ask' r)) :
    Settled finishing (stepNamed ask p q) (stepNamed ask' p q) := by
  unfold stepNamed
  cases hcommon : p.haveCommonBase q with
  | true => exact .ok _
  | false =>
    cases hkind : p.kindRoot.same q.kindRoot with
    | false => exact .ok _
    | true =>
      simp only [Bool.false_eq_true, if_false, Bool.not_true]
      split
      · refine .bind_left (explodeTo_finishes _ _ _ _) fun exploded hexploded => ?_
        exact h _ (.explodedSource hs ht hp hq hcommon hkind hexploded)
      split
      · refine .bind_left (explodeTo_finishes _ _ _ _) fun exploded hexploded => ?_
        exact (h _ (.explodedTarget hs ht hp hq hcommon hkind hexploded)).bind fun grade _ => .ok _
      · exact .ok _

theorem stepSpecs_settles (h : ∀ r, Puts ask (.specs s t) r → Settled finishing (ask r) (ask' r)) :
    Settled finishing (stepSpecs ask s t) (stepSpecs ask' s t) := by
  unfold stepSpecs
  split
  · exact .ok _
  refine .bind_left s.dimension_answers.finishes fun x hx => ?_
  refine .bind_left t.dimension_answers.finishes fun y hy => ?_
  split
  · exact .ok _
  rename_i hdimension
  have hxy : PowerProduct.same x y = true := by simpa using hdimension
  cases hkind : s.isKindOf || t.isKindOf with
  | true => exact stepKinds_settles hkind h
  | false =>
    obtain ⟨hs, ht⟩ : s.isKindOf = false ∧ t.isKindOf = false := by simpa using hkind
    cases hp : s.named? with
    | none => exact h _ (.factors hx hy hxy hs ht (.inl hp))
    | some p =>
      cases hq : t.named? with
      | none => exact h _ (.factors hx hy hxy hs ht (.inr hq))
      | some q => exact stepNamed_settles hs ht hp hq h

theorem stepPairing_settles {positive : Bool} {pairing : Pairing}
    (hpairing : extractPair e f positive = .ok (some pairing))
    (h : ∀ r, Puts ask (.products e f) r → Settled finishing (ask r) (ask' r)) :
    Settled finishing (stepPairing ask pairing) (stepPairing ask' pairing) := by
  unfold stepPairing
  by_cases hno : pairing.grade = .no
  · rw [if_pos hno, if_pos hno]
    exact .ok _
  · rw [if_neg hno, if_neg hno]
    exact (h _ (.paired hpairing hno)).bind fun grade _ => .ok _

theorem stepReplacement_settles (hmost : mostComplex e f = some (side, i))
    (h : ∀ r, Puts ask (.products e f) r → Settled finishing (ask r) (ask' r)) :
    Settled finishing (stepReplacement ask e f side i) (stepReplacement ask' e f side i) := by
  unfold stepReplacement
  by_cases hcomplexity : i.complexity = 0
  · rw [if_pos hcomplexity, if_pos hcomplexity]
    exact .ok _
  rw [if_neg hcomplexity, if_neg hcomplexity]
  cases hexplode : i.quantity.explode? with
  | none => exact .ok _
  | some replacement =>
    obtain ⟨equation, grade⟩ := replacement
    have hput {c : FactorProduct} (hc : (side.product e f).replaceAt i equation = .ok c) :
        Settled finishing (ask (side.put e f c)) (ask' (side.put e f c)) :=
      h _ (.replaced hmost hcomplexity hexplode hc)
    cases side with
    | sourceAbove => exact .bind_left (replaceAt_finishes _ _ _) fun c hc => hput hc
    | sourceBelow | targetAbove | targetBelow =>
      exact .bind_left (replaceAt_finishes _ _ _) fun c hc => (hput hc).bind fun grade _ => .ok _

theorem stepLone_settles (hmost : mostComplex e f = some (side, i)) (hlone : side.IsLone e f)
    {otherwise otherwise' : Except Fault Convertibility}
    (hotherwise : Settled finishing otherwise otherwise')
    (h : ∀ r, Puts ask (.products e f) r → Settled finishing (ask r) (ask' r)) :
    Settled finishing
      (stepLone ask (side.lone i) (PowerProduct.removeAt (side.product e f) i.position) (side.put e f)
        otherwise)
      (stepLone ask' (side.lone i) (PowerProduct.removeAt (side.product e f) i.position) (side.put e f)
        otherwise') := by
  refine (h _ (.lone hmost hlone)).bind fun grade hgrade => ?_
  by_cases hno : grade = .no
  · rw [if_neg (not_not_intro hno), if_neg (not_not_intro hno)]
    exact hotherwise
  · rw [if_pos hno, if_pos hno]
    refine .bind_left (removeAt_finishes _ _) fun c hc => ?_
    exact (h _ (.removed hmost hlone hgrade hno hc)).bind fun grade' _ => .ok _

theorem stepIngredient_settles (hmost : mostComplex e f = some (side, i))
    (h : ∀ r, Puts ask (.products e f) r → Settled finishing (ask r) (ask' r)) :
    Settled finishing (stepIngredient ask e f side i) (stepIngredient ask' e f side i) := by
  have hreplacement := stepReplacement_settles hmost h
  have htarget : Settled finishing (stepTarget ask e f side i) (stepTarget ask' e f side i) := by
    unfold stepTarget
    by_cases hside : side = .targetAbove ∧ e.isEmpty
    · rw [if_pos hside, if_pos hside]
      obtain ⟨rfl, hempty⟩ := hside
      exact stepLone_settles hmost (.inr ⟨rfl, hempty⟩) hreplacement h
    · rw [if_neg hside, if_neg hside]
      exact hreplacement
  unfold stepIngredient
  by_cases hside : side = .sourceAbove ∧ f.isEmpty
  · rw [if_pos hside, if_pos hside]
    obtain ⟨rfl, hempty⟩ := hside
    exact stepLone_settles hmost (.inl ⟨rfl, hempty⟩) htarget h
  · rw [if_neg hside, if_neg hside]
    exact htarget

theorem stepProducts_settles (h : ∀ r, Puts ask (.products e f) r → Settled finishing (ask r) (ask' r)) :
    Settled finishing (stepProducts ask e f) (stepProducts ask' e f) := by
  unfold stepProducts
  split
  · exact .ok _
  split
  · exact .ok _
  refine .bind_left (extractPair_finishes _ _ _) fun above habove => ?_
  cases above with
  | some pairing => exact stepPairing_settles habove h
  | none =>
    refine .bind_left (extractPair_finishes _ _ _) fun below hbelow => ?_
    cases below with
    | some pairing => exact stepPairing_settles hbelow h
    | none =>
      cases hmost : mostComplex e f with
      | none => exact .ok _
      | some choice => exact stepIngredient_settles hmost h

/-- A step is settled by the answers to the questions it puts. -/
theorem step_settles {q : Question} (h : ∀ r, Puts ask q r → Settled finishing (ask r) (ask' r)) :
    Settled finishing (step ask q) (step ask' q) := by
  cases q with
  | specs s t => exact stepSpecs_settles h
  | products e f => exact stepProducts_settles h

/-- A step depends on the questions it puts and on no others. -/
theorem step_congr {q : Question} (h : ∀ r, Puts ask q r → ask r = ask' r) :
    step ask q = step ask' q := by
  have hsettled : Settled False (step ask q) (step ask' q) :=
    step_settles fun r hr => ⟨h r hr, False.elim⟩
  exact hsettled.1

end Settles

end Question

end Metrology
