import Metrology.Proofs.Convertibility.Foremost
import Metrology.Proofs.Convertibility.PairsOff

/-!
# Searches for reciprocals

The reciprocal of a product holds below the line what the product holds above it. A search about two
products and a search about their reciprocals take out the same pairs, only in another order, and turn to
the same ingredients. They treat these alike except in three places: an ingredient that stands alone is
taken for a dimensionless quantity only in a numerator, of two ingredients that are equally complex the
one in the numerator comes first, and an inherited equation costs nothing in the numerator of the source.
-/

namespace Metrology

namespace FactorProduct

variable {W : World} {e f c d e' c' : FactorProduct} {b : Bool} {i i' : Ingredient}

open QuantitySpec (ofProduct)

/-- Every quantity of the world has the opposite power. -/
def Reciprocal (W : World) (e e' : FactorProduct) : Prop :=
  ∀ q, W.Holds q → q.isDimensionless = false → e'.powerIn q = -e.powerIn q

theorem reciprocal_of_inverse (h : e.inverse = .ok e') : Reciprocal W e e' :=
  fun _ _ _ => PowerProduct.weigh_inverse h

/-- Numerators and denominators change places. -/
theorem reciprocal_iff : Reciprocal W e e' ↔ ∀ b, SameAmounts W e b e' (!b) := by
  constructor
  · intro h b q hq hproper
    rw [amount, amount, h q hq hproper]
    cases b <;> simp [Exchange.sign]
  · intro h q hq hproper
    have habove := h true q hq hproper
    have hbelow := h false q hq hproper
    simp only [amount, Exchange.sign, Bool.not_true, Bool.not_false, Bool.false_eq_true, if_true,
      if_false, one_mul, neg_one_mul] at habove hbelow
    have hparts := max_zero_sub_max_neg_zero_eq_self (e.powerIn q)
    have hparts' := max_zero_sub_max_neg_zero_eq_self (e'.powerIn q)
    linarith

namespace Reciprocal

theorem symm (h : Reciprocal W e e') : Reciprocal W e' e := fun q hq hproper => by
  rw [h q hq hproper, neg_neg]

variable (h : Reciprocal W e e') (he : (ofProduct e).Within W) (he' : (ofProduct e').Within W)

include h he he'

theorem quantities_eq (b : Bool) : e'.quantities b = e.quantities (!b) :=
  (reciprocal_iff.mp h.symm b).quantities_eq he' he

theorem isEmpty_eq : e'.isEmpty = e.isEmpty := by
  rw [Bool.eq_iff_iff, isEmpty_iff_quantities he', isEmpty_iff_quantities he]
  simp only [h.quantities_eq he he', Bool.forall_bool, Bool.not_true, Bool.not_false]
  exact and_comm

theorem count_eq (b : Bool) : e'.count b = e.count (!b) := by
  rw [count_eq_length he', count_eq_length he, h.quantities_eq he he']

theorem replaceAt (hW : W.Declared) (hi : i ∈ e.ingredients b) (hi' : i' ∈ e'.ingredients (!b))
    (hsame : i'.quantity = i.quantity) {grade : Convertibility}
    (hexplode : i.quantity.explode? = some (d, grade)) (hc : e.replaceAt i d = .ok c)
    (hc' : e'.replaceAt i' d = .ok c') : Reciprocal W c c' := by
  obtain ⟨-, hweigh⟩ := replaceAt_weigh hW he hi hexplode hc
  obtain ⟨-, hweigh'⟩ := replaceAt_weigh hW he' hi' (hsame ▸ hexplode) hc'
  obtain ⟨hiW, hproper⟩ := ingredient_holds he hi
  have hpower : i'.power.value = -i.power.value := by
    rw [← powerIn_ingredient he' hi', ← powerIn_ingredient he hi, hsame, h _ hiW hproper]
  intro q hq hqproper
  have hweight := indicator_weight (W := W) hq hqproper
  have hopposite := h q hq hqproper
  simp only [powerIn] at hopposite ⊢
  rw [hweigh _ hweight, hweigh' _ hweight, hpower, hsame, hopposite]
  ring

end Reciprocal

end FactorProduct

namespace Question

open FactorProduct (SameAmounts Reciprocal)
open QuantitySpec (ofProduct)

structure Inverted (W : World) (e f e' f' : FactorProduct) : Prop where
  source_within : (ofProduct e).Within W
  target_within : (ofProduct f).Within W
  source_within' : (ofProduct e').Within W
  target_within' : (ofProduct f').Within W
  source : Reciprocal W e e'
  target : Reciprocal W f f'

theorem Inverted.symm {W : World} {e f e' f' : FactorProduct} (h : Inverted W e f e' f') :
    Inverted W e' f' e f :=
  ⟨h.source_within', h.target_within', h.source_within, h.target_within, h.source.symm, h.target.symm⟩

/-! ### The pairs -/

section Pairs

variable {W : World} {e f e' f' c d c' d' : FactorProduct} {g g' : Convertibility}
  {left left' : Option (Convertibility × FactorProduct × FactorProduct)}

/-- The pairs of numerators come first. -/
inductive TakesOut : FactorProduct → FactorProduct →
    Option (Convertibility × FactorProduct × FactorProduct) → Prop where
  | apart {e f : FactorProduct} : PairsOff true e f none → TakesOut e f none
  | next {e f c d : FactorProduct} {g : Convertibility}
      {left : Option (Convertibility × FactorProduct × FactorProduct)} :
      PairsOff true e f (some (g, c, d)) → PairsOff false c d left →
      TakesOut e f (left.map fun r => (g.min r.1, r.2))

theorem takesOut_of_answer {n : Nat} (he : (ofProduct e).Within W) (hf : (ofProduct f).Within W)
    (h : answer n (.products e f) = .ok g) : ∃ left, TakesOut e f left ∧
      (left = none ∧ g = .no ∨ ∃ g₁ c d g₂, left = some (g₁, c, d) ∧
        answer n (.products c d) = .ok g₂ ∧ g = g₁.min g₂) := by
  obtain ⟨above, habove, hrest⟩ := pairsOff_of_answer (.inl rfl) he hf h
  rcases hrest with ⟨rfl, rfl⟩ | ⟨g₁, c, d, g₂, rfl, hg₂, rfl⟩
  · exact ⟨none, .apart habove, .inl ⟨rfl, rfl⟩⟩
  · have hunpaired := habove.unpaired he hf rfl
    obtain ⟨below, hbelow, hrest⟩ := pairsOff_of_answer (.inr hunpaired.none_left)
      hunpaired.source_within hunpaired.target_within hg₂
    refine ⟨_, .next habove hbelow, ?_⟩
    rcases hrest with ⟨rfl, rfl⟩ | ⟨g₂, c, d, g₃, rfl, hg₃, rfl⟩
    · exact .inl ⟨rfl, Convertibility.min_no _⟩
    · exact .inr ⟨g₁.min g₂, c, d, g₃, rfl, hg₃, (Convertibility.min_assoc _ _ _).symm⟩

/-- The denominators of the reciprocals, of which no pair has been taken out yet, are paired off as the
numerators of the products are. -/
theorem Inverted.crosswise (h : Inverted W e f e' f') (habove : PairsOff true e f left)
    (habove' : PairsOff true e' f' (some (g', c', d'))) (hbelow' : PairsOff false c' d' left') :
    (left = none ∧ left' = none) ∨ ∃ g c d c₂ d₂, left = some (g, c, d) ∧ left' = some (g, c₂, d₂) ∧
      SameAmounts W c true c₂ false ∧ SameAmounts W d true d₂ false := by
  have hunpaired := habove'.unpaired h.source_within' h.target_within' rfl
  exact habove.same hbelow' h.source_within h.target_within hunpaired.source_within
    hunpaired.target_within
    ((FactorProduct.reciprocal_iff.mp h.source true).trans hunpaired.source_other)
    ((FactorProduct.reciprocal_iff.mp h.target true).trans hunpaired.target_other)

/-- What is left of the products when all pairs are taken out. -/
structure Bare (W : World) (e f c d : FactorProduct) : Prop where
  source_within : (ofProduct c).Within W
  target_within : (ofProduct d).Within W
  none_left (b : Bool) : extractPair c d b = .ok none
  reached : Relation.ReflTransGen LeadsTo (.products e f) (.products c d)

theorem TakesOut.bare (h : TakesOut e f left) (he : (ofProduct e).Within W)
    (hf : (ofProduct f).Within W) (hleft : left = some (g, c, d)) : Bare W e f c d := by
  cases h with
  | apart => cases hleft
  | next habove hbelow =>
    obtain ⟨⟨g₂, c₂, d₂⟩, hrest, hleft⟩ := Option.map_eq_some_iff.mp hleft
    obtain ⟨-, rfl, rfl⟩ := hleft
    have hfirst := habove.unpaired he hf rfl
    have hsecond := hbelow.unpaired hfirst.source_within hfirst.target_within hrest
    refine ⟨hsecond.source_within, hsecond.target_within, fun b => ?_,
      hfirst.reached.trans hsecond.reached⟩
    cases b with
    | true =>
      exact extractPair_none_of_same
        (hsecond.source_other.quantities_eq hfirst.source_within hsecond.source_within)
        (hsecond.target_other.quantities_eq hfirst.target_within hsecond.target_within) hfirst.none_left
    | false => exact hsecond.none_left

/-- From products and from their reciprocals the same pairs are taken out, and reciprocals are left. -/
theorem Inverted.takesOut (h : Inverted W e f e' f') (hleft : TakesOut e f left)
    (hleft' : TakesOut e' f' left') : (left = none ∧ left' = none) ∨ ∃ g c d c' d',
      left = some (g, c, d) ∧ left' = some (g, c', d') ∧ Inverted W c d c' d' := by
  cases hleft with
  | apart habove =>
    cases hleft' with
    | apart => exact .inl ⟨rfl, rfl⟩
    | next habove' hbelow' =>
      rcases h.crosswise habove habove' hbelow' with ⟨-, rfl⟩ | ⟨_, _, _, _, _, hnone, -⟩
      · exact .inl ⟨rfl, rfl⟩
      · cases hnone
  | next habove hbelow =>
    cases hleft' with
    | apart habove' =>
      rcases h.symm.crosswise habove' habove hbelow with ⟨-, rfl⟩ | ⟨_, _, _, _, _, hnone, -⟩
      · exact .inl ⟨rfl, rfl⟩
      · cases hnone
    | next habove' hbelow' =>
      have hfirst := habove.unpaired h.source_within h.target_within rfl
      have hfirst' := habove'.unpaired h.source_within' h.target_within' rfl
      obtain ⟨g₁, c₁, d₁, c₂', d₂', hsome, rfl, hc, hd⟩ :=
        (h.crosswise habove habove' hbelow').resolve_left (fun hnone => nomatch hnone.1)
      obtain ⟨g₁', c₁', d₁', c₂, d₂, hsome', rfl, hc', hd'⟩ :=
        (h.symm.crosswise habove' habove hbelow).resolve_left (fun hnone => nomatch hnone.1)
      obtain ⟨rfl, rfl, rfl⟩ := Option.some.inj hsome
      obtain ⟨rfl, rfl, rfl⟩ := Option.some.inj hsome'
      have hsecond := hbelow.unpaired hfirst.source_within hfirst.target_within rfl
      have hsecond' := hbelow'.unpaired hfirst'.source_within hfirst'.target_within rfl
      refine .inr ⟨_, c₂, d₂, c₂', d₂', rfl, ?_, ?_⟩
      · rw [Option.map_some, Convertibility.min_comm]
      · refine ⟨hsecond.source_within, hsecond.target_within, hsecond'.source_within,
          hsecond'.target_within, FactorProduct.reciprocal_iff.mpr fun b => ?_,
          FactorProduct.reciprocal_iff.mpr fun b => ?_⟩
        · cases b with
          | true => exact hsecond.source_other.symm.trans hc
          | false => exact hc'.symm.trans hsecond'.source_other
        · cases b with
          | true => exact hsecond.target_other.symm.trans hd
          | false => exact hd'.symm.trans hsecond'.target_other

end Pairs

/-! ### The ingredients -/

/-- Neither pairs nor counts settle the question, so the search turns to an ingredient. -/
structure TurnsTo (e f : FactorProduct) (side : Side) (i : Ingredient) : Prop where
  none_left (b : Bool) : extractPair e f b = .ok none
  not_yes : ¬ (e.count true = e.count false ∧ f.isEmpty = true)
  not_explicit : ¬ (e.isEmpty = true ∧ f.count true = f.count false ∧ 1 ≤ f.count true)
  foremost : Foremost e f side i

/-- A search that comes to these products does not tell numerators from denominators. -/
structure EvenHanded (e f : FactorProduct) : Prop where
  /-- What is replaced in a numerator is not as complex as something in the denominator, or the other
  way round. -/
  untied {side : Side} {i : Ingredient} : TurnsTo e f side i → i.complexity ≠ 0 →
    ∀ k ∈ side.flip.ingredients e f, k.complexity < i.complexity
  /-- What is left alone is not dimensionless. -/
  proper {side : Side} {i : Ingredient} : TurnsTo e f side i → (e.isEmpty = true ∨ f.isEmpty = true) →
    ∀ other : Side, ∀ k ∈ other.ingredients e f, k.complexity = i.complexity →
      k.quantity.treeRoot ≠ .dimensionless

section Steps

variable {W : World} {e f e' f' c c' : FactorProduct} {side : Side} {i : Ingredient} {n m : Nat}
  {ask : Question → Except Fault Convertibility} {g g' : Convertibility}

theorem stepProducts_bare (hnone : ∀ b, extractPair e f b = .ok none) :
    stepProducts ask e f =
      if e.count true = e.count false ∧ f.isEmpty then .ok .yes
      else if e.isEmpty ∧ f.count true = f.count false ∧ 1 ≤ f.count true then .ok .explicit
      else match mostComplex e f with
        | none => .ok .no
        | some (side, i) => stepIngredient ask e f side i := by
  unfold stepProducts
  rw [hnone true, hnone false]
  cases mostComplex e f <;> rfl

theorem answer_lone_apart (hW : W.Declared) (hi : W.Holds i.quantity)
    (htree : i.quantity.treeRoot ≠ .dimensionless) (h : answer n (side.lone i) = .ok g) : g = .no := by
  have hone := W.dimensionless_holds
  have hroot : i.quantity.treeRoot ≠ NamedQuantity.dimensionless.treeRoot := by
    rwa [NamedQuantity.treeRoot_dimensionless]
  have hx := W.dimension_named hW hi
  have hy := W.dimension_named hW hone
  cases n with
  | zero => cases side <;> cases h
  | succ n =>
    cases side with
    | sourceAbove | sourceBelow =>
      exact Except.ok.inj (h.symm.trans (answer_named_apart hi hone hroot hx hy n))
    | targetAbove | targetBelow =>
      exact Except.ok.inj (h.symm.trans (answer_named_apart hone hi hroot.symm hy hx n))

theorem stepReplacement_of_stepIngredient (hW : W.Declared) (hi : W.Holds i.quantity)
    (hproper : e.isEmpty = true ∨ f.isEmpty = true → i.quantity.treeRoot ≠ .dimensionless)
    (h : stepIngredient (answer n) e f side i = .ok g) :
    stepReplacement (answer n) e f side i = .ok g := by
  have hlone (alone : Side) {removed : Except Fault FactorProduct} {next : FactorProduct → Question}
      {otherwise : Except Fault Convertibility} (hempty : e.isEmpty = true ∨ f.isEmpty = true)
      (h : stepLone (answer n) (alone.lone i) removed next otherwise = .ok g) : otherwise = .ok g := by
    obtain ⟨grade, hgrade, h⟩ := bind_eq_ok.mp h
    obtain rfl := answer_lone_apart hW hi (hproper hempty) hgrade
    rwa [if_neg (by simp)] at h
  have htarget (h : stepTarget (answer n) e f side i = .ok g) :
      stepReplacement (answer n) e f side i = .ok g := by
    unfold stepTarget at h
    split at h
    · rename_i hside
      exact hlone .targetAbove (.inl hside.2) h
    · exact h
  unfold stepIngredient at h
  split at h
  · rename_i hside
    exact htarget (hlone .sourceAbove (.inr hside.2) h)
  · exact htarget h

/-- What a replacement comes to: nothing, or a question about what it leaves. -/
theorem stepReplacement_spec (h : stepReplacement ask e f side i = .ok g) :
    ((i.complexity = 0 ∨ i.quantity.explode? = none) ∧ g = .no) ∨
    ∃ equation grade c g₁, i.complexity ≠ 0 ∧ i.quantity.explode? = some (equation, grade) ∧
      (side.product e f).replaceAt i equation = .ok c ∧ ask (side.put e f c) = .ok g₁ ∧
      g = if side = .sourceAbove then g₁ else grade.min g₁ := by
  unfold stepReplacement at h
  by_cases hcomplexity : i.complexity = 0
  · rw [if_pos hcomplexity] at h
    exact .inl ⟨.inl hcomplexity, (Except.ok.inj h).symm⟩
  rw [if_neg hcomplexity] at h
  cases hexplode : i.quantity.explode? with
  | none =>
    rw [hexplode] at h
    exact .inl ⟨.inr rfl, (Except.ok.inj h).symm⟩
  | some replacement =>
    obtain ⟨equation, grade⟩ := replacement
    rw [hexplode] at h
    right
    cases side with
    | sourceAbove =>
      obtain ⟨c, hc, h⟩ := bind_eq_ok.mp h
      exact ⟨equation, grade, c, g, hcomplexity, rfl, hc, h, rfl⟩
    | sourceBelow | targetAbove | targetBelow =>
      obtain ⟨c, hc, h⟩ := bind_eq_ok.mp h
      obtain ⟨g₁, hg₁, h⟩ := bind_eq_ok.mp h
      exact ⟨equation, grade, c, g₁, hcomplexity, rfl, hc, hg₁, (Except.ok.inj h).symm⟩

end Steps

/-! ### One step and its reciprocal -/

end Question

/-- Two grades that are equal up to `explicit`, and equal altogether if `fully` holds. -/
structure Convertibility.Agrees (fully : Prop) (g g' : Convertibility) : Prop where
  upToExplicit : g.min .explicit = g'.min .explicit
  full : fully → g = g'

namespace Convertibility.Agrees

variable {fully : Prop} {g g' grade : Convertibility}

theorem refl (g : Convertibility) : Agrees fully g g := ⟨rfl, fun _ => rfl⟩

theorem min (h : Agrees fully g g') (grade : Convertibility) :
    Agrees fully (grade.min g) (grade.min g') := by
  refine ⟨?_, fun hfully => by rw [h.full hfully]⟩
  rw [min_assoc, h.upToExplicit, ← min_assoc]

/-- The numerator of the source is the one place where the grade of a replacement does not count. -/
theorem replaced (h : Agrees fully g g') {q : NamedQuantity} {equation : FactorProduct}
    (hexplode : q.explode? = some (equation, grade)) {side : Side}
    (hfully : fully → side = .sourceAbove ∨ side = .sourceBelow → q.definesEquation = true) :
    Agrees fully (if side = .sourceAbove then g else grade.min g)
      (if side.flip = .sourceAbove then g' else grade.min g') := by
  obtain ⟨_, -, hreplacement⟩ := Option.map_eq_some_iff.mp hexplode
  obtain rfl := (Prod.mk.inj hreplacement).2
  have hexplicit (x : Convertibility) : (Convertibility.min (if q.definesEquation then .yes else
      .explicit) x).min .explicit = x.min .explicit := by
    cases q.definesEquation <;> cases x <;> rfl
  constructor
  · cases side <;> simp only [Side.flip, reduceCtorEq, if_true, if_false, hexplicit, h.upToExplicit]
  · intro hf
    obtain rfl := h.full hf
    cases side with
    | sourceAbove | sourceBelow => simp [Side.flip, hfully hf]
    | targetAbove | targetBelow => rfl

end Convertibility.Agrees

namespace Question

open FactorProduct (Reciprocal)
open QuantitySpec (ofProduct)

namespace Inverted

variable {W : World} {e f e' f' c c' : FactorProduct} {side : Side} {i i' : Ingredient} {n m : Nat}
  {g g' : Convertibility} (h : Inverted W e f e' f')

include h

theorem flipped : Flipped e f e' f' := fun side => by
  have hsource := h.source.quantities_eq h.source_within h.source_within'
  have htarget := h.target.quantities_eq h.target_within h.target_within'
  cases side
  · exact hsource false
  · exact hsource true
  · exact htarget false
  · exact htarget true

theorem put (side : Side) (hc : (ofProduct c).Within W) (hc' : (ofProduct c').Within W)
    (hrec : Reciprocal W c c') : ∃ a b a' b', side.put e f c = .products a b ∧
      side.flip.put e' f' c' = .products a' b' ∧ Inverted W a b a' b' := by
  cases side with
  | sourceAbove | sourceBelow =>
    exact ⟨c, f, c', f', rfl, rfl, hc, h.target_within, hc', h.target_within', hrec, h.target⟩
  | targetAbove | targetBelow =>
    exact ⟨e, c, e', c', rfl, rfl, h.source_within, hc, h.source_within', hc', h.source, hrec⟩

theorem product (side : Side) : (ofProduct (side.product e f)).Within W ∧
    (ofProduct (side.flip.product e' f')).Within W ∧
      Reciprocal W (side.product e f) (side.flip.product e' f') := by
  cases side with
  | sourceAbove | sourceBelow => exact ⟨h.source_within, h.source_within', h.source⟩
  | targetAbove | targetBelow => exact ⟨h.target_within, h.target_within', h.target⟩

structure Next (W : World) (n m : Nat) (e f e' f' : FactorProduct) (side : Side) (i : Ingredient)
    (g g' : Convertibility) (a b a' b' : FactorProduct) (g₁ g₁' : Convertibility) : Prop where
  leads : LeadsTo (.products e f) (.products a b)
  inverted : Inverted W a b a' b'
  answer : answer n (.products a b) = .ok g₁
  answer' : Question.answer m (.products a' b') = .ok g₁'
  agrees {fully : Prop} : (fully → side = .sourceAbove ∨ side = .sourceBelow →
    i.quantity.definesEquation = true) → Convertibility.Agrees fully g₁ g₁' →
      Convertibility.Agrees fully g g'

theorem replacement (hW : W.Declared) (hmost : mostComplex e f = some (side, i))
    (hi' : i' ∈ side.flip.ingredients e' f') (hsame : i'.quantity = i.quantity)
    (hg : stepReplacement (answer n) e f side i = .ok g)
    (hg' : stepReplacement (answer m) e' f' side.flip i' = .ok g') :
    g = g' ∨ ∃ a b a' b' g₁ g₁', Next W n m e f e' f' side i g g' a b a' b' g₁ g₁' := by
  have hi := mem_of_mostComplex hmost
  have hcomplexity := complexity_of_same hsame
  rcases stepReplacement_spec hg with ⟨hstuck, rfl⟩ | ⟨d, grade, c, g₁, hzero, hexplode, hc, hg₁, rfl⟩
  · rcases stepReplacement_spec hg' with ⟨-, rfl⟩ | ⟨_, _, _, _, hzero', hexplode', -⟩
    · exact .inl rfl
    · rcases hstuck with hstuck | hstuck
      · exact absurd (hcomplexity.trans hstuck) hzero'
      · rw [hsame, hstuck] at hexplode'
        cases hexplode'
  · rcases stepReplacement_spec hg' with
      ⟨hstuck, -⟩ | ⟨d', grade', c', g₁', -, hexplode', hc', hg₁', rfl⟩
    · rcases hstuck with hstuck | hstuck
      · exact absurd (hcomplexity.symm.trans hstuck) hzero
      · rw [hsame, hexplode] at hstuck
        cases hstuck
    · rw [hsame, hexplode] at hexplode'
      obtain ⟨rfl, rfl⟩ := Prod.mk.inj (Option.some.inj hexplode')
      obtain ⟨hwithin, hwithin', hreciprocal⟩ := h.product side
      have hi'' : i' ∈ (side.flip.product e' f').ingredients (!side.isAbove) := by
        cases side <;> exact hi'
      have hcW := (FactorProduct.replaceAt_weigh hW hwithin hi hexplode hc).1
      have hcW' := (FactorProduct.replaceAt_weigh hW hwithin' hi' (hsame ▸ hexplode) hc').1
      have hrec := hreciprocal.replaceAt hwithin hwithin' hW hi hi'' hsame hexplode hc hc'
      obtain ⟨a, b, a', b', hput, hput', hinverted⟩ := h.put side hcW hcW' hrec
      rw [hput] at hg₁
      rw [hput'] at hg₁'
      exact .inr ⟨a, b, a', b', g₁, g₁',
        { leads := hput ▸ ⟨n, .replaced hmost hzero hexplode hc⟩
          inverted := hinverted
          answer := hg₁
          answer' := hg₁'
          agrees := fun hfully hagrees => hagrees.replaced hexplode hfully }⟩

theorem yes_iff : e'.count true = e'.count false ∧ f'.isEmpty = true ↔
    e.count true = e.count false ∧ f.isEmpty = true := by
  have hcount := h.source.count_eq h.source_within h.source_within'
  rw [hcount, hcount, h.target.isEmpty_eq h.target_within h.target_within']
  exact and_congr_left' eq_comm

theorem explicit_iff : e'.isEmpty = true ∧ f'.count true = f'.count false ∧ 1 ≤ f'.count true ↔
    e.isEmpty = true ∧ f.count true = f.count false ∧ 1 ≤ f.count true := by
  have hcount := h.target.count_eq h.target_within h.target_within'
  rw [hcount, hcount, h.source.isEmpty_eq h.source_within h.source_within']
  refine and_congr_right' ?_
  simp only [Bool.not_true, Bool.not_false]
  omega

/-- Both steps replace the same quantity, or neither has one to replace. -/
theorem stepIngredient (hW : W.Declared) (heven : EvenHanded e f) (hturns : TurnsTo e f side i)
    {side' : Side} {k : Ingredient} (hmost' : mostComplex e' f' = some (side', i'))
    (hk : k ∈ side'.flip.ingredients e f) (hsame : k.quantity = i'.quantity)
    (hcomplexity : k.complexity = i.complexity)
    (hg : Question.stepIngredient (answer n) e f side i = .ok g)
    (hg' : Question.stepIngredient (answer m) e' f' side' i' = .ok g') :
    g = g' ∨ ∃ a b a' b' g₁ g₁', Next W n m e f e' f' side i g g' a b a' b' g₁ g₁' := by
  have hempty := h.source.isEmpty_eq h.source_within h.source_within'
  have hempty' := h.target.isEmpty_eq h.target_within h.target_within'
  have hi := mem_of_split hturns.foremost
  have hi' := mem_of_split (foremost_of_mostComplex hmost')
  replace hg := stepReplacement_of_stepIngredient hW
    (FactorProduct.holds_of_ingredient (h.product side).1 hi)
    (fun halone => heven.proper hturns halone side i hi rfl) hg
  replace hg' := stepReplacement_of_stepIngredient hW
    (FactorProduct.holds_of_ingredient (h.symm.product side').1 hi')
    (fun halone => hsame ▸ heven.proper hturns (by rwa [hempty, hempty'] at halone) _ k hk hcomplexity)
    hg'
  by_cases hzero : i.complexity = 0
  · have hzero' : i'.complexity = 0 := by rw [← complexity_of_same hsame, hcomplexity, hzero]
    rw [stepReplacement, if_pos hzero] at hg
    rw [stepReplacement, if_pos hzero'] at hg'
    exact .inl (Except.ok.inj (hg.symm.trans hg'))
  · obtain ⟨j, hforemost, hj⟩ := hturns.foremost.flip (heven.untied hturns hzero) h.flipped
    obtain ⟨rfl, rfl⟩ := Prod.mk.inj (Option.some.inj
      ((mostComplex_eq_some_iff.mpr hforemost).symm.trans hmost'))
    exact h.replacement hW (mostComplex_eq_some_iff.mpr hturns.foremost) (mem_of_split hforemost) hj hg hg'

/-- A step that finds no pair comes to the same as the step about the reciprocals, or both replace the
same quantity. -/
theorem stepProducts (hW : W.Declared) (hnone : ∀ b, extractPair e f b = .ok none)
    (hnone' : ∀ b, extractPair e' f' b = .ok none) (heven : EvenHanded e f)
    (hg : Question.stepProducts (answer n) e f = .ok g)
    (hg' : Question.stepProducts (answer m) e' f' = .ok g') :
    g = g' ∨ ∃ side i a b a' b' g₁ g₁', TurnsTo e f side i ∧
      Next W n m e f e' f' side i g g' a b a' b' g₁ g₁' := by
  rw [stepProducts_bare hnone] at hg
  rw [stepProducts_bare hnone'] at hg'
  by_cases hyes : e.count true = e.count false ∧ f.isEmpty = true
  · rw [if_pos hyes] at hg
    rw [if_pos (h.yes_iff.mpr hyes)] at hg'
    exact .inl (Except.ok.inj (hg.symm.trans hg'))
  rw [if_neg hyes] at hg
  rw [if_neg (h.yes_iff.not.mpr hyes)] at hg'
  by_cases hexplicit : e.isEmpty = true ∧ f.count true = f.count false ∧ 1 ≤ f.count true
  · rw [if_pos hexplicit] at hg
    rw [if_pos (h.explicit_iff.mpr hexplicit)] at hg'
    exact .inl (Except.ok.inj (hg.symm.trans hg'))
  rw [if_neg hexplicit] at hg
  rw [if_neg (h.explicit_iff.not.mpr hexplicit)] at hg'
  cases hmost : mostComplex e f with
  | none =>
    rw [hmost] at hg
    rw [h.flipped.mostComplex_eq_none hmost] at hg'
    exact .inl (Except.ok.inj (hg.symm.trans hg'))
  | some choice =>
    obtain ⟨side, i⟩ := choice
    obtain ⟨side', i', hmost', k, hk, hsame, hcomplexity⟩ := h.flipped.exists_mostComplex hmost
    have hturns : TurnsTo e f side i := ⟨hnone, hyes, hexplicit, foremost_of_mostComplex hmost⟩
    rw [hmost] at hg
    rw [hmost'] at hg'
    rcases h.stepIngredient hW heven hturns hmost' hk hsame hcomplexity hg hg' with
      heq | ⟨a, b, a', b', g₁, g₁', hnext⟩
    · exact .inl heq
    · exact .inr ⟨side, i, a, b, a', b', g₁, g₁', hturns, hnext⟩

end Inverted

/-! ### The search and its reciprocal -/

section Search

variable {W : World} {q : Question}

/-- The search for `q` comes to two products. -/
def ComesTo (q : Question) (e f : FactorProduct) : Prop :=
  Relation.ReflTransGen LeadsTo q (.products e f)

/-- The search for `q` never tells numerators from denominators. -/
def IsEvenHanded (q : Question) : Prop := ∀ e f, ComesTo q e f → EvenHanded e f

/-- No equation that the search for `q` uses on the source is inherited. -/
def UsesOwnEquations (q : Question) : Prop :=
  ∀ e f side i, ComesTo q e f → TurnsTo e f side i → side = .sourceAbove ∨ side = .sourceBelow →
    i.quantity.definesEquation = true

/-- Even-handed searches about products and about their reciprocals come to the same, up to whether the
conversion is explicit or implicit. -/
theorem answer_inverted (hW : W.Declared) (heven : q.IsEvenHanded) {n m : Nat}
    {e f e' f' : FactorProduct} {g g' : Convertibility} (h : Inverted W e f e' f')
    (hreached : ComesTo q e f) (hg : answer n (.products e f) = .ok g)
    (hg' : answer m (.products e' f') = .ok g') : Convertibility.Agrees q.UsesOwnEquations g g' := by
  induction n generalizing m e f e' f' g g' with
  | zero => cases hg
  | succ n ih =>
    obtain ⟨left, hleft, hrest⟩ := takesOut_of_answer h.source_within h.target_within hg
    obtain ⟨left', hleft', hrest'⟩ := takesOut_of_answer h.source_within' h.target_within' hg'
    rcases h.takesOut hleft hleft' with ⟨rfl, rfl⟩ | ⟨g₁, c, d, c', d', rfl, rfl, hinverted⟩
    · obtain ⟨-, rfl⟩ := hrest.resolve_right (by simp)
      obtain ⟨-, rfl⟩ := hrest'.resolve_right (by simp)
      exact .refl _
    obtain ⟨_, _, _, g₂, hsome, hg₂, rfl⟩ := hrest.resolve_left (by simp)
    obtain ⟨rfl, rfl, rfl⟩ := Option.some.inj hsome
    obtain ⟨_, _, _, g₂', hsome', hg₂', rfl⟩ := hrest'.resolve_left (by simp)
    obtain ⟨rfl, rfl, rfl⟩ := Option.some.inj hsome'
    have hbare := hleft.bare h.source_within h.target_within rfl
    have hbare' := hleft'.bare h.source_within' h.target_within' rfl
    have hreached' : ComesTo q c d := hreached.trans hbare.reached
    refine Convertibility.Agrees.min ?_ _
    cases m with
    | zero => cases hg'
    | succ m =>
      rw [answer_succ] at hg₂ hg₂'
      rcases hinverted.stepProducts hW hbare.none_left hbare'.none_left (heven c d hreached') hg₂ hg₂' with
        rfl | ⟨side, i, a, b, a', b', g₃, g₃', hturns, hnext⟩
      · exact .refl _
      · exact hnext.agrees (fun hfully => hfully c d side i hreached' hturns)
          (ih hnext.inverted (hreached'.tail hnext.leads) hnext.answer hnext.answer')

end Search

end Question

end Metrology
