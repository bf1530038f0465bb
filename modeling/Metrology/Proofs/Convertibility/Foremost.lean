import Metrology.Proofs.Convertibility.Calls

/-!
# The most complex ingredient

Where no pair is left, the search turns to the most complex ingredient, and of several to the first one.
Numerators come before denominators in that order. So the two may change places without any effect on the
choice, unless both of one product have an ingredient as complex as any.
-/

namespace Metrology

namespace Side

/-- The place of a side in the order in which the search looks for the most complex ingredient. -/
def rank : Side → Nat
  | .sourceAbove => 0
  | .sourceBelow => 1
  | .targetAbove => 2
  | .targetBelow => 3

/-- The other side of the same product. -/
def flip : Side → Side
  | .sourceAbove => .sourceBelow
  | .sourceBelow => .sourceAbove
  | .targetAbove => .targetBelow
  | .targetBelow => .targetAbove

@[simp] theorem flip_flip (side : Side) : side.flip.flip = side := by cases side <;> rfl

def ingredients (e f : FactorProduct) (side : Side) : List Ingredient :=
  (side.product e f).ingredients side.isAbove

end Side

/-- No ingredient is more complex, and those that come earlier are less complex. -/
structure Foremost (e f : FactorProduct) (side : Side) (i : Ingredient) : Prop where
  split : ∃ before after, side.ingredients e f = before ++ i :: after ∧
    (∀ k ∈ before, k.complexity < i.complexity) ∧ ∀ k ∈ after, k.complexity ≤ i.complexity
  earlier (other : Side) : other.rank < side.rank → ∀ k ∈ other.ingredients e f,
    k.complexity < i.complexity
  maximal (other : Side) : ∀ k ∈ other.ingredients e f, k.complexity ≤ i.complexity

section MostComplex

variable {e f : FactorProduct} {side : Side} {i : Ingredient}

/-- All ingredients, each with its side. -/
def choices (e f : FactorProduct) : List (Side × Ingredient) :=
  [Side.sourceAbove, .sourceBelow, .targetAbove, .targetBelow].flatMap fun side =>
    (side.ingredients e f).map (side, ·)

theorem mostComplex_eq (e f : FactorProduct) :
    mostComplex e f = firstMaximal (fun choice => choice.2.complexity) (choices e f) := by
  simp [mostComplex, choices, Side.ingredients, Side.product, Side.isAbove]

theorem mem_choices : (side, i) ∈ choices e f ↔ i ∈ side.ingredients e f := by
  cases side <;> simp [choices]

theorem choices_ordered (e f : FactorProduct) :
    (choices e f).Pairwise fun x y => x.1.rank ≤ y.1.rank := by
  rw [choices, List.pairwise_flatMap]
  constructor
  · intro side _
    exact List.pairwise_map.mpr (List.pairwise_of_forall fun _ _ => le_rfl)
  · simp [Side.rank]

theorem filter_choices (e f : FactorProduct) (side : Side) :
    (choices e f).filter (fun choice => decide (choice.1 = side)) =
      (side.ingredients e f).map (side, ·) := by
  cases side <;> simp [choices, List.filter_append, List.filter_map, Function.comp_def]

theorem foremost_of_mostComplex (h : mostComplex e f = some (side, i)) : Foremost e f side i := by
  rw [mostComplex_eq] at h
  obtain ⟨before, after, hchoices, hbefore, hafter⟩ := split_of_firstMaximal h
  constructor
  · have hside := filter_choices e f side
    rw [hchoices, List.filter_append, List.filter_cons_of_pos (by simp)] at hside
    obtain ⟨before', rest, hsplit, hbefore', hrest⟩ := List.map_eq_append_iff.mp hside.symm
    obtain ⟨k, after', rfl, hk, hafter'⟩ := List.map_eq_cons_iff.mp hrest
    obtain rfl : k = i := (Prod.mk.inj hk).2
    refine ⟨before', after', hsplit, fun k hk => ?_, fun k hk => ?_⟩
    · have hmem : (side, k) ∈ before.filter fun choice => decide (choice.1 = side) :=
        hbefore' ▸ List.mem_map_of_mem hk
      exact hbefore (side, k) (List.mem_filter.mp hmem).1
    · have hmem : (side, k) ∈ after.filter fun choice => decide (choice.1 = side) :=
        hafter' ▸ List.mem_map_of_mem hk
      exact hafter (side, k) (List.mem_filter.mp hmem).1
  · intro other hrank k hk
    have hmem := mem_choices.mpr hk
    have hordered := choices_ordered e f
    rw [hchoices] at hmem hordered
    rcases List.mem_append.mp hmem with hmem | hmem
    · exact hbefore (other, k) hmem
    · rcases List.mem_cons.mp hmem with heq | hmem
      · obtain rfl := (Prod.mk.inj heq).1
        exact absurd hrank (lt_irrefl _)
      · have hle := (List.pairwise_cons.mp (List.pairwise_append.mp hordered).2.1).1 (other, k) hmem
        exact absurd hrank (not_lt.mpr hle)
  · intro other k hk
    have hmem := mem_choices.mpr hk
    rw [hchoices] at hmem
    exact le_of_split hbefore hafter (other, k) hmem

theorem mem_of_split (h : Foremost e f side i) : i ∈ side.ingredients e f := by
  obtain ⟨before, after, hsplit, -⟩ := h.split
  rw [hsplit]
  simp

theorem exists_mostComplex (hi : i ∈ side.ingredients e f) : ∃ choice, mostComplex e f = some choice := by
  rw [mostComplex_eq]
  exact firstMaximal_isSome _ (List.ne_nil_of_mem (mem_choices.mpr hi))

theorem mostComplex_eq_some_iff : mostComplex e f = some (side, i) ↔ Foremost e f side i := by
  refine ⟨foremost_of_mostComplex, fun h => ?_⟩
  obtain ⟨⟨side', i'⟩, hfirst⟩ := exists_mostComplex (mem_of_split h)
  have h' := foremost_of_mostComplex hfirst
  rw [hfirst]
  have hle := h'.maximal side i (mem_of_split h)
  have hle' := h.maximal side' i' (mem_of_split h')
  rcases lt_trichotomy side.rank side'.rank with hrank | hrank | hrank
  · exact absurd (h'.earlier side hrank i (mem_of_split h)) (not_lt.mpr hle')
  · obtain rfl : side = side' := by
      cases side <;> cases side' <;> first | rfl | cases hrank
    have hi := firstMaximal_eq_some_iff.mpr h.split
    have hi' := firstMaximal_eq_some_iff.mpr h'.split
    rw [Option.some.inj (hi'.symm.trans hi)]
  · exact absurd (h.earlier side' hrank i' (mem_of_split h')) (not_lt.mpr hle)

theorem exists_counterpart {l l' : List Ingredient}
    (hl : l'.map Ingredient.quantity = l.map Ingredient.quantity) {k : Ingredient} (hk : k ∈ l') :
    ∃ k' ∈ l, k'.quantity = k.quantity := by
  have hmem := List.mem_map_of_mem (f := Ingredient.quantity) hk
  rw [hl] at hmem
  exact List.mem_map.mp hmem

theorem complexity_of_same {k k' : Ingredient} (h : k'.quantity = k.quantity) :
    k'.complexity = k.complexity :=
  congrArg NamedQuantity.complexity h

/-- The same quantities stand in the same order where numerators and denominators change places. -/
def Flipped (e f e' f' : FactorProduct) : Prop :=
  ∀ side : Side, (side.flip.ingredients e' f').map Ingredient.quantity =
    (side.ingredients e f).map Ingredient.quantity

namespace Flipped

variable {e' f' : FactorProduct} (h : Flipped e f e' f')

include h

theorem symm : Flipped e' f' e f := fun side => by
  have hside := (h side.flip).symm
  rwa [side.flip_flip] at hside

theorem exists_counterpart {k : Ingredient} (hk : k ∈ side.ingredients e f) :
    ∃ k' ∈ side.flip.ingredients e' f', k'.quantity = k.quantity :=
  Metrology.exists_counterpart (h side).symm hk

theorem mostComplex_eq_none (hnone : mostComplex e f = none) : mostComplex e' f' = none := by
  by_contra hsome
  obtain ⟨⟨side', i'⟩, hsome⟩ := Option.ne_none_iff_exists'.mp hsome
  obtain ⟨k, hk, -⟩ := h.symm.exists_counterpart (mem_of_split (foremost_of_mostComplex hsome))
  obtain ⟨choice, hchoice⟩ := Metrology.exists_mostComplex hk
  cases hnone.symm.trans hchoice

/-- What is most complex after the exchange was as complex as anything before. -/
theorem exists_mostComplex {i : Ingredient} (hmost : mostComplex e f = some (side, i)) :
    ∃ side' i', mostComplex e' f' = some (side', i') ∧
      ∃ k ∈ side'.flip.ingredients e f, k.quantity = i'.quantity ∧ k.complexity = i.complexity := by
  have hforemost := foremost_of_mostComplex hmost
  obtain ⟨j, hj, hsame⟩ := h.exists_counterpart (mem_of_split hforemost)
  obtain ⟨⟨side', i'⟩, hmost'⟩ := Metrology.exists_mostComplex hj
  have hforemost' := foremost_of_mostComplex hmost'
  obtain ⟨k, hk, hsame'⟩ := h.symm.exists_counterpart (mem_of_split hforemost')
  refine ⟨side', i', hmost', k, hk, hsame', ?_⟩
  have hle := hforemost.maximal _ k hk
  have hle' := hforemost'.maximal _ j hj
  rw [complexity_of_same hsame] at hle'
  rw [complexity_of_same hsame'] at hle ⊢
  exact le_antisymm hle hle'

end Flipped

/-- If numerators and denominators change places, the other side of the product comes earlier. It makes
no difference as long as nothing there is as complex. -/
theorem Foremost.flip {e' f' : FactorProduct} (h : Foremost e f side i)
    (heven : ∀ k ∈ side.flip.ingredients e f, k.complexity < i.complexity) (hflip : Flipped e f e' f') :
    ∃ i', Foremost e' f' side.flip i' ∧ i'.quantity = i.quantity := by
  obtain ⟨before, after, hsplit, hbefore, hafter⟩ := h.split
  have hmap := hflip side
  rw [hsplit, List.map_append, List.map_cons] at hmap
  obtain ⟨before', rest, hsplit', hbefore', hrest⟩ := List.map_eq_append_iff.mp hmap
  obtain ⟨i', after', rfl, hi', hafter'⟩ := List.map_eq_cons_iff.mp hrest
  have hcomplexity := complexity_of_same hi'
  refine ⟨i', ⟨⟨before', after', hsplit', fun k hk => ?_, fun k hk => ?_⟩, fun other hrank k hk => ?_,
    fun other k hk => ?_⟩, hi'⟩
  · obtain ⟨k', hk', hsame⟩ := exists_counterpart hbefore' hk
    have hcomplexity' := complexity_of_same hsame
    have hlt := hbefore k' hk'
    omega
  · obtain ⟨k', hk', hsame⟩ := exists_counterpart hafter' hk
    have hcomplexity' := complexity_of_same hsame
    have hle := hafter k' hk'
    omega
  · obtain ⟨k', hk', hsame⟩ := hflip.symm.exists_counterpart hk
    have hcomplexity' := complexity_of_same hsame
    have hlt : k'.complexity < i.complexity := by
      by_cases hother : other.flip = side.flip
      · exact heven k' (hother ▸ hk')
      · refine h.earlier other.flip ?_ k' hk'
        cases side <;> cases other <;>
          first | exact absurd rfl hother | exact absurd hrank (by decide) | decide
    omega
  · obtain ⟨k', hk', hsame⟩ := hflip.symm.exists_counterpart hk
    have hcomplexity' := complexity_of_same hsame
    have hle := h.maximal other.flip k' hk'
    omega

end MostComplex

end Metrology
