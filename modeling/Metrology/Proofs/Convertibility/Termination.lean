import Metrology.Proofs.Convertibility.Conservation
import Metrology.Proofs.Hierarchy.Vocabulary

/-!
# The search ends

Every question about two products leads to one about smaller products. Pairing takes at least one factor
away and adds none, and so does the removal of an ingredient. A replacement adds the factors of an
equation, which may merge with factors that are there or cancel them, but all of them are less complex
than the ingredient they replace. So the complexities decrease as multisets. The number of quantities
left to visit decreases as well, and it shows that the search never needs more questions than its bound
allows.
-/

namespace Metrology

/-! ### Multisets of complexities -/

section MultisetOrder

variable {M R E : Multiset Nat}

theorem isDershowitzMannaLT_of_lt {N : Multiset Nat} (h : M < N) : M.IsDershowitzMannaLT N :=
  ⟨M, 0, N - M, (tsub_pos_of_lt h).ne', (add_zero M).symm, (add_tsub_cancel_of_le h.le).symm, by simp⟩

/-- One element is replaced by smaller ones, and others may be lost. -/
theorem isDershowitzMannaLT_of_replaced {x : Nat} (h : M ≤ R + E) (hE : ∀ y ∈ E, y < x) :
    M.IsDershowitzMannaLT (x ::ₘ R) := by
  refine ⟨M ∩ R, M - R, x ::ₘ (R - M), Multiset.cons_ne_zero, ?_, ?_, fun y hy => ?_⟩
  · rw [add_comm, Multiset.sub_add_inter]
  · rw [Multiset.add_cons, Multiset.inter_comm, add_comm, Multiset.sub_add_inter]
  · have hyE : y ∈ E := Multiset.mem_of_le (tsub_le_iff_left.mpr h) hy
    exact ⟨x, Multiset.mem_cons_self x _, hE y hyE⟩

end MultisetOrder

namespace Question

variable {V : Vocabulary} {e f c : FactorProduct} {s t : QuantitySpec} {q r : Question}
  {ask : Question → Except Fault Convertibility}

/-- A question about canonical products of a vocabulary. -/
def WellFormed (V : Vocabulary) : Question → Prop
  | .specs s t => V.Product s.product ∧ V.Product t.product
  | .products e f => V.Product e ∧ V.Product f

def factors : Question → Multiset Factor
  | .specs s t => s.product.factors + t.product.factors
  | .products e f => e.factors + f.factors

def complexities (q : Question) : Multiset Nat := q.factors.map Factor.complexity

/-- How many quantities replacements can visit. -/
def expansion (q : Question) : Nat := (q.factors.map Factor.expansion).sum

/-- What a question about two products leads to. -/
inductive Shrinks (e f : FactorProduct) : Question → Prop where
  | paired {e' f' : FactorProduct} : e'.factors ≤ e.factors → f'.factors ≤ f.factors →
      e'.length + f'.length < e.length + f.length → Shrinks e f (.products e' f')
  | removed {c : FactorProduct} {side : Side} {i : Ingredient} :
      (side.product e f).factors = .quantity i.quantity ::ₘ c.factors → Shrinks e f (side.put e f c)
  | replaced {c equation : FactorProduct} {side : Side} {i : Ingredient} {rest : Multiset Factor} :
      (∀ other : Side, ∀ k ∈ (other.product e f).ingredients other.isAbove,
        k.complexity ≤ i.complexity) →
      (side.product e f).factors = .quantity i.quantity ::ₘ rest → c.factors ≤ rest + equation.factors →
      i.quantity.equation? = some equation → (∀ x ∈ equation.factors, x.complexity < i.complexity) →
      Shrinks e f (side.put e f c)

/-! ### Every question shrinks -/

theorem exists_other (e f : FactorProduct) (side : Side) : ∃ other : Multiset Factor,
    (Question.products e f).factors = (side.product e f).factors + other ∧
      ∀ c : FactorProduct, (side.put e f c).factors = c.factors + other := by
  cases side with
  | sourceAbove | sourceBelow => exact ⟨f.factors, rfl, fun _ => rfl⟩
  | targetAbove | targetBelow => exact ⟨e.factors, add_comm _ _, fun _ => add_comm _ _⟩

namespace Shrinks

theorem factors_lt_of_paired {e' f' : FactorProduct} (he : e'.factors ≤ e.factors)
    (hf : f'.factors ≤ f.factors) (hlength : e'.length + f'.length < e.length + f.length) :
    (Question.products e' f').factors < (Question.products e f).factors := by
  refine lt_of_le_of_ne (add_le_add he hf) fun heq => ?_
  have hcard := congrArg Multiset.card heq
  simp only [factors, Multiset.card_add, PowerProduct.card_factors] at hcard
  omega

/-- Either factors are lost, or one is replaced by those of its equation, which are less complex. -/
theorem factors_spec (h : Shrinks e f r) : r.factors < (Question.products e f).factors ∨
    ∃ (q : NamedQuantity) (equation : FactorProduct) (rest : Multiset Factor),
      (Question.products e f).factors = .quantity q ::ₘ rest ∧ r.factors ≤ rest + equation.factors ∧
        q.equation? = some equation ∧ ∀ x ∈ equation.factors, x.complexity < q.complexity := by
  cases h with
  | paired he hf hlength => exact .inl (factors_lt_of_paired he hf hlength)
  | @removed c side i hfactors =>
    obtain ⟨other, hproducts, hput⟩ := exists_other e f side
    rw [hproducts, hput, hfactors, Multiset.cons_add]
    exact .inl (Multiset.lt_cons_self _ _)
  | @replaced c equation side i rest _ hfactors hc hequation hless =>
    obtain ⟨other, hproducts, hput⟩ := exists_other e f side
    refine .inr ⟨i.quantity, equation, rest + other, ?_, ?_, hequation, hless⟩
    · rw [hproducts, hfactors, Multiset.cons_add]
    · rw [hput, add_right_comm]
      exact add_le_add_left hc other

theorem complexities_lt (h : Shrinks e f r) :
    r.complexities.IsDershowitzMannaLT (Question.products e f).complexities := by
  unfold complexities
  rcases h.factors_spec with hlt | ⟨q, equation, rest, hproducts, hr, -, hless⟩
  · exact isDershowitzMannaLT_of_lt (Multiset.map_lt_map hlt)
  · rw [hproducts, Multiset.map_cons]
    refine isDershowitzMannaLT_of_replaced (E := equation.factors.map Factor.complexity) ?_ ?_
    · rw [← Multiset.map_add]
      exact Multiset.map_le_map hr
    · intro y hy
      obtain ⟨x, hx, rfl⟩ := Multiset.mem_map.mp hy
      exact hless x hx

theorem expansion_lt (h : Shrinks e f r) : r.expansion < (Question.products e f).expansion := by
  unfold expansion
  rcases h.factors_spec with hlt | ⟨q, equation, rest, hproducts, hr, hequation, -⟩
  · have hsum := sum_expansion_add_card_le hlt.le
    have hcard := Multiset.card_lt_card hlt
    omega
  · have hsum := sum_expansion_add_card_le hr
    have hcard := Multiset.card_le_card hr
    have hq : (Factor.quantity q).expansion = (equation.factors.map Factor.expansion).sum + 1 := by
      rw [← productExpansion_eq, ← NamedQuantity.expansion_of_equation hequation, Factor.expansion]
    rw [Multiset.map_add, Multiset.sum_add] at hsum
    rw [hproducts, Multiset.map_cons, Multiset.sum_cons, hq]
    omega

end Shrinks

/-! ### What a step puts -/

theorem holds_of_ingredient (he : V.Product e) {i : Ingredient} {b : Bool} (hi : i ∈ e.ingredients b) :
    V.Holds i.quantity :=
  Vocabulary.covers_quantity.mp (he.covered _ (FactorProduct.mem_of_ingredient hi))

theorem factors_of_ingredient {i : Ingredient} {b : Bool} (hi : i ∈ e.ingredients b) :
    e.factors = .quantity i.quantity ::ₘ PowerProduct.factors (e.eraseIdx i.position) :=
  PowerProduct.factors_eraseIdx (FactorProduct.mem_ingredients.mp hi).1

/-- What is taken out of both products is all of a factor of one of them. -/
theorem extractPair_shrinks (he : V.Product e) (hf : V.Product f) {b : Bool} {p : Pairing}
    (hp : extractPair e f b = .ok (some p)) (hgrade : p.grade ≠ .no) :
    (V.Product p.source ∧ V.Product p.target) ∧ Shrinks e f (.products p.source p.target) := by
  obtain ⟨i, j, -, -, h⟩ := extracts_of_extractPair hp
  obtain ⟨shared, opposite, h⟩ := h hgrade
  have hi := FactorProduct.mem_of_ingredient h.source_mem
  have hj := FactorProduct.mem_of_ingredient h.target_mem
  have hopposite : opposite.value = -shared.value := Ratio.neg_eq_ok.mp h.opposite_eq
  obtain ⟨hsource, hsourceAll⟩ := PowerProduct.factors_mulTerm_of_mem V.orderedOn he.covered he.canonical
    hi h.source_eq
  obtain ⟨htarget, htargetAll⟩ := PowerProduct.factors_mulTerm_of_mem V.orderedOn hf.covered hf.canonical
    hj h.target_eq
  have hiV : V.Covers (.quantity i.quantity) := he.covered _ hi
  have hjV : V.Covers (.quantity j.quantity) := hf.covered _ hj
  refine ⟨⟨he.mulTerm hiV h.source_eq, hf.mulTerm hjV h.target_eq⟩, .paired hsource htarget ?_⟩
  have hsourceLength := Multiset.card_le_card hsource
  have htargetLength := Multiset.card_le_card htarget
  simp only [PowerProduct.card_factors] at hsourceLength htargetLength
  rcases value_of_sharedPower h.shared_eq with hall | hall
  · have hcard := congrArg Multiset.card (hsourceAll (by rw [hopposite, hall, add_neg_cancel]))
    rw [Multiset.card_cons, PowerProduct.card_factors, PowerProduct.card_factors] at hcard
    omega
  · have hcard := congrArg Multiset.card (htargetAll (by rw [hopposite, hall, add_neg_cancel]))
    rw [Multiset.card_cons, PowerProduct.card_factors, PowerProduct.card_factors] at hcard
    omega

theorem product_of_wellFormed (h : WellFormed V (.products e f)) (side : Side) :
    V.Product (side.product e f) := by
  cases side with
  | sourceAbove | sourceBelow => exact h.1
  | targetAbove | targetBelow => exact h.2

theorem put_wellFormed (h : WellFormed V (.products e f)) (side : Side) (hc : V.Product c) :
    WellFormed V (side.put e f c) := by
  cases side with
  | sourceAbove | sourceBelow => exact ⟨hc, h.2⟩
  | targetAbove | targetBelow => exact ⟨h.1, hc⟩

theorem lone_wellFormed {i : Ingredient} (side : Side) (hi : V.Holds i.quantity) :
    WellFormed V (side.lone i) := by
  have hone : V.Product QuantitySpec.dimensionless.product :=
    ⟨PowerProduct.over_nil, PowerProduct.canonical_one⟩
  cases side with
  | sourceAbove | sourceBelow => exact ⟨.named hi, hone⟩
  | targetAbove | targetBelow => exact ⟨hone, .named hi⟩

/-- A question about two products puts smaller ones, and asks whether a quantity is dimensionless. -/
theorem Puts.shrinks (h : Puts ask (.products e f) r) (hq : WellFormed V (.products e f)) :
    WellFormed V r ∧ (Shrinks e f r ∨ ∃ (side : Side) (i : Ingredient), r = side.lone i) := by
  cases h with
  | paired hpairing hgrade =>
    obtain ⟨hproducts, hshrinks⟩ := extractPair_shrinks hq.1 hq.2 hpairing hgrade
    exact ⟨hproducts, .inl hshrinks⟩
  | @lone _ _ side i hmost _ =>
    have hi := holds_of_ingredient (product_of_wellFormed hq side) (mem_of_mostComplex hmost)
    exact ⟨lone_wellFormed side hi, .inr ⟨side, i, rfl⟩⟩
  | @removed _ _ c side i _ hmost _ _ _ hc =>
    have hi := mem_of_mostComplex hmost
    obtain rfl := removeAt_of_ingredient hi hc
    have hproduct := (product_of_wellFormed hq side).sublist (List.eraseIdx_sublist _ i.position)
    exact ⟨put_wellFormed hq side hproduct, .inl (.removed (factors_of_ingredient hi))⟩
  | @replaced _ _ c equation side i _ hmost hcomplexity hexplode hc =>
    have hi := mem_of_mostComplex hmost
    have hproduct := product_of_wellFormed hq side
    obtain ⟨_, hequation, heq⟩ := Option.map_eq_some_iff.mp hexplode
    obtain rfl := (Prod.mk.inj heq).1
    obtain ⟨power, hpower, hc⟩ := bind_eq_ok.mp hc
    obtain ⟨rest, hrest, hc⟩ := bind_eq_ok.mp hc
    obtain rfl := removeAt_of_ingredient hi hrest
    have hover := PowerProduct.over_pow (V.equation_over (holds_of_ingredient hproduct hi) hequation)
      hpower
    have hrestProduct := hproduct.sublist (List.eraseIdx_sublist _ i.position)
    refine ⟨put_wellFormed hq side (hrestProduct.mul hover hc), .inl (.replaced (mostComplex_max hmost)
      (factors_of_ingredient hi) ?_ hequation ?_)⟩
    · exact (PowerProduct.factors_mul hc).trans (add_le_add_right (PowerProduct.factors_pow hpower) _)
    · exact fun x hx => NamedQuantity.complexity_lt_of_equation hequation hcomplexity hx

/-- Between two names nothing is asked, since quantities of one kind belong to one tree. -/
theorem Puts.wellFormed (h : Puts ask q r) (hq : q.WellFormed V) : r.WellFormed V := by
  cases q with
  | products e f => exact (h.shrinks hq).1
  | specs s t =>
    cases h with
    | roots _ hsource htarget => exact ⟨hq.1.kindTreeRoot hsource, hq.2.kindTreeRoot htarget⟩
    | targetRoot _ _ htarget => exact ⟨hq.1, hq.2.kindTreeRoot htarget⟩
    | explodedSource _ _ hp hq' hcommon hkind _ | explodedTarget _ _ hp hq' hcommon hkind _ =>
      have htree := Vocabulary.haveCommonBase_of_kindRoot (hq.1.holds_of_named hp)
        (hq.2.holds_of_named hq') hkind
      exact absurd htree (by simp [hcommon])
    | factors => exact hq

/-! ### The bound -/

/-- How many questions a question can lead to, one inside the other. -/
def rank : Question → Nat
  | .specs s t =>
    if s.isKindOf || t.isKindOf then s.reach + t.reach + 3
    else if s.named?.isSome && t.named?.isSome then 0
    else (Question.specs s t).expansion + 2
  | .products e f => (Question.products e f).expansion + 1

theorem Shrinks.rank_eq (h : Shrinks e f r) : r.rank = r.expansion + 1 := by
  cases h with
  | paired => rfl
  | @removed _ side | @replaced _ _ side => cases side <;> rfl

theorem expansion_specs (s t : QuantitySpec) : (Question.specs s t).expansion =
    (s.product.factors.map Factor.expansion).sum + (t.product.factors.map Factor.expansion).sum := by
  rw [expansion, factors, Multiset.map_add, Multiset.sum_add]

theorem rank_le (hs : s.isKindOf = false) (ht : t.isKindOf = false) :
    rank (.specs s t) ≤ (Question.specs s t).expansion + 2 := by
  rw [rank, hs, ht]
  simp only [Bool.or_self, Bool.false_eq_true, if_false]
  split
  · exact Nat.zero_le _
  · exact le_rfl

theorem rank_named (p q : NamedQuantity) : rank (.specs (.named p) (.named q)) = 0 := by
  have hnamed (r : NamedQuantity) : (QuantitySpec.named r).named?.isSome = true := by
    cases h : r.isDimensionless with
    | true => simp [QuantitySpec.named, QuantitySpec.ofProduct, QuantitySpec.named?, h]
    | false =>
      simp [QuantitySpec.named, QuantitySpec.ofProduct, QuantitySpec.named?, PowerProduct.single?, h]
  rw [rank, hnamed, hnamed]
  rfl

theorem rank_lone (i : Ingredient) (side : Side) : rank (side.lone i) = 0 := by
  cases side with
  | sourceAbove | sourceBelow => exact rank_named i.quantity .dimensionless
  | targetAbove | targetBelow => exact rank_named .dimensionless i.quantity

end Question

namespace Factor

/-- What a factor and the root of its kind can visit. -/
def reach : Factor → Nat
  | .quantity q => q.expansion + q.kindRoot.expansion
  | _ => 1

theorem expansion_le_reach (f : Factor) : f.expansion ≤ f.reach := by
  cases f with
  | quantity q => exact Nat.le_add_right _ _
  | _ => exact le_rfl

theorem expansion_kindRoot_le_reach (f : Factor) : f.kindRoot.expansion ≤ f.reach := by
  cases f with
  | quantity q => exact Nat.le_add_left _ _
  | _ => exact le_rfl

end Factor

namespace QuantitySpec

variable {s r : QuantitySpec}

theorem reach_eq (s : QuantitySpec) : s.reach = (s.product.factors.map Factor.reach).sum := by
  have hfold (terms : List (Term Factor)) (total : Nat) : terms.foldl (fun total t =>
      total + match t.factor with
        | .quantity q => q.expansion + q.kindRoot.expansion
        | _ => 1) total = total + ((PowerProduct.factors terms).map Factor.reach).sum := by
    induction terms generalizing total with
    | nil => rfl
    | cons t terms ih =>
      rw [List.foldl_cons, ih, PowerProduct.factors_cons, Multiset.map_cons, Multiset.sum_cons,
        ← Nat.add_assoc]
      rfl
  exact (hfold s.product 0).trans (Nat.zero_add _)

theorem expansion_le_reach (s : QuantitySpec) :
    (s.product.factors.map Factor.expansion).sum ≤ s.reach := by
  rw [reach_eq]
  exact Multiset.sum_map_le_sum_map _ _ fun f _ => f.expansion_le_reach

theorem factors_kindRoots (terms : List (Term Factor)) :
    PowerProduct.factors (terms.map fun t =>
      match t.factor with
      | .quantity q => ⟨.quantity q.kindRoot, t.power⟩
      | _ => t) = (PowerProduct.factors terms).map Factor.kindRoot := by
  induction terms with
  | nil => rfl
  | cons t terms ih =>
    rw [List.map_cons, PowerProduct.factors_cons, PowerProduct.factors_cons, Multiset.map_cons, ih]
    obtain ⟨factor, power⟩ := t
    cases factor <;> rfl

/-- The root of a kind reaches no further than what it is the root of. -/
theorem expansion_kindTreeRoot_le (h : s.kindTreeRoot = .ok r) :
    (r.product.factors.map Factor.expansion).sum ≤ s.reach ∧ r.isKindOf = false := by
  cases hkind : s.isKindOf with
  | true =>
    rw [kindTreeRoot_kind hkind] at h
    obtain rfl := Except.ok.inj h
    exact ⟨s.expansion_le_reach, rfl⟩
  | false =>
    unfold kindTreeRoot at h
    rw [if_neg (by simp [hkind])] at h
    obtain ⟨product, hproduct, hr⟩ := bind_eq_ok.mp h
    obtain rfl := pure_eq_ok.mp hr
    refine ⟨?_, rfl⟩
    have hfactors : product.factors ≤ s.product.factors.map Factor.kindRoot :=
      (PowerProduct.factors_mul hproduct).trans_eq ((zero_add _).trans (factors_kindRoots s.product))
    have hsum := sum_expansion_add_card_le hfactors
    have hcard := Multiset.card_le_card hfactors
    have hreach : ((s.product.factors.map Factor.kindRoot).map Factor.expansion).sum ≤ s.reach := by
      rw [reach_eq, Multiset.map_map]
      exact Multiset.sum_map_le_sum_map _ _ fun f _ => f.expansion_kindRoot_le_reach
    dsimp only [ofProduct]
    omega

end QuantitySpec

namespace Question

variable {V : Vocabulary} {s t : QuantitySpec} {q r : Question}
  {ask : Question → Except Fault Convertibility} {n m : Nat}

theorem Puts.rank_lt (h : Puts ask q r) (hq : q.WellFormed V) : r.rank < q.rank := by
  cases q with
  | products e f =>
    rcases (h.shrinks hq).2 with hshrinks | ⟨side, i, rfl⟩
    · rw [hshrinks.rank_eq, rank]
      exact Nat.succ_lt_succ hshrinks.expansion_lt
    · rw [rank_lone, rank]
      exact Nat.succ_pos _
  | specs s t =>
    cases h with
    | @roots _ _ sRoot tRoot hkind hsource htarget =>
      obtain ⟨hs, hsRoot⟩ := QuantitySpec.expansion_kindTreeRoot_le hsource
      obtain ⟨ht, htRoot⟩ := QuantitySpec.expansion_kindTreeRoot_le htarget
      have hle := rank_le hsRoot htRoot
      rw [expansion_specs] at hle
      rw [rank.eq_1 s, hkind, Bool.true_or, if_pos rfl]
      omega
    | @targetRoot _ _ tRoot hskind hkind htarget =>
      obtain ⟨ht, htRoot⟩ := QuantitySpec.expansion_kindTreeRoot_le htarget
      have hs := s.expansion_le_reach
      have hle := rank_le hskind htRoot
      rw [expansion_specs] at hle
      rw [rank.eq_1 s t, hkind, Bool.or_true, if_pos rfl]
      omega
    | explodedSource _ _ hp hq' hcommon hkind _ | explodedTarget _ _ hp hq' hcommon hkind _ =>
      have htree := Vocabulary.haveCommonBase_of_kindRoot (hq.1.holds_of_named hp)
        (hq.2.holds_of_named hq') hkind
      exact absurd htree (by simp [hcommon])
    | factors _ _ _ hs ht hname =>
      have hnamed : (s.named?.isSome && t.named?.isSome) = false := by
        rcases hname with hname | hname <;> simp [hname]
      rw [rank, rank, hs, ht, hnamed]
      simp only [Bool.or_self, Bool.false_eq_true, if_false]
      exact Nat.lt_succ_self _

/-- With more questions than a question can lead to, their number does not matter. -/
theorem answer_settled (hq : q.WellFormed V) (hn : q.rank < n) (hm : q.rank < m) :
    Settled True (answer n q) (answer m q) := by
  induction n generalizing q m with
  | zero => exact absurd hn (Nat.not_lt_zero _)
  | succ n ih =>
    cases m with
    | zero => exact absurd hm (Nat.not_lt_zero _)
    | succ m =>
      rw [answer_succ, answer_succ]
      refine step_settles fun r hr => ?_
      have hlt := hr.rank_lt hq
      exact ih (hr.wellFormed hq) (by omega) (by omega)

theorem rank_lt_searchBound (s t : QuantitySpec) :
    rank (.specs s t) < QuantitySpec.searchBound s t := by
  have hs := s.expansion_le_reach
  have ht := t.expansion_le_reach
  have hexpansion := expansion_specs s t
  rw [QuantitySpec.searchBound, rank]
  split
  · omega
  · split <;> omega

/-- What is known about the questions of a search within a vocabulary. -/
structure SearchLaws (V : Vocabulary) : Prop where
  /-- A step depends on the questions that it calls and on no others. -/
  complete {ask ask' : Question → Except Fault Convertibility} {q : Question} :
    (∀ r, Calls q r → ask r = ask' r) → step ask q = step ask' q
  wellFormed {q r : Question} : q.WellFormed V → Calls q r → r.WellFormed V
  /-- From two products the search comes to smaller ones. -/
  shrinks {e f e' f' : FactorProduct} : WellFormed V (.products e f) →
    Calls (.products e f) (.products e' f') → Shrinks e f (.products e' f') ∧
      (Question.products e' f').complexities.IsDershowitzMannaLT (Question.products e f).complexities
  /-- No search goes on forever. -/
  wellFounded : WellFounded fun r q : Question => q.WellFormed V ∧ Calls q r
  /-- The bound on the search decides nothing: a larger one gives the same result. -/
  convertible {s t : QuantitySpec} : V.Product s.product → V.Product t.product →
    s.convertible t ≠ .error .searchUnfinished ∧
      ∀ n, QuantitySpec.searchBound s t ≤ n → answer n (.specs s t) = s.convertible t

theorem search_laws (V : Vocabulary) : SearchLaws V where
  complete {ask ask' q} h := step_congr fun r hr => h r ⟨ask, hr⟩
  wellFormed hq h := by
    obtain ⟨ask, hputs⟩ := h
    exact hputs.wellFormed hq
  shrinks hq h := by
    obtain ⟨ask, hputs⟩ := h
    rcases (hputs.shrinks hq).2 with hshrinks | ⟨side, i, hlone⟩
    · exact ⟨hshrinks, hshrinks.complexities_lt⟩
    · cases side <;> cases hlone
  wellFounded := by
    refine Subrelation.wf (r := InvImage (· < ·) rank) ?_ (InvImage.wf rank Nat.lt_wfRel.wf)
    rintro r q ⟨hq, ask, hputs⟩
    exact hputs.rank_lt hq
  convertible {s t} hs ht := by
    have hq : WellFormed V (.specs s t) := ⟨hs, ht⟩
    have hbound := rank_lt_searchBound s t
    refine ⟨(answer_settled hq hbound hbound).2 trivial, fun n hn => ?_⟩
    exact (answer_settled hq (hbound.trans_le hn) hbound).1

section Travel

open Catalog

theorem product_of_within {W : World} {s : QuantitySpec} (hs : s.Within W) :
    W.vocabulary.Product s.product :=
  ⟨hs.covered, hs.canonical⟩

theorem calls_travel : Calls (.products travel [⟨.quantity Isq.width, .one⟩])
    (.products [⟨.quantity Isq.length, .one⟩] [⟨.quantity Isq.width, .one⟩]) := by
  have hmost : mostComplex travel [⟨.quantity Isq.width, .one⟩] =
      some (.sourceAbove, ⟨0, speed, .one⟩) := by
    with_unfolding_all rfl
  have hreplaced : FactorProduct.replaceAt travel ⟨0, speed, .one⟩
      [⟨.quantity Isq.length, .one⟩, ⟨.quantity Isq.time, .minusOne⟩] =
        .ok [⟨.quantity Isq.length, .one⟩] := by
    with_unfolding_all rfl
  exact ⟨fun _ => .ok .no, .replaced hmost (by decide) rfl hreplaced⟩

/-- A travel is compared with a width in two steps, the first of which replaces the speed. -/
theorem search_laws_travel : Shrinks travel [⟨.quantity Isq.width, .one⟩]
      (.products [⟨.quantity Isq.length, .one⟩] [⟨.quantity Isq.width, .one⟩]) ∧
    (QuantitySpec.ofProduct travel).convertible (.named Isq.width) ≠ .error .searchUnfinished := by
  have htravel := product_of_within travel_within
  have hwidth := product_of_within width_within
  exact ⟨((search_laws speeds.toWorld.vocabulary).shrinks ⟨htravel, hwidth⟩ calls_travel).1,
    ((search_laws speeds.toWorld.vocabulary).convertible htravel hwidth).1⟩

end Travel

end Question

end Metrology
