import Metrology.Proofs.Convertibility.Pairing
import Metrology.Proofs.Convertibility.Specification

/-!
# The search on a matching

Asked about the two sides of a matching, the search makes its exchanges one after the other and then
converts what is left to the dimensionless quantity. Its answer is the grade of the least free exchange.
-/

namespace Metrology

theorem firstMaximal_concat {α : Type} (measure : α → Nat) (items : List α) (item : α) :
    firstMaximal measure (items ++ [item]) =
      match firstMaximal measure items with
      | some b => if measure item ≤ measure b then some b else some item
      | none => some item := by
  rw [firstMaximal, List.foldl_append]
  rfl

theorem firstMaximal_isSome {α : Type} (measure : α → Nat) {items : List α} (h : items ≠ []) :
    ∃ a, firstMaximal measure items = some a := by
  rw [← List.dropLast_append_getLast h, firstMaximal_concat]
  split
  · split
    · exact ⟨_, rfl⟩
    · exact ⟨_, rfl⟩
  · exact ⟨_, rfl⟩

theorem le_of_split {α : Type} {measure : α → Nat} {before after : List α} {a : α}
    (hbefore : ∀ b ∈ before, measure b < measure a) (hafter : ∀ b ∈ after, measure b ≤ measure a) :
    ∀ b ∈ before ++ a :: after, measure b ≤ measure a := by
  intro b hb
  rcases List.mem_append.mp hb with hb | hb
  · exact (hbefore b hb).le
  · rcases List.mem_cons.mp hb with rfl | hb
    · exact le_rfl
    · exact hafter b hb

/-- What stands before the first of the most complex elements is less complex, and what stands after it
is not more complex. -/
theorem split_of_firstMaximal {α : Type} {measure : α → Nat} {items : List α} {a : α}
    (h : firstMaximal measure items = some a) : ∃ before after, items = before ++ a :: after ∧
      (∀ b ∈ before, measure b < measure a) ∧ ∀ b ∈ after, measure b ≤ measure a := by
  induction items using List.reverseRecOn generalizing a with
  | nil => cases h
  | append_singleton items item ih =>
    rw [firstMaximal_concat] at h
    cases hfirst : firstMaximal measure items with
    | none =>
      rw [hfirst] at h
      obtain rfl := Option.some.inj h
      have hnil : items = [] := by
        by_contra hne
        obtain ⟨b, hb⟩ := firstMaximal_isSome measure hne
        cases hfirst.symm.trans hb
      exact ⟨[], [], by simp [hnil], by simp, by simp⟩
    | some b =>
      rw [hfirst] at h
      dsimp only at h
      obtain ⟨before, after, rfl, hbefore, hafter⟩ := ih hfirst
      split at h
      · rename_i hle
        obtain rfl := Option.some.inj h
        refine ⟨before, after ++ [item], by simp, hbefore, fun c hc => ?_⟩
        rcases List.mem_append.mp hc with hc | hc
        · exact hafter c hc
        · exact List.mem_singleton.mp hc ▸ hle
      · rename_i hlt
        obtain rfl := Option.some.inj h
        refine ⟨before ++ b :: after, [], rfl, fun c hc => ?_, by simp⟩
        have hle := le_of_split hbefore hafter c hc
        omega

theorem firstMaximal_eq_some_iff {α : Type} {measure : α → Nat} {items : List α} {a : α} :
    firstMaximal measure items = some a ↔ ∃ before after, items = before ++ a :: after ∧
      (∀ b ∈ before, measure b < measure a) ∧ ∀ b ∈ after, measure b ≤ measure a := by
  refine ⟨split_of_firstMaximal, ?_⟩
  rintro ⟨before, after, rfl, hbefore, hafter⟩
  obtain ⟨b, hb⟩ : ∃ b, firstMaximal measure (before ++ a :: after) = some b :=
    firstMaximal_isSome measure (by simp)
  obtain ⟨before', after', heq, hbefore', hafter'⟩ := split_of_firstMaximal hb
  rw [hb]
  -- If the two stood apart, the earlier would be both less complex and not less complex.
  rcases List.append_eq_append_iff.mp heq with ⟨between, rfl, hrest⟩ | ⟨between, rfl, hrest⟩
  · cases between with
    | nil => exact congrArg some (List.cons.inj hrest).1.symm
    | cons c between =>
      obtain ⟨rfl, rfl⟩ := List.cons.inj hrest
      have hlt := hbefore' a (by simp)
      have hle := hafter b (by simp)
      omega
  · cases between with
    | nil => exact congrArg some (List.cons.inj hrest).1
    | cons c between =>
      obtain ⟨rfl, rfl⟩ := List.cons.inj hrest
      have hlt := hbefore b (by simp)
      have hle := hafter' a (by simp)
      omega

theorem firstMaximal_spec {α : Type} {measure : α → Nat} {items : List α} {a : α}
    (h : firstMaximal measure items = some a) : a ∈ items ∧ ∀ b ∈ items, measure b ≤ measure a := by
  obtain ⟨before, after, rfl, hbefore, hafter⟩ := split_of_firstMaximal h
  exact ⟨by simp, le_of_split hbefore hafter⟩

theorem firstMaximal_mem {α : Type} {measure : α → Nat} {items : List α} {a : α}
    (h : firstMaximal measure items = some a) : a ∈ items :=
  (firstMaximal_spec h).1

namespace Exchange

variable {T T' : List Exchange} {x : Exchange}

theorem leastGrade_perm (h : T.Perm T') : leastGrade T = leastGrade T' := by
  unfold leastGrade
  refine h.foldr_eq' (fun x _ y _ g => ?_) Convertibility.yes
  rw [← Convertibility.min_assoc, ← Convertibility.min_assoc, x.grade.min_comm]

theorem leastGrade_cons : leastGrade (x :: T) = x.grade.min (leastGrade T) := rfl

end Exchange

namespace Question

variable {W : World}

/-! ### Quantities that vanish -/

theorem answer_lone {q : NamedQuantity} (hq : W.Holds q) (htree : q.treeRoot = .dimensionless)
    (n : Nat) : answer (n + 1) (.specs (.named q) .dimensionless) =
      .ok (q.convertibleInTree .dimensionless) :=
  answer_named hq W.dimensionless_holds (htree.trans NamedQuantity.treeRoot_dimensionless.symm)
    (QuantitySpec.dimension_of_dimensionless_tree hq htree) rfl n

theorem count_of_positive {e : FactorProduct} (h : ∀ t ∈ e, t.power.isPositive = true) :
    e.count true = e.length ∧ e.count false = 0 := by
  unfold FactorProduct.count
  constructor
  · rw [List.countP_eq_length]
    intro t ht
    simp [h t ht]
  · rw [List.countP_eq_zero]
    intro t ht
    simp [h t ht]

/-- Against the empty product the most complex ingredient is one of the numerator. -/
theorem mostComplex_of_positive {e : FactorProduct} (h : ∀ t ∈ e, t.power.isPositive = true)
    {i : Ingredient} (hi : i ∈ e.ingredients true) :
    ∃ k ∈ e.ingredients true, mostComplex e [] = some (.sourceAbove, k) := by
  have hbelow : e.ingredients false = [] := by
    rw [List.eq_nil_iff_forall_not_mem]
    intro k hk
    have hpower := (FactorProduct.mem_ingredients.mp hk).2
    rw [h _ (FactorProduct.mem_of_ingredient hk)] at hpower
    cases hpower
  have hnil : ∀ b, FactorProduct.ingredients [] b = [] := fun _ => rfl
  have hchoices : mostComplex e [] = firstMaximal (fun choice => choice.2.complexity)
      ((e.ingredients true).map (Side.sourceAbove, ·)) := by
    unfold mostComplex
    rw [hbelow, hnil, hnil]
    simp
  rw [hchoices]
  obtain ⟨choice, hchoice⟩ := firstMaximal_isSome
    (fun choice : Side × Ingredient => choice.2.complexity)
    (List.ne_nil_of_mem (List.mem_map.mpr ⟨i, hi, rfl⟩))
  obtain ⟨k, hk, rfl⟩ := List.mem_map.mp (firstMaximal_mem hchoice)
  exact ⟨k, hk, hchoice⟩

section Vanishing

variable {T : List Exchange} {e : FactorProduct}

theorem extractPair_empty (e : FactorProduct) (b : Bool) : extractPair e [] b = .ok none := by
  have hpairs : candidatePairs e [] b = [] := by
    simp [candidatePairs, FactorProduct.ingredients]
  rw [extractPair_eq, hpairs]
  rfl

/-- One step of the search that removes a lone ingredient. -/
theorem answer_remove (he : e.length ≤ PowerProduct.capacity)
    (hpositive : ∀ t ∈ e, t.power.isPositive = true) {i : Ingredient}
    (hmost : mostComplex e [] = some (.sourceAbove, i)) (hi : i ∈ e.ingredients true) {n : Nat}
    {g h : Convertibility} (hlone : answer n (.specs (.named i.quantity) .dimensionless) = .ok g)
    (hg : g ≠ .no) (hrest : answer n (.products (e.eraseIdx i.position) []) = .ok h) :
    answer (n + 1) (.products e []) = .ok (g.min h) := by
  obtain ⟨hcountTrue, hcountFalse⟩ := count_of_positive hpositive
  have hne : e ≠ [] := List.ne_nil_of_mem (FactorProduct.mem_of_ingredient hi)
  have hcount : e.count true ≠ e.count false := by
    rw [hcountTrue, hcountFalse]
    exact fun hlength => hne (List.length_eq_zero_iff.mp hlength)
  have hposition : i.position < e.length :=
    (List.getElem?_eq_some_iff.mp (FactorProduct.mem_ingredients.mp hi).1).1
  have hremove : PowerProduct.removeAt e i.position = .ok (e.eraseIdx i.position) := by
    have hword : i.position + 1 ≠ IntegerType.word64.count := by
      have hsmall : i.position + 1 ≤ 16 := le_trans hposition he
      intro hcontra
      rw [hcontra] at hsmall
      exact absurd hsmall (by decide)
    unfold PowerProduct.removeAt
    rw [if_neg hword, if_neg (by simpa using hne), if_pos hposition]
  rw [answer, if_neg (fun hfirst => hcount hfirst.1), if_neg (fun hsecond => hne (by simpa using hsecond.1)),
    extractPair_empty, extractPair_empty, hmost]
  simp [bind, Except.bind, hlone, hg, hremove, hrest]

theorem positive_of_vanishing (h : Matching W T) (he : Presents W Exchange.source T e)
    (hvanish : ∀ x ∈ T, x.target.isDimensionless = true) : ∀ t ∈ e, t.power.isPositive = true := by
  intro t ht
  obtain ⟨q, hq, -⟩ := he.term ht
  obtain ⟨i, hi, -⟩ := FactorProduct.exists_ingredient ht hq
  obtain ⟨-, -, -, x, hx, -, hpositive⟩ := he.exists_exchange h.source hi
  rw [← hpositive]
  exact h.vanishing x hx (hvanish x hx)

/-- Removing a factor removes the only exchange of its quantity. -/
theorem presents_eraseIdx (h : Matching W T) (he : Presents W Exchange.source T e)
    (hvanish : ∀ x ∈ T, x.target.isDimensionless = true) {i : Ingredient} {b : Bool}
    (hi : i ∈ e.ingredients b) : ∃ x T', T.Perm (x :: T') ∧ T'.Sublist T ∧ x.source = i.quantity ∧
      Presents W Exchange.source T' (e.eraseIdx i.position) := by
  obtain ⟨-, -, hvalue, x, hx, hsource, -⟩ := he.exists_exchange h.source hi
  obtain ⟨S, U, rfl⟩ := List.append_of_mem hx
  have hT : (S ++ x :: U).Perm (x :: (S ++ U)) := List.perm_middle
  have hsub : (S ++ U).Sublist (S ++ x :: U) := by simp
  refine ⟨x, S ++ U, hT, hsub, hsource, ?_⟩
  have hnone : Exchange.powerAt Exchange.source x.source (S ++ U) = 0 := by
    by_contra hne
    obtain ⟨y, hy, hsame⟩ := Exchange.exists_of_powerAt_ne hne
    have hyT := hsub.mem hy
    have hyx : y.source = x.source :=
      (W.same_iff_eq (h.source.holds y hyT) (h.source.holds x hx)).mp hsame
    have htarget : x.target = y.target := by
      rw [W.eq_dimensionless (h.target.holds x hx) (hvanish x hx),
        W.eq_dimensionless (h.target.holds y hyT) (hvanish y hyT)]
    exact h.ne_of_perm hT hy ⟨hyx.symm, htarget⟩
  have hpower : i.power.value = x.power := by
    rw [hvalue, ← hsource, Exchange.powerAt_perm hT, Exchange.powerAt_cons_self, hnone, add_zero]
  have hsublist := List.eraseIdx_sublist e i.position
  refine ⟨fun t ht => he.covered t (hsublist.mem ht), he.canonical.sublist hsublist, fun w hw => ?_⟩
  have hweigh := he.weigh_eq w hw
  rw [PowerProduct.weigh_eraseIdx (FactorProduct.mem_ingredients.mp hi).1, Exchange.total_perm hT,
    Exchange.total_cons, hsource, hpower] at hweigh
  exact add_left_cancel hweigh

theorem source_ne_nil (h : Matching W T) (he : Presents W Exchange.source T e) {x : Exchange}
    (hx : x ∈ T) : e ≠ [] := by
  obtain ⟨i, hi, -⟩ := he.exists_ingredient h.source hx (h.source_proper x hx)
  exact List.ne_nil_of_mem (FactorProduct.mem_of_ingredient hi)

theorem eq_nil_of_presents_nil {side : Exchange → NamedQuantity} (he : Presents W side [] e) :
    e = [] := by
  apply List.eq_nil_iff_forall_not_mem.mpr
  intro t ht
  obtain ⟨q, -, -, -, hvalue⟩ := he.term ht
  exact (he.canonical.proper t ht).1 hvalue

theorem answer_nil (n : Nat) : answer (n + 1) (.products [] []) = .ok .yes := rfl

/-- What vanishes converts to the dimensionless quantity factor by factor. -/
theorem answer_vanishing (h : Matching W T) (he : Presents W Exchange.source T e)
    (hvanish : ∀ x ∈ T, x.target.isDimensionless = true) {n : Nat} (hn : T.length + 2 ≤ n) :
    answer n (.products e []) = .ok (Exchange.leastGrade T) := by
  induction n generalizing T e with
  | zero => omega
  | succ n ih =>
    cases T with
    | nil =>
      rw [eq_nil_of_presents_nil he]
      exact answer_nil n
    | cons y S =>
      have hpositive := positive_of_vanishing h he hvanish
      obtain ⟨j, hj, -⟩ := he.exists_ingredient h.source List.mem_cons_self
        (h.source_proper y List.mem_cons_self)
      rw [h.vanishing y List.mem_cons_self (hvanish y List.mem_cons_self)] at hj
      obtain ⟨i, hi, hmost⟩ := mostComplex_of_positive hpositive hj
      obtain ⟨x, T', hT, hsub, hsource, hrest⟩ := presents_eraseIdx h he hvanish hi
      have hx : x ∈ y :: S := hT.mem_iff.mpr List.mem_cons_self
      have hlength : (y :: S).length = T'.length + 1 := hT.length_eq
      have htarget := W.eq_dimensionless (h.target.holds x hx) (hvanish x hx)
      have htree : i.quantity.treeRoot = .dimensionless := by
        rw [← hsource, h.tree x hx, htarget, NamedQuantity.treeRoot_dimensionless]
      have hgrade : i.quantity.convertibleInTree .dimensionless = x.grade := by
        rw [Exchange.grade, hsource, htarget]
      obtain ⟨m, rfl⟩ : ∃ m, n = m + 1 := ⟨n - 1, by omega⟩
      have hlone := answer_lone (hsource ▸ h.source.holds x hx) htree m
      have hremaining := ih (h.sublist hsub) hrest (fun z hz => hvanish z (hsub.mem hz)) (by omega)
      rw [answer_remove he.canonical.bounded hpositive hmost hi hlone
        (World.convertibleInTree_dimensionless htree) hremaining, hgrade, Exchange.leastGrade_perm hT,
        Exchange.leastGrade_cons]

end Vanishing

/-! ### The run of the search -/

section Run

variable {T : List Exchange} {e f : FactorProduct}

/-- After one exchange the answer is the lesser of its grade and of the answer about the others. -/
theorem pairing_attains {x : Exchange} {T' : List Exchange} {n : Nat} {b : Bool}
    {rest : Except Fault Convertibility} (hT : T.Perm (x :: T')) (hsub : T'.Sublist T)
    (hpair : Attains (SumsFit T) (extractPair e f b) fun r =>
      ∃ p, r = some p ∧ p.grade = x.grade ∧ (x.grade ≠ .no →
        Presents W Exchange.source T' p.source ∧ Presents W Exchange.target T' p.target))
    (hothers : ∀ e' f', Presents W Exchange.source T' e' → Presents W Exchange.target T' f' →
      Attains (SumsFit T') (answer n (.products e' f')) (· = Exchange.leastGrade T')) :
    Attains (SumsFit T)
      (do
        match ← extractPair e f b with
        | some p =>
          if p.grade = .no then pure .no
          else do return p.grade.min (← answer n (.products p.source p.target))
        | _ => rest)
      (· = Exchange.leastGrade T) := by
  rw [Exchange.leastGrade_perm hT, Exchange.leastGrade_cons]
  refine hpair.bind fun r hr => ?_
  obtain ⟨p, rfl, hgrade, hpresents⟩ := hr
  dsimp only
  rw [hgrade]
  by_cases hno : x.grade = .no
  · rw [if_pos hno, hno]
    refine .of_ok rfl ?_
    cases Exchange.leastGrade T' <;> rfl
  · rw [if_neg hno]
    obtain ⟨hsource, htarget⟩ := hpresents hno
    refine ((hothers _ _ hsource htarget).mono (fun hsums => hsums.sublist hsub) fun _ hg => hg).bind
      fun g hg => ?_
    exact .of_ok rfl (by rw [hg])

theorem eq_nil_of_vanishing (h : Matching W T) (hf : Presents W Exchange.target T f)
    (hvanish : ∀ x ∈ T, x.target.isDimensionless = true) : f = [] := by
  apply List.eq_nil_iff_forall_not_mem.mpr
  intro t ht
  obtain ⟨q, hq, -⟩ := hf.term ht
  obtain ⟨i, hi, -⟩ := FactorProduct.exists_ingredient ht hq
  obtain ⟨-, hproper, -, x, hx, htarget, -⟩ := hf.exists_exchange h.target hi
  rw [← htarget, hvanish x hx] at hproper
  cases hproper

theorem answer_matching (h : Matching W T) (he : Presents W Exchange.source T e)
    (hf : Presents W Exchange.target T f) {n : Nat} (hn : T.length + 2 ≤ n) :
    Attains (SumsFit T) (answer n (.products e f)) (· = Exchange.leastGrade T) := by
  -- Every exchange takes one question and leaves a shorter matching.
  induction n generalizing T e f with
  | zero => omega
  | succ n ih =>
    by_cases hvanish : ∀ x ∈ T, x.target.isDimensionless = true
    · rw [eq_nil_of_vanishing h hf hvanish]
      exact .of_ok (answer_vanishing h he hvanish hn) rfl
    · push Not at hvanish
      obtain ⟨x, hx, hproper⟩ := hvanish
      have hproper : x.target.isDimensionless = false := Bool.eq_false_iff.mpr hproper
      have hothers : ∀ (x : Exchange) (T' : List Exchange), T.Perm (x :: T') → T'.Sublist T →
          ∀ e' f', Presents W Exchange.source T' e' → Presents W Exchange.target T' f' →
          Attains (SumsFit T') (answer n (.products e' f')) (· = Exchange.leastGrade T') := by
        intro x T' hT hsub e' f' he' hf'
        have hlength : T.length = T'.length + 1 := hT.length_eq
        exact ih (h.sublist hsub) he' hf' (by omega)
      have hsource : e ≠ [] := source_ne_nil h he hx
      have htarget : f ≠ [] := by
        obtain ⟨j, hj, -⟩ := hf.exists_ingredient h.target hx hproper
        exact List.ne_nil_of_mem (FactorProduct.mem_of_ingredient hj)
      rw [answer, if_neg (by simp [htarget]), if_neg (by simp [hsource])]
      rcases h.extractPair_spec he hf true with ⟨hnone, habove⟩ | ⟨y, T', hT, hsub, hpair⟩
      · have hnone : Attains (SumsFit T) (extractPair e f true) (· = none) := .of_ok hnone rfl
        refine hnone.bind fun pairing hpairing => ?_
        subst hpairing
        dsimp only
        rcases h.extractPair_spec he hf false with ⟨-, hbelow⟩ | ⟨y, T', hT, hsub, hpair⟩
        · exfalso
          -- An exchange that does not vanish gives a pair of its sign.
          cases hpositive : x.positive with
          | true => exact absurd (habove x hx hpositive) (by simp [hproper])
          | false => exact absurd (hbelow x hx hpositive) (by simp [hproper])
        · exact pairing_attains hT hsub hpair (hothers y T' hT hsub)
      · exact pairing_attains hT hsub hpair (hothers y T' hT hsub)

end Run

end Question

namespace QuantitySpec

variable {W : World} {T : List Exchange} {s t : QuantitySpec}

theorem weigh_matching (h : Matching W T) (hs : Presents W Exchange.source T s.product)
    (ht : Presents W Exchange.target T t.product) (w : BaseDimension → Rat) :
    PowerProduct.weigh (Factor.dimensionWeight w) s.product =
      PowerProduct.weigh (Factor.dimensionWeight w) t.product := by
  rw [hs.weigh_eq _ (W.dimensionWeight_weight w), ht.weigh_eq _ (W.dimensionWeight_weight w)]
  unfold Exchange.total
  refine congrArg List.sum (List.map_congr_left fun x hx => ?_)
  rw [Factor.dimensionWeight, Factor.dimensionWeight,
    W.dimension_eq_of_tree (h.source.holds x hx) (h.target.holds x hx) (h.tree x hx)]

/-- A specification without a name converts to the other side of a matching as freely as the least free
exchange. -/
theorem convertible_matching (h : Matching W T) (hs : Presents W Exchange.source T s.product)
    (ht : Presents W Exchange.target T t.product) (hskind : s.isKindOf = false)
    (htkind : t.isKindOf = false) (hname : s.named? = none) (hsame : s.same t = false)
    {x y : Dimension} (hx : s.dimension = .ok x) (hy : t.dimension = .ok y) (hT : T.length ≤ 128) :
    Attains (SumsFit T) (s.convertible t) (· = Exchange.leastGrade T) := by
  have hdimension : PowerProduct.same x y = true :=
    (dimension_same_iff hx hy).mpr fun w _ => weigh_matching h hs ht w
  unfold convertible searchBound
  rw [Question.answer_products hsame hx hy hdimension hskind htkind (.inl hname)]
  exact Question.answer_matching h hs ht (by omega)

end QuantitySpec

end Metrology
