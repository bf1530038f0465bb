import Metrology.Proofs.Convertibility.Matching

/-!
# One step of pairing

A step of the search makes one exchange of a matching: the pair it takes is an exchange, the power it
takes out is the power of that exchange, and what is left presents the other exchanges. The step can
only fail because a sum of some of the powers does not fit.
-/

namespace Metrology

/-- Every sum of some of the powers fits, and so does its opposite. -/
def SumsFit (T : List Exchange) : Prop :=
  ∀ l, List.Subperm l (T.map (·.power)) → RatFits l.sum ∧ RatFits (-l.sum)

namespace SumsFit

variable {T T' : List Exchange} {x : Exchange}

theorem sublist (h : SumsFit T) (hT : T'.Sublist T) : SumsFit T' :=
  fun l hl => h l (hl.trans (hT.map _).subperm)

theorem power (h : SumsFit T) (hx : x ∈ T) : RatFits x.power ∧ RatFits (-x.power) := by
  have hsub : List.Subperm [x.power] (T.map (·.power)) :=
    List.singleton_subperm_iff.mpr (List.mem_map_of_mem hx)
  simpa using h _ hsub

theorem powerAt (h : SumsFit T) (side : Exchange → NamedQuantity) (q : NamedQuantity) :
    RatFits (Exchange.powerAt side q T) ∧ RatFits (-Exchange.powerAt side q T) :=
  h _ (List.filter_sublist.map _).subperm

theorem neg_attains (hx : x ∈ T) {s : Ratio} (hs : s.value = x.power) :
    Attains (SumsFit T) s.neg fun r => r.value = -x.power := by
  refine (Ratio.ofRat_attains (-s.value)).mono (fun hsums => ?_) fun r hr => by rw [hr, hs]
  rw [hs]
  exact (hsums.power hx).2

end SumsFit

theorem sharedPower_attains (positive : Bool) (a b : Ratio) :
    Attains (RatFits (-a.value) ∧ RatFits (-b.value) ∧ RatFits (Exchange.sign positive *
        min (Exchange.sign positive * a.value) (Exchange.sign positive * b.value)))
      (sharedPower positive a b) fun s => s.value = Exchange.sign positive *
        min (Exchange.sign positive * a.value) (Exchange.sign positive * b.value) := by
  unfold sharedPower
  cases positive with
  | true => exact .of_ok rfl (by simp)
  | false =>
    refine ((Ratio.ofRat_attains (-a.value)).mono (·.1) fun _ h => h).bind fun c hc => ?_
    refine ((Ratio.ofRat_attains (-b.value)).mono (·.2.1) fun _ h => h).bind fun d hd => ?_
    have hmin : -(c.min d).value = Exchange.sign false *
        min (Exchange.sign false * a.value) (Exchange.sign false * b.value) := by
      simp [hc, hd]
    exact hmin ▸ (Ratio.ofRat_attains (-(c.min d).value)).mono (·.2.2) fun _ h => h

theorem value_sharedPower {positive : Bool} {a b s : Ratio} (h : sharedPower positive a b = .ok s) :
    s.value = Exchange.sign positive *
      min (Exchange.sign positive * a.value) (Exchange.sign positive * b.value) :=
  (sharedPower_attains positive a b).of_eq_ok h

/-- If one of two powers is used up by their common part, that part is the smaller amount. -/
theorem Exchange.min_of_used_up {p restA restB : Rat} {positive : Bool}
    (hsignA : 0 ≤ sign positive * restA) (hsignB : 0 ≤ sign positive * restB)
    (hzero : restA = 0 ∨ restB = 0) :
    sign positive * min (sign positive * (p + restA)) (sign positive * (p + restB)) = p := by
  have hmin : min (sign positive * (p + restA)) (sign positive * (p + restB)) = sign positive * p := by
    rw [mul_add, mul_add]
    rcases hzero with rfl | rfl
    · rw [mul_zero, add_zero, min_eq_left (by linarith)]
    · rw [mul_zero, add_zero, min_eq_right (by linarith)]
  rw [hmin, sign_mul_sign_mul]

namespace Presents

variable {W : World} {side : Exchange → NamedQuantity} {T T' : List Exchange} {e : FactorProduct}
  {x : Exchange}

/-- An ingredient carries the power of one of its exchanges and what the others need of it. -/
theorem ingredient_power (h : Presents W side T e) (hside : Coherent W side T) (hT : T.Perm (x :: T'))
    {i : Ingredient} {b : Bool} (hi : i ∈ e.ingredients b) (hx : side x = i.quantity) :
    i.power.value = x.power + Exchange.powerAt side (side x) T' := by
  obtain ⟨-, -, hvalue, -⟩ := h.exists_exchange hside hi
  rw [hvalue, ← hx, Exchange.powerAt_perm hT]
  exact Exchange.powerAt_cons_self

/-- Taking out the power of an exchange leaves the other exchanges. -/
theorem exchange (h : Presents W side T e) (hside : Coherent W side T) (hT : T.Perm (x :: T'))
    (hsub : T'.Sublist T) (hproper : (side x).isDimensionless = false) {s : Ratio}
    (hs : s.value = -x.power) :
    Attains (SumsFit T) (PowerProduct.mulTerm e ⟨.quantity (side x), s⟩) (Presents W side T') := by
  have hx : x ∈ T := hT.mem_iff.mpr (by simp)
  have hcover : W.Covers (.quantity (side x)) := Factor.quantitiesIn_quantity.mpr (hside.holds x hx)
  have hpos := hside.sign_mul_powerAt_pos hx hproper
  have hne : Exchange.powerAt side (side x) T ≠ 0 := by
    intro hzero
    rw [hzero, mul_zero] at hpos
    exact lt_irrefl _ hpos
  obtain ⟨t, ht, hfactor⟩ := h.mem (hside.holds x hx) hproper hne
  obtain ⟨q, hq, -, -, hvalue⟩ := h.term ht
  obtain rfl : q = side x := Factor.quantity.inj (hq.symm.trans hfactor)
  have hpower : (e.powerOf (.quantity (side x))).value + s.value =
      Exchange.powerAt side (side x) T' := by
    rw [← hfactor, PowerProduct.powerOf_of_mem W.orderedOn h.covered h.canonical.sorted ht, hvalue, hs,
      Exchange.powerAt_perm hT, Exchange.powerAt_cons_self]
    ring
  have hterm : PowerProduct.Proper (⟨.quantity (side x), s⟩ : Term Factor) := by
    refine ⟨?_, hproper⟩
    rw [hs]
    exact neg_ne_zero.mpr (hside.power_ne x hx)
  have hpresent : ∃ t ∈ e, Atom.cmp t.factor (.quantity (side x)) = .eq :=
    ⟨t, ht, by rw [hfactor, W.orderedOn.self hcover]⟩
  have hattains := PowerProduct.mulTerm_attains W.orderedOn hcover h.covered h.canonical hterm hpresent
  rcases hattains with ⟨c, hc, -⟩ | ⟨herror, hfits⟩
  · refine .of_ok hc ⟨PowerProduct.over_mulTerm h.covered hcover hc,
      PowerProduct.canonical_mulTerm W.orderedOn h.covered hcover h.canonical hc, fun w hw => ?_⟩
    rw [PowerProduct.weigh_mulTerm hw hcover h.covered hc, h.weigh_eq w hw, Exchange.total_perm hT,
      Exchange.total_cons, hs]
    ring
  · refine .inr ⟨herror, fun hsums => hfits ?_⟩
    rw [hpower]
    exact ((hsums.sublist hsub).powerAt side (side x)).1

end Presents

theorem extractPair_eq (source target : FactorProduct) (positive : Bool) :
    extractPair source target positive =
      match (candidatePairs source target positive).find? arePartners with
      | none => return none
      | some (i, j) => do
        let grade := i.quantity.convertibleInTree j.quantity
        if grade = .no then return some ⟨.no, source, target⟩
        let shared ← sharedPower positive i.power j.power
        let restSource ← PowerProduct.mulTerm source ⟨.quantity i.quantity, ← shared.neg⟩
        let restTarget ← PowerProduct.mulTerm target ⟨.quantity j.quantity, ← shared.neg⟩
        return some ⟨grade, restSource, restTarget⟩ :=
  rfl

namespace Matching

variable {W : World} {T T' : List Exchange} {e f : FactorProduct} {b : Bool} {i j : Ingredient}
  {x : Exchange}

section Pairing

variable (h : Matching W T) (he : Presents W Exchange.source T e) (hf : Presents W Exchange.target T f)
include h he hf

/-- The first pair shares the power of its exchange. -/
theorem sharedPower_first (hfind : (candidatePairs e f b).find? arePartners = some (i, j))
    (hT : T.Perm (x :: T')) (hsource : x.source = i.quantity) (htarget : x.target = j.quantity)
    (hxb : x.positive = b) :
    Attains (SumsFit T) (sharedPower b i.power j.power) fun s => s.value = x.power := by
  have hx : x ∈ T := hT.mem_iff.mpr (by simp)
  obtain ⟨hi, hj, -⟩ := first_pair he.canonical.sorted hf.canonical.sorted hfind
  obtain ⟨-, -, hvalueI, -⟩ := he.exists_exchange h.source hi
  obtain ⟨-, hproper, hvalueJ, -⟩ := hf.exists_exchange h.target hj
  have hshared := sharedPower_attains b i.power j.power
  have hpower : Exchange.sign b * min (Exchange.sign b * i.power.value) (Exchange.sign b * j.power.value) =
      x.power := by
    rw [he.ingredient_power h.source hT hi hsource, hf.ingredient_power h.target hT hj htarget]
    exact Exchange.min_of_used_up (hxb ▸ h.source.rest_nonneg hT (h.source_proper x hx))
      (hxb ▸ h.target.rest_nonneg hT (htarget ▸ hproper))
      (h.used_up he hf hfind hT hsource htarget hxb)
  rw [hpower] at hshared
  refine hshared.mono (fun hsums => ?_) fun _ hs => hs
  rw [hvalueI, hvalueJ]
  exact ⟨(hsums.powerAt _ _).2, (hsums.powerAt _ _).2, (hsums.power hx).1⟩

/-- What the search does with a matching, for one sign: nothing, if all exchanges of that sign vanish,
and otherwise one of the exchanges. -/
theorem extractPair_spec (b : Bool) :
    (extractPair e f b = .ok none ∧
        ∀ x ∈ T, x.positive = b → x.target.isDimensionless = true) ∨
      ∃ x T', T.Perm (x :: T') ∧ T'.Sublist T ∧ Attains (SumsFit T) (extractPair e f b) fun r =>
        ∃ p, r = some p ∧ p.grade = x.grade ∧ (x.grade ≠ .no →
          Presents W Exchange.source T' p.source ∧ Presents W Exchange.target T' p.target) := by
  rw [extractPair_eq]
  cases hfind : (candidatePairs e f b).find? arePartners with
  | none =>
    left
    refine ⟨rfl, fun x hx hxb => ?_⟩
    by_contra hproper
    have hsome := h.find_isSome he hf hx (Bool.eq_false_iff.mpr hproper)
    rw [hxb, hfind] at hsome
    cases hsome
  | some pair =>
    obtain ⟨i, j⟩ := pair
    right
    obtain ⟨x, hx, hsource, htarget, hxb⟩ := h.exists_exchange he hf hfind
    obtain ⟨S, U, rfl⟩ := List.append_of_mem hx
    have hT : (S ++ x :: U).Perm (x :: (S ++ U)) := List.perm_middle
    have hsub : (S ++ U).Sublist (S ++ x :: U) := by simp
    refine ⟨x, S ++ U, hT, hsub, ?_⟩
    have hgrade : i.quantity.convertibleInTree j.quantity = x.grade := by
      rw [Exchange.grade, hsource, htarget]
    dsimp only
    rw [hgrade]
    by_cases hno : x.grade = .no
    · rw [if_pos hno]
      exact .of_ok rfl ⟨_, rfl, hno.symm, fun hyes => absurd hno hyes⟩
    · rw [if_neg hno]
      obtain ⟨-, hj, -⟩ := first_pair he.canonical.sorted hf.canonical.sorted hfind
      have hproper : x.target.isDimensionless = false := htarget ▸ (hf.exists_exchange h.target hj).2.1
      have hshared := h.sharedPower_first he hf hfind hT hsource htarget hxb
      rw [← hsource, ← htarget]
      refine hshared.bind fun s hs => ?_
      refine (SumsFit.neg_attains hx hs).bind fun r hr => ?_
      refine (he.exchange h.source hT hsub (h.source_proper x hx) hr).bind fun e' he' => ?_
      refine (SumsFit.neg_attains hx hs).bind fun r hr => ?_
      refine (hf.exchange h.target hT hsub hproper hr).bind fun f' hf' => ?_
      exact .of_ok rfl ⟨_, rfl, rfl, fun _ => ⟨he', hf'⟩⟩

end Pairing

end Matching

end Metrology
