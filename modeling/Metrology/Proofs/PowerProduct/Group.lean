import Metrology.Proofs.PowerProduct.Weight

/-!
# The group of products

Canonical products multiply as an abelian group and take rational powers, wherever the operations have
a result. Most laws compare weights; the neutral element and the inverse are exact, term for term.
-/

namespace Metrology

namespace PowerProduct

variable {α : Type} [Atom α] {S : α → Prop} {a b c : PowerProduct α}

/-! ### The power of an atom in a result -/

theorem powerOf_mul (hS : Atom.OrderedOn S) (ha : Over S a) (hb : Over S b)
    (hcanonicalA : Canonical a) (hcanonicalB : Canonical b) (h : a.mul b = .ok c) {f : α}
    (hf : S f) : (c.powerOf f).value = (a.powerOf f).value + (b.powerOf f).value := by
  have hc := over_mul ha hb h
  have hcanonicalC := canonical_mul hS ha hb hcanonicalA h
  by_cases hneutral : Atom.isNeutral f = true
  · rw [powerOf_neutral hS hc hcanonicalC hf hneutral, powerOf_neutral hS ha hcanonicalA hf hneutral,
      powerOf_neutral hS hb hcanonicalB hf hneutral, Ratio.value_zero, add_zero]
  · have hweight := indicator_weight hS hf (by simpa using hneutral)
    rw [powerOf_eq_weigh hS hc hcanonicalC.sorted hf, powerOf_eq_weigh hS ha hcanonicalA.sorted hf,
      powerOf_eq_weigh hS hb hcanonicalB.sorted hf, weigh_mul hweight ha hb h]

theorem powerOf_pow (hS : Atom.OrderedOn S) (ha : Over S a) (hcanonical : Canonical a) {p : Ratio}
    (h : a.pow p = .ok c) {f : α} (hf : S f) :
    (c.powerOf f).value = p.value * (a.powerOf f).value := by
  rw [powerOf_eq_weigh hS (over_pow ha h) (canonical_pow hcanonical h).sorted hf,
    powerOf_eq_weigh hS ha hcanonical.sorted hf, weigh_pow h]

theorem powerOf_inverse (hS : Atom.OrderedOn S) (ha : Over S a) (hcanonical : Canonical a)
    (h : a.inverse = .ok c) {f : α} (hf : S f) : (c.powerOf f).value = -(a.powerOf f).value := by
  rw [powerOf_pow hS ha hcanonical h hf, Ratio.value_minusOne, neg_one_mul]

theorem powerOf_div (hS : Atom.OrderedOn S) (ha : Over S a) (hb : Over S b)
    (hcanonicalA : Canonical a) (hcanonicalB : Canonical b) (h : a.div b = .ok c) {f : α}
    (hf : S f) : (c.powerOf f).value = (a.powerOf f).value - (b.powerOf f).value := by
  obtain ⟨i, hi, hmul⟩ := div_eq_ok.mp h
  rw [powerOf_mul hS ha (over_pow hb hi) hcanonicalA (canonical_pow hcanonicalB hi) hmul hf,
    powerOf_inverse hS hb hcanonicalB hi hf, sub_eq_add_neg]

/-- The sum of the powers of the terms with a given atom, in any list of terms. -/
def totalPower (terms : List (Term α)) (f : α) : Rat :=
  ((terms.filter fun t => Atom.cmp t.factor f == .eq).map fun t => t.power.value).sum

theorem weigh_indicator (terms : List (Term α)) (f : α) :
    weigh (indicator f) terms = totalPower terms f := by
  unfold totalPower
  induction terms with
  | nil => rfl
  | cons t terms ih =>
    rw [weigh_cons, ih, indicator]
    by_cases h : Atom.cmp t.factor f = .eq
    · rw [if_pos h, mul_one, List.filter_cons_of_pos (by simp [h]), List.map_cons, List.sum_cons]
    · rw [if_neg h, mul_zero, zero_add, List.filter_cons_of_neg (by simp [h])]

theorem powerOf_ofTerms (hS : Atom.OrderedOn S) {terms : List (Term α)} (hterms : Over S terms)
    (h : ofTerms terms = .ok c) {f : α} (hf : S f) :
    (c.powerOf f).value = if Atom.isNeutral f then 0 else totalPower terms f := by
  have hc := over_mul over_nil hterms h
  have hcanonical := canonical_mul hS over_nil hterms canonical_one h
  by_cases hneutral : Atom.isNeutral f = true
  · rw [powerOf_neutral hS hc hcanonical hf hneutral, if_pos hneutral, Ratio.value_zero]
  · have hweight := indicator_weight hS hf (by simpa using hneutral)
    rw [powerOf_eq_weigh hS hc hcanonical.sorted hf, weigh_ofTerms hweight hterms h,
      weigh_indicator, if_neg hneutral]

/-! ### The neutral element -/

/-- A term above all others goes to the end. -/
theorem place_append {t : Term α} {e : PowerProduct α}
    (h : ∀ s ∈ e, Atom.cmp s.factor t.factor = .lt) : place t e = .ok (e ++ [t]) := by
  induction e with
  | nil => rfl
  | cons s e ih =>
    rw [List.forall_mem_cons] at h
    simp only [place, h.1, ih h.2]
    rfl

/-- Multiplying by what continues a canonical product appends it. -/
theorem mul_append (h : Canonical (a ++ b)) : a.mul b = .ok (a ++ b) := by
  induction b generalizing a with
  | nil => rw [List.append_nil, mul_nil]
  | cons t b ih =>
    have hsplit : a ++ t :: b = (a ++ [t]) ++ b := by simp
    rw [hsplit] at h ⊢
    refine mul_cons_eq_ok.mpr ⟨a ++ [t], mulTerm_eq_ok.mpr (.inr ⟨?_, place_append ?_, ?_⟩), ih h⟩
    · exact h.proper t (by simp)
    · intro s hs
      exact (List.pairwise_append.mp (List.pairwise_append.mp h.sorted).1).2.2 s hs t (by simp)
    · exact le_trans (by simp) h.bounded

/-- The product of the terms of a canonical product is that product. -/
theorem ofTerms_canonical (ha : Canonical a) : ofTerms a = .ok a :=
  mul_append (a := []) ha

theorem one_mul_canonical (ha : Canonical a) : one.mul a = .ok a :=
  ofTerms_canonical ha

omit [Atom α] in
/-- The first power needs no arithmetic that could fail. -/
theorem pow_one (a : PowerProduct α) : a.pow .one = .ok a := by
  refine pow_eq_ok.mpr (.inr ⟨by simp, ?_⟩)
  exact List.forall₂_same.mpr fun t _ => ⟨rfl, by simp⟩

/-! ### The inverse -/

/-- The opposite of the first term takes it away. -/
theorem mulTerm_cancel (hS : Atom.OrderedOn S) {s t : Term α} {e : PowerProduct α}
    (hs : S s.factor) (hproper : Proper s) (hfactor : t.factor = s.factor)
    (hpower : t.power.value = -s.power.value) (hroom : e.length ≤ capacity) :
    mulTerm (s :: e) t = .ok e := by
  refine mulTerm_eq_ok.mpr (.inr ⟨⟨?_, hfactor ▸ hproper.2⟩, ?_, hroom⟩)
  · rw [hpower]
    exact neg_ne_zero.mpr hproper.1
  · have hself : Atom.cmp s.factor t.factor = .eq := by
      rw [hfactor]
      exact hS.self hs
    have hsum : s.power.add t.power = .ok .zero := by
      rw [Ratio.add_eq_ok, hpower, add_neg_cancel, Ratio.value_zero]
    simp only [place, hself, hsum]
    rfl

/-- A product times its inverse is one, and this product always has a result. -/
theorem mul_inverse (hS : Atom.OrderedOn S) (ha : Over S a) (hcanonical : Canonical a)
    (h : a.inverse = .ok b) : a.mul b = .ok one := by
  rcases pow_eq_ok.mp h with ⟨hzero, -⟩ | ⟨-, hterms⟩
  · exact absurd hzero (by simp)
  · obtain ⟨-, hproper, hroom⟩ := hcanonical
    clear h
    induction hterms with
    | nil => rfl
    | @cons s t e d hst _ ih =>
      rw [over_cons] at ha
      rw [List.forall_mem_cons] at hproper
      have hrest : e.length ≤ capacity := le_trans (by simp) hroom
      have hpower : t.power.value = -s.power.value := by
        rw [hst.2, Ratio.value_minusOne, mul_neg_one]
      exact mul_cons_eq_ok.mpr ⟨e, mulTerm_cancel hS ha.1 hproper.1 hst.1 hpower hrest,
        ih ha.2 hproper.2 hrest⟩

/-! ### Changing a power -/

/-- Putting a term of an atom that occurs in its place needs no room. -/
theorem place_attains (hS : Atom.OrderedOn S) {t : Term α} {e : PowerProduct α} (ht : S t.factor)
    (he : Over S e) (hsorted : Sorted e) (hmem : ∃ s ∈ e, Atom.cmp s.factor t.factor = .eq) :
    Attains (RatFits ((e.powerOf t.factor).value + t.power.value)) (place t e)
      fun c => c.length ≤ e.length := by
  fun_induction place t e with
  | case1 => simp at hmem
  | case2 s rest hlt ih =>
    rw [over_cons] at he
    rw [sorted_cons] at hsorted
    have hrest : ∃ r ∈ rest, Atom.cmp r.factor t.factor = .eq := by simpa [hlt] using hmem
    rw [powerOf_cons, if_neg (by simp [hlt])]
    refine (ih he.2 hsorted.2 hrest).bind fun c hc => .of_ok rfl ?_
    simpa using hc
  | case3 s rest heq =>
    rw [powerOf_cons, if_pos heq]
    refine (Ratio.ofRat_attains (s.power.value + t.power.value)).bind fun power _ => .of_ok rfl ?_
    by_cases hzero : power.isZero
    · simp [hzero]
    · simp [hzero]
  | case4 s rest hgt =>
    rw [over_cons] at he
    rw [sorted_cons] at hsorted
    have hts : Atom.cmp t.factor s.factor = .lt := (hS.gt_iff_lt he.1 ht).mp hgt
    obtain ⟨r, hr, hrt⟩ := hmem
    have hlt : Atom.cmp t.factor r.factor = .lt := by
      rcases List.mem_cons.mp hr with rfl | hr
      · exact hts
      · exact hS.lt_trans ht he.1 (he.2 r hr) hts (hsorted.1 r hr)
    have hrS : S r.factor := by
      rcases List.mem_cons.mp hr with rfl | hr
      · exact he.1
      · exact he.2 r hr
    rw [hS.eq_symm hrS ht hrt] at hlt
    cases hlt

theorem mulTerm_attains (hS : Atom.OrderedOn S) {t : Term α} {e : PowerProduct α} (ht : S t.factor)
    (he : Over S e) (hcanonical : Canonical e) (hproper : Proper t)
    (hmem : ∃ s ∈ e, Atom.cmp s.factor t.factor = .eq) :
    Attains (RatFits ((e.powerOf t.factor).value + t.power.value)) (e.mulTerm t)
      fun _ => True := by
  rcases place_attains hS ht he hcanonical.sorted hmem with ⟨c, hc, hlength⟩ | ⟨herror, hfits⟩
  · have hmul : e.mulTerm t = .ok c :=
      mulTerm_eq_ok.mpr (.inr ⟨hproper, hc, hlength.trans hcanonical.bounded⟩)
    exact .of_ok hmul trivial
  · right
    refine ⟨?_, hfits⟩
    have hcond : (t.power.isZero || Atom.isNeutral t.factor) = false := by
      simpa [Proper] using hproper
    simp [mulTerm, hcond, herror, bind, Except.bind]

/-! ### Laws up to equality of products -/

theorem mul_comm (hS : Atom.OrderedOn S) (ha : Over S a) (hb : Over S b)
    (hcanonicalA : Canonical a) (hcanonicalB : Canonical b) {x y : PowerProduct α}
    (hx : a.mul b = .ok x) (hy : b.mul a = .ok y) : x.same y = true := by
  refine same_of_weigh hS (over_mul ha hb hx) (over_mul hb ha hy)
    (canonical_mul hS ha hb hcanonicalA hx) (canonical_mul hS hb ha hcanonicalB hy) fun w hw => ?_
  rw [weigh_mul hw ha hb hx, weigh_mul hw hb ha hy]
  ring

theorem mul_assoc (hS : Atom.OrderedOn S) (ha : Over S a) (hb : Over S b) (hc : Over S c)
    (hcanonical : Canonical a) {ab bc x y : PowerProduct α}
    (hab : a.mul b = .ok ab) (hx : ab.mul c = .ok x) (hbc : b.mul c = .ok bc)
    (hy : a.mul bc = .ok y) : x.same y = true := by
  have hover := over_mul ha hb hab
  have hover' := over_mul hb hc hbc
  refine same_of_weigh hS (over_mul hover hc hx) (over_mul ha hover' hy)
    (canonical_mul hS hover hc (canonical_mul hS ha hb hcanonical hab) hx)
    (canonical_mul hS ha hover' hcanonical hy) fun w hw => ?_
  rw [weigh_mul hw hover hc hx, weigh_mul hw ha hb hab, weigh_mul hw ha hover' hy,
    weigh_mul hw hb hc hbc]
  ring

theorem mul_div_cancel (hS : Atom.OrderedOn S) (ha : Over S a) (hb : Over S b)
    (hcanonical : Canonical a) {x y : PowerProduct α} (hx : a.mul b = .ok x)
    (hy : x.div b = .ok y) : y.same a = true := by
  have hover := over_mul ha hb hx
  refine same_of_weigh hS (over_div hover hb hy) ha
    (canonical_div hS hover hb (canonical_mul hS ha hb hcanonical hx) hy) hcanonical fun w hw => ?_
  rw [weigh_div hw hover hb hy, weigh_mul hw ha hb hx]
  ring

theorem mul_pow (hS : Atom.OrderedOn S) (ha : Over S a) (hb : Over S b)
    (hcanonical : Canonical a) {p : Ratio} {ab x ap bp y : PowerProduct α} (hab : a.mul b = .ok ab)
    (hx : ab.pow p = .ok x) (hap : a.pow p = .ok ap) (hbp : b.pow p = .ok bp)
    (hy : ap.mul bp = .ok y) : x.same y = true := by
  have hover := over_mul ha hb hab
  have hoverA := over_pow ha hap
  have hoverB := over_pow hb hbp
  refine same_of_weigh hS (over_pow hover hx) (over_mul hoverA hoverB hy)
    (canonical_pow (canonical_mul hS ha hb hcanonical hab) hx)
    (canonical_mul hS hoverA hoverB (canonical_pow hcanonical hap) hy) fun w hw => ?_
  rw [weigh_pow hx, weigh_mul hw ha hb hab, weigh_mul hw hoverA hoverB hy, weigh_pow hap,
    weigh_pow hbp]
  ring

theorem pow_pow (hS : Atom.OrderedOn S) (ha : Over S a) (hcanonical : Canonical a)
    {p q r : Ratio} {ap x y : PowerProduct α} (hap : a.pow p = .ok ap) (hx : ap.pow q = .ok x)
    (hr : p.mul q = .ok r) (hy : a.pow r = .ok y) : x.same y = true := by
  refine same_of_weigh hS (over_pow (over_pow ha hap) hx) (over_pow ha hy)
    (canonical_pow (canonical_pow hcanonical hap) hx) (canonical_pow hcanonical hy) fun w hw => ?_
  rw [weigh_pow hx, weigh_pow hap, weigh_pow hy, Ratio.mul_eq_ok.mp hr]
  ring

theorem ofTerms_perm (hS : Atom.OrderedOn S) (ha : Over S a) (hperm : a.Perm b)
    {x y : PowerProduct α} (hx : ofTerms a = .ok x) (hy : ofTerms b = .ok y) :
    x.same y = true := by
  have hb : Over S b := fun t ht => ha t (hperm.mem_iff.mpr ht)
  refine same_of_weigh hS (over_mul over_nil ha hx) (over_mul over_nil hb hy)
    (canonical_mul hS over_nil ha canonical_one hx)
    (canonical_mul hS over_nil hb canonical_one hy) fun w hw => ?_
  rw [weigh_ofTerms hw ha hx, weigh_ofTerms hw hb hy, weigh_perm hperm]

end PowerProduct

end Metrology
