import Metrology.Proofs.PowerProduct.Canonical

/-!
# Products weigh what their terms weigh

Give every atom a weight. A product then weighs the sum of the weights of its terms, each times its
power, and the operations act on weights as they do on logarithms: products add, powers scale. The
power of an atom in a product is one such weight, and the powers together determine a canonical
product. So an equation between products holds as soon as both sides weigh the same, for every weight.
-/

namespace Metrology

/-- A weight depends only on what identifies an atom, and neutral atoms weigh nothing. -/
structure Atom.Weight {α : Type} [Atom α] (S : α → Prop) (w : α → Rat) : Prop where
  congr {a b : α} : S a → S b → Atom.cmp a b = .eq → w a = w b
  neutral {a : α} : S a → Atom.isNeutral a = true → w a = 0

namespace PowerProduct

section Shape

variable {α : Type} {w : α → Rat}

def weigh (w : α → Rat) (e : PowerProduct α) : Rat :=
  (e.map fun t => t.power.value * w t.factor).sum

@[simp] theorem weigh_nil : weigh w ([] : PowerProduct α) = 0 := rfl

@[simp] theorem weigh_cons {t : Term α} {e : PowerProduct α} :
    weigh w (t :: e) = t.power.value * w t.factor + weigh w e := by
  simp [weigh]

theorem weigh_pow {e c : PowerProduct α} {p : Ratio} (h : e.pow p = .ok c) :
    weigh w c = p.value * weigh w e := by
  rcases pow_eq_ok.mp h with ⟨hp, rfl⟩ | ⟨-, hterms⟩
  · rw [hp, zero_mul, weigh_nil]
  · clear h
    induction hterms with
    | nil => simp
    | cons hst _ ih =>
      rw [weigh_cons, weigh_cons, hst.1, hst.2, ih]
      ring

theorem weigh_inverse {e c : PowerProduct α} (h : e.inverse = .ok c) :
    weigh w c = -weigh w e := by
  rw [weigh_pow h, Ratio.value_minusOne]
  ring

theorem weigh_eraseIdx {e : PowerProduct α} {t : Term α} {position : Nat}
    (h : e[position]? = some t) :
    weigh w e = t.power.value * w t.factor + weigh w (e.eraseIdx position) := by
  induction e generalizing position with
  | nil => simp at h
  | cons s e ih =>
    cases position with
    | zero =>
      obtain rfl : s = t := by simpa using h
      simp
    | succ position =>
      rw [List.eraseIdx_cons_succ, weigh_cons, weigh_cons, ih (by simpa using h)]
      ring

@[simp] theorem weigh_zero {e : PowerProduct α} : weigh (fun _ => 0) e = 0 := by
  simp [weigh]

theorem weigh_append (a b : PowerProduct α) : weigh w (a ++ b) = weigh w a + weigh w b := by
  simp [weigh]

theorem weigh_perm {e c : PowerProduct α} (h : List.Perm e c) : weigh w e = weigh w c :=
  (h.map _).sum_eq

end Shape

variable {α : Type} [Atom α] {S : α → Prop} {w : α → Rat}

theorem weigh_place (hw : Atom.Weight S w) {t : Term α} {e c : PowerProduct α} (ht : S t.factor)
    (he : Over S e) (h : place t e = .ok c) :
    weigh w c = weigh w e + t.power.value * w t.factor := by
  fun_induction place t e generalizing c with
  | case1 =>
    obtain rfl := Except.ok.inj h
    simp
  | case2 s rest hlt ih =>
    obtain ⟨d, hd, hc⟩ := bind_eq_ok.mp h
    obtain rfl : s :: d = c := by simpa using hc
    rw [over_cons] at he
    rw [weigh_cons, weigh_cons, ih he.2 hd]
    ring
  | case3 s rest heq =>
    obtain ⟨power, hpower, hc⟩ := bind_eq_ok.mp h
    obtain rfl := Except.ok.inj hc
    rw [over_cons] at he
    rw [Ratio.add_eq_ok] at hpower
    have hst : w s.factor = w t.factor := hw.congr he.1 ht heq
    by_cases hzero : power.isZero
    · have hsum : s.power.value + t.power.value = 0 := by
        rw [← hpower]
        exact Ratio.isZero_iff.mp hzero
      rw [if_pos hzero, weigh_cons, hst]
      linear_combination -w t.factor * hsum
    · rw [if_neg hzero, weigh_cons, weigh_cons, hpower, hst]
      ring
  | case4 s rest hgt =>
    obtain rfl := Except.ok.inj h
    rw [weigh_cons]
    ring

theorem weigh_mulTerm (hw : Atom.Weight S w) {t : Term α} {e c : PowerProduct α}
    (ht : S t.factor) (he : Over S e) (h : e.mulTerm t = .ok c) :
    weigh w c = weigh w e + t.power.value * w t.factor := by
  rcases mulTerm_eq_ok.mp h with ⟨hproper, rfl⟩ | ⟨-, hplace, -⟩
  · have hzero : t.power.value * w t.factor = 0 := by
      by_cases hpower : t.power.value = 0
      · rw [hpower, zero_mul]
      · have hneutral : Atom.isNeutral t.factor = true := by
          simpa [Proper, hpower] using hproper
        rw [hw.neutral ht hneutral, mul_zero]
    rw [hzero, add_zero]
  · exact weigh_place hw ht he hplace

/-- The second operand may be any list of terms. -/
theorem weigh_mul (hw : Atom.Weight S w) {a b c : PowerProduct α} (ha : Over S a) (hb : Over S b)
    (h : a.mul b = .ok c) : weigh w c = weigh w a + weigh w b := by
  induction b generalizing a with
  | nil =>
    obtain rfl := Except.ok.inj h
    simp
  | cons t b ih =>
    obtain ⟨d, hd, hrest⟩ := mul_cons_eq_ok.mp h
    rw [over_cons] at hb
    rw [ih (over_mulTerm ha hb.1 hd) hb.2 hrest, weigh_mulTerm hw hb.1 ha hd, weigh_cons]
    ring

theorem weigh_div (hw : Atom.Weight S w) {a b c : PowerProduct α} (ha : Over S a) (hb : Over S b)
    (h : a.div b = .ok c) : weigh w c = weigh w a - weigh w b := by
  obtain ⟨i, hi, hmul⟩ := div_eq_ok.mp h
  rw [weigh_mul hw ha (over_pow hb hi) hmul, weigh_inverse hi]
  ring

theorem weigh_ofTerms (hw : Atom.Weight S w) {terms c : PowerProduct α} (hterms : Over S terms)
    (h : ofTerms terms = .ok c) : weigh w c = weigh w terms := by
  rw [weigh_mul hw over_nil hterms h, weigh_nil, zero_add]

/-! ### The power of an atom -/

/-- The weight that counts one atom. -/
def indicator (f a : α) : Rat := if Atom.cmp a f = .eq then 1 else 0

theorem indicator_weight (hS : Atom.OrderedOn S) {f : α} (hf : S f)
    (hproper : Atom.isNeutral f = false) : Atom.Weight S (indicator f) where
  congr ha hb hab := by
    unfold indicator
    rw [hS.congr_left ha hb hf hab]
  neutral {a} ha hneutral := by
    apply if_neg
    intro heq
    rw [hS.neutral_congr ha hf heq, hproper] at hneutral
    cases hneutral

theorem powerOf_cons (t : Term α) (e : PowerProduct α) (f : α) :
    powerOf (t :: e) f = if Atom.cmp t.factor f = .eq then t.power else powerOf e f := by
  unfold powerOf
  rw [List.find?_cons]
  by_cases h : Atom.cmp t.factor f = .eq
  · simp [h]
  · rw [beq_eq_false_iff_ne.mpr h, if_neg h]

theorem powerOf_eq_zero {e : PowerProduct α} {f : α}
    (h : ∀ t ∈ e, Atom.cmp t.factor f ≠ .eq) : powerOf e f = .zero := by
  induction e with
  | nil => rfl
  | cons t e ih =>
    rw [List.forall_mem_cons] at h
    rw [powerOf_cons, if_neg h.1, ih h.2]

/-- In a sorted product no atom after the first one equals the first one. -/
theorem ne_of_head_eq (hS : Atom.OrderedOn S) {s : Term α} {e : PowerProduct α} {f : α}
    (hs : S s.factor) (he : Over S e) (hf : S f) (hlt : ∀ t ∈ e, Atom.cmp s.factor t.factor = .lt)
    (hsf : Atom.cmp s.factor f = .eq) : ∀ t ∈ e, Atom.cmp t.factor f ≠ .eq := by
  intro t ht htf
  have hft : Atom.cmp f t.factor = .lt := by
    rw [← hS.congr_left hs hf (he t ht) hsf]
    exact hlt t ht
  rw [hS.eq_symm (he t ht) hf htf] at hft
  cases hft

theorem weigh_indicator_eq_zero {e : PowerProduct α} {f : α}
    (h : ∀ t ∈ e, Atom.cmp t.factor f ≠ .eq) : weigh (indicator f) e = 0 := by
  induction e with
  | nil => rfl
  | cons t e ih =>
    rw [List.forall_mem_cons] at h
    rw [weigh_cons, ih h.2, indicator, if_neg h.1, mul_zero, add_zero]

theorem powerOf_eq_weigh (hS : Atom.OrderedOn S) {e : PowerProduct α} {f : α} (he : Over S e)
    (hsorted : Sorted e) (hf : S f) : (powerOf e f).value = weigh (indicator f) e := by
  induction e with
  | nil => rfl
  | cons s e ih =>
    rw [over_cons] at he
    rw [sorted_cons] at hsorted
    rw [powerOf_cons, weigh_cons, indicator]
    by_cases hsf : Atom.cmp s.factor f = .eq
    · have hrest := ne_of_head_eq hS he.1 he.2 hf hsorted.1 hsf
      rw [if_pos hsf, if_pos hsf, weigh_indicator_eq_zero hrest, mul_one, add_zero]
    · rw [if_neg hsf, if_neg hsf, ih he.2 hsorted.2, mul_zero, zero_add]

/-- A neutral atom has no power in a canonical product. -/
theorem powerOf_neutral (hS : Atom.OrderedOn S) {e : PowerProduct α} {f : α} (he : Over S e)
    (hcanonical : Canonical e) (hf : S f) (hneutral : Atom.isNeutral f = true) :
    powerOf e f = .zero := by
  apply powerOf_eq_zero
  intro t ht heq
  have hproper := (hcanonical.proper t ht).2
  rw [hS.neutral_congr (he t ht) hf heq, hneutral] at hproper
  cases hproper

/-! ### Powers determine products -/

theorem same_iff_cmp {a b : PowerProduct α} : a.same b = true ↔ cmp a b = .eq := by
  simp [same]

theorem cmp_cons_eq_iff {s t : Term α} {a b : PowerProduct α} :
    cmp (s :: a) (t :: b) = .eq ↔
      Atom.cmp s.factor t.factor = .eq ∧ s.power = t.power ∧ cmp a b = .eq := by
  simp [cmp, Ordering.then_eq_eq, Std.LawfulEqCmp.compare_eq_iff_eq]

/-- Products that compare as equal weigh the same, if atoms of both that compare as equal do. -/
theorem weigh_of_cmp {a b : PowerProduct α} (hw : ∀ s ∈ a, ∀ t ∈ b,
    Atom.cmp s.factor t.factor = .eq → w s.factor = w t.factor) (h : cmp a b = .eq) :
    weigh w a = weigh w b := by
  induction a generalizing b with
  | nil =>
    cases b with
    | nil => rfl
    | cons t b => cases h
  | cons s a ih =>
    cases b with
    | nil => cases h
    | cons t b =>
      obtain ⟨hfactor, hpower, hrest⟩ := cmp_cons_eq_iff.mp h
      have hst : w s.factor = w t.factor := hw s (by simp) t (by simp) hfactor
      rw [weigh_cons, weigh_cons, hst, hpower,
        ih (fun r hr u hu => hw r (by simp [hr]) u (by simp [hu])) hrest]

theorem weigh_of_same (hw : Atom.Weight S w) {a b : PowerProduct α} (ha : Over S a) (hb : Over S b)
    (h : a.same b = true) : weigh w a = weigh w b :=
  weigh_of_cmp (fun s hs t ht => hw.congr (ha s hs) (hb t ht)) (same_iff_cmp.mp h)

/-- An atom below the first one of a sorted product does not occur in it. -/
theorem powerOf_eq_zero_of_lt_head (hS : Atom.OrderedOn S) {t : Term α} {b : PowerProduct α} {f : α}
    (hf : S f) (ht : S t.factor) (hb : Over S b) (hlt : ∀ r ∈ b, Atom.cmp t.factor r.factor = .lt)
    (hft : Atom.cmp f t.factor = .lt) : powerOf (t :: b) f = .zero := by
  apply powerOf_eq_zero
  intro r hr heq
  have hfr : Atom.cmp f r.factor = .lt := by
    rcases List.mem_cons.mp hr with rfl | hr
    · exact hft
    · exact hS.lt_trans hf ht (hb r hr) hft (hlt r hr)
  have hrS : S r.factor := by
    rcases List.mem_cons.mp hr with rfl | hr
    · exact ht
    · exact hb r hr
  rw [hS.eq_symm hrS hf heq] at hfr
  cases hfr

theorem powerOf_head (hS : Atom.OrderedOn S) {t : Term α} {e : PowerProduct α} (ht : S t.factor) :
    powerOf (t :: e) t.factor = t.power := by
  rw [powerOf_cons, if_pos (hS.self ht)]

theorem powerOf_of_mem (hS : Atom.OrderedOn S) {t : Term α} {e : PowerProduct α} (he : Over S e)
    (hsorted : Sorted e) (ht : t ∈ e) : powerOf e t.factor = t.power := by
  induction e with
  | nil => cases ht
  | cons s e ih =>
    rw [over_cons] at he
    rw [sorted_cons] at hsorted
    rcases List.mem_cons.mp ht with rfl | ht
    · exact powerOf_head hS he.1
    · have hst : Atom.cmp s.factor t.factor ≠ .eq := by
        rw [hsorted.1 t ht]
        decide
      rw [powerOf_cons, if_neg hst, ih he.2 hsorted.2 ht]

/-- Behind equal first atoms, sorted products give an atom the same power if they do as a whole. -/
theorem powerOf_tail (hS : Atom.OrderedOn S) {s t : Term α} {a b : PowerProduct α} {f : α}
    (ha : Over S (s :: a)) (hb : Over S (t :: b)) (hsortedA : Sorted (s :: a))
    (hsortedB : Sorted (t :: b)) (hf : S f) (hst : Atom.cmp s.factor t.factor = .eq)
    (h : powerOf (s :: a) f = powerOf (t :: b) f) : powerOf a f = powerOf b f := by
  rw [over_cons] at ha hb
  rw [sorted_cons] at hsortedA hsortedB
  have hcongr := hS.congr_left ha.1 hb.1 hf hst
  by_cases hsf : Atom.cmp s.factor f = .eq
  · rw [powerOf_eq_zero (ne_of_head_eq hS ha.1 ha.2 hf hsortedA.1 hsf),
      powerOf_eq_zero (ne_of_head_eq hS hb.1 hb.2 hf hsortedB.1 (hcongr ▸ hsf))]
  · rwa [powerOf_cons, if_neg hsf, powerOf_cons, if_neg (hcongr ▸ hsf)] at h

/-- The first atom of a canonical product does not stand below all atoms of a product that gives it the
same power. -/
theorem not_lt_head (hS : Atom.OrderedOn S) {s t : Term α} {a b : PowerProduct α}
    (ha : Over S (s :: a)) (hb : Over S (t :: b)) (hproper : Proper s) (hsorted : Sorted (t :: b))
    (h : powerOf (s :: a) s.factor = powerOf (t :: b) s.factor) :
    Atom.cmp s.factor t.factor ≠ .lt := by
  intro hlt
  rw [over_cons] at ha hb
  rw [sorted_cons] at hsorted
  rw [powerOf_head hS ha.1, powerOf_eq_zero_of_lt_head hS ha.1 hb.1 hb.2 hsorted.1 hlt] at h
  exact hproper.1 (congrArg Ratio.value h)

/-- Canonical products that give every atom the same power are the same. -/
theorem same_of_powerOf (hS : Atom.OrderedOn S) {a b : PowerProduct α} (ha : Over S a)
    (hb : Over S b) (hcanonicalA : Canonical a) (hcanonicalB : Canonical b)
    (h : ∀ f, S f → powerOf a f = powerOf b f) : a.same b = true := by
  rw [same_iff_cmp]
  obtain ⟨hsortedA, hproperA, -⟩ := hcanonicalA
  obtain ⟨hsortedB, hproperB, -⟩ := hcanonicalB
  induction a generalizing b with
  | nil =>
    cases b with
    | nil => rfl
    | cons t b =>
      have hpower := h t.factor (hb t (by simp))
      rw [powerOf_head hS (hb t (by simp))] at hpower
      exact absurd (congrArg Ratio.value hpower.symm) (hproperB t (by simp)).1
  | cons s a ih =>
    have hsS : S s.factor := ha s (by simp)
    have hpower := h s.factor hsS
    rw [powerOf_head hS hsS] at hpower
    cases b with
    | nil => exact absurd (congrArg Ratio.value hpower) (hproperA s (by simp)).1
    | cons t b =>
      have htS : S t.factor := hb t (by simp)
      cases hst : Atom.cmp s.factor t.factor with
      | lt =>
        exact absurd hst (not_lt_head hS ha hb (hproperA s (by simp)) hsortedB (h _ hsS))
      | gt =>
        have hts := (hS.gt_iff_lt hsS htS).mp hst
        exact absurd hts (not_lt_head hS hb ha (hproperB t (by simp)) hsortedA (h _ htS).symm)
      | eq =>
        rw [powerOf_cons, if_pos (hS.eq_symm hsS htS hst)] at hpower
        have htails : ∀ f, S f → powerOf a f = powerOf b f := fun f hf =>
          powerOf_tail hS ha hb hsortedA hsortedB hf hst (h f hf)
        rw [over_cons] at ha hb
        rw [sorted_cons] at hsortedA hsortedB
        rw [List.forall_mem_cons] at hproperA hproperB
        exact cmp_cons_eq_iff.mpr ⟨hst, hpower, ih ha.2 hb.2 htails hsortedA.2 hproperA.2 hsortedB.2
          hproperB.2⟩

/-- Canonical products of the same weight, for every weight, are the same. -/
theorem same_of_weigh (hS : Atom.OrderedOn S) {a b : PowerProduct α} (ha : Over S a)
    (hb : Over S b) (hcanonicalA : Canonical a) (hcanonicalB : Canonical b)
    (h : ∀ w, Atom.Weight S w → weigh w a = weigh w b) : a.same b = true := by
  apply same_of_powerOf hS ha hb hcanonicalA hcanonicalB
  intro f hf
  by_cases hneutral : Atom.isNeutral f = true
  · rw [powerOf_neutral hS ha hcanonicalA hf hneutral, powerOf_neutral hS hb hcanonicalB hf hneutral]
  · have hweight := indicator_weight hS hf (by simpa using hneutral)
    apply Ratio.ext
    rw [powerOf_eq_weigh hS ha hcanonicalA.sorted hf, powerOf_eq_weigh hS hb hcanonicalB.sorted hf,
      h _ hweight]

theorem eq_one_of_same {e : PowerProduct α} (h : e.same one = true) : e = one := by
  cases e with
  | nil => rfl
  | cons => cases same_iff_cmp.mp h

end PowerProduct

end Metrology
