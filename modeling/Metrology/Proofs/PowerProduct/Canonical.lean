import Metrology.Proofs.Ratio

/-!
# Canonical products

A product is canonical if its atoms strictly increase, no power is zero, no atom is neutral and there
are at most `capacity` terms. Every operation keeps products canonical, as long as the atoms involved
belong to a set on which the comparison is a total order. The set matters: the comparison of factors
reads names, and it is an order only among factors whose names are used consistently.
-/

namespace Metrology

namespace PowerProduct

variable {α : Type} {S : α → Prop}

/-- Every atom of the product belongs to `S`. -/
def Over (S : α → Prop) (e : PowerProduct α) : Prop := ∀ t ∈ e, S t.factor

@[simp] theorem over_nil : Over S ([] : PowerProduct α) := by
  simp [Over]

@[simp] theorem over_cons {t : Term α} {e : PowerProduct α} :
    Over S (t :: e) ↔ S t.factor ∧ Over S e := by
  simp [Over]

@[simp] theorem isOne_iff {e : PowerProduct α} : e.isOne = true ↔ e = [] :=
  List.isEmpty_iff

theorem single?_eq_some {e : PowerProduct α} {f : α} :
    e.single? = some f ↔ e = [⟨f, .one⟩] := by
  unfold single?
  constructor
  · intro h
    split at h
    · rename_i t
      by_cases hpower : t.power = .one
      · rw [if_pos hpower] at h
        rw [← Option.some.inj h, ← hpower]
      · rw [if_neg hpower] at h
        cases h
    · cases h
  · rintro rfl
    exact if_pos rfl

/-- A nonzero power keeps the atoms and multiplies the powers one by one. -/
theorem pow_eq_ok {e c : PowerProduct α} {p : Ratio} :
    e.pow p = .ok c ↔ (p.value = 0 ∧ c = []) ∨ (p.value ≠ 0 ∧
      List.Forall₂ (fun s t => t.factor = s.factor ∧ t.power.value = s.power.value * p.value) e c) := by
  unfold pow
  by_cases hp : p.value = 0
  · rw [if_pos (Ratio.isZero_iff.mpr hp)]
    simp [hp, one, eq_comm]
  · rw [if_neg (by simpa using hp)]
    simp only [hp, false_and, not_false_eq_true, true_and, false_or, ne_eq]
    rw [mapM_eq_ok]
    constructor
    · refine List.Forall₂.imp fun s t ht => ?_
      obtain ⟨q, hq, hqt⟩ := bind_eq_ok.mp ht
      obtain rfl := Except.ok.inj hqt
      exact ⟨rfl, Ratio.mul_eq_ok.mp hq⟩
    · refine List.Forall₂.imp ?_
      rintro s t ⟨hfactor, hpower⟩
      exact bind_eq_ok.mpr ⟨t.power, Ratio.mul_eq_ok.mpr hpower, hfactor ▸ rfl⟩

theorem over_pow {e c : PowerProduct α} {p : Ratio} (he : Over S e) (h : e.pow p = .ok c) :
    Over S c := by
  rcases pow_eq_ok.mp h with ⟨-, rfl⟩ | ⟨-, hterms⟩
  · exact over_nil
  · clear h
    induction hterms with
    | nil => exact over_nil
    | cons hst _ ih =>
      rw [over_cons] at he ⊢
      exact ⟨hst.1 ▸ he.1, ih he.2⟩

variable [Atom α]

/-- The atoms strictly increase. -/
def Sorted (e : PowerProduct α) : Prop :=
  e.Pairwise fun s t => Atom.cmp s.factor t.factor = .lt

@[simp] theorem sorted_nil : Sorted ([] : PowerProduct α) := List.Pairwise.nil

@[simp] theorem sorted_cons {t : Term α} {e : PowerProduct α} :
    Sorted (t :: e) ↔ (∀ s ∈ e, Atom.cmp t.factor s.factor = .lt) ∧ Sorted e :=
  List.pairwise_cons

theorem sorted_iff_map {e : PowerProduct α} :
    Sorted e ↔ (e.map (·.factor)).Pairwise fun a b => Atom.cmp a b = .lt := by
  rw [Sorted, List.pairwise_map]

/-- A term that a product may contain: a power of zero and a neutral atom are left out. -/
def Proper (t : Term α) : Prop := t.power.value ≠ 0 ∧ Atom.isNeutral t.factor = false

structure Canonical (e : PowerProduct α) : Prop where
  sorted : Sorted e
  proper : ∀ t ∈ e, Proper t
  bounded : e.length ≤ capacity

instance (t : Term α) : Decidable (Proper t) := inferInstanceAs (Decidable (_ ∧ _))

instance (e : PowerProduct α) : Decidable (Sorted e) := inferInstanceAs (Decidable (List.Pairwise _ e))

instance (e : PowerProduct α) : Decidable (Canonical e) :=
  decidable_of_iff (Sorted e ∧ (∀ t ∈ e, Proper t) ∧ e.length ≤ capacity)
    ⟨fun h => ⟨h.1, h.2.1, h.2.2⟩, fun h => ⟨h.sorted, h.proper, h.bounded⟩⟩

theorem canonical_one : Canonical (one : PowerProduct α) where
  sorted := sorted_nil
  proper := by simp [one]
  bounded := by simp [one]

theorem Canonical.sublist {e c : PowerProduct α} (h : Canonical e) (hsub : c.Sublist e) :
    Canonical c where
  sorted := List.Pairwise.sublist hsub h.sorted
  proper t ht := h.proper t (hsub.mem ht)
  bounded := hsub.length_le.trans h.bounded

/-! ### Putting a term in its place -/

/-- Placing a term adds no atom but that of the term. -/
theorem factor_mem_place {t r : Term α} {e c : PowerProduct α} (h : place t e = .ok c)
    (hr : r ∈ c) : r.factor = t.factor ∨ ∃ s ∈ e, s.factor = r.factor := by
  fun_induction place t e generalizing c with
  | case1 =>
    obtain rfl := Except.ok.inj h
    exact .inl (congrArg Term.factor (List.mem_singleton.mp hr))
  | case2 s rest hlt ih =>
    obtain ⟨d, hd, hc⟩ := bind_eq_ok.mp h
    obtain rfl : s :: d = c := by simpa using hc
    rcases List.mem_cons.mp hr with rfl | hr
    · exact .inr ⟨r, by simp, rfl⟩
    · rcases ih hd hr with h | ⟨u, hu, hur⟩
      · exact .inl h
      · exact .inr ⟨u, by simp [hu], hur⟩
  | case3 s rest heq =>
    obtain ⟨power, -, hc⟩ := bind_eq_ok.mp h
    obtain rfl := Except.ok.inj hc
    right
    by_cases hzero : power.isZero
    · rw [if_pos hzero] at hr
      exact ⟨r, by simp [hr], rfl⟩
    · rw [if_neg hzero] at hr
      rcases List.mem_cons.mp hr with rfl | hr
      · exact ⟨s, by simp, rfl⟩
      · exact ⟨r, by simp [hr], rfl⟩
  | case4 s rest hgt =>
    obtain rfl := Except.ok.inj h
    rcases List.mem_cons.mp hr with rfl | hr
    · exact .inl rfl
    · exact .inr ⟨r, hr, rfl⟩

theorem over_place {t : Term α} {e c : PowerProduct α} (ht : S t.factor) (he : Over S e)
    (h : place t e = .ok c) : Over S c := by
  intro r hr
  rcases factor_mem_place h hr with hrt | ⟨s, hs, hsr⟩
  · exact hrt ▸ ht
  · exact hsr ▸ he s hs

theorem sorted_place (hS : Atom.OrderedOn S) {t : Term α} {e c : PowerProduct α}
    (ht : S t.factor) (he : Over S e) (hsorted : Sorted e) (h : place t e = .ok c) : Sorted c := by
  fun_induction place t e generalizing c with
  | case1 =>
    obtain rfl := Except.ok.inj h
    simp
  | case2 s rest hlt ih =>
    obtain ⟨d, hd, hc⟩ := bind_eq_ok.mp h
    obtain rfl : s :: d = c := by simpa using hc
    rw [over_cons] at he
    rw [sorted_cons] at hsorted ⊢
    refine ⟨fun r hr => ?_, ih he.2 hsorted.2 hd⟩
    rcases factor_mem_place hd hr with hrt | ⟨u, hu, hur⟩
    · rw [hrt]
      exact hlt
    · rw [← hur]
      exact hsorted.1 u hu
  | case3 s rest heq =>
    obtain ⟨power, -, hc⟩ := bind_eq_ok.mp h
    obtain rfl := Except.ok.inj hc
    rw [sorted_cons] at hsorted
    by_cases hzero : power.isZero
    · rw [if_pos hzero]
      exact hsorted.2
    · rw [if_neg hzero, sorted_cons]
      exact hsorted
  | case4 s rest hgt =>
    obtain rfl := Except.ok.inj h
    rw [over_cons] at he
    have hts : Atom.cmp t.factor s.factor = .lt := (hS.gt_iff_lt he.1 ht).mp hgt
    rw [sorted_cons]
    refine ⟨fun r hr => ?_, hsorted⟩
    rcases List.mem_cons.mp hr with rfl | hr
    · exact hts
    · exact hS.lt_trans ht he.1 (he.2 r hr) hts ((sorted_cons.mp hsorted).1 r hr)

theorem proper_place {t : Term α} {e c : PowerProduct α} (ht : Proper t)
    (he : ∀ s ∈ e, Proper s) (h : place t e = .ok c) : ∀ r ∈ c, Proper r := by
  fun_induction place t e generalizing c with
  | case1 =>
    obtain rfl := Except.ok.inj h
    simpa using ht
  | case2 s rest hlt ih =>
    obtain ⟨d, hd, hc⟩ := bind_eq_ok.mp h
    obtain rfl : s :: d = c := by simpa using hc
    rw [List.forall_mem_cons] at he ⊢
    exact ⟨he.1, ih he.2 hd⟩
  | case3 s rest heq =>
    obtain ⟨power, -, hc⟩ := bind_eq_ok.mp h
    obtain rfl := Except.ok.inj hc
    rw [List.forall_mem_cons] at he
    by_cases hzero : power.isZero
    · rw [if_pos hzero]
      exact he.2
    · rw [if_neg hzero, List.forall_mem_cons]
      exact ⟨⟨by simpa using hzero, he.1.2⟩, he.2⟩
  | case4 s rest hgt =>
    obtain rfl := Except.ok.inj h
    rw [List.forall_mem_cons]
    exact ⟨ht, he⟩

/-! ### Multiplying -/

/-- A term that is not proper changes nothing; a proper one is put in its place, if there is room. -/
theorem mulTerm_eq_ok {e c : PowerProduct α} {t : Term α} :
    e.mulTerm t = .ok c ↔
      (¬ Proper t ∧ c = e) ∨ (Proper t ∧ place t e = .ok c ∧ c.length ≤ capacity) := by
  unfold mulTerm
  by_cases ht : Proper t
  · have hcond : (t.power.isZero || Atom.isNeutral t.factor) = false := by
      simpa [Proper] using ht
    simp only [hcond, Bool.false_eq_true, if_false, bind_eq_ok, ht, not_true_eq_false, false_and,
      true_and, false_or]
    constructor
    · rintro ⟨d, hd, hc⟩
      by_cases hroom : d.length ≤ capacity
      · rw [if_pos hroom] at hc
        obtain rfl := Except.ok.inj hc
        exact ⟨hd, hroom⟩
      · simp [if_neg hroom] at hc
    · rintro ⟨hplace, hroom⟩
      exact ⟨c, hplace, by rw [if_pos hroom]⟩
  · have hcond : (t.power.isZero || Atom.isNeutral t.factor) = true := by
      by_contra hfalse
      apply ht
      simpa [Proper] using hfalse
    simp [hcond, ht, pure, Except.pure, eq_comm]

theorem over_mulTerm {e c : PowerProduct α} {t : Term α} (he : Over S e) (ht : S t.factor)
    (h : e.mulTerm t = .ok c) : Over S c := by
  rcases mulTerm_eq_ok.mp h with ⟨-, rfl⟩ | ⟨-, hplace, -⟩
  · exact he
  · exact over_place ht he hplace

theorem canonical_mulTerm (hS : Atom.OrderedOn S) {e c : PowerProduct α} {t : Term α}
    (he : Over S e) (ht : S t.factor) (hcanonical : Canonical e) (h : e.mulTerm t = .ok c) :
    Canonical c := by
  rcases mulTerm_eq_ok.mp h with ⟨-, rfl⟩ | ⟨hproper, hplace, hroom⟩
  · exact hcanonical
  · exact ⟨sorted_place hS ht he hcanonical.sorted hplace,
      proper_place hproper hcanonical.proper hplace, hroom⟩

theorem mul_nil (a : PowerProduct α) : a.mul [] = .ok a := rfl

theorem mul_cons_eq_ok {a b c : PowerProduct α} {t : Term α} :
    a.mul (t :: b) = .ok c ↔ ∃ d, a.mulTerm t = .ok d ∧ d.mul b = .ok c := by
  unfold mul
  rw [List.foldlM_cons, bind_eq_ok]

theorem over_mul {a b c : PowerProduct α} (ha : Over S a) (hb : Over S b)
    (h : a.mul b = .ok c) : Over S c := by
  induction b generalizing a with
  | nil => exact Except.ok.inj h ▸ ha
  | cons t b ih =>
    obtain ⟨d, hd, hrest⟩ := mul_cons_eq_ok.mp h
    rw [over_cons] at hb
    exact ih (over_mulTerm ha hb.1 hd) hb.2 hrest

/-- The second operand may be any list of terms. -/
theorem canonical_mul (hS : Atom.OrderedOn S) {a b c : PowerProduct α} (ha : Over S a)
    (hb : Over S b) (hcanonical : Canonical a) (h : a.mul b = .ok c) : Canonical c := by
  induction b generalizing a with
  | nil => exact Except.ok.inj h ▸ hcanonical
  | cons t b ih =>
    obtain ⟨d, hd, hrest⟩ := mul_cons_eq_ok.mp h
    rw [over_cons] at hb
    exact ih (over_mulTerm ha hb.1 hd) hb.2 (canonical_mulTerm hS ha hb.1 hcanonical hd) hrest

/-! ### Powers and quotients -/

theorem canonical_pow {e c : PowerProduct α} {p : Ratio} (hcanonical : Canonical e)
    (h : e.pow p = .ok c) : Canonical c := by
  rcases pow_eq_ok.mp h with ⟨-, rfl⟩ | ⟨hp, hterms⟩
  · exact canonical_one
  · have hlength : e.length = c.length := hterms.length_eq
    refine ⟨?_, ?_, hlength ▸ hcanonical.bounded⟩
    · have hfactors : c.map (·.factor) = e.map (·.factor) := by
        clear h hlength hcanonical
        induction hterms with
        | nil => rfl
        | cons hst _ ih => rw [List.map_cons, List.map_cons, hst.1, ih]
      rw [sorted_iff_map, hfactors, ← sorted_iff_map]
      exact hcanonical.sorted
    · have hproper := hcanonical.proper
      clear h hlength hcanonical
      induction hterms with
      | nil => simp
      | cons hst _ ih =>
        rw [List.forall_mem_cons] at hproper ⊢
        refine ⟨⟨?_, hst.1 ▸ hproper.1.2⟩, ih hproper.2⟩
        rw [hst.2]
        exact mul_ne_zero hproper.1.1 hp

theorem div_eq_ok {a b c : PowerProduct α} :
    a.div b = .ok c ↔ ∃ i, b.inverse = .ok i ∧ a.mul i = .ok c :=
  bind_eq_ok

theorem over_div {a b c : PowerProduct α} (ha : Over S a) (hb : Over S b)
    (h : a.div b = .ok c) : Over S c := by
  obtain ⟨i, hi, hmul⟩ := div_eq_ok.mp h
  exact over_mul ha (over_pow hb hi) hmul

theorem canonical_div (hS : Atom.OrderedOn S) {a b c : PowerProduct α} (ha : Over S a)
    (hb : Over S b) (hcanonical : Canonical a) (h : a.div b = .ok c) : Canonical c := by
  obtain ⟨i, hi, hmul⟩ := div_eq_ok.mp h
  exact canonical_mul hS ha (over_pow hb hi) hcanonical hmul

end PowerProduct

end Metrology
