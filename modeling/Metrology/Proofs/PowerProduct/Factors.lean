import Metrology.Proofs.PowerProduct.Canonical

/-!
# The factors of a product

Powers aside, a product is the collection of its factors. Multiplying adds no other factors than those of
the operands, and may merge or cancel some of them. A power of a factor that occurs already never adds
one, and it takes one away if it is the opposite of the power that occurs.
-/

namespace Metrology

namespace PowerProduct

section Shape

variable {α : Type} {t : Term α} {e c : PowerProduct α}

def factors (e : PowerProduct α) : Multiset α := (e.map (·.factor) : List α)

@[simp] theorem factors_nil : factors ([] : PowerProduct α) = 0 := rfl

@[simp] theorem factors_cons : factors (t :: e) = t.factor ::ₘ factors e := rfl

@[simp] theorem card_factors : e.factors.card = e.length := by
  simp [factors]

theorem mem_factors {f : α} : f ∈ e.factors ↔ ∃ t ∈ e, t.factor = f := by
  simp [factors]

theorem factors_pow {p : Ratio} (h : e.pow p = .ok c) : c.factors ≤ e.factors := by
  rcases pow_eq_ok.mp h with ⟨-, rfl⟩ | ⟨-, hterms⟩
  · exact Multiset.zero_le _
  · clear h
    induction hterms with
    | nil => exact le_rfl
    | cons hst _ ih =>
      rw [factors_cons, factors_cons, hst.1]
      exact Multiset.cons_le_cons _ ih

theorem factors_eraseIdx {position : Nat} (h : e[position]? = some t) :
    e.factors = t.factor ::ₘ factors (e.eraseIdx position) := by
  induction e generalizing position with
  | nil => simp at h
  | cons s e ih =>
    cases position with
    | zero =>
      obtain rfl : s = t := by simpa using h
      rfl
    | succ position =>
      rw [List.eraseIdx_cons_succ, factors_cons, factors_cons, ih (by simpa using h),
        Multiset.cons_swap]

end Shape

variable {α : Type} [Atom α] {S : α → Prop} {t : Term α} {a b c e : PowerProduct α}

theorem factors_place (h : place t e = .ok c) : c.factors ≤ t.factor ::ₘ e.factors := by
  fun_induction place t e generalizing c with
  | case1 => exact Except.ok.inj h ▸ le_rfl
  | case2 s rest _ ih =>
    obtain ⟨d, hd, hc⟩ := bind_eq_ok.mp h
    obtain rfl : s :: d = c := by simpa using hc
    rw [factors_cons, factors_cons, Multiset.cons_swap]
    exact Multiset.cons_le_cons _ (ih hd)
  | case3 s rest _ =>
    obtain ⟨power, -, hc⟩ := bind_eq_ok.mp h
    obtain rfl := Except.ok.inj hc
    refine le_trans ?_ (Multiset.le_cons_self _ _)
    split
    · exact Multiset.le_cons_self _ _
    · exact le_rfl
  | case4 => exact Except.ok.inj h ▸ le_rfl

theorem factors_mulTerm (h : e.mulTerm t = .ok c) : c.factors ≤ t.factor ::ₘ e.factors := by
  rcases mulTerm_eq_ok.mp h with ⟨-, rfl⟩ | ⟨-, hplace, -⟩
  · exact Multiset.le_cons_self _ _
  · exact factors_place hplace

theorem factors_mul (h : a.mul b = .ok c) : c.factors ≤ a.factors + b.factors := by
  induction b generalizing a with
  | nil => exact Except.ok.inj h ▸ Multiset.le_add_right _ _
  | cons t b ih =>
    obtain ⟨d, hd, hrest⟩ := mul_cons_eq_ok.mp h
    calc c.factors ≤ d.factors + factors b := ih hrest
      _ ≤ (t.factor ::ₘ a.factors) + factors b := add_le_add_left (factors_mulTerm hd) _
      _ = a.factors + factors (t :: b) := by
        rw [factors_cons, Multiset.cons_add, Multiset.add_cons]

/-- In a sorted product a term meets the one with its factor. -/
theorem factors_place_of_mem (hS : Atom.OrderedOn S) (he : Over S e) (hsorted : Sorted e)
    (ht : t ∈ e) {p : Ratio} (h : place ⟨t.factor, p⟩ e = .ok c) : c.factors ≤ e.factors ∧
      (t.power.value + p.value = 0 → e.factors = t.factor ::ₘ c.factors) := by
  induction e generalizing c with
  | nil => cases ht
  | cons s rest ih =>
    rw [over_cons] at he
    rw [sorted_cons] at hsorted
    rw [place] at h
    rcases List.mem_cons.mp ht with rfl | ht
    · rw [hS.self he.1] at h
      obtain ⟨power, hpower, hc⟩ := bind_eq_ok.mp h
      obtain rfl := Except.ok.inj hc
      have hvalue : power.value = t.power.value + p.value := Ratio.add_eq_ok.mp hpower
      constructor
      · split
        · exact Multiset.le_cons_self _ _
        · exact le_rfl
      · intro hzero
        rw [if_pos (Ratio.isZero_iff.mpr (hvalue.trans hzero)), factors_cons]
    · rw [hsorted.1 t ht] at h
      obtain ⟨d, hd, hc⟩ := bind_eq_ok.mp h
      obtain rfl := Except.ok.inj hc
      obtain ⟨hle, hcancel⟩ := ih he.2 hsorted.2 ht hd
      refine ⟨Multiset.cons_le_cons _ hle, fun hzero => ?_⟩
      rw [factors_cons, factors_cons, hcancel hzero, Multiset.cons_swap]

theorem factors_mulTerm_of_mem (hS : Atom.OrderedOn S) (he : Over S e) (hcanonical : Canonical e)
    (ht : t ∈ e) {p : Ratio} (h : e.mulTerm ⟨t.factor, p⟩ = .ok c) : c.factors ≤ e.factors ∧
      (t.power.value + p.value = 0 → e.factors = t.factor ::ₘ c.factors) := by
  rcases mulTerm_eq_ok.mp h with ⟨himproper, rfl⟩ | ⟨-, hplace, -⟩
  · refine ⟨le_rfl, fun hzero => absurd ⟨fun hp => ?_, (hcanonical.proper t ht).2⟩ himproper⟩
    have hp : p.value = 0 := hp
    exact (hcanonical.proper t ht).1 (by simpa [hp] using hzero)
  · exact factors_place_of_mem hS he hcanonical.sorted ht hplace

end PowerProduct

end Metrology
