import Metrology.Proofs.Ratio.Exact

/-!
# Differences

A difference is calculated as a sum with the negation. Whatever comes out is the exact difference, but the
negation is taken in 64 bits: the least numerator has none, and a fraction that has it is never
subtracted, even where the difference fits.
-/

namespace Metrology.Fraction

def HasLeastNumerator (f : Fraction) : Prop := f.num = -9223372036854775808

instance (f : Fraction) : Decidable f.HasLeastNumerator := inferInstanceAs (Decidable (_ = _))

variable {a b : Fraction}

/-- A fraction with the least numerator cannot be subtracted, and any other one can wherever the
difference fits. -/
theorem sub_cases (ha : Reachable a) (hb : Reachable b) :
    (¬ b.HasLeastNumerator ∧ Exactly (a.sub b) .overflow (a.value - b.value)) ∨
      b.HasLeastNumerator ∧ a.sub b = .error .overflow := by
  obtain ⟨a, rfl⟩ := ha.exists_ratio
  obtain ⟨b, rfl⟩ := hb.exists_ratio
  by_cases hleast : b.words.HasLeastNumerator
  · exact .inr ⟨hleast, sub_words_of_not_fits fun h => b.fits_neg_iff.mp h hleast⟩
  · refine .inl ⟨hleast, ?_⟩
    rw [sub_words (b.fits_neg_iff.mpr hleast), value_words, value_words]
    exact exactly_exactResult _ _

theorem sub_exact (ha : Reachable a) (hb : Reachable b) {f : Fraction} (h : a.sub b = .ok f) :
    Reachable f ∧ f.value = a.value - b.value := by
  rcases sub_cases ha hb with ⟨-, hexact⟩ | ⟨-, herror⟩
  · rcases hexact with ⟨-, g, hg, hreachable, hvalue⟩ | ⟨-, herror⟩
    · obtain rfl := Except.ok.inj (hg.symm.trans h)
      exact ⟨hreachable, hvalue⟩
    · rw [herror] at h
      cases h
  · rw [herror] at h
    cases h

theorem sub_eq_overflow_iff (ha : Reachable a) (hb : Reachable b) :
    a.sub b = .error .overflow ↔ ¬ RatFits (a.value - b.value) ∨ b.HasLeastNumerator := by
  rcases sub_cases ha hb with ⟨hleast, hexact⟩ | ⟨hleast, herror⟩
  · rcases hexact with ⟨hfits, f, hf, -⟩ | ⟨hfits, herror⟩
    · simp [hf, hfits, hleast]
    · simp [herror, hfits]
  · simp [herror, hleast]

theorem sub_fault (ha : Reachable a) (hb : Reachable b) {fault : Fault} (h : a.sub b = .error fault) :
    fault = .overflow := by
  rcases sub_cases ha hb with ⟨-, hexact⟩ | ⟨-, herror⟩
  · rcases hexact with ⟨-, f, hf, -⟩ | ⟨-, herror⟩
    · rw [hf] at h
      cases h
    · exact (Except.error.inj (herror.symm.trans h)).symm
  · exact (Except.error.inj (herror.symm.trans h)).symm

theorem fits_sub_least_iff {n : Int} (hn : Fits64 n) :
    RatFits ((integer n).value - (integer (-9223372036854775808)).value) ↔ n < 0 := by
  have hvalue (k : Int) : (integer k).value = k := Rat.divInt_one k
  rw [hvalue, hvalue, ← Int.cast_sub]
  unfold RatFits
  rw [Rat.num_intCast, Rat.den_intCast]
  unfold Fits64 at *
  omega

theorem exactly_sub_iff (ha : Reachable a) (hb : Reachable b) :
    Exactly (a.sub b) .overflow (a.value - b.value) ↔
      (b.HasLeastNumerator → ¬ RatFits (a.value - b.value)) := by
  rcases sub_cases ha hb with ⟨hleast, hexact⟩ | ⟨hleast, herror⟩
  · exact iff_of_true hexact fun h => absurd h hleast
  · rw [herror]
    constructor
    · rintro (⟨-, f, hf, -⟩ | ⟨hfits, -⟩) _
      · cases hf
      · exact hfits
    · exact fun h => .inr ⟨h hleast, rfl⟩

structure DifferenceLaws (a b : Fraction) : Prop where
  exact : ∀ f, a.sub b = .ok f → Reachable f ∧ f.value = a.value - b.value
  fails : a.sub b = .error .overflow ↔ ¬ RatFits (a.value - b.value) ∨ b.HasLeastNumerator
  fault : ∀ fault, a.sub b = .error fault → fault = .overflow
  limits : Exactly (a.sub b) .overflow (a.value - b.value) ↔
    (b.HasLeastNumerator → ¬ RatFits (a.value - b.value))
  /-- The differences of whole numbers that fit and are refused. -/
  whole : a.den = 1 → b = integer (-9223372036854775808) →
    (RatFits (a.value - b.value) ↔ a.num < 0)
  agrees : ∀ r s : Ratio, r.words = a → s.words = b → Agrees (a.sub b) (r.sub s)

theorem difference_laws (ha : Reachable a) (hb : Reachable b) : DifferenceLaws a b where
  exact _ h := sub_exact ha hb h
  fails := sub_eq_overflow_iff ha hb
  fault _ h := sub_fault ha hb h
  limits := exactly_sub_iff ha hb
  whole hden hleast := by
    obtain ⟨n, d⟩ := a
    obtain rfl : d = 1 := hden
    subst hleast
    exact fits_sub_least_iff (reachable_iff.mp ha).num
  agrees r s hr hs := by
    rw [← hr, ← hs]
    exact agrees_sub r s

/-- A third less a half is minus a sixth, and a half less the greatest number is refused, since the
difference does not fit. -/
theorem difference_laws_third : ∃ third half sixth : Fraction,
    Fraction.new 1 3 = .ok third ∧ Fraction.new 1 2 = .ok half ∧ third.sub half = .ok sixth ∧
      sixth.value = third.value - half.value ∧
      half.sub (integer 9223372036854775807) = .error .overflow := by
  have hthird : Fraction.new 1 3 = .ok ⟨1, 3⟩ := by decide +kernel
  have hhalf : Fraction.new 1 2 = .ok ⟨1, 2⟩ := by decide +kernel
  have hsixth : Fraction.sub ⟨1, 3⟩ ⟨1, 2⟩ = .ok ⟨-1, 6⟩ := by decide +kernel
  have hthird' : Reachable ⟨1, 3⟩ := .new (by decide) (by decide) hthird
  have hhalf' : Reachable ⟨1, 2⟩ := .new (by decide) (by decide) hhalf
  refine ⟨_, _, _, hthird, hhalf, hsixth, ((difference_laws hthird' hhalf').exact _ hsixth).2, ?_⟩
  exact (difference_laws hhalf' (.integer (by decide))).fails.mpr (.inl (by decide +kernel))

/-- Minus one less the least number is refused, although the greatest number is the exact difference. -/
theorem sub_least_refused :
    (integer (-1)).sub (integer (-9223372036854775808)) = .error .overflow ∧
      (integer (-1)).value - (integer (-9223372036854775808)).value =
        (integer 9223372036854775807).value := by
  decide +kernel

end Metrology.Fraction
