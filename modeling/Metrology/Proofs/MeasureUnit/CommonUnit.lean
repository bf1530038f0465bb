import Metrology.Proofs.Magnitude.Common
import Metrology.Proofs.MeasureUnit.NormalForm

/-!
# The common unit

The common unit of two units has their reference and, at every base, the smaller of the two powers of
their magnitudes. Both units are therefore multiples of it by magnitudes without negative powers.
-/

namespace Metrology

namespace PowerProduct

variable {α : Type} [Atom α] {S : α → Prop} {a b : PowerProduct α}

theorem powerOf_of_same (hS : Atom.OrderedOn S) (ha : Over S a) (hb : Over S b)
    (hcanonicalA : Canonical a) (hcanonicalB : Canonical b) (h : a.same b = true) {f : α}
    (hf : S f) : a.powerOf f = b.powerOf f := by
  by_cases hneutral : Atom.isNeutral f = true
  · rw [powerOf_neutral hS ha hcanonicalA hf hneutral, powerOf_neutral hS hb hcanonicalB hf hneutral]
  · have hweight := indicator_weight hS hf (by simpa using hneutral)
    apply Ratio.ext
    rw [powerOf_eq_weigh hS ha hcanonicalA.sorted hf, powerOf_eq_weigh hS hb hcanonicalB.sorted hf]
    exact weigh_of_same hweight ha hb h

end PowerProduct

namespace MeasureUnit

variable {u : MeasureUnit}

/-! ### The choice of the common unit -/

/-- The ways in which two units can have a common unit. -/
theorem common_cases {a b : MeasureUnit} {x y : CanonicalUnit} (ha : a.canonical = .ok x)
    (hb : b.canonical = .ok y) (h : a.common b = .ok u) :
    PowerProduct.same x.reference y.reference = true ∧
      ((PowerProduct.same x.magnitude y.magnitude = true ∧ (u = a ∨ u = b)) ∨
        PowerProduct.same x.magnitude y.magnitude = false ∧
          ∃ shared, Magnitude.common x.magnitude y.magnitude = .ok shared ∧
            ((PowerProduct.same shared x.magnitude = true ∧ u = a) ∨
              (PowerProduct.same shared x.magnitude = false ∧
                PowerProduct.same shared y.magnitude = true ∧ u = b) ∨
              (PowerProduct.same shared x.magnitude = false ∧
                PowerProduct.same shared y.magnitude = false ∧
                ∃ m, PowerProduct.div shared x.magnitude = .ok m ∧ u = scaled m a))) := by
  unfold common at h
  simp only [ha, hb, bind_eq_ok, Except.ok.injEq, exists_eq_left'] at h
  by_cases href : PowerProduct.same x.reference y.reference = true
  · refine ⟨href, ?_⟩
    rw [if_neg (by simp [href])] at h
    by_cases hequal : PowerProduct.same x.magnitude y.magnitude = true
    · rw [if_pos hequal, pure_eq_ok] at h
      refine .inl ⟨hequal, ?_⟩
      split at h
      · exact .inr h.symm
      · exact .inr h.symm
      · exact .inl h.symm
    · rw [if_neg hequal] at h
      obtain ⟨shared, hshared, h⟩ := bind_eq_ok.mp h
      refine .inr ⟨by simpa using hequal, shared, hshared, ?_⟩
      by_cases hleft : PowerProduct.same shared x.magnitude = true
      · rw [if_pos hleft, pure_eq_ok] at h
        exact .inl ⟨hleft, h.symm⟩
      · rw [if_neg hleft] at h
        by_cases hright : PowerProduct.same shared y.magnitude = true
        · rw [if_pos hright, pure_eq_ok] at h
          exact .inr (.inl ⟨by simpa using hleft, hright, h.symm⟩)
        · rw [if_neg hright] at h
          obtain ⟨m, hm, h⟩ := bind_eq_ok.mp h
          exact .inr (.inr ⟨by simpa using hleft, by simpa using hright, m, hm,
            (pure_eq_ok.mp h).symm⟩)
  · rw [if_pos (by simpa using href)] at h
    cases h

/-- The common unit has the smaller power of the two units at every base. -/
theorem common_spec {a b : MeasureUnit} {x y z : CanonicalUnit} (hx : x.Normal) (hy : y.Normal)
    (ha : a.canonical = .ok x) (hb : b.canonical = .ok y) (h : a.common b = .ok u)
    (hz : u.canonical = .ok z) : z.Normal ∧ (z.reference = x.reference ∨ z.reference = y.reference) ∧
      (∀ S, PowerProduct.Over S x.magnitude → PowerProduct.Over S y.magnitude →
        PowerProduct.Over S z.magnitude) ∧
      ∀ f, (PowerProduct.powerOf z.magnitude f).value =
        min (PowerProduct.powerOf x.magnitude f).value (PowerProduct.powerOf y.magnitude f).value := by
  have hsame {m n : Magnitude} (hm : PowerProduct.Canonical m) (hn : PowerProduct.Canonical n)
      (h : PowerProduct.same m n = true) (f : MagnitudeBase) :
      PowerProduct.powerOf m f = PowerProduct.powerOf n f :=
    PowerProduct.powerOf_of_same MagnitudeBase.orderedOn m.over_all n.over_all hm hn h trivial
  obtain ⟨-, ⟨hequal, hu⟩ | ⟨-, shared, hshared, hu⟩⟩ := common_cases ha hb h
  · have hpowers := hsame hx.magnitude hy.magnitude hequal
    rcases hu with rfl | rfl
    · obtain rfl := Except.ok.inj (ha.symm.trans hz)
      exact ⟨hx, .inl rfl, fun S hover _ => hover, fun f => by rw [hpowers f, min_self]⟩
    · obtain rfl := Except.ok.inj (hb.symm.trans hz)
      exact ⟨hy, .inr rfl, fun S _ hover => hover, fun f => by rw [hpowers f, min_self]⟩
  · have hcanonical := Magnitude.canonical_common hshared
    have hpowers := Magnitude.powerOf_common hx.magnitude hy.magnitude hshared
    rcases hu with ⟨hleft, rfl⟩ | ⟨-, hright, rfl⟩ | ⟨-, -, m, hm, rfl⟩
    · obtain rfl := Except.ok.inj (ha.symm.trans hz)
      refine ⟨hx, .inl rfl, fun S hover _ => hover, fun f => ?_⟩
      rw [← hpowers f, hsame hcanonical hx.magnitude hleft f]
    · obtain rfl := Except.ok.inj (hb.symm.trans hz)
      refine ⟨hy, .inr rfl, fun S _ hover => hover, fun f => ?_⟩
      rw [← hpowers f, hsame hcanonical hy.magnitude hright f]
    · rw [canonical_scaled_eq m hx ha] at hz
      have hcanonicalM : PowerProduct.Canonical m :=
        PowerProduct.canonical_div MagnitudeBase.orderedOn shared.over_all (Magnitude.over_all _)
          hcanonical hm
      have hnormal := hx.scale hcanonicalM hz
      obtain ⟨n, hn, rfl⟩ := CanonicalUnit.scale_eq_ok.mp hz
      refine ⟨hnormal, .inl rfl, fun S hoverX hoverY => ?_, fun f => ?_⟩
      · exact PowerProduct.over_mul
          (PowerProduct.over_div (Magnitude.over_common hoverX hoverY hshared) hoverX hm) hoverX hn
      · rw [PowerProduct.powerOf_mul MagnitudeBase.orderedOn (Magnitude.over_all m) (Magnitude.over_all _)
            hcanonicalM hx.magnitude hn trivial,
          PowerProduct.powerOf_div MagnitudeBase.orderedOn shared.over_all (Magnitude.over_all _)
            hcanonical hx.magnitude hm trivial, hpowers f]
        ring

end MeasureUnit

end Metrology
