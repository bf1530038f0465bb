import Metrology.Proofs.MeasureUnit.GreatestCommonUnit
import Metrology.Quantity

/-!
# Quantities of one reference

The common unit of a unit and itself is that unit, and a number is converted into its own unit unchanged.
So quantities of one reference are subtracted and compared by their numbers alone, in every
representation.
-/

namespace Metrology

theorem MeasureUnit.Built.common_self {u c : MeasureUnit} (hu : u.Built) (h : u.common u = .ok c) :
    c = u := by
  obtain ⟨x, hx, -⟩ := bind_eq_ok.mp h
  have hnormal := hu.sound.normal hx
  obtain ⟨-, ⟨-, rfl | rfl⟩ | ⟨hdiffers, -⟩⟩ := MeasureUnit.common_cases hx hx h
  · rfl
  · rfl
  · rw [(CanonicalUnit.same_magnitude_iff hnormal hnormal).mpr fun _ => rfl] at hdiffers
    cases hdiffers

theorem rescale_self {ρ : Type} [Representation ρ] {u : MeasureUnit} (hu : u.Built) {v w : ρ}
    (h : rescale u u v = .ok w) : w = v := by
  obtain ⟨f, hf, h⟩ := bind_eq_ok.mp h
  obtain rfl := hu.factor_self hf
  exact (pure_eq_ok.mp h).symm

theorem Reference.unit_common {r s c : Reference} (h : r.common s = .ok c) :
    r.unit.common s.unit = .ok c.unit := by
  unfold Reference.common at h
  obtain ⟨spec, -, h⟩ := bind_eq_ok.mp h
  cases spec with
  | none => cases h
  | some spec =>
    obtain ⟨u, hu, h⟩ := bind_eq_ok.mp h
    obtain rfl := pure_eq_ok.mp h
    exact hu

namespace Quantity

section Comparison

variable {ρ : Type} [Representation ρ] {r : Reference} {x y : ρ}

theorem commonValues_self (hr : r.unit.Built) {X Y : ρ}
    (h : commonValues ⟨x, r⟩ ⟨y, r⟩ r.unit = .ok (X, Y)) : X = x ∧ Y = y := by
  obtain ⟨X', hX, h⟩ := bind_eq_ok.mp h
  obtain ⟨Y', hY, h⟩ := bind_eq_ok.mp h
  obtain ⟨rfl, rfl⟩ := Prod.mk.inj (pure_eq_ok.mp h)
  exact ⟨rescale_self hr hX, rescale_self hr hY⟩

/-- What is done with the numbers in the common unit is done with the numbers as they are. -/
theorem numbers_of_ok {β : Type} {next : Reference → ρ × ρ → Except Fault β} {b : β}
    (hr : r.unit.Built) :
    (do
      let reference ← r.common r
      reference.checkNumber ρ
      let numbers ← commonValues ⟨x, r⟩ ⟨y, r⟩ reference.unit
      next reference numbers) = .ok b →
    ∃ c, c.unit = r.unit ∧ next c (x, y) = .ok b := by
  intro h
  simp only [bind_eq_ok] at h
  obtain ⟨c, hc, _, -, ⟨X, Y⟩, hvalues, hnext⟩ := h
  have hunit : c.unit = r.unit := hr.common_self (Reference.unit_common hc)
  rw [hunit] at hvalues
  obtain ⟨rfl, rfl⟩ := commonValues_self hr hvalues
  exact ⟨c, hunit, hnext⟩

theorem equal_of_ok (hr : r.unit.Built) {answer : Bool} (h : equal ⟨x, r⟩ ⟨y, r⟩ = .ok answer) :
    answer = Representation.equal x y := by
  obtain ⟨_, -, hanswer⟩ := numbers_of_ok hr h
  exact (pure_eq_ok.mp hanswer).symm

end Comparison

section Arithmetic

variable {ρ : Type} [Scalar ρ] {r : Reference} {x y : ρ}

theorem order_of_ok (hr : r.unit.Built) {answer : Option Ordering}
    (h : order ⟨x, r⟩ ⟨y, r⟩ = .ok answer) : answer = Scalar.order x y := by
  obtain ⟨_, -, hanswer⟩ := numbers_of_ok hr h
  exact (pure_eq_ok.mp hanswer).symm

theorem sub_of_ok (hr : r.unit.Built) {d : Quantity ρ} (h : sub ⟨x, r⟩ ⟨y, r⟩ = .ok d) :
    d.unit = r.unit ∧ Scalar.sub x y = .ok d.value := by
  obtain ⟨c, hunit, hresult⟩ := numbers_of_ok hr h
  obtain ⟨w, hw, hd⟩ := bind_eq_ok.mp hresult
  obtain rfl := pure_eq_ok.mp hd
  exact ⟨hunit, hw⟩

end Arithmetic

end Quantity

end Metrology
