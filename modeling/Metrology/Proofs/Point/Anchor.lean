import Metrology.Proofs.Point.Comparison

/-!
# Measuring a point from another origin

The offsets of the two origins are subtracted before the number is touched. If the difference is whole, no
truncation takes place, even where both offsets are fractional: the number changes by exactly that
difference. So the way to another origin and back leads to the same point, a detour over a third origin
makes no difference, and the point keeps its distance from the root.
-/

namespace Metrology

namespace Point

variable {t : IntegerType}

structure Stands (p : Point (FixedInt t)) (origin : PointOrigin) (reference : Reference) (v : Int) :
    Prop where
  origin_eq : p.origin = origin
  reference_eq : p.quantity.reference = reference
  value_eq : p.quantity.value.value = v

namespace Stands

variable {p p' : Point (FixedInt t)} {o o' : PointOrigin} {reference : Reference} {v n : Int}
  {r s : Ratio}

theorem unique (h : p.Stands o reference v) (h' : p'.Stands o reference v) : p = p' := by
  obtain ⟨⟨value, _⟩, _⟩ := p
  obtain ⟨⟨value', _⟩, _⟩ := p'
  obtain ⟨rfl, rfl, hvalue⟩ := h
  obtain ⟨rfl, rfl, hvalue'⟩ := h'
  obtain rfl : value = value' := FixedInt.ext (hvalue.trans hvalue'.symm)
  rfl

theorem offset (h : p.Stands o reference v) (hr : o.offsetIn reference.unit = .ok r) :
    p.origin.offsetIn p.quantity.unit = .ok r := by
  rw [h.origin_eq, Quantity.unit, h.reference_eq]
  exact hr

section Whole

variable (h : p.Stands o reference v) (hr : o.offsetIn reference.unit = .ok r)
  (hs : o'.offsetIn reference.unit = .ok s) (hn : r.value - s.value = n)

include h hr hs hn

/-- A whole difference of the offsets is added without truncation. -/
theorem quantityFrom {q : Quantity (FixedInt t)} (hq : p.quantityFrom o' = .ok q) :
    q.reference = reference ∧ q.value.value = v + n := by
  have hs' : o'.offsetIn p.quantity.unit = .ok s := by
    rw [Quantity.unit, h.reference_eq]
    exact hs
  simp only [Point.quantityFrom, h.offset hr, hs', bind_eq_ok, Except.ok.injEq, exists_eq_left',
    Quantity.shift_eq_ok] at hq
  obtain ⟨_, -, d, hd, hreference, hvalue⟩ := hq
  obtain ⟨m, hm, hd⟩ := bind_eq_ok.mp hd
  rw [Ratio.neg_eq_ok] at hm
  rw [Ratio.add_eq_ok, hm, ← sub_eq_add_neg, hn] at hd
  refine ⟨hreference.trans h.reference_eq, ?_⟩
  rw [hvalue, hd, h.value_eq, ← Int.cast_add, truncate_intCast]

theorem anchoredAt (hp : p.anchoredAt o' = .ok p') : p'.Stands o' reference (v + n) := by
  obtain ⟨q, hq, hp⟩ := bind_eq_ok.mp hp
  obtain rfl := pure_eq_ok.mp hp
  obtain ⟨hreference, hvalue⟩ := h.quantityFrom hr hs hn hq
  exact ⟨rfl, hreference, hvalue⟩

end Whole

theorem quantityFromZero (h : p.Stands o reference v) (hr : o.offsetIn reference.unit = .ok r)
    {q : Quantity (FixedInt t)} (hq : p.quantityFromZero = .ok q) :
    q.reference = reference ∧ q.value.value = truncate (v + r.value) := by
  obtain ⟨r', hr', hreference, hvalue⟩ := quantityFromZero_eq_ok.mp hq
  obtain rfl := Except.ok.inj ((h.offset hr).symm.trans hr')
  rw [hvalue, h.value_eq]
  exact ⟨hreference.trans h.reference_eq, rfl⟩

/-- The new number and the new offset add up to the old distance from the root, so the point compares
with the points of its old origin as before. -/
theorem atDistances {q : Point (FixedInt t)} {y : Int} (hp : p.Stands o' reference (v + n))
    (hq : q.Stands o reference y) (hr : o.offsetIn reference.unit = .ok r)
    (hs : o'.offsetIn reference.unit = .ok s) (hn : r.value - s.value = n) :
    AtDistances p q reference (truncate (v + r.value)) (truncate (y + r.value)) := by
  refine ⟨fun X hX => ?_, fun _ hY => hq.quantityFromZero hr hY⟩
  obtain ⟨hreference, hvalue⟩ := hp.quantityFromZero hs hX
  have hsum : ((v + n : Int) : Rat) + s.value = v + r.value := by
    rw [Int.cast_add, ← hn]
    ring
  exact ⟨hreference, by rw [hvalue, hsum]⟩

end Stands

/-- What measuring a point from other origins means, if the offset of its own origin is `r` and that of the
next one is `s`. -/
structure AnchorLaws (p : Point (FixedInt t)) (next last : PointOrigin) (r s : Rat) : Prop where
  quantityFrom : ∀ q, p.quantityFrom next = .ok q →
    q.reference = p.quantity.reference ∧ (q.value.value : Rat) = p.quantity.value.value + r - s
  back : ∀ p₁ p₂, p.anchoredAt next = .ok p₁ → p₁.anchoredAt p.origin = .ok p₂ → p₂ = p
  detour : ∀ p₁ p₂ p₃, p.anchoredAt next = .ok p₁ → p₁.anchoredAt last = .ok p₂ →
    p.anchoredAt last = .ok p₃ → p₂ = p₃
  /-- The point compares with the points of its own origin by the number that it has there. -/
  compared : ∀ p₁ y, p.anchoredAt next = .ok p₁ →
    OneOriginLaws p₁ ⟨⟨y, p.quantity.reference⟩, p.origin⟩ r p.quantity.value.value y.value ∧
      OneOriginLaws ⟨⟨y, p.quantity.reference⟩, p.origin⟩ p₁ r y.value p.quantity.value.value
  equal : ∀ p₁ answer, p.anchoredAt next = .ok p₁ → p₁.equal p = .ok answer → answer = true
  distance : ∀ p₁ d, p.anchoredAt next = .ok p₁ → p.distance p₁ = .ok d →
    d.unit = p.quantity.unit ∧ d.value.value = 0

theorem anchor_laws {u : MeasureUnit} (hu : u.Built) {o₁ o₂ o₃ : PointOrigin} {r₁ r₂ r₃ : Ratio}
    (h₁ : o₁.offsetIn u = .ok r₁) (h₂ : o₂.offsetIn u = .ok r₂) (h₃ : o₃.offsetIn u = .ok r₃) {m n : Int}
    (hm : r₁.value - r₂.value = m) (hn : r₂.value - r₃.value = n) (spec : QuantitySpec)
    (v : FixedInt t) : AnchorLaws ⟨⟨v, ⟨spec, u⟩⟩, o₁⟩ o₂ o₃ r₁.value r₂.value := by
  have h : Stands (t := t) ⟨⟨v, ⟨spec, u⟩⟩, o₁⟩ o₁ ⟨spec, u⟩ v.value := ⟨rfl, rfl, rfl⟩
  have hcompared (p₁ : Point (FixedInt t)) (y : FixedInt t)
      (hp₁ : (⟨⟨v, ⟨spec, u⟩⟩, o₁⟩ : Point (FixedInt t)).anchoredAt o₂ = .ok p₁) :
      OneOriginLaws p₁ ⟨⟨y, ⟨spec, u⟩⟩, o₁⟩ r₁.value v.value y.value ∧
        OneOriginLaws ⟨⟨y, ⟨spec, u⟩⟩, o₁⟩ p₁ r₁.value y.value v.value := by
    have hanchored := h.anchoredAt h₁ h₂ hm hp₁
    have hdistances := hanchored.atDistances (q := ⟨⟨y, ⟨spec, u⟩⟩, o₁⟩) ⟨rfl, rfl, rfl⟩ h₁ h₂ hm
    have hunit : p₁.quantity.unit = u := by rw [Quantity.unit, hanchored.reference_eq]
    exact ⟨hdistances.oneOriginLaws hu hunit, hdistances.symm.oneOriginLaws hu rfl⟩
  constructor
  case quantityFrom =>
    intro q hq
    obtain ⟨hreference, hvalue⟩ := h.quantityFrom h₁ h₂ hm hq
    refine ⟨hreference, ?_⟩
    rw [hvalue, Int.cast_add, ← hm]
    ring
  case back =>
    intro p₁ p₂ hp₁ hp₂
    have hback : r₂.value - r₁.value = (-m : Int) := by
      rw [Int.cast_neg, ← hm, neg_sub]
    have hreturned := (h.anchoredAt h₁ h₂ hm hp₁).anchoredAt h₂ h₁ hback hp₂
    rw [add_neg_cancel_right] at hreturned
    exact hreturned.unique h
  case detour =>
    intro p₁ p₂ p₃ hp₁ hp₂ hp₃
    have hsum : r₁.value - r₃.value = (m + n : Int) := by
      rw [Int.cast_add, ← hm, ← hn, sub_add_sub_cancel]
    have hdetour := (h.anchoredAt h₁ h₂ hm hp₁).anchoredAt h₂ h₃ hn hp₂
    rw [add_assoc] at hdetour
    exact hdetour.unique (h.anchoredAt h₁ h₃ hsum hp₃)
  case compared => exact hcompared
  case equal =>
    intro p₁ answer hp₁ hanswer
    exact ((hcompared p₁ v hp₁).1.equal answer hanswer).mpr (.inl rfl)
  case distance =>
    intro p₁ d hp₁ hd
    obtain ⟨hunit, hexact, -⟩ := (hcompared p₁ v hp₁).2.distance d hd
    have hself : ¬ Straddles r₁.value v.value v.value := fun h => lt_irrefl _ h.lt
    exact ⟨hunit, (hexact hself hself).trans (sub_self _)⟩

/-! ### Origins on the temperature scale -/

open Catalog

def kelvinsAbove (name : String) (n d : Int) : Except Fault PointOrigin := do
  return .relative name Si.absoluteZero (← Ratio.new n d) Si.kelvin

/-- Water freezes at 273.15 and boils at 373.15 kelvins. The offsets are fractional and their difference is
whole, so 20 kelvins above the one are 80 below the other. -/
theorem anchor_laws_water : ∃ reference ice boiling room r₁ r₂ p₁ q,
    Reference.ofUnit Si.kelvin = .ok reference ∧ Si.icePoint = .ok ice ∧
    kelvinsAbove "boiling" 37315 100 = .ok boiling ∧ kelvinsAbove "room" 29315 100 = .ok room ∧
    ice.offsetIn Si.kelvin = .ok r₁ ∧ r₁.value = 5463 / 20 ∧
    boiling.offsetIn Si.kelvin = .ok r₂ ∧ r₂.value = 7463 / 20 ∧
    (∀ v : FixedInt .int64, AnchorLaws ⟨⟨v, reference⟩, ice⟩ boiling room r₁.value r₂.value) ∧
    (above ice reference 20).anchoredAt boiling = .ok p₁ ∧ p₁.quantity.value.value = -80 ∧
    p₁.equal (above ice reference 20) = .ok true ∧ p₁.quantityFrom ice = .ok q ∧ q.value.value = 20 := by
  obtain ⟨_, hresults⟩ := exists_eq_ok (show (do
    let reference ← Reference.ofUnit Si.kelvin
    let ice ← Si.icePoint
    let boiling ← kelvinsAbove "boiling" 37315 100
    let room ← kelvinsAbove "room" 29315 100
    let r₁ ← ice.offsetIn Si.kelvin
    let r₂ ← boiling.offsetIn Si.kelvin
    let r₃ ← room.offsetIn Si.kelvin
    let p₁ ← (above ice reference 20).anchoredAt boiling
    let isEqual ← p₁.equal (above ice reference 20)
    let q ← p₁.quantityFrom ice
    if r₁.value = 5463 / 20 ∧ r₂.value = 7463 / 20 ∧ r₃.value = 5863 / 20 ∧
      p₁.quantity.value.value = -80 ∧ isEqual = true ∧ q.value.value = 20 then .ok ()
    else .error .overflow).isOk = true by decide +kernel)
  simp only [bind_eq_ok, guard_eq_ok] at hresults
  obtain ⟨reference, hreference, ice, hice, boiling, hboiling, room, hroom, r₁, h₁, r₂, h₂, r₃, h₃, p₁, hp₁,
    _, hequal, q, hq, hvalue₁, hvalue₂, hvalue₃, hvalue, rfl, hback⟩ := hresults
  refine ⟨reference, ice, boiling, room, r₁, r₂, p₁, q, hreference, hice, hboiling, hroom, h₁, hvalue₁, h₂,
    hvalue₂, fun v => ?_, hp₁, hvalue, hequal, hq, hback⟩
  have hkelvin : Si.kelvin.Built := ((MeasureUnit.Built.named _ _).associated _).withOrigin _
  have hm : r₁.value - r₂.value = (-100 : Int) := by
    rw [hvalue₁, hvalue₂]
    norm_num
  have hn : r₂.value - r₃.value = (80 : Int) := by
    rw [hvalue₂, hvalue₃]
    norm_num
  obtain ⟨spec, unit⟩ := reference
  obtain rfl : unit = Si.kelvin := Reference.unit_ofUnit hreference
  exact anchor_laws hkelvin h₁ h₂ h₃ hm hn spec v

end Point

end Metrology
