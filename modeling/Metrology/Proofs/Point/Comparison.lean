import Metrology.Point
import Metrology.Proofs.Quantity.Rescale
import Metrology.Proofs.Quantity.SameReference
import Metrology.Proofs.Representation.Truncation

/-!
# Points of one origin

Points are subtracted and compared through their distances from the root of the scale, and a whole number
keeps only the truncated distance. Where the offset of the origin is not whole, truncation moves points
below the root up and points above it down. So the distance of two points on different sides of the root is
one too small, and the two neighbours of the root become one point; all other distances and comparisons
are those of the numbers.
-/

namespace Metrology

/-! ### Truncated sums with one offset -/

/-- With the offset `r`, the number `x` lies below the root and `y` above it, neither at a whole distance. -/
def Straddles (r : Rat) (x y : Int) : Prop := Int.fract r ≠ 0 ∧ x + r < 0 ∧ 0 < y + r

/-- Neighbouring numbers on either side of the root. -/
def Meets (r : Rat) (x y : Int) : Prop :=
  y = x + 1 ∧ Straddles r x y ∨ x = y + 1 ∧ Straddles r y x

section Offset

variable (r : Rat) (x y : Int)

theorem straddles_iff : Straddles r x y ↔ Int.fract r ≠ 0 ∧ x + ⌊r⌋ < 0 ∧ 0 ≤ y + ⌊r⌋ := by
  unfold Straddles
  refine and_congr_right fun hfract => and_congr ?_ ?_
  · have hsum : ⌊(x + r : Rat)⌋ = x + ⌊r⌋ := Int.floor_intCast_add x r
    rw [← hsum, Int.floor_lt, Int.cast_zero]
  · have hsum : (y + r : Rat) = (y + ⌊r⌋ : Int) + Int.fract r := by
      rw [Int.cast_add, add_assoc, Int.floor_add_fract]
    have hpos : 0 < Int.fract r := lt_of_le_of_ne (Int.fract_nonneg r) (Ne.symm hfract)
    have hone := Int.fract_lt_one r
    rw [hsum]
    constructor
    · intro h
      have hneg : (-1 : Rat) < (y + ⌊r⌋ : Int) := by linarith
      have : -1 < y + ⌊r⌋ := by exact_mod_cast hneg
      omega
    · intro h
      have hnonneg : (0 : Rat) ≤ (y + ⌊r⌋ : Int) := by exact_mod_cast h
      linarith

theorem truncate_add_offset : truncate (x + r) =
    if x + ⌊r⌋ < 0 ∧ Int.fract r ≠ 0 then x + ⌊r⌋ + 1 else x + ⌊r⌋ := by
  rw [← truncate_add_fraction _ (Int.fract_nonneg r) (Int.fract_lt_one r), Int.cast_add, add_assoc,
    Int.floor_add_fract]

theorem truncate_sub_exact (h : ¬ Straddles r x y) (h' : ¬ Straddles r y x) :
    truncate (x + r) - truncate (y + r) = x - y := by
  rw [straddles_iff] at h h'
  rw [truncate_add_offset, truncate_add_offset]
  by_cases hfract : Int.fract r = 0
  · simp only [hfract, ne_eq, not_true_eq_false, and_false, if_false]
    omega
  · simp only [hfract, ne_eq, not_false_eq_true, and_true, true_and] at h h' ⊢
    split <;> split <;> omega

theorem truncate_sub_straddles (h : Straddles r x y) :
    truncate (x + r) - truncate (y + r) = x - y + 1 := by
  obtain ⟨hfract, hx, hy⟩ := (straddles_iff r x y).mp h
  rw [truncate_add_offset, truncate_add_offset, if_pos ⟨hx, hfract⟩,
    if_neg fun h => absurd h.1 (not_lt.mpr hy)]
  omega

theorem Straddles.lt {r : Rat} {x y : Int} (h : Straddles r x y) : x < y := by
  have := (straddles_iff r x y).mp h
  omega

theorem truncate_sub_straddled (h : Straddles r y x) :
    truncate (x + r) - truncate (y + r) = x - y - 1 := by
  have := truncate_sub_straddles r y x h
  omega

theorem truncate_eq_iff : truncate (x + r) = truncate (y + r) ↔ x = y ∨ Meets r x y := by
  by_cases hxy : Straddles r x y
  · have hsub := truncate_sub_straddles r x y hxy
    have hlt := hxy.lt
    simp only [Meets, hxy, and_true]
    omega
  · by_cases hyx : Straddles r y x
    · have hsub := truncate_sub_straddled r x y hyx
      have hlt := hyx.lt
      simp only [Meets, hxy, hyx, and_true, and_false, false_or]
      omega
    · have hsub := truncate_sub_exact r x y hxy hyx
      simp only [Meets, hxy, hyx, and_false, or_false]
      omega

/-- Truncated sums are in the order of the numbers, unless they meet. -/
theorem compare_truncate (h : ¬ Meets r x y) :
    compare (truncate (x + r)) (truncate (y + r)) = compare x y := by
  have hne : truncate (x + r) = truncate (y + r) ↔ x = y := by
    rw [truncate_eq_iff, or_iff_left h]
  have hmono {m n : Int} (hmn : m < n) : truncate (m + r) ≤ truncate (n + r) := by
    by_cases hstraddles : Straddles r m n
    · have := truncate_sub_straddles r m n hstraddles
      omega
    · have := truncate_sub_exact r m n hstraddles fun h => absurd h.lt (not_lt.mpr hmn.le)
      omega
  rcases lt_trichotomy x y with hlt | rfl | hgt
  · rw [compare_lt_iff_lt.mpr hlt, compare_lt_iff_lt]
    exact lt_of_le_of_ne (hmono hlt) fun heq => hlt.ne (hne.mp heq)
  · simp
  · rw [compare_gt_iff_gt.mpr hgt, compare_gt_iff_gt]
    exact lt_of_le_of_ne (hmono hgt) fun heq => hgt.ne' (hne.mp heq.symm)

end Offset

theorem Reference.unit_ofUnit {u : MeasureUnit} {r : Reference} (h : Reference.ofUnit u = .ok r) :
    r.unit = u := by
  obtain ⟨spec, -, h⟩ := bind_eq_ok.mp h
  cases spec with
  | none => cases h
  | some spec => exact pure_eq_ok.mp h ▸ rfl

/-! ### Distances from the root -/

variable {t : IntegerType}

theorem Quantity.shift_eq_ok {q q' : Quantity (FixedInt t)} {r : Ratio} :
    q.mapValue (Scalar.addRatio · r) = .ok q' ↔
      q'.reference = q.reference ∧ q'.value.value = truncate (q.value.value + r.value) := by
  show (q.value.addRatio r >>= fun w => pure ⟨w, q.reference⟩) = .ok q' ↔ _
  simp only [bind_eq_ok, pure_eq_ok, FixedInt.addRatio_eq, FixedInt.narrow_eq_ok]
  constructor
  · rintro ⟨w, hw, rfl⟩
    exact ⟨rfl, hw⟩
  · rintro ⟨hreference, hvalue⟩
    exact ⟨q'.value, hvalue, by rw [← hreference]⟩

namespace Point

theorem quantityFromZero_eq_ok {p : Point (FixedInt t)} {q : Quantity (FixedInt t)} :
    p.quantityFromZero = .ok q ↔ ∃ r, p.origin.offsetIn p.quantity.unit = .ok r ∧
      q.reference = p.quantity.reference ∧
      q.value.value = truncate (p.quantity.value.value + r.value) := by
  show (p.origin.offsetIn p.quantity.unit >>= fun r => p.quantity.mapValue (Scalar.addRatio · r)) = _ ↔ _
  simp only [bind_eq_ok, Quantity.shift_eq_ok]

/-- What is done with two points is done with their distances from the root. -/
theorem distances_of_ok {ρ β : Type} [Scalar ρ] {p q : Point ρ}
    {next : Quantity ρ → Quantity ρ → Except Fault β} {b : β} :
    (do
      checkScale p.origin q.origin
      next (← p.quantityFromZero) (← q.quantityFromZero)) = .ok b →
    ∃ x y, p.quantityFromZero = .ok x ∧ q.quantityFromZero = .ok y ∧ next x y = .ok b := by
  intro h
  simp only [bind_eq_ok] at h
  obtain ⟨_, -, x, hx, y, hy, hnext⟩ := h
  exact ⟨x, y, hx, hy, hnext⟩

/-- Two points of one reference whose distances from the root, if they have any, are known. -/
structure AtDistances (p q : Point (FixedInt t)) (r : Reference) (x y : Int) : Prop where
  left : ∀ X, p.quantityFromZero = .ok X → X.reference = r ∧ X.value.value = x
  right : ∀ Y, q.quantityFromZero = .ok Y → Y.reference = r ∧ Y.value.value = y

namespace AtDistances

variable {p q : Point (FixedInt t)} {r : Reference} {x y : Int} (h : AtDistances p q r x y)

include h

theorem symm : AtDistances q p r y x := ⟨h.right, h.left⟩

variable (hr : r.unit.Built)

include hr

theorem equal {answer : Bool} (hanswer : p.equal q = .ok answer) : answer = true ↔ x = y := by
  obtain ⟨⟨X, _⟩, ⟨Y, _⟩, hX, hY, hnext⟩ := distances_of_ok hanswer
  obtain ⟨rfl, hx⟩ := h.left _ hX
  obtain ⟨rfl, hy⟩ := h.right _ hY
  have hvalues : answer = (X.value == Y.value) := Quantity.equal_of_ok hr hnext
  rw [hvalues, beq_iff_eq, ← hx, ← hy]

theorem order {answer : Option Ordering} (hanswer : p.order q = .ok answer) :
    answer = some (compare x y) := by
  obtain ⟨⟨X, _⟩, ⟨Y, _⟩, hX, hY, hnext⟩ := distances_of_ok hanswer
  obtain ⟨rfl, hx⟩ := h.left _ hX
  obtain ⟨rfl, hy⟩ := h.right _ hY
  have hvalues : answer = some (compare X.value Y.value) := Quantity.order_of_ok hr hnext
  rw [hvalues, ← hx, ← hy]

theorem distance {d : Quantity (FixedInt t)} (hd : p.distance q = .ok d) :
    d.unit = r.unit ∧ d.value.value = x - y := by
  obtain ⟨⟨X, _⟩, ⟨Y, _⟩, hX, hY, hnext⟩ := distances_of_ok hd
  obtain ⟨rfl, hx⟩ := h.left _ hX
  obtain ⟨rfl, hy⟩ := h.right _ hY
  obtain ⟨hunit, hvalue⟩ := Quantity.sub_of_ok hr hnext
  refine ⟨hunit, ?_⟩
  rw [FixedInt.checked_eq_ok.mp hvalue, ← hx, ← hy]

end AtDistances

/-! ### The laws of one origin -/

/-- What comparing and subtracting two points with the numbers `x` and `y` means, if they are measured from
one origin at the offset `r` from the root. -/
structure OneOriginLaws (p q : Point (FixedInt t)) (r : Rat) (x y : Int) : Prop where
  equal : ∀ answer, p.equal q = .ok answer → (answer = true ↔ x = y ∨ Meets r x y)
  order : ∀ answer, p.order q = .ok answer →
    (¬ Meets r x y → answer = some (compare x y)) ∧ (Meets r x y → answer = some .eq)
  distance : ∀ d, p.distance q = .ok d → d.unit = p.quantity.unit ∧
    (¬ Straddles r x y → ¬ Straddles r y x → d.value.value = x - y) ∧
    (Straddles r x y → d.value.value = x - y + 1) ∧ (Straddles r y x → d.value.value = x - y - 1)

theorem AtDistances.oneOriginLaws {p q : Point (FixedInt t)} {reference : Reference} {r : Rat}
    {x y : Int} (h : AtDistances p q reference (truncate (x + r)) (truncate (y + r)))
    (hr : reference.unit.Built) (hp : p.quantity.unit = reference.unit) : OneOriginLaws p q r x y := by
  constructor
  case equal =>
    intro answer hanswer
    rw [h.equal hr hanswer, truncate_eq_iff]
  case order =>
    intro answer hanswer
    rw [h.order hr hanswer, Option.some.injEq, Option.some.injEq]
    exact ⟨compare_truncate r x y, fun hmeets =>
      compare_eq_iff_eq.mpr ((truncate_eq_iff r x y).mpr (.inr hmeets))⟩
  case distance =>
    intro d hd
    obtain ⟨hunit, hvalue⟩ := h.distance hr hd
    rw [hvalue]
    exact ⟨hunit.trans hp.symm, truncate_sub_exact r x y, truncate_sub_straddles r x y,
      truncate_sub_straddled r x y⟩

/-- Points of one reference and one origin are ordered by their numbers, and their distance is the
difference of the numbers, except across a root at a fractional distance. -/
theorem one_origin_laws {u : MeasureUnit} (hu : u.Built) {o : PointOrigin} {r : Ratio}
    (hr : o.offsetIn u = .ok r) (spec : QuantitySpec) (x y : FixedInt t) :
    OneOriginLaws ⟨⟨x, ⟨spec, u⟩⟩, o⟩ ⟨⟨y, ⟨spec, u⟩⟩, o⟩ r.value x.value y.value := by
  have hdistance {v : FixedInt t} {X : Quantity (FixedInt t)}
      (hX : (⟨⟨v, ⟨spec, u⟩⟩, o⟩ : Point (FixedInt t)).quantityFromZero = .ok X) :
      X.reference = ⟨spec, u⟩ ∧ X.value.value = truncate (v.value + r.value) := by
    obtain ⟨s, hs, hX⟩ := quantityFromZero_eq_ok.mp hX
    obtain rfl := Except.ok.inj (hr.symm.trans hs)
    exact hX
  have h : AtDistances (t := t) ⟨⟨x, ⟨spec, u⟩⟩, o⟩ ⟨⟨y, ⟨spec, u⟩⟩, o⟩ ⟨spec, u⟩
      (truncate (x.value + r.value)) (truncate (y.value + r.value)) :=
    ⟨fun _ => hdistance, fun _ => hdistance⟩
  exact h.oneOriginLaws hu rfl

/-! ### Degrees Celsius -/

open Catalog

theorem celsius_built {u : MeasureUnit} (h : Si.degreeCelsius = .ok u) : u.Built := by
  have hkelvin : Si.kelvin.Built := ((MeasureUnit.Built.named _ _).associated _).withOrigin _
  obtain ⟨unit, hunit, h⟩ := bind_eq_ok.mp h
  obtain ⟨ice, -, h⟩ := bind_eq_ok.mp h
  obtain rfl := pure_eq_ok.mp h
  exact .withOrigin _ (.definedAs (.named _ _) PowerProduct.canonical_one hkelvin hunit)

/-- A 64-bit number of units above an origin. -/
def above (origin : PointOrigin) (reference : Reference) (n : Int) : Point (FixedInt .int64) :=
  ⟨⟨.wrap n, reference⟩, origin⟩

/-- The ice point lies 273.15 kelvins above absolute zero, and 20 degrees are below 25 degrees by 5. -/
theorem one_origin_laws_celsius : ∃ celsius ice reference r, Si.degreeCelsius = .ok celsius ∧
    Si.icePoint = .ok ice ∧ Reference.ofUnit celsius = .ok reference ∧ ice.offsetIn celsius = .ok r ∧
    r.value = 5463 / 20 ∧
    (∀ x y : FixedInt .int64,
      OneOriginLaws ⟨⟨x, reference⟩, ice⟩ ⟨⟨y, reference⟩, ice⟩ r.value x.value y.value) ∧
    (above ice reference 20).equal (above ice reference 25) = .ok false ∧
    (above ice reference 20).order (above ice reference 25) = .ok (some .lt) ∧
    ∃ d, (above ice reference 20).distance (above ice reference 25) = .ok d ∧ d.value.value = -5 := by
  obtain ⟨_, hresults⟩ := exists_eq_ok (show (do
    let celsius ← Si.degreeCelsius
    let ice ← Si.icePoint
    let reference ← Reference.ofUnit celsius
    let r ← ice.offsetIn celsius
    let isEqual ← (above ice reference 20).equal (above ice reference 25)
    let ordering ← (above ice reference 20).order (above ice reference 25)
    let d ← (above ice reference 20).distance (above ice reference 25)
    if r.value = 5463 / 20 ∧ isEqual = false ∧ ordering = some Ordering.lt ∧ d.value.value = -5 then .ok ()
    else .error .overflow).isOk = true by decide +kernel)
  simp only [bind_eq_ok, guard_eq_ok] at hresults
  obtain ⟨celsius, hcelsius, ice, hice, reference, hreference, r, hr, _, hequal, _, horder, d, hd, hvalue,
    rfl, rfl, hdistance⟩ := hresults
  refine ⟨celsius, ice, reference, r, hcelsius, hice, hreference, hr, hvalue, fun x y => ?_, hequal,
    horder, d, hd, hdistance⟩
  obtain rfl : reference.unit = celsius := Reference.unit_ofUnit hreference
  exact one_origin_laws (celsius_built hcelsius) hr reference.spec x y

/-- Two different points of one origin can be equal: absolute zero lies 273.15 degrees below the ice
point, and both of its neighbours are at the distance zero from it. -/
theorem celsius_points_meet : ∃ celsius ice reference, Si.degreeCelsius = .ok celsius ∧
    Si.icePoint = .ok ice ∧ Reference.ofUnit celsius = .ok reference ∧
    (above ice reference (-274)).quantity.value.value = -274 ∧
    (above ice reference (-273)).quantity.value.value = -273 ∧
    (above ice reference (-274)).equal (above ice reference (-273)) = .ok true ∧
    (above ice reference (-274)).order (above ice reference (-273)) = .ok (some .eq) ∧
    ∃ d, (above ice reference (-274)).distance (above ice reference (-273)) = .ok d ∧
      d.value.value = 0 := by
  obtain ⟨_, hresults⟩ := exists_eq_ok (show (do
    let celsius ← Si.degreeCelsius
    let ice ← Si.icePoint
    let reference ← Reference.ofUnit celsius
    let isEqual ← (above ice reference (-274)).equal (above ice reference (-273))
    let ordering ← (above ice reference (-274)).order (above ice reference (-273))
    let d ← (above ice reference (-274)).distance (above ice reference (-273))
    if isEqual = true ∧ ordering = some Ordering.eq ∧ d.value.value = 0 then .ok ()
    else .error .overflow).isOk = true by decide +kernel)
  simp only [bind_eq_ok, guard_eq_ok] at hresults
  obtain ⟨celsius, hcelsius, ice, hice, reference, hreference, _, hequal, _, horder, d, hd, rfl, rfl,
    hdistance⟩ := hresults
  exact ⟨celsius, ice, reference, hcelsius, hice, hreference, rfl, rfl, hequal, horder, d, hd, hdistance⟩

end Point

end Metrology
