import Metrology.Proofs.Magnitude.Number
import Metrology.Proofs.MeasureUnit.CommonUnit
import Metrology.Proofs.MeasureUnit.Exact
import Metrology.Proofs.MeasureUnit.Groupoid
import Metrology.Proofs.PowerProduct.Limit

/-!
# The greatest common unit

A unit is known by the powers of its canonical magnitude, and one unit is a whole multiple of another if
the powers of the first are at least those of the second and differ by whole powers of primes. In this
order the common unit, with the smaller of the two powers at every base, is the greatest lower bound. Only
a limit of the exact arithmetic can keep it, or a factor to it, from having a result.
-/

namespace Metrology

namespace Magnitude

open PowerProduct

variable {m f : Magnitude} {b : MagnitudeBase} {q : Rat}

/-- The powers that a rational magnitude can have: whole ones of primes, and none of constants. -/
def IsExponent (b : MagnitudeBase) (q : Rat) : Prop := (q.num : Rat) = q ∧ (b.isPrime = false → q = 0)

theorem IsExponent.max_zero (h : IsExponent b q) : IsExponent b (max 0 q) := by
  rcases le_total 0 q with hq | hq
  · rwa [max_eq_right hq]
  · rw [max_eq_left hq]
    exact ⟨rfl, fun _ => rfl⟩

theorem IsExponent.neg (h : IsExponent b q) : IsExponent b (-q) := by
  refine ⟨?_, fun hb => ?_⟩
  · rw [Rat.neg_num, Int.cast_neg, h.1]
  · rw [h.2 hb, neg_zero]

theorem isIntegral_iff_exponents (hm : Canonical m) : m.isIntegral = true ↔
    ∀ b, IsExponent b (m.powerOf b).value ∧ 0 ≤ (m.powerOf b).value := by
  constructor
  · intro h b
    obtain ⟨hrational, hpowers⟩ := isIntegral_iff.mp h
    refine ⟨(isRational_iff_powerOf hm).mp hrational b, ?_⟩
    rcases powerOf_cases m b with hzero | ⟨t, ht, -, hpower⟩
    · rw [hzero, Ratio.value_zero]
    · rw [hpower]
      exact hpowers t ht
  · intro h
    exact isIntegral_of_powerOf hm ((isRational_iff_powerOf hm).mpr fun b => (h b).1) fun b => (h b).2

theorem common_answers (a b : Magnitude) : Answers (common a b) fun _ => True := by
  unfold common
  refine (Answers.foldlM (fun e t _ => mulTerm_answers e _) one).bind fun shared _ _ => ?_
  refine Answers.foldlM (fun e t _ => ?_) shared
  split
  · exact mulTerm_answers e _
  · exact .of_ok rfl trivial

end Magnitude

namespace CanonicalUnit

open PowerProduct (powerOf)

variable {x y z w : CanonicalUnit} {f : Magnitude}

section Reference

variable (hx : x.Normal) (hy : y.Normal)

include hx hy

theorem reference_symm (h : PowerProduct.same x.reference y.reference = true) :
    PowerProduct.same y.reference x.reference = true := by
  rw [same_reference_iff hx hy] at h
  exact (same_reference_iff hy hx).mpr fun w hw => (h w hw).symm

theorem reference_trans (hz : z.Normal) (hxy : PowerProduct.same x.reference y.reference = true)
    (hyz : PowerProduct.same y.reference z.reference = true) :
    PowerProduct.same x.reference z.reference = true := by
  rw [same_reference_iff hx hy] at hxy
  rw [same_reference_iff hy hz] at hyz
  exact (same_reference_iff hx hz).mpr fun w hw => (hxy w hw).trans (hyz w hw)

theorem same_magnitude_iff : PowerProduct.same x.magnitude y.magnitude = true ↔
    ∀ b, (powerOf x.magnitude b).value = (powerOf y.magnitude b).value := by
  constructor
  · intro h b
    rw [PowerProduct.powerOf_of_same MagnitudeBase.orderedOn x.magnitude.over_all y.magnitude.over_all
      hx.magnitude hy.magnitude h trivial]
  · intro h
    exact PowerProduct.same_of_powerOf MagnitudeBase.orderedOn x.magnitude.over_all
      y.magnitude.over_all hx.magnitude hy.magnitude fun b _ => Ratio.ext (h b)

/-- The powers of a quotient of magnitudes are the differences of their powers. -/
theorem powerOf_factor (h : PowerProduct.div x.magnitude y.magnitude = .ok f) (b : MagnitudeBase) :
    (f.powerOf b).value = (powerOf x.magnitude b).value - (powerOf y.magnitude b).value :=
  PowerProduct.powerOf_div MagnitudeBase.orderedOn x.magnitude.over_all y.magnitude.over_all hx.magnitude
    hy.magnitude h trivial

end Reference

theorem reference_refl (hx : x.Normal) : PowerProduct.same x.reference x.reference = true :=
  (same_reference_iff hx hx).mpr fun _ _ => rfl

/-- `z` has the reference of `x` and `y` and the smaller of their powers everywhere. -/
structure Meet (x y z : CanonicalUnit) : Prop where
  normal : z.Normal
  left : PowerProduct.same z.reference x.reference = true
  right : PowerProduct.same z.reference y.reference = true
  powers (b : MagnitudeBase) : (powerOf z.magnitude b).value =
    min (powerOf x.magnitude b).value (powerOf y.magnitude b).value

/-- No power of `x` is above that of `y`. -/
def AtMost (x y : CanonicalUnit) : Prop :=
  ∀ b, (powerOf x.magnitude b).value ≤ (powerOf y.magnitude b).value

/-- `x` is a multiple of `y` by a whole number. -/
def Multiple (x y : CanonicalUnit) : Prop :=
  ∀ b, Magnitude.IsExponent b ((powerOf x.magnitude b).value - (powerOf y.magnitude b).value) ∧
    (powerOf y.magnitude b).value ≤ (powerOf x.magnitude b).value

theorem Multiple.atMost (h : x.Multiple y) : y.AtMost x := fun b => (h b).2

theorem isIntegral_factor_iff (hx : x.Normal) (hy : y.Normal)
    (h : PowerProduct.div x.magnitude y.magnitude = .ok f) : f.isIntegral = true ↔ x.Multiple y := by
  rw [Magnitude.isIntegral_iff_exponents (factor_spec hx h).1]
  refine forall_congr' fun b => ?_
  rw [powerOf_factor hx hy h, sub_nonneg]

namespace Meet

theorem symm (h : Meet x y z) : Meet y x z where
  normal := h.normal
  left := h.right
  right := h.left
  powers b := by rw [h.powers, min_comm]

/-- Units whose quotient is rational are multiples of what is below both. -/
theorem multiple (h : Meet x y z) (hrational : ∀ b, Magnitude.IsExponent b
    ((powerOf x.magnitude b).value - (powerOf y.magnitude b).value)) : x.Multiple z := by
  intro b
  rw [h.powers, ← max_sub_sub_left, sub_self]
  exact ⟨(hrational b).max_zero, min_le_left _ _⟩

/-- Whatever both units are multiples of, what is below both is a multiple of. -/
theorem greatest (h : Meet x y z) (hxw : x.Multiple w) (hyw : y.Multiple w) : z.Multiple w := by
  intro b
  rw [h.powers]
  rcases le_total (powerOf x.magnitude b).value (powerOf y.magnitude b).value with hle | hle
  · rw [min_eq_left hle]
    exact hxw b
  · rw [min_eq_right hle]
    exact hyw b

end Meet

end CanonicalUnit

namespace MeasureUnit

open CanonicalUnit (Meet)

variable {a b c u v : MeasureUnit} {x y z : CanonicalUnit} {P Q : CanonicalUnit → Prop}

theorem factor_of_canonical {f : Magnitude} (ha : a.canonical = .ok x) (hb : b.canonical = .ok y)
    (h : a.conversionFactor b = .ok f) : PowerProduct.same x.reference y.reference = true ∧
      PowerProduct.div x.magnitude y.magnitude = .ok f := by
  obtain ⟨x', y', hx, hy, href, hf⟩ := conversionFactor_eq_ok.mp h
  obtain rfl := Except.ok.inj (ha.symm.trans hx)
  obtain rfl := Except.ok.inj (hb.symm.trans hy)
  exact ⟨href, hf⟩

theorem conversionFactor_answers {R : Magnitude → Prop} (ha : Answers a.canonical P)
    (hb : Answers b.canonical Q)
    (href : ∀ x y, P x → Q y → PowerProduct.same x.reference y.reference = true)
    (hfactor : ∀ x y f, P x → Q y → PowerProduct.div x.magnitude y.magnitude = .ok f → R f) :
    Answers (a.conversionFactor b) R := by
  unfold conversionFactor
  refine ha.bind fun x _ hx => hb.bind fun y _ hy => ?_
  rw [if_pos (href x y hx hy)]
  exact (PowerProduct.div_answers _ _).mono fun f hf _ => hfactor x y f hx hy hf

theorem equivalent_answers (ha : Answers a.canonical P) (hb : Answers b.canonical Q)
    (h : ∀ x y, P x → Q y → PowerProduct.same x.reference y.reference = true ∧
      PowerProduct.same x.magnitude y.magnitude = true) : Answers (a.equivalent b) (· = true) := by
  unfold equivalent
  refine ha.bind fun x _ hx => hb.bind fun y _ hy => .of_ok rfl ?_
  rw [(h x y hx hy).1, (h x y hx hy).2]
  rfl

/-- `x` and `y` are the canonical forms of units with one reference. -/
structure Comparable (a b : MeasureUnit) (x y : CanonicalUnit) : Prop where
  left : a.canonical = .ok x
  right : b.canonical = .ok y
  normalLeft : x.Normal
  normalRight : y.Normal
  reference : PowerProduct.same x.reference y.reference = true

theorem exists_comparable (ha : a.Built) (hb : b.Built) (hab : a.convertible b = .ok true) :
    ∃ x y, Comparable a b x y := by
  obtain ⟨x, y, hx, hy, hxy⟩ := convertible_eq_ok.mp hab
  exact ⟨x, y, hx, hy, ha.sound.normal hx, hb.sound.normal hy, hxy⟩

namespace Comparable

variable (hab : Comparable a b x y)

include hab

theorem symm : Comparable b a y x where
  left := hab.right
  right := hab.left
  normalLeft := hab.normalRight
  normalRight := hab.normalLeft
  reference := CanonicalUnit.reference_symm hab.normalLeft hab.normalRight hab.reference

theorem isIntegral_iff {f : Magnitude} (hf : a.conversionFactor b = .ok f) :
    f.isIntegral = true ↔ x.Multiple y :=
  CanonicalUnit.isIntegral_factor_iff hab.normalLeft hab.normalRight
    (factor_of_canonical hab.left hab.right hf).2

/-- The canonical form of the common unit, if it has one, is what is below both units. -/
theorem canonical_common (h : a.common b = .ok u) : Answers u.canonical (Meet x y) := by
  obtain ⟨ha, hb, hx, hy, hxy⟩ := hab
  have hcanonical : Answers u.canonical fun _ => True := by
    obtain ⟨-, ⟨-, rfl | rfl⟩ | ⟨-, shared, -, ⟨-, rfl⟩ | ⟨-, -, rfl⟩ | ⟨-, -, m, -, rfl⟩⟩⟩ :=
      common_cases ha hb h
    · exact .of_ok ha trivial
    · exact .of_ok hb trivial
    · exact .of_ok ha trivial
    · exact .of_ok hb trivial
    · rw [canonical_scaled_eq m hx ha]
      exact (PowerProduct.mul_answers _ _).bind fun _ _ _ => .of_ok rfl trivial
  refine hcanonical.mono fun z hz _ => ?_
  obtain ⟨hnormal, href, -, hpowers⟩ := common_spec hx hy ha hb h hz
  have hyx := CanonicalUnit.reference_symm hx hy hxy
  rcases href with href | href
  · exact ⟨hnormal, by rw [href]; exact CanonicalUnit.reference_refl hx, by rwa [href], hpowers⟩
  · exact ⟨hnormal, by rwa [href], by rw [href]; exact CanonicalUnit.reference_refl hy, hpowers⟩

/-- If one unit is nowhere above the other, the common unit is one of the two. -/
theorem common_operand (h : a.common b = .ok u) (hle : y.AtMost x ∨ x.AtMost y) : u = a ∨ u = b := by
  obtain ⟨ha, hb, hx, hy, -⟩ := hab
  obtain ⟨-, ⟨-, hu⟩ | ⟨-, shared, hshared, ⟨-, rfl⟩ | ⟨-, -, rfl⟩ | ⟨hleft, hright, -⟩⟩⟩ :=
    common_cases ha hb h
  · exact hu
  · exact .inl rfl
  · exact .inr rfl
  · have hcanonical := Magnitude.canonical_common hshared
    have hsame {n : Magnitude} (hn : PowerProduct.Canonical n)
        (hpowers : ∀ f, (shared.powerOf f).value = (n.powerOf f).value) :
        PowerProduct.same shared n = true :=
      PowerProduct.same_of_powerOf MagnitudeBase.orderedOn shared.over_all n.over_all hcanonical hn
        fun f _ => Ratio.ext (hpowers f)
    have hpowers := Magnitude.powerOf_common hx.magnitude hy.magnitude hshared
    rcases hle with hle | hle
    · rw [hsame hy.magnitude fun f => by rw [hpowers, min_eq_right (hle f)]] at hright
      cases hright
    · rw [hsame hx.magnitude fun f => by rw [hpowers, min_eq_left (hle f)]] at hleft
      cases hleft

/-- The common unit is then equivalent to the smaller of the two. -/
theorem common_smaller {s : CanonicalUnit} (h : a.common b = .ok u) (hc : c.canonical = .ok s)
    (hs : s = y ∧ y.AtMost x ∨ s = x ∧ x.AtMost y) :
    (u = a ∨ u = b) ∧ u.equivalent c = .ok true := by
  have hu := hab.common_operand h (hs.imp And.right And.right)
  obtain ⟨z, hz⟩ : ∃ z, u.canonical = .ok z := by
    rcases hu with rfl | rfl
    · exact ⟨x, hab.left⟩
    · exact ⟨y, hab.right⟩
  have hmeet := (hab.canonical_common h).result hz
  have hequal : PowerProduct.same z.reference s.reference = true ∧
      PowerProduct.same z.magnitude s.magnitude = true := by
    rcases hs with ⟨rfl, hle⟩ | ⟨rfl, hle⟩
    · refine ⟨hmeet.right,
        (CanonicalUnit.same_magnitude_iff hmeet.normal hab.normalRight).mpr fun f => ?_⟩
      rw [hmeet.powers, min_eq_right (hle f)]
    · refine ⟨hmeet.left,
        (CanonicalUnit.same_magnitude_iff hmeet.normal hab.normalLeft).mpr fun f => ?_⟩
      rw [hmeet.powers, min_eq_left (hle f)]
  refine ⟨hu, ?_⟩
  unfold equivalent
  rw [hz, hc]
  simp only [bind, Except.bind, hequal.1, hequal.2]
  rfl

end Comparable

/-- Units with one reference have a common unit. -/
theorem common_answers (ha : Answers a.canonical P) (hb : Answers b.canonical Q)
    (h : ∀ x y, P x → Q y →
      x.Normal ∧ y.Normal ∧ PowerProduct.same x.reference y.reference = true) :
    Answers (a.common b) fun u => ∃ x y, P x ∧ Q y ∧ Answers u.canonical (Meet x y) := by
  have hrun : Answers (a.common b) fun _ => ∃ x y, a.canonical = .ok x ∧ b.canonical = .ok y := by
    unfold common
    refine ha.bind fun x hax hx => hb.bind fun y hby hy => ?_
    have hresult (u : MeasureUnit) : Answers (pure u : Except Fault MeasureUnit)
        fun _ => ∃ x y, a.canonical = .ok x ∧ b.canonical = .ok y := .of_ok rfl ⟨x, y, hax, hby⟩
    rw [if_neg (by simp [(h x y hx hy).2.2])]
    split
    · exact hresult _
    refine (Magnitude.common_answers x.magnitude y.magnitude).bind fun shared _ _ => ?_
    split
    · exact hresult _
    split
    · exact hresult _
    · exact (PowerProduct.div_answers _ _).bind fun _ _ _ => hresult _
  refine hrun.mono fun u hu ⟨x, y, hx, hy⟩ => ?_
  have hP := ha.result hx
  have hQ := hb.result hy
  obtain ⟨hnormalX, hnormalY, hxy⟩ := h x y hP hQ
  exact ⟨x, y, hP, hQ, Comparable.canonical_common ⟨hx, hy, hnormalX, hnormalY, hxy⟩ hu⟩

/-! ### The laws -/

/-- The common unit of two units is the greatest unit that both are multiples of. -/
structure CommonUnitLaws (a b : MeasureUnit) : Prop where
  meet {x y : CanonicalUnit} : a.canonical = .ok x → b.canonical = .ok y →
    Answers (do (← a.common b).canonical) (Meet x y)
  multiples {f : Magnitude} : a.conversionFactor b = .ok f → f.isRational = true →
    Answers (do a.conversionFactor (← a.common b)) (·.isIntegral = true) ∧
      Answers (do b.conversionFactor (← a.common b)) (·.isIntegral = true)
  greatest {d : MeasureUnit} {f g : Magnitude} : d.Built → a.conversionFactor d = .ok f →
    b.conversionFactor d = .ok g → f.isIntegral = true → g.isIntegral = true →
    Answers (do (← a.common b).conversionFactor d) (·.isIntegral = true)
  /-- A multiple and what it is a multiple of have the latter in common, up to how it is written. -/
  of_multiple {f : Magnitude} : a.conversionFactor b = .ok f → f.isIntegral = true →
    Answers (a.common b) fun c => (c = a ∨ c = b) ∧ c.equivalent b = .ok true
  of_divisor {f : Magnitude} : b.conversionFactor a = .ok f → f.isIntegral = true →
    Answers (a.common b) fun c => (c = a ∨ c = b) ∧ c.equivalent a = .ok true
  comm : Answers (do (← a.common b).equivalent (← b.common a)) (· = true)
  assoc {c : MeasureUnit} : c.Built → b.convertible c = .ok true →
    Answers (do
      let left ← (← a.common b).common c
      let right ← a.common (← b.common c)
      left.equivalent right) (· = true)

namespace Comparable

section Pair

variable (hab : Comparable a b x y)

include hab

theorem common_meet : Answers (a.common b) fun u => Answers u.canonical (Meet x y) := by
  refine (common_answers (.of_ok hab.left rfl) (.of_ok hab.right rfl) ?_).mono ?_
  · rintro _ _ rfl rfl
    exact ⟨hab.normalLeft, hab.normalRight, hab.reference⟩
  · rintro u - ⟨_, _, rfl, rfl, hu⟩
    exact hu

theorem factor_to_common {w : CanonicalUnit} (hc : c.canonical = .ok w) (hw : w.Normal)
    (hmeet : ∀ z, Meet x y z → PowerProduct.same z.reference w.reference = true ∧ w.Multiple z) :
    Answers (do c.conversionFactor (← a.common b)) (·.isIntegral = true) := by
  refine hab.common_meet.bind fun u _ hu =>
    conversionFactor_answers (.of_ok hc (P := (w = ·)) rfl) hu ?_ ?_
  · rintro _ z rfl hz
    exact CanonicalUnit.reference_symm hz.normal hw (hmeet z hz).1
  · rintro _ z g rfl hz hg
    exact (CanonicalUnit.isIntegral_factor_iff hw hz.normal hg).mpr (hmeet z hz).2

theorem factors_to_common {f : Magnitude} (hf : a.conversionFactor b = .ok f)
    (hrational : f.isRational = true) :
    Answers (do a.conversionFactor (← a.common b)) (·.isIntegral = true) ∧
      Answers (do b.conversionFactor (← a.common b)) (·.isIntegral = true) := by
  have hquotient := (factor_of_canonical hab.left hab.right hf).2
  have hexponents (e : MagnitudeBase) : Magnitude.IsExponent e
      ((PowerProduct.powerOf x.magnitude e).value - (PowerProduct.powerOf y.magnitude e).value) := by
    rw [← CanonicalUnit.powerOf_factor hab.normalLeft hab.normalRight hquotient]
    exact (Magnitude.isRational_iff_powerOf
      (CanonicalUnit.factor_spec hab.normalLeft hquotient).1).mp hrational e
  constructor
  · exact hab.factor_to_common hab.left hab.normalLeft fun z hz => ⟨hz.left, hz.multiple hexponents⟩
  · refine hab.factor_to_common hab.right hab.normalRight fun z hz =>
      ⟨hz.right, hz.symm.multiple fun e => ?_⟩
    rw [← neg_sub]
    exact (hexponents e).neg

theorem factor_from_common {d : MeasureUnit} {f g : Magnitude} (hd : d.Built)
    (hf : a.conversionFactor d = .ok f) (hg : b.conversionFactor d = .ok g)
    (hintegralF : f.isIntegral = true) (hintegralG : g.isIntegral = true) :
    Answers (do (← a.common b).conversionFactor d) (·.isIntegral = true) := by
  obtain ⟨ha, hb, hx, hy, hxy⟩ := id hab
  obtain ⟨-, w, -, hw, -⟩ := conversionFactor_eq_ok.mp hf
  have hnormal := hd.sound.normal hw
  have hxw := (factor_of_canonical ha hw hf).1
  have hyw := (factor_of_canonical hb hw hg).1
  have hmultipleX := (Comparable.isIntegral_iff ⟨ha, hw, hx, hnormal, hxw⟩ hf).mp hintegralF
  have hmultipleY := (Comparable.isIntegral_iff ⟨hb, hw, hy, hnormal, hyw⟩ hg).mp hintegralG
  refine hab.common_meet.bind fun u _ hu =>
    conversionFactor_answers hu (.of_ok hw (P := (w = ·)) rfl) ?_ ?_
  · rintro z _ hz rfl
    exact CanonicalUnit.reference_trans hz.normal hx hnormal hz.left hxw
  · rintro z _ e hz rfl he
    exact (CanonicalUnit.isIntegral_factor_iff hz.normal hnormal he).mpr
      (hz.greatest hmultipleX hmultipleY)

theorem common_comm : Answers (do (← a.common b).equivalent (← b.common a)) (· = true) := by
  refine hab.common_meet.bind fun u _ hu => hab.symm.common_meet.bind fun v _ hv =>
    equivalent_answers hu hv fun z w hz hw => ?_
  have hsymm := hw.symm
  refine ⟨CanonicalUnit.reference_trans hz.normal hab.normalLeft hw.normal hz.left
    (CanonicalUnit.reference_symm hw.normal hab.normalLeft hsymm.left), ?_⟩
  rw [CanonicalUnit.same_magnitude_iff hz.normal hw.normal]
  intro f
  rw [hz.powers, hsymm.powers]

end Pair

theorem common_assoc {w : CanonicalUnit} (hab : Comparable a b x y) (hbc : Comparable b c y w) :
    Answers (do
      let left ← (← a.common b).common c
      let right ← a.common (← b.common c)
      left.equivalent right) (· = true) := by
  obtain ⟨ha, -, hx, hy, hxy⟩ := id hab
  obtain ⟨-, hc, -, hw, hyw⟩ := id hbc
  refine hab.common_meet.bind fun ab _ hmeet => ?_
  have hleftRun := common_answers hmeet (.of_ok hc (P := (w = ·)) rfl) fun p q hp hq =>
    ⟨hp.normal, hq ▸ hw, hq ▸ CanonicalUnit.reference_trans hp.normal hy hw hp.right hyw⟩
  refine hleftRun.bind fun left _ ⟨p, _, hp, rfl, hleft⟩ => ?_
  refine hbc.common_meet.bind fun bc _ hmeet' => ?_
  have hrightRun := common_answers (.of_ok ha (P := (x = ·)) rfl) hmeet' fun p q hp hq =>
    ⟨hp ▸ hx, hq.normal, hp ▸ CanonicalUnit.reference_trans hx hy hq.normal hxy
      (CanonicalUnit.reference_symm hq.normal hy hq.left)⟩
  refine hrightRun.bind fun right _ ⟨_, q, rfl, hq, hright⟩ => ?_
  refine equivalent_answers hleft hright fun l r hl hr => ⟨?_, ?_⟩
  · have hlx := CanonicalUnit.reference_trans hl.normal hp.normal hx hl.left hp.left
    exact CanonicalUnit.reference_trans hl.normal hx hr.normal hlx
      (CanonicalUnit.reference_symm hr.normal hx hr.left)
  · rw [CanonicalUnit.same_magnitude_iff hl.normal hr.normal]
    intro f
    rw [hl.powers, hp.powers, hr.powers, hq.powers, min_assoc]

end Comparable

/-- The common unit is the greatest common unit, wherever no limit is reached. -/
theorem common_unit_laws (ha : a.Built) (hb : b.Built) (hab : a.convertible b = .ok true) :
    a.CommonUnitLaws b := by
  obtain ⟨x, y, h⟩ := exists_comparable ha hb hab
  constructor
  case meet =>
    intro x' y' hx hy
    obtain rfl := Except.ok.inj (h.left.symm.trans hx)
    obtain rfl := Except.ok.inj (h.right.symm.trans hy)
    exact h.common_meet.bind fun _ _ hu => hu
  case multiples => exact h.factors_to_common
  case greatest => exact h.factor_from_common
  case of_multiple =>
    intro f hf hintegral
    have hmultiple := (h.isIntegral_iff hf).mp hintegral
    exact h.common_meet.mono fun u hu _ =>
      h.common_smaller hu h.right (.inl ⟨rfl, hmultiple.atMost⟩)
  case of_divisor =>
    intro f hf hintegral
    have hmultiple := (h.symm.isIntegral_iff hf).mp hintegral
    exact h.common_meet.mono fun u hu _ =>
      h.common_smaller hu h.left (.inr ⟨rfl, hmultiple.atMost⟩)
  case comm => exact h.common_comm
  case assoc =>
    intro c hc hbc
    obtain ⟨y', w, h'⟩ := exists_comparable hb hc hbc
    obtain rfl := Except.ok.inj (h.right.symm.trans h'.left)
    exact h.common_assoc h'

open Catalog in
/-- A foot and a metre are 381 and 1250 of what they have in common. -/
theorem common_unit_laws_foot : ∃ foot c f g, International.foot = .ok foot ∧
    foot.CommonUnitLaws Si.metre ∧ foot.common Si.metre = .ok c ∧ foot.conversionFactor c = .ok f ∧
    Si.metre.conversionFactor c = .ok g ∧ f.number = 381 ∧ g.number = 1250 := by
  obtain ⟨_, hresults⟩ := exists_eq_ok (show (do
    let foot ← International.foot
    let convertible ← foot.convertible Si.metre
    let c ← foot.common Si.metre
    let f ← foot.conversionFactor c
    let g ← Si.metre.conversionFactor c
    if convertible = true ∧ f.number = 381 ∧ g.number = 1250 then .ok ()
    else .error .overflow).isOk = true by decide +kernel)
  simp only [bind_eq_ok, guard_eq_ok] at hresults
  obtain ⟨foot, hfoot, _, hconvertible, c, hc, f, hf, g, hg, rfl, hfootNumber, hmetreNumber⟩ := hresults
  exact ⟨foot, c, f, g, hfoot, common_unit_laws (foot_exact hfoot).built metre_exact.built hconvertible,
    hc, hf, hg, hfootNumber, hmetreNumber⟩

end MeasureUnit

end Metrology
