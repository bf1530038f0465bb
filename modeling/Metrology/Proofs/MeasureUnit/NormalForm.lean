import Metrology.Proofs.MeasureUnit.Conversion

/-!
# The canonical form as a homomorphism

A product of units works on recipes, in which prefixed and defined units stay closed, while the canonical
form opens every definition. The two levels agree: the canonical form of a product, a quotient or a power
is the product, quotient or power of the canonical forms, part by part. The parts are in normal form as
well: a reference consists of units without definition, and the unit of such a product is its own
canonical form. On both levels only a limit keeps an operation from a result.
-/

namespace Metrology

namespace CanonicalUnit

variable {c d : CanonicalUnit} {m : Magnitude}

/-- Equality of canonical units, part by part. -/
structure Same (c d : CanonicalUnit) : Prop where
  magnitude : PowerProduct.same c.magnitude d.magnitude = true
  reference : PowerProduct.same c.reference d.reference = true

theorem Normal.same_of_weigh (hc : c.Normal) (hd : d.Normal) (h : ∀ w, c.weigh w = d.weigh w) :
    c.Same d where
  magnitude := by
    apply Magnitude.same_of_weigh hc.magnitude hd.magnitude
    intro w hw
    rw [← weigh_ofMagnitude hw, ← weigh_ofMagnitude hw, h]
  reference := same_reference hc hd h

theorem Normal.scale_one (hc : c.Normal) : c.scale [] = .ok c := by
  apply scale_eq_ok.mpr
  exact ⟨c.magnitude, PowerProduct.one_mul_canonical hc.magnitude, rfl⟩

/-! ### Operations part by part -/

variable {x y z : CanonicalUnit} {r : FactorProduct} {p : Ratio}

theorem normal_mul (hx : x.Normal) (hy : y.Normal)
    (hm : PowerProduct.mul x.magnitude y.magnitude = .ok m)
    (hr : PowerProduct.mul x.reference y.reference = .ok r) : Normal ⟨m, r⟩ where
  magnitude := Magnitude.canonical_mul hx.magnitude hm
  reference := PowerProduct.canonical_mul Factor.base_orderedOn hx.base hy.base hx.reference hr
  base := PowerProduct.over_mul hx.base hy.base hr

theorem normal_div (hx : x.Normal) (hy : y.Normal)
    (hm : PowerProduct.div x.magnitude y.magnitude = .ok m)
    (hr : PowerProduct.div x.reference y.reference = .ok r) : Normal ⟨m, r⟩ where
  magnitude := (factor_spec hx hm).1
  reference := PowerProduct.canonical_div Factor.base_orderedOn hx.base hy.base hx.reference hr
  base := PowerProduct.over_div hx.base hy.base hr

theorem normal_pow (hx : x.Normal) (hm : PowerProduct.pow x.magnitude p = .ok m)
    (hr : PowerProduct.pow x.reference p = .ok r) : Normal ⟨m, r⟩ where
  magnitude := PowerProduct.canonical_pow hx.magnitude hm
  reference := PowerProduct.canonical_pow hx.reference hr
  base := PowerProduct.over_pow hx.base hr

theorem Combines.same_mul (hx : x.Normal) (hy : y.Normal) (hz : z.Normal)
    (hcombines : Combines 1 1 x y z) (hm : PowerProduct.mul x.magnitude y.magnitude = .ok m)
    (hr : PowerProduct.mul x.reference y.reference = .ok r) : z.Same ⟨m, r⟩ := by
  apply hz.same_of_weigh (normal_mul hx hy hm hr)
  intro w
  have hmagnitude := PowerProduct.weigh_mul w.onMagnitude (Magnitude.over_all _) (Magnitude.over_all _) hm
  have hreference := PowerProduct.weigh_mul w.onReference hx.base hy.base hr
  rw [hcombines w, weigh, weigh, weigh, hmagnitude, hreference]
  ring

theorem Combines.same_div (hx : x.Normal) (hy : y.Normal) (hz : z.Normal)
    (hcombines : Combines 1 (-1) x y z) (hm : PowerProduct.div x.magnitude y.magnitude = .ok m)
    (hr : PowerProduct.div x.reference y.reference = .ok r) : z.Same ⟨m, r⟩ := by
  apply hz.same_of_weigh (normal_div hx hy hm hr)
  intro w
  have hmagnitude := PowerProduct.weigh_div w.onMagnitude (Magnitude.over_all _) (Magnitude.over_all _) hm
  have hreference := PowerProduct.weigh_div w.onReference hx.base hy.base hr
  rw [hcombines w, weigh, weigh, weigh, hmagnitude, hreference]
  ring

theorem Combines.same_pow (hx : x.Normal) (hz : z.Normal) (hcombines : Combines p.value 0 x y z)
    (hm : PowerProduct.pow x.magnitude p = .ok m) (hr : PowerProduct.pow x.reference p = .ok r) :
    z.Same ⟨m, r⟩ := by
  apply hz.same_of_weigh (normal_pow hx hm hr)
  intro w
  rw [hcombines w, weigh, weigh, weigh, PowerProduct.weigh_pow hm, PowerProduct.weigh_pow hr]
  ring

end CanonicalUnit

/-! ### Units of references -/

/-- Factors of a product of units without definition are put behind each other. -/
theorem canonicalTerms_base {start recipe : FactorProduct}
    (hcanonical : PowerProduct.Canonical (start ++ recipe))
    (hbase : PowerProduct.Over Factor.IsBase recipe) :
    canonicalTerms ⟨[], start⟩ recipe = .ok ⟨[], start ++ recipe⟩ := by
  induction recipe generalizing start with
  | nil =>
    rw [List.append_nil]
    rfl
  | cons t rest ih =>
    have hsplit : start ++ t :: rest = (start ++ [t]) ++ rest := by simp
    rw [hsplit] at hcanonical ⊢
    rw [PowerProduct.over_cons] at hbase
    have hproper : t.power.value ≠ 0 := (hcanonical.proper t (by simp)).1
    have hmul : PowerProduct.mul start [t] = .ok (start ++ [t]) :=
      PowerProduct.mul_append (hcanonical.sublist (List.sublist_append_left _ _))
    cases t with
    | mk factor power =>
      obtain ⟨name, symbol, spec, origin, rfl⟩ := hbase.1
      have hstep : CanonicalUnit.mulPow ⟨[], start⟩
          ⟨[], [⟨.unit (.mk (.base name symbol) spec origin), .one⟩]⟩ power =
            .ok ⟨[], start ++ [⟨.unit (.mk (.base name symbol) spec origin), power⟩]⟩ := by
        refine CanonicalUnit.mulPow_eq_ok.mpr ⟨[], _, [], _, ?_, rfl, ?_, hmul, rfl⟩
        · exact PowerProduct.pow_eq_ok.mpr (.inr ⟨hproper, .nil⟩)
        · exact PowerProduct.pow_eq_ok.mpr (.inr ⟨hproper, .cons ⟨rfl, by simp⟩ .nil⟩)
      have hrest := ih hcanonical hbase.2
      show (CanonicalUnit.mulPow _ _ _ >>= fun next => canonicalTerms next rest) = _
      rw [hstep]
      exact hrest

namespace MeasureUnit

/-- The unit of a product of units without definition is that product, and this takes no arithmetic that
could fail. -/
theorem canonical_ofProduct {r : FactorProduct} (hcanonical : PowerProduct.Canonical r)
    (hbase : PowerProduct.Over Factor.IsBase r) : (ofProduct r).canonical = .ok ⟨[], r⟩ := by
  unfold ofProduct
  split
  · rename_i hone
    obtain rfl := PowerProduct.isOne_iff.mp hone
    rfl
  · split
    · rename_i u hsingle
      obtain rfl := PowerProduct.single?_eq_some.mp hsingle
      obtain ⟨name, symbol, spec, origin, hu⟩ := (PowerProduct.over_cons.mp hbase).1
      obtain rfl := Factor.unit.inj hu
      rfl
    · exact @canonicalTerms_base [] r hcanonical hbase

theorem canonical_scaled_eq {a : MeasureUnit} {x : CanonicalUnit} (m : Magnitude) (hx : x.Normal)
    (ha : a.canonical = .ok x) : (scaled m a).canonical = x.scale m := by
  unfold scaled
  split
  · rename_i hone
    obtain rfl := PowerProduct.isOne_iff.mp hone
    rw [ha, hx.scale_one]
  · show (a.canonical >>= fun b => CanonicalUnit.scale m b) = _
    rw [ha]
    rfl

end MeasureUnit

/-- The canonical form is a homomorphism onto a normal form. -/
structure UnitSystem.NormalFormLaws (W : UnitSystem) : Prop where
  canonical_answers : ∀ a, W.Member a → Answers a.canonical CanonicalUnit.Normal
  /-- The operations on units, with the canonical forms of their results. -/
  limits : ∀ a b p, W.Member a → W.Member b →
    Answers (a.mul b) (fun u => Answers u.canonical CanonicalUnit.Normal) ∧
    Answers (a.div b) (fun u => Answers u.canonical CanonicalUnit.Normal) ∧
    Answers (a.pow p) fun u => Answers u.canonical CanonicalUnit.Normal
  /-- The operations on the parts of canonical forms. -/
  part_limits : ∀ x y p, CanonicalUnit.Normal x → CanonicalUnit.Normal y →
    Answers (PowerProduct.mul x.magnitude y.magnitude) (fun m =>
      Answers (PowerProduct.mul x.reference y.reference) fun r => CanonicalUnit.Normal ⟨m, r⟩) ∧
    Answers (PowerProduct.div x.magnitude y.magnitude) (fun m =>
      Answers (PowerProduct.div x.reference y.reference) fun r => CanonicalUnit.Normal ⟨m, r⟩) ∧
    Answers (PowerProduct.pow x.magnitude p) fun m =>
      Answers (PowerProduct.pow x.reference p) fun r => CanonicalUnit.Normal ⟨m, r⟩
  canonical_mul : ∀ a b u x y z m r, W.Member a → W.Member b → a.canonical = .ok x →
    b.canonical = .ok y → a.mul b = .ok u → u.canonical = .ok z →
    PowerProduct.mul x.magnitude y.magnitude = .ok m →
    PowerProduct.mul x.reference y.reference = .ok r → z.Same ⟨m, r⟩
  canonical_div : ∀ a b u x y z m r, W.Member a → W.Member b → a.canonical = .ok x →
    b.canonical = .ok y → a.div b = .ok u → u.canonical = .ok z →
    PowerProduct.div x.magnitude y.magnitude = .ok m →
    PowerProduct.div x.reference y.reference = .ok r → z.Same ⟨m, r⟩
  canonical_pow : ∀ a p u x z m r, W.Member a → a.canonical = .ok x → a.pow p = .ok u →
    u.canonical = .ok z → PowerProduct.pow x.magnitude p = .ok m →
    PowerProduct.pow x.reference p = .ok r → z.Same ⟨m, r⟩
  /-- The multiple has a canonical form exactly where the product of the magnitudes has a result. -/
  canonical_scaled : ∀ a x m, W.Member a → a.canonical = .ok x →
    (MeasureUnit.scaled m a).canonical = do return ⟨← PowerProduct.mul m x.magnitude, x.reference⟩
  reference_base : ∀ a x, W.Member a → a.canonical = .ok x →
    PowerProduct.Canonical x.reference ∧ ∀ t ∈ x.reference, t.factor.IsBase
  reference_fixed : ∀ a x, W.Member a → a.canonical = .ok x →
    (MeasureUnit.ofProduct x.reference).canonical = .ok ⟨Magnitude.one, x.reference⟩

namespace UnitSystem

open MeasureUnit CanonicalUnit

theorem normal_form_laws (W : UnitSystem) : W.NormalFormLaws := by
  have hnormal {u : MeasureUnit} {x : CanonicalUnit} (hu : u.Built) (h : u.canonical = .ok x) :
      x.Normal := hu.sound.normal h
  constructor
  case canonical_answers =>
    intro a ha
    exact ha.built.canonical_answers
  case limits =>
    intro a b p ha hb
    refine ⟨?_, ?_, ?_⟩
    · exact (ha.built.mul_answers hb.built).mono fun u _ hu => hu.canonical_answers
    · exact (ha.built.div_answers hb.built).mono fun u _ hu => hu.canonical_answers
    · exact (ha.built.pow_answers p).mono fun u _ hu => hu.canonical_answers
  case part_limits =>
    intro x y p hx hy
    refine ⟨?_, ?_, ?_⟩
    · refine (PowerProduct.mul_answers _ _).mono fun m hm _ => ?_
      exact (PowerProduct.mul_answers _ _).mono fun r hr _ => normal_mul hx hy hm hr
    · refine (PowerProduct.div_answers _ _).mono fun m hm _ => ?_
      exact (PowerProduct.div_answers _ _).mono fun r hr _ => normal_div hx hy hm hr
    · refine (PowerProduct.pow_answers _ p).mono fun m hm _ => ?_
      exact (PowerProduct.pow_answers _ p).mono fun r hr _ => normal_pow hx hm hr
  case canonical_mul =>
    intro a b u x y z m r ha hb hx hy hu hz hm hr
    have hcombines := mul_combines ha hx hz hb hy hu
    exact hcombines.same_mul (hnormal ha.built hx) (hnormal hb.built hy)
      (hnormal (ha.built.mul hb.built hu) hz) hm hr
  case canonical_div =>
    intro a b u x y z m r ha hb hx hy hu hz hm hr
    have hcombines := div_combines ha hx hz hb hy hu
    exact hcombines.same_div (hnormal ha.built hx) (hnormal hb.built hy)
      (hnormal (ha.built.div hb.built hu) hz) hm hr
  case canonical_pow =>
    intro a p u x z m r ha hx hu hz hm hr
    have hcombines := pow_combines ha hx hz hu .one
    exact hcombines.same_pow (hnormal ha.built hx) (hnormal (ha.built.pow hu) hz) hm hr
  case canonical_scaled =>
    intro a x m ha hx
    exact canonical_scaled_eq m (hnormal ha.built hx) hx
  case reference_base =>
    intro a x ha hx
    have hx := hnormal ha.built hx
    exact ⟨hx.reference, hx.base⟩
  case reference_fixed =>
    intro a x ha hx
    have hx := hnormal ha.built hx
    exact canonical_ofProduct hx.reference hx.base

theorem travel_kilometre : travel.Member kilometre where
  built := @Built.prefixed _ _ (.plain "k") thousand (by decide)
    ((Built.named _ _).associated _) rfl
  holds := by
    show _ ∈ _
    simp

theorem travel_hour : travel.Member hour where
  built := @Built.definedAs _ _ _ secondsPerHour (.named (Catalog.Si.nameOf "Hour") (.plain "h"))
    (by decide) ((Built.named _ _).associated _) rfl
  holds := by
    show _ ∈ _
    simp

/-- Kilometres an hour: the thousand over the seconds of an hour, times metres a second. -/
theorem normal_form_laws_travel : travel.NormalFormLaws ∧
    ∃ u x y z m r, kilometre.div hour = .ok u ∧ kilometre.canonical = .ok x ∧
      hour.canonical = .ok y ∧ u.canonical = .ok z ∧
      PowerProduct.div x.magnitude y.magnitude = .ok m ∧
      PowerProduct.div x.reference y.reference = .ok r ∧ r.length = 2 ∧ z.Same ⟨m, r⟩ := by
  have hlaws := travel.normal_form_laws
  obtain ⟨_, hresults⟩ := exists_eq_ok (show (do
    let u ← kilometre.div hour
    let x ← kilometre.canonical
    let y ← hour.canonical
    let _ ← u.canonical
    let _ ← PowerProduct.div x.magnitude y.magnitude
    let r ← PowerProduct.div x.reference y.reference
    if r.length = 2 then .ok () else .error .tooManyFactors).isOk = true by decide +kernel)
  simp only [bind_eq_ok, guard_eq_ok] at hresults
  obtain ⟨u, hu, x, hx, y, hy, z, hz, m, hm, r, hr, hlength⟩ := hresults
  exact ⟨hlaws, u, x, y, z, m, r, hu, hx, hy, hz, hm, hr, hlength,
    hlaws.canonical_div _ _ _ _ _ _ _ _ travel_kilometre travel_hour hx hy hu hz hm hr⟩

end UnitSystem

end Metrology
