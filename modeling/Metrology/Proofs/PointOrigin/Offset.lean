import Metrology.PointOrigin
import Metrology.Proofs.MeasureUnit.FactorNumber
import Metrology.Proofs.PowerProduct.Limit
import Metrology.Worked.Extension

/-!
# Offsets along a chain of origins

The offsets on the way from an origin to the root of its scale, each of them in a unit of its own, are
converted to one unit and added up. A change of that unit multiplies every summand by the same number, and
so the sum.
-/

namespace Metrology

/-- An exact number of units between an origin and the next one on the way to the root. -/
structure Link where
  offset : Ratio
  unit : MeasureUnit

namespace PointOrigin

def isRelative : PointOrigin → Bool
  | .relative .. => true
  | _ => false

/-- The origins from this one to the root. -/
def chain (o : PointOrigin) : List PointOrigin :=
  match o with
  | .relative _ base _ _ => o :: base.chain
  | _ => [o]
termination_by structural o

/-- The offsets on the way to the root. -/
def links (o : PointOrigin) : List Link :=
  match o with
  | .relative _ base offset unit => ⟨offset, unit⟩ :: base.links
  | _ => []
termination_by structural o

/-- A fact holds of every origin if it holds of the roots and passes on to the origins relative to it. -/
@[elab_as_elim]
theorem follow {motive : PointOrigin → Prop} (top : ∀ o, o.isRelative = false → motive o)
    (next : ∀ name base offset unit, motive base → motive (.relative name base offset unit))
    (o : PointOrigin) : motive o := by
  induction o using PointOrigin.root.induct with
  | case1 name base offset unit ih => exact next name base offset unit ih
  | case2 o hnot =>
    refine top o ?_
    cases o with
    | relative name base offset unit => exact absurd rfl (hnot name base offset unit)
    | absolute => rfl
    | zeroth => rfl

section Equations

variable {o base : PointOrigin} {name : String} {offset q b r : Ratio} {unit u : MeasureUnit}

theorem root_top (h : o.isRelative = false) : o.root = o := by
  cases o with
  | relative => cases h
  | absolute => rfl
  | zeroth => rfl

theorem chain_top (h : o.isRelative = false) : o.chain = [o] := by
  cases o with
  | relative => cases h
  | absolute => rfl
  | zeroth => rfl

theorem links_top (h : o.isRelative = false) : o.links = [] := by
  cases o with
  | relative => cases h
  | absolute => rfl
  | zeroth => rfl

theorem offsetIn_top (h : o.isRelative = false) (u : MeasureUnit) : o.offsetIn u = .ok .zero := by
  cases o with
  | relative => cases h
  | absolute => rfl
  | zeroth => rfl

theorem root_relative : (relative name base offset unit).root = base.root := rfl

theorem chain_relative :
    (relative name base offset unit).chain = relative name base offset unit :: base.chain := rfl

theorem links_relative : (relative name base offset unit).links = ⟨offset, unit⟩ :: base.links := rfl

theorem offsetIn_relative (h : unit.Converts u q) : (relative name base offset unit).offsetIn u =
    (do (← base.offsetIn u).add (← offset.mul q)) := by
  obtain ⟨f, hf, hq⟩ := h
  show (unit.conversionFactor u >>= fun factor => factor.toRatio? >>= _) = _
  rw [hf]
  show (f.toRatio? >>= _) = _
  rw [hq]
  rfl

/-- The offset from the root is the offset of the base and the converted offset from the base. -/
theorem offsetIn_of_ok (h : (relative name base offset unit).offsetIn u = .ok r) :
    ∃ q b, unit.Converts u q ∧ base.offsetIn u = .ok b ∧ r.value = b.value + offset.value * q.value := by
  obtain ⟨f, hf, hfactor⟩ := bind_eq_ok.mp h
  obtain ⟨ratio?, hratio, hsome⟩ := bind_eq_ok.mp hfactor
  cases ratio? with
  | none => cases hsome
  | some q =>
    have hconverts : unit.Converts u q := ⟨f, hf, hratio⟩
    rw [offsetIn_relative hconverts] at h
    obtain ⟨b, hb, h⟩ := bind_eq_ok.mp h
    obtain ⟨p, hp, hr⟩ := bind_eq_ok.mp h
    rw [Ratio.mul_eq_ok] at hp
    rw [Ratio.add_eq_ok, hp] at hr
    exact ⟨q, b, hconverts, hb, hr⟩

end Equations

/-! ### The root -/

variable {o b : PointOrigin} {u v : MeasureUnit}

theorem root_not_relative (o : PointOrigin) : o.root.isRelative = false := by
  induction o using follow with
  | top o h => rwa [root_top h]
  | next name base offset unit ih => rwa [root_relative]

theorem root_mem_chain (o : PointOrigin) : o.root ∈ o.chain := by
  induction o using follow with
  | top o h =>
    rw [root_top h, chain_top h]
    exact List.mem_cons_self
  | next name base offset unit ih =>
    rw [root_relative, chain_relative]
    exact List.mem_cons_of_mem _ ih

theorem root_of_mem_chain (h : b ∈ o.chain) : b.root = o.root := by
  induction o using follow with
  | top o htop =>
    rw [chain_top htop, List.mem_singleton] at h
    rw [h]
  | next name base offset unit ih =>
    rw [chain_relative, List.mem_cons] at h
    rcases h with rfl | h
    · rfl
    · rw [root_relative]
      exact ih h

/-! ### The sum -/

/-- The offsets on the way to the root add up, unless a ratio on the way is out of range. -/
theorem offsetIn_answers {ratio : MeasureUnit → Ratio}
    (hratio : ∀ l ∈ o.links, l.unit.Converts u (ratio l.unit)) : Answers (o.offsetIn u) fun r =>
      r.value = (o.links.map fun l => l.offset.value * (ratio l.unit).value).sum := by
  induction o using follow with
  | top o h =>
    rw [offsetIn_top h, links_top h]
    exact .of_ok rfl rfl
  | next name base offset unit ih =>
    rw [links_relative, List.forall_mem_cons] at hratio
    rw [offsetIn_relative hratio.1, links_relative, List.map_cons, List.sum_cons]
    refine (ih hratio.2).bind fun b _ hb => (Ratio.ofRat_answers _).bind fun p hp _ => ?_
    refine (Ratio.ofRat_answers _).mono fun r hr _ => ?_
    rw [Ratio.ofRat_eq_ok] at hp hr
    rw [hr, hb, hp, add_comm]

/-- An offset that is known has been converted all the way. -/
theorem converts_of_offsetIn {r : Ratio} (h : o.offsetIn u = .ok r) :
    ∀ l ∈ o.links, ∃ q, l.unit.Converts u q := by
  induction o using follow generalizing r with
  | top o htop =>
    rw [links_top htop]
    exact fun l hl => absurd hl List.not_mem_nil
  | next name base offset unit ih =>
    obtain ⟨q, b, hq, hb, -⟩ := offsetIn_of_ok h
    rw [links_relative, List.forall_mem_cons]
    exact ⟨⟨q, hq⟩, ih hb⟩

end PointOrigin

/-! ### A change of the unit -/

namespace MeasureUnit

variable {a u v : MeasureUnit} {p q : Ratio} {f : Magnitude}

theorem Exact.converts_rational (ha : a.Exact) (hu : u.Exact) (hv : v.Exact) (hp : a.Converts u p)
    (hq : a.Converts v q) (hf : u.conversionFactor v = .ok f) : f.isRational = true := by
  obtain ⟨g, hg, hp⟩ := hp
  obtain ⟨h, hh, hq⟩ := hq
  exact ha.isRational_rest hu hv hg hf hh (Magnitude.isRational_of_toRatio? hp)
    (Magnitude.isRational_of_toRatio? hq)

theorem Exact.converts_value (ha : a.Exact) (hu : u.Exact) (hv : v.Exact) (hp : a.Converts u p)
    (hq : a.Converts v q) (hf : u.conversionFactor v = .ok f) : q.value = p.value * f.number := by
  have hrational := ha.converts_rational hu hv hp hq hf
  obtain ⟨g, hg, hp⟩ := hp
  obtain ⟨h, hh, hq⟩ := hq
  rw [Magnitude.value_of_toRatio? (ha.factor_regular hu hg) hp,
    Magnitude.value_of_toRatio? (ha.factor_regular hv hh) hq]
  exact ha.number_chain hu hv hg hf hh (Magnitude.isRational_of_toRatio? hp) hrational

end MeasureUnit

namespace PointOrigin

variable {o b : PointOrigin} {u v : MeasureUnit} {f : Magnitude} {r s : Ratio}

theorem offsetIn_change (hu : u.Exact) (hv : v.Exact) (hlinks : ∀ l ∈ o.links, l.unit.Exact)
    (hf : u.conversionFactor v = .ok f) (hr : o.offsetIn u = .ok r) (hs : o.offsetIn v = .ok s) :
    s.value = r.value * f.number := by
  induction o using follow generalizing r s with
  | top o h =>
    obtain rfl := Except.ok.inj ((offsetIn_top h u).symm.trans hr)
    obtain rfl := Except.ok.inj ((offsetIn_top h v).symm.trans hs)
    exact (zero_mul _).symm
  | next name base offset unit ih =>
    rw [links_relative, List.forall_mem_cons] at hlinks
    obtain ⟨p, b, hp, hb, hsumU⟩ := offsetIn_of_ok hr
    obtain ⟨q, c, hq, hc, hsumV⟩ := offsetIn_of_ok hs
    rw [hsumU, hsumV, ih hlinks.2 hb hc, hlinks.1.converts_value hu hv hp hq hf]
    ring

theorem rational_of_offsets (hu : u.Exact) (hv : v.Exact) (hlinks : ∀ l ∈ o.links, l.unit.Exact)
    (hf : u.conversionFactor v = .ok f) (hr : o.offsetIn u = .ok r) (hs : o.offsetIn v = .ok s)
    (ho : o.isRelative = true) : f.isRational = true := by
  cases o with
  | absolute => cases ho
  | zeroth => cases ho
  | relative name base offset unit =>
    obtain ⟨p, -, hp, -⟩ := offsetIn_of_ok hr
    obtain ⟨q, -, hq, -⟩ := offsetIn_of_ok hs
    exact (hlinks _ List.mem_cons_self).converts_rational hu hv hp hq hf

/-! ### The laws of offsets -/

/-- What the offset of an origin from its root means. -/
structure OffsetLaws (o : PointOrigin) : Prop where
  additive : ∀ (u : MeasureUnit) (ratio : MeasureUnit → Ratio),
    (∀ l ∈ o.links, l.unit.Converts u (ratio l.unit)) → Answers (o.offsetIn u) fun r =>
      r.value = (o.links.map fun l => l.offset.value * (ratio l.unit).value).sum
  converts : ∀ u r, o.offsetIn u = .ok r → ∀ l ∈ o.links, ∃ q, l.unit.Converts u q
  linear : (∀ l ∈ o.links, l.unit.Exact) → ∀ u v r s f, u.Exact → v.Exact → o.offsetIn u = .ok r →
    o.offsetIn v = .ok s → u.conversionFactor v = .ok f →
    s.value = r.value * f.number ∧ (o.isRelative = true → f.isRational = true) ∧
      ∀ q, f.toRatio? = .ok (some q) → r.mul q = .ok s
  root_not_relative : o.root.isRelative = false
  root_mem_chain : o.root ∈ o.chain
  root_offset : ∀ u, o.root.offsetIn u = .ok .zero
  root_of_chain : ∀ b ∈ o.chain, b.root = o.root

/-- Offsets add up along the chain to the root, and they are converted like the numbers of a quantity. -/
theorem offset_laws (o : PointOrigin) : o.OffsetLaws where
  additive _ _ hratio := offsetIn_answers hratio
  converts _ _ h := converts_of_offsetIn h
  linear := by
    intro hlinks u v r s f hu hv hr hs hf
    have hchange := offsetIn_change hu hv hlinks hf hr hs
    refine ⟨hchange, rational_of_offsets hu hv hlinks hf hr hs, fun q hq => ?_⟩
    rw [Ratio.mul_eq_ok, hchange, Magnitude.value_of_toRatio? (hu.factor_regular hv hf) hq]
  root_not_relative := root_not_relative o
  root_mem_chain := root_mem_chain o
  root_offset := offsetIn_top (root_not_relative o)
  root_of_chain _ := root_of_mem_chain

/-! ### Two origins above the sea -/

open Catalog Worked.Extension

/-- The quay lies ten thirds of a foot below the harbour, and the harbour twelve metres above the sea. In
feet, the quay is as far above the sea as in metres. -/
theorem offset_laws_quay : ∃ foot o r s f q, International.foot = .ok foot ∧ quay "port" = .ok o ∧
    o.OffsetLaws ∧ (∀ l ∈ o.links, l.unit.Exact) ∧
    (o.links.map fun l : Link => l.offset.value) = [-10 / 3, 12] ∧
    o.offsetIn Si.metre = .ok r ∧ r.value = 1373 / 125 ∧ o.offsetIn foot = .ok s ∧ s.value = 13730 / 381 ∧
    Si.metre.conversionFactor foot = .ok f ∧ f.toRatio? = .ok (some q) ∧ r.mul q = .ok s := by
  obtain ⟨_, hresults⟩ := exists_eq_ok (show (do
    let foot ← International.foot
    let o ← quay "port"
    let r ← o.offsetIn Si.metre
    let s ← o.offsetIn foot
    let f ← Si.metre.conversionFactor foot
    let ratio? ← f.toRatio?
    if r.value = 1373 / 125 ∧ s.value = 13730 / 381 ∧ ratio?.isSome ∧
      (o.links.map fun l : Link => l.offset.value) = [-10 / 3, 12] then .ok ()
    else .error .overflow).isOk = true by decide +kernel)
  simp only [bind_eq_ok, guard_eq_ok] at hresults
  obtain ⟨foot, hfoot, o, ho, r, hr, s, hs, f, hf, ratio?, hratio, hvalueR, hvalueS, hsome, hoffsets⟩ :=
    hresults
  obtain ⟨q, rfl⟩ := Option.isSome_iff_exists.mp hsome
  have hlinks : ∀ l ∈ o.links, l.unit.Exact := by
    obtain ⟨harbour, hharbour, ho⟩ := bind_eq_ok.mp ho
    obtain ⟨drop, -, ho⟩ := bind_eq_ok.mp ho
    obtain ⟨unit, hunit, ho⟩ := bind_eq_ok.mp ho
    obtain ⟨sea, hsea, hharbour⟩ := bind_eq_ok.mp hharbour
    obtain ⟨rise, -, hharbour⟩ := bind_eq_ok.mp hharbour
    obtain ⟨metre, hmetre, hharbour⟩ := bind_eq_ok.mp hharbour
    obtain rfl := Except.ok.inj hsea
    obtain rfl := Except.ok.inj hmetre
    obtain rfl := pure_eq_ok.mp hharbour
    obtain rfl := pure_eq_ok.mp ho
    rw [links_relative, links_relative, List.forall_mem_cons, List.forall_mem_cons]
    exact ⟨MeasureUnit.foot_exact hunit, MeasureUnit.metre_exact, fun l hl => absurd hl List.not_mem_nil⟩
  have hlinear := (offset_laws o).linear hlinks _ _ r s f MeasureUnit.metre_exact
    (MeasureUnit.foot_exact hfoot) hr hs hf
  exact ⟨foot, o, r, s, f, q, hfoot, ho, offset_laws o, hlinks, hoffsets, hr, hvalueR, hs, hvalueS, hf,
    hratio, hlinear.2.2 q hratio⟩

end PointOrigin

end Metrology
