import Metrology.Catalog.Si
import Metrology.Proofs.MeasureUnit.Kind
import Metrology.Reference

/-!
# References made of others

A unit that stands for a kind fits every quantity of this kind. Units are merged and cancelled by their
names and quantities by theirs, so a product of units may have fewer factors than the product of the
quantities, or collapse to one unit, or to none. It fits the product of the quantities all the same, and
this is kept by products, quotients and powers of references.
-/

namespace Metrology

variable {W : World}

/-- A unit of the kind of a named quantity, with a quantity of this kind. -/
structure KindSystem.Pairs (S : KindSystem W) (unit : MeasureUnit) (kind quantity : NamedQuantity) :
    Prop where
  unit_holds : S.Holds unit
  unit_kind : unit.quantitySpec? = .ok (some (QuantitySpec.named kind).kindOf)
  quantity_holds : W.Holds quantity
  kindRoot_eq : quantity.kindRoot = kind

namespace KindSystem.Pairs

variable {S : KindSystem W} {unit : MeasureUnit} {kind quantity : NamedQuantity}

theorem kind_holds (h : S.Pairs unit kind quantity) : W.Holds kind :=
  h.kindRoot_eq ▸ W.kindRoot_holds h.quantity_holds

theorem measures (h : S.Pairs unit kind quantity) :
    S.Measures unit fun w => w (.quantity kind) :=
  (measures_of_holds h.unit_holds h.unit_kind).congr fun _ hw =>
    QuantitySpec.weigh_named h.kind_holds hw

end KindSystem.Pairs

/-! ### Products of powers -/

/-- A power of a unit in a product, with the same power of its kind and of a quantity of this kind. -/
structure Component where
  unit : MeasureUnit
  kind : NamedQuantity
  quantity : NamedQuantity
  power : Ratio

namespace Component

def unitProduct (cs : List Component) : Except Fault MeasureUnit :=
  cs.foldlM (fun u c => do u.mul (← c.unit.pow c.power)) .one

/-- The product of the kinds, or that of the quantities. -/
def specProduct (choose : Component → NamedQuantity) (cs : List Component) : Except Fault QuantitySpec :=
  cs.foldlM (fun s c => do s.mul (← (QuantitySpec.named (choose c)).pow c.power))
    .dimensionless

def terms (choose : Component → NamedQuantity) (cs : List Component) : List (Term Factor) :=
  cs.map fun c => ⟨.quantity (choose c), c.power⟩

/-- If every component adds its own weight, then all components together add the sum of their weights. -/
theorem foldlM_answers {β : Type} {R : β → ((Factor → Rat) → Rat) → Prop}
    {step : β → Component → Except Fault β} {choose : Component → NamedQuantity} {cs : List Component}
    (hcongr : ∀ b m n, R b m → (∀ w, m w = n w) → R b n)
    (hstep : ∀ b m, ∀ c ∈ cs, R b m → Answers (step b c)
      (R · fun w => m w + c.power.value * w (.quantity (choose c))))
    {start : β} {m : (Factor → Rat) → Rat} (hstart : R start m) :
    Answers (cs.foldlM step start) (R · fun w => m w + PowerProduct.weigh w (terms choose cs)) := by
  induction cs generalizing start m with
  | nil => exact .of_ok rfl (hcongr _ _ _ hstart fun w => by simp [terms])
  | cons c cs ih =>
    rw [List.foldlM_cons]
    refine (hstep start m c List.mem_cons_self hstart).bind fun next _ hnext => ?_
    refine (ih (fun b n d hd => hstep b n d (List.mem_cons_of_mem c hd)) hnext).mono fun b _ hb => ?_
    refine hcongr _ _ _ hb fun w => ?_
    rw [terms, terms, List.map_cons, PowerProduct.weigh_cons]
    ring

variable {S : KindSystem W} {cs : List Component}

theorem specProduct_answers {choose : Component → NamedQuantity}
    (h : ∀ c ∈ cs, W.Holds (choose c)) : Answers (specProduct choose cs)
      (·.Weighs W false fun w => PowerProduct.weigh w (terms choose cs)) := by
  refine (foldlM_answers (R := fun s m => s.Weighs W false m)
    (fun _ _ _ hs hmn => hs.congr fun w _ => hmn w) (fun s m c hc hs => ?_)
    QuantitySpec.weighs_dimensionless).mono fun s _ hs => hs.congr fun w _ => zero_add _
  exact ((QuantitySpec.weighs_named (h c hc)).pow c.power).bind fun _ _ hpower =>
    hs.mul hpower

theorem unitProduct_answers (h : ∀ c ∈ cs, S.Pairs c.unit c.kind c.quantity) :
    Answers (unitProduct cs)
      (S.Measures · fun w => PowerProduct.weigh w (terms Component.kind cs)) := by
  refine (foldlM_answers (R := S.Measures)
    (fun _ _ _ hu hmn => hu.congr fun w _ => hmn w) (fun u m c hc hu => ?_)
    KindSystem.measures_one).mono fun u _ hu => hu.congr fun w _ => zero_add _
  exact ((h c hc).measures.pow c.power).bind fun _ _ hpower => hu.mul hpower

/-- The roots of the kinds of the quantities are the kinds. -/
theorem weigh_terms (h : ∀ c ∈ cs, S.Pairs c.unit c.kind c.quantity)
    (w : Factor → Rat) : PowerProduct.weigh (w ∘ Factor.kindRoot) (terms Component.quantity cs) =
      PowerProduct.weigh w (terms Component.kind cs) := by
  induction cs with
  | nil => rfl
  | cons c cs ih =>
    rw [List.forall_mem_cons] at h
    have hrest := ih h.2
    rw [terms, terms] at hrest ⊢
    rw [List.map_cons, List.map_cons, PowerProduct.weigh_cons, PowerProduct.weigh_cons, hrest]
    simp [Factor.kindRoot, h.1.kindRoot_eq]

end Component

/-! ### References -/

/-- References that are made of units with quantities of their kinds. -/
inductive KindSystem.Composed (S : KindSystem W) : Reference → Prop where
  | ofNamed {unit : MeasureUnit} {kind quantity : NamedQuantity} :
      S.Pairs unit kind quantity → S.Composed (.ofNamed quantity unit)
  | mul {r s t : Reference} : S.Composed r → S.Composed s → r.mul s = .ok t → S.Composed t
  | div {r s t : Reference} : S.Composed r → S.Composed s → r.div s = .ok t → S.Composed t
  | pow {r t : Reference} {p : Ratio} : S.Composed r → r.pow p = .ok t → S.Composed t

namespace KindSystem

/-- The quantity weighs `m`, and the unit what the kind of the quantity weighs. -/
structure Admits (S : KindSystem W) (r : Reference) (m : (Factor → Rat) → Rat) : Prop where
  spec : r.spec.Weighs W false m
  unit : S.Measures r.unit fun w => m (w ∘ Factor.kindRoot)

variable {S : KindSystem W} {r s : Reference} {m n : (Factor → Rat) → Rat}

namespace Admits

theorem mul (hr : S.Admits r m) (hs : S.Admits s n) :
    Answers (r.mul s) (S.Admits · fun w => m w + n w) := by
  refine (hr.spec.mul hs.spec).bind fun spec _ hspec => ?_
  exact (hr.unit.mul hs.unit).bind fun unit _ hunit => .of_ok rfl ⟨hspec, hunit⟩

theorem div (hr : S.Admits r m) (hs : S.Admits s n) :
    Answers (r.div s) (S.Admits · fun w => m w - n w) := by
  refine (hr.spec.div hs.spec).bind fun spec _ hspec => ?_
  exact (hr.unit.div hs.unit).bind fun unit _ hunit => .of_ok rfl ⟨hspec, hunit⟩

theorem pow (hr : S.Admits r m) (p : Ratio) :
    Answers (r.pow p) (S.Admits · fun w => p.value * m w) := by
  refine (hr.spec.pow p).bind fun spec _ hspec => ?_
  exact (hr.unit.pow p).bind fun unit _ hunit => .of_ok rfl ⟨hspec, hunit⟩

/-- The kind of the unit is that of the quantity. -/
theorem kind (hr : S.Admits r m) : Answers r.spec.kindTreeRoot fun root =>
    Answers r.unit.quantitySpec? (· = some root.kindOf) :=
  hr.spec.kindTreeRoot.mono fun _ _ hroot => hr.unit.quantitySpec? hroot

theorem fits (hr : S.Admits r m) : Answers (r.unit.fits r.spec) (· = true) :=
  hr.unit.fits hr.spec fun _ _ => rfl

theorem not_fits (hr : S.Admits r m) {t : QuantitySpec} (ht : t.Within W) {x y : Dimension}
    (hx : r.spec.dimension = .ok x) (hy : t.dimension = .ok y) (hxy : PowerProduct.same x y = false) :
    Answers (r.unit.fits t) (· = false) := by
  refine hr.unit.kind.bind fun answer _ hkind => ?_
  obtain ⟨kind, rfl, hkind⟩ := hkind
  refine QuantitySpec.not_implicitlyConvertible_of_dimension hkind.within ht hy fun z hz => ?_
  rw [Bool.eq_false_iff, Ne, QuantitySpec.dimension_same_iff hz hy]
  intro hzy
  rw [(QuantitySpec.dimension_same_iff hx hy).mpr fun w hw => ?_] at hxy
  · cases hxy
  · rw [← hzy w hw, hkind.weigh_dimension hr.spec fun _ _ => rfl]

end Admits

theorem Composed.admits (h : S.Composed r) : ∃ m, S.Admits r m := by
  induction h with
  | ofNamed h =>
    refine ⟨_, QuantitySpec.weighs_named h.quantity_holds, h.measures.congr fun w _ => ?_⟩
    simp [Factor.kindRoot, h.kindRoot_eq]
  | mul _ _ h hr hs =>
    obtain ⟨m, hr⟩ := hr
    obtain ⟨n, hs⟩ := hs
    exact ⟨_, (hr.mul hs).result h⟩
  | div _ _ h hr hs =>
    obtain ⟨m, hr⟩ := hr
    obtain ⟨n, hs⟩ := hs
    exact ⟨_, (hr.div hs).result h⟩
  | pow _ h hr =>
    obtain ⟨m, hr⟩ := hr
    exact ⟨_, (hr.pow _).result h⟩

end KindSystem

/-- What is known about the kinds of units and references of a system, unless a power does not fit or a
product has too many factors. -/
structure KindLaws (S : KindSystem W) : Prop where
  product {cs : List Component} : (∀ c ∈ cs, S.Pairs c.unit c.kind c.quantity) →
    Answers (Component.unitProduct cs) fun unit =>
      Answers unit.isAssociated (· = true) ∧
      Answers (Component.specProduct Component.kind cs) (fun kinds =>
        Answers unit.quantitySpec? (· = some kinds.kindOf)) ∧
      Answers (Component.specProduct Component.quantity cs) fun quantities =>
        Answers (unit.fits quantities) (· = true)
  /-- The weights that the operations below add, subtract and multiply. -/
  admits {r : Reference} : S.Composed r → ∃ m, S.Admits r m
  kind {r : Reference} {m : (Factor → Rat) → Rat} : S.Admits r m →
    Answers r.spec.kindTreeRoot fun root => Answers r.unit.quantitySpec? (· = some root.kindOf)
  mul {r s : Reference} : S.Composed r → S.Composed s → Answers (r.mul s) fun t => S.Composed t ∧
    ∀ m n, S.Admits r m → S.Admits s n → S.Admits t fun w => m w + n w
  div {r s : Reference} : S.Composed r → S.Composed s → Answers (r.div s) fun t => S.Composed t ∧
    ∀ m n, S.Admits r m → S.Admits s n → S.Admits t fun w => m w - n w
  pow {r : Reference} (p : Ratio) : S.Composed r → Answers (r.pow p) fun t => S.Composed t ∧
    ∀ m, S.Admits r m → S.Admits t fun w => p.value * m w
  fits {r : Reference} : S.Composed r → Answers (r.unit.fits r.spec) (· = true)
  /-- Quantities of another dimension do not fit. -/
  not_fits {r : Reference} {t : QuantitySpec} {x y : Dimension} : S.Composed r → t.Within W →
    r.spec.dimension = .ok x → t.dimension = .ok y → PowerProduct.same x y = false →
    Answers (r.unit.fits t) (· = false)

theorem kind_laws (S : KindSystem W) : KindLaws S where
  product {cs} h := by
    refine (Component.unitProduct_answers h).mono fun unit _ hunit => ⟨hunit.isAssociated, ?_, ?_⟩
    · exact (Component.specProduct_answers fun c hc => (h c hc).kind_holds).mono
        fun kinds _ hkinds => hunit.quantitySpec? hkinds
    · exact (Component.specProduct_answers fun c hc => (h c hc).quantity_holds).mono
        fun quantities _ hquantities => hunit.fits hquantities fun w _ => Component.weigh_terms h w
  admits hr := hr.admits
  kind hr := hr.kind
  mul hr hs := by
    obtain ⟨m, hm⟩ := hr.admits
    obtain ⟨n, hn⟩ := hs.admits
    exact (hm.mul hn).mono fun t ht _ => ⟨.mul hr hs ht, fun m n hm hn => (hm.mul hn).result ht⟩
  div hr hs := by
    obtain ⟨m, hm⟩ := hr.admits
    obtain ⟨n, hn⟩ := hs.admits
    exact (hm.div hn).mono fun t ht _ => ⟨.div hr hs ht, fun m n hm hn => (hm.div hn).result ht⟩
  pow p hr := by
    obtain ⟨m, hm⟩ := hr.admits
    exact (hm.pow p).mono fun t ht _ => ⟨.pow hr ht, fun m hm => (hm.pow p).result ht⟩
  fits hr := by
    obtain ⟨m, hm⟩ := hr.admits
    exact hm.fits
  not_fits hr ht hx hy hxy := by
    obtain ⟨m, hm⟩ := hr.admits
    exact hm.not_fits ht hx hy hxy

section Motion

open Catalog

/-- Lengths and times. -/
def motionWorld : World :=
  World.ofList [Isq.length, Isq.width, Isq.time, Isq.duration]
    (by
      intro q hq p hp
      simp only [List.mem_cons, List.not_mem_nil, or_false] at hq
      rcases hq with rfl | rfl | rfl | rfl <;> cases hp <;> exact ⟨by simp, rfl⟩)
    (by decide) (by decide)

def motionUnits : KindSystem motionWorld where
  Holds u := u ∈ [Si.metre, Si.second]
  part_holds {u v} hu hv := by
    simp only [List.mem_cons, List.not_mem_nil, or_false] at hu
    rcases hu with rfl | rfl <;> cases hv
  form_eq_of_name {u v name} hu hv hname hname' := by
    have hnames := hname.trans hname'.symm
    simp only [List.mem_cons, List.not_mem_nil, or_false] at hu hv
    rcases hu with rfl | rfl <;> rcases hv with rfl | rfl <;>
      first | rfl | exact absurd hnames (by decide)
  spec_eq_of_name {u v name} hu hv hname hname' := by
    have hnames := hname.trans hname'.symm
    simp only [List.mem_cons, List.not_mem_nil, or_false] at hu hv
    rcases hu with rfl | rfl <;> rcases hv with rfl | rfl <;>
      first | rfl | exact absurd hnames (by decide)
  named_of_spec {u q} hu _ := by
    simp only [List.mem_cons, List.not_mem_nil, or_false] at hu
    rcases hu with rfl | rfl <;> exact ⟨_, rfl⟩
  spec_holds {u q} hu hq := by
    simp only [List.mem_cons, List.not_mem_nil, or_false] at hu
    rcases hu with rfl | rfl <;> obtain rfl := Option.some.inj hq <;>
      exact List.mem_cons_of_mem _ (by simp)

/-- A width for every duration, in metres per second. -/
def motion : List Component :=
  [⟨Si.metre, Isq.length, Isq.width, .one⟩, ⟨Si.second, Isq.time, Isq.duration, .minusOne⟩]

theorem kind_laws_motion : ∃ unit kinds quantities, Component.unitProduct motion = .ok unit ∧
    Component.specProduct Component.kind motion = .ok kinds ∧
    Component.specProduct Component.quantity motion = .ok quantities ∧
    unit.quantitySpec? = .ok (some kinds.kindOf) ∧ unit.fits quantities = .ok true := by
  have hpairs : ∀ c ∈ motion, motionUnits.Pairs c.unit c.kind c.quantity := by
    intro c hc
    simp only [motion, List.mem_cons, List.not_mem_nil, or_false] at hc
    rcases hc with rfl | rfl <;>
      exact ⟨by simp [motionUnits], rfl, List.mem_cons_of_mem _ (by simp), rfl⟩
  obtain ⟨_, hresults⟩ := exists_eq_ok (show (do
    let unit ← Component.unitProduct motion
    let kinds ← Component.specProduct Component.kind motion
    let quantities ← Component.specProduct Component.quantity motion
    let kind ← unit.quantitySpec?
    let fits ← unit.fits quantities
    pure ()).isOk = true by decide +kernel)
  simp only [bind_eq_ok] at hresults
  obtain ⟨unit, hunit, kinds, hkinds, quantities, hquantities, kind, hkind, fits, hfits, -⟩ := hresults
  have laws := ((kind_laws motionUnits).product hpairs).result hunit
  obtain rfl := (laws.2.1.result hkinds).result hkind
  obtain rfl := (laws.2.2.result hquantities).result hfits
  exact ⟨unit, kinds, quantities, hunit, hkinds, hquantities, hkind, hfits⟩

end Motion

end Metrology
