import Metrology.Proofs.MeasureUnit.Group
import Metrology.Proofs.PowerProduct.Reading

/-!
# Unambiguous texts

Two products with one text are the same product, in Unicode as in ASCII, as long as the texts of the
factors tell the factors apart and are clean. Reading a text gives the factors above and below the slash
with their powers, and a canonical product is determined by these: it is the one way to sort them. The
same goes for dimensions over clean symbols and for units made of units with clean symbols.
-/

namespace Metrology

namespace PowerProduct

variable {α : Type} {S : α → Prop} {name : α → String} {ascii : Bool} {a b : PowerProduct α}
  {s : String}

theorem side_eq [Atom α] (hclean : ∀ f, S f → Clean ascii (name f)) (ha : Over S a) (hb : Over S b)
    (hcanonicalA : Canonical a) (hcanonicalB : Canonical b) (h : textWith ascii name a = .ok s)
    (h' : textWith ascii name b = .ok s) (positive : Bool) :
    (a.filter fun t => t.power.isPositive == positive).map (fun t => (name t.factor, t.power)) =
      (b.filter fun t => t.power.isPositive == positive).map fun t => (name t.factor, t.power) := by
  have hparts {e : PowerProduct α} (he : Over S e) (hcanonical : Canonical e) :
      ∀ part ∈ e.map (fun t => (name t.factor, t.power)), Clean ascii part.1 ∧ part.2.value ≠ 0 := by
    rw [List.forall_mem_map]
    exact fun t ht => ⟨hclean t.factor (he t ht), (hcanonical.proper t ht).1⟩
  have hside := render_inj (hparts ha hcanonicalA) (hparts hb hcanonicalB) h h' positive
  rw [List.filter_map, List.filter_map] at hside
  exact hside

theorem filter_sign_perm (e : PowerProduct α) :
    ((e.filter fun t => t.power.isPositive == true) ++
      e.filter fun t => t.power.isPositive == false).Perm e := by
  simpa using List.filter_append_perm (fun t => t.power.isPositive) e

/-- A text determines its product if the names tell the factors apart. -/
theorem eq_of_textWith [Atom α] (hasymm : ∀ f g : α, Atom.cmp f g = .lt → Atom.cmp g f ≠ .lt)
    (hclean : ∀ f, S f → Clean ascii (name f))
    (hname : ∀ f g, S f → S g → name f = name g → f = g) (ha : Over S a) (hb : Over S b)
    (hcanonicalA : Canonical a) (hcanonicalB : Canonical b) (h : textWith ascii name a = .ok s)
    (h' : textWith ascii name b = .ok s) : a = b := by
  have hside (positive : Bool) : (a.filter fun t => t.power.isPositive == positive) =
      b.filter fun t => t.power.isPositive == positive := by
    have hterm : ∀ t u : Term α, S t.factor → S u.factor →
        (name t.factor, t.power) = (name u.factor, u.power) → t = u := by
      rintro ⟨f, p⟩ ⟨g, q⟩ hf hg heq
      obtain ⟨hfactor, rfl⟩ := Prod.mk.inj heq
      rw [hname f g hf hg hfactor]
    exact map_injOn hterm (fun t ht => ha t (List.mem_filter.mp ht).1)
      (fun t ht => hb t (List.mem_filter.mp ht).1)
      (side_eq hclean ha hb hcanonicalA hcanonicalB h h' positive)
  -- Both products sort the terms of the two sides, and there is only one way to do that.
  have hperm : a.Perm b := by
    refine (filter_sign_perm a).symm.trans ?_
    rw [hside true, hside false]
    exact filter_sign_perm b
  exact hperm.eq_of_pairwise (fun t u _ _ htu hut => absurd hut (hasymm _ _ htu))
    hcanonicalA.sorted hcanonicalB.sorted

theorem weigh_eq_of_names [Atom α] {w : α → Rat} (hw : Atom.Weight S w)
    (hname : ∀ f g, S f → S g → name f = name g → Atom.cmp f g = .eq) {k l : PowerProduct α}
    (hk : Over S k) (hl : Over S l)
    (h : k.map (fun t => (name t.factor, t.power)) = l.map fun t => (name t.factor, t.power)) :
    weigh w k = weigh w l := by
  induction k generalizing l with
  | nil =>
    cases l with
    | nil => rfl
    | cons u l => cases h
  | cons t k ih =>
    cases l with
    | nil => cases h
    | cons u l =>
      rw [over_cons] at hk hl
      rw [List.map_cons, List.map_cons, List.cons.injEq, Prod.mk.injEq] at h
      obtain ⟨⟨hfactor, hpower⟩, hrest⟩ := h
      rw [weigh_cons, weigh_cons, hpower, ih hk.2 hl.2 hrest,
        hw.congr hk.1 hl.1 (hname _ _ hk.1 hl.1 hfactor)]

/-- A text determines its product, as far as the comparison tells products apart, if the names tell
the factors apart as far. -/
theorem same_of_textWith [Atom α] (hS : Atom.OrderedOn S) (hclean : ∀ f, S f → Clean ascii (name f))
    (hname : ∀ f g, S f → S g → name f = name g → Atom.cmp f g = .eq) (ha : Over S a)
    (hb : Over S b) (hcanonicalA : Canonical a) (hcanonicalB : Canonical b)
    (h : textWith ascii name a = .ok s) (h' : textWith ascii name b = .ok s) :
    a.same b = true := by
  apply same_of_weigh hS ha hb hcanonicalA hcanonicalB
  intro w hw
  have hside (positive : Bool) : weigh w (a.filter fun t => t.power.isPositive == positive) =
      weigh w (b.filter fun t => t.power.isPositive == positive) :=
    weigh_eq_of_names hw hname (fun t ht => ha t (List.mem_filter.mp ht).1)
      (fun t ht => hb t (List.mem_filter.mp ht).1)
      (side_eq hclean ha hb hcanonicalA hcanonicalB h h' positive)
  rw [← weigh_perm (filter_sign_perm a), ← weigh_perm (filter_sign_perm b), weigh_append, weigh_append,
    hside true, hside false]

theorem textWith_ne_empty [Atom α] (hclean : ∀ f, S f → Clean ascii (name f)) (ha : Over S a)
    (hcanonical : Canonical a) (h : textWith ascii name a = .ok s) : s ≠ "" := by
  rintro rfl
  obtain ⟨above, below, -, -, hwritable, -, htext⟩ := render_eq_ok h <| by
    rw [List.forall_mem_map]
    exact fun t ht => ⟨hclean t.factor (ha t ht), (hcanonical.proper t ht).1⟩
  obtain ⟨hupper, -⟩ := List.append_eq_nil_iff.mp htext.symm
  unfold upperText at hupper
  split at hupper
  · cases hupper
  · rename_i hne
    exact hne ((sideText_eq_nil_iff hwritable).mp hupper)

end PowerProduct

open PowerProduct

/-! ### The texts of products of factors -/

def Factor.label (ascii : Bool) (f : Factor) : String := (f.text ascii).toOption.getD ""

theorem Factor.label_eq {ascii : Bool} {f : Factor} {s : String} (h : f.text ascii = .ok s) :
    f.label ascii = s := by
  rw [label, h]
  rfl

namespace FactorProduct

variable {ascii : Bool} {e a b : FactorProduct} {s : String}

/-- The text of a product is written with the texts of its factors, which all have one. -/
theorem text_eq_ok : FactorProduct.text ascii e = .ok s ↔
    (∀ t ∈ e, t.factor.text ascii = .ok (t.factor.label ascii)) ∧
      textWith ascii (Factor.label ascii) e = .ok s := by
  have hparts {parts : List (String × Ratio)} :
      (e.mapM fun t => do return (← t.factor.text ascii, t.power)) = .ok parts ↔
        (∀ t ∈ e, t.factor.text ascii = .ok (t.factor.label ascii)) ∧
          parts = e.map fun t => (t.factor.label ascii, t.power) := by
    rw [mapM_eq_ok]
    induction e generalizing parts with
    | nil => simp
    | cons t e ih =>
      rw [List.forall₂_cons_left_iff, List.forall_mem_cons]
      constructor
      · rintro ⟨part, rest, hpart, hrest, rfl⟩
        obtain ⟨text, htext, hpart⟩ := bind_eq_ok.mp hpart
        obtain rfl := pure_eq_ok.mp hpart
        obtain ⟨hlabels, rfl⟩ := ih.mp hrest
        have hlabel := Factor.label_eq htext
        exact ⟨⟨hlabel ▸ htext, hlabels⟩, by rw [List.map_cons, hlabel]⟩
      · rintro ⟨⟨hlabel, hlabels⟩, rfl⟩
        exact ⟨_, _, bind_eq_ok.mpr ⟨_, hlabel, rfl⟩, ih.mpr ⟨hlabels, rfl⟩, rfl⟩
  unfold FactorProduct.text textWith
  rw [bind_eq_ok]
  constructor
  · rintro ⟨parts, hparts', hrender⟩
    obtain ⟨hlabels, rfl⟩ := hparts.mp hparts'
    exact ⟨hlabels, hrender⟩
  · rintro ⟨hlabels, hrender⟩
    exact ⟨_, hparts.mpr ⟨hlabels, rfl⟩, hrender⟩

end FactorProduct

/-- Factors whose texts are clean and tell the factors apart, as far as `same` does. -/
structure Legible (ascii : Bool) (S : Factor → Prop) (same : Factor → Factor → Prop) : Prop where
  clean : ∀ f s, S f → f.text ascii = .ok s → Clean ascii s
  distinct : ∀ f g s, S f → S g → f.text ascii = .ok s → g.text ascii = .ok s → same f g

namespace Legible

variable {ascii : Bool} {S : Factor → Prop} {same : Factor → Factor → Prop} {a b : FactorProduct}
  {s : String}

/-- The factors in `S` that have a text. -/
def Labelled (ascii : Bool) (S : Factor → Prop) (f : Factor) : Prop :=
  S f ∧ f.text ascii = .ok (f.label ascii)

theorem clean_label (h : Legible ascii S same) (f : Factor) (hf : Labelled ascii S f) :
    Clean ascii (f.label ascii) :=
  h.clean f _ hf.1 hf.2

theorem distinct_label (h : Legible ascii S same) (f g : Factor) (hf : Labelled ascii S f)
    (hg : Labelled ascii S g) (heq : f.label ascii = g.label ascii) : same f g :=
  h.distinct f g _ hf.1 hg.1 hf.2 (heq ▸ hg.2)

theorem over_labelled (ha : Over S a) (h : FactorProduct.text ascii a = .ok s) :
    Over (Labelled ascii S) a :=
  fun t ht => ⟨ha t ht, (FactorProduct.text_eq_ok.mp h).1 t ht⟩

theorem eq_of_text (h : Legible ascii S Eq) (ha : Over S a) (hb : Over S b) (hcanonicalA : Canonical a)
    (hcanonicalB : Canonical b) (hs : FactorProduct.text ascii a = .ok s)
    (hs' : FactorProduct.text ascii b = .ok s) : a = b :=
  eq_of_textWith (fun _ _ => Factor.cmp_asymm) h.clean_label h.distinct_label (over_labelled ha hs)
    (over_labelled hb hs') hcanonicalA hcanonicalB (FactorProduct.text_eq_ok.mp hs).2
    (FactorProduct.text_eq_ok.mp hs').2

theorem same_of_text (h : Legible ascii S fun f g => f.cmp g = .eq) (hS : Atom.OrderedOn S)
    (ha : Over S a) (hb : Over S b) (hcanonicalA : Canonical a) (hcanonicalB : Canonical b)
    (hs : FactorProduct.text ascii a = .ok s) (hs' : FactorProduct.text ascii b = .ok s) :
    PowerProduct.same a b = true :=
  same_of_textWith (hS.mono fun _ hf => hf.1) h.clean_label h.distinct_label (over_labelled ha hs)
    (over_labelled hb hs') hcanonicalA hcanonicalB (FactorProduct.text_eq_ok.mp hs).2
    (FactorProduct.text_eq_ok.mp hs').2

theorem text_ne_empty (h : Legible ascii S same) (ha : Over S a) (hcanonical : Canonical a)
    (hs : FactorProduct.text ascii a = .ok s) : s ≠ "" :=
  textWith_ne_empty h.clean_label (over_labelled ha hs) hcanonical (FactorProduct.text_eq_ok.mp hs).2

end Legible

/-! ### The texts of units -/

namespace MeasureUnit

variable {ascii : Bool} {u : MeasureUnit} {s : String}

theorem symbolText_of_recipe {recipe : FactorProduct} (hform : u.form = .derived recipe)
    (hsimple : Over IsSimpleFactor recipe) :
    u.symbolText ascii = FactorProduct.text ascii recipe := by
  have hparts : recipeParts ascii recipe =
      recipe.mapM fun t => do return (← t.factor.text ascii, t.power) := by
    clear hform
    induction recipe with
    | nil => rfl
    | cons t recipe ih =>
      rw [over_cons] at hsimple
      obtain ⟨⟨factor, power⟩, hrest⟩ := t, hsimple.2
      obtain ⟨v, hv : factor = .unit v, -⟩ := hsimple.1
      rw [recipeParts, List.mapM_cons, ih hrest, hv]
      rfl
  obtain ⟨form, spec, origin⟩ := u
  obtain rfl : form = .derived recipe := hform
  rw [symbolText, UnitForm.symbolText, hparts]
  rfl

theorem text_single {f : Factor} (h : f.text ascii = .ok s) (hne : s ≠ "") :
    FactorProduct.text ascii [⟨f, .one⟩] = .ok s := by
  refine FactorProduct.text_eq_ok.mpr ⟨fun t ht => ?_, ?_⟩
  · rw [List.mem_singleton.mp ht, h, Factor.label_eq h]
  · have hempty : s.isEmpty = false := by simpa using hne
    rw [textWith, List.map_singleton, Factor.label_eq h]
    change render ascii [(s, Ratio.one)] = .ok s
    have habove : groupText ascii true [(s, .one)] = .ok s := by
      change Except.ok ((separator ascii).intercalate [s ++ ""]) = Except.ok s
      simp
    have hbelow : groupText ascii false [(s, .one)] = .ok "" := rfl
    rw [render, habove, hbelow]
    change Except.ok _ = Except.ok s
    rw [hempty]
    rfl

/-- The symbol of a unit is the text of its product; only the unit one has no symbol. -/
theorem Built.product_text {S : Factor → Prop} {same : Factor → Factor → Prop} (hu : u.Built)
    (hone : u.isOne = false) (hlegible : Legible ascii S same) (hS : Over S u.product)
    (h : u.symbolText ascii = .ok s) : FactorProduct.text ascii u.product = .ok s := by
  have hsimple := hu.reduced.simple
  rcases u.product_cases with ⟨-, hproduct⟩ | ⟨hform, -⟩ | ⟨recipe, hform, hproduct⟩
  · rw [hproduct] at hS ⊢
    have hclean := hlegible.clean _ s (over_cons.mp hS).1 h
    exact text_single h hclean.ne_empty
  · rw [isOne, hform] at hone
    cases hone
  · rw [hproduct] at hsimple ⊢
    rw [← symbolText_of_recipe hform hsimple, h]

theorem form_of_isOne (h : u.isOne = true) : u.form = .one := by
  unfold isOne at h
  split at h
  · assumption
  · cases h

theorem symbolText_of_isOne (h : u.isOne = true) : u.symbolText ascii = .ok "" := by
  obtain ⟨form, spec, origin⟩ := u
  obtain rfl : form = .one := form_of_isOne h
  rfl

end MeasureUnit

theorem Legible.same_of_symbolText {ascii : Bool} {S : Factor → Prop} {a b : MeasureUnit} {s : String}
    (h : Legible ascii S fun f g => f.cmp g = .eq) (ha : a.Built) (hb : b.Built)
    (hS : Over S a.product) (hS' : Over S b.product) (hs : a.symbolText ascii = .ok s)
    (hs' : b.symbolText ascii = .ok s) : a.same b = true := by
  have hsimple : Over (fun f => S f ∧ MeasureUnit.IsSimpleFactor f) a.product :=
    fun t ht => ⟨hS t ht, ha.reduced.simple t ht⟩
  have hsimple' : Over (fun f => S f ∧ MeasureUnit.IsSimpleFactor f) b.product :=
    fun t ht => ⟨hS' t ht, hb.reduced.simple t ht⟩
  have hlegible : Legible ascii (fun f => S f ∧ MeasureUnit.IsSimpleFactor f)
      fun f g => f.cmp g = .eq :=
    ⟨fun f s hf => h.clean f s hf.1, fun f g s hf hg => h.distinct f g s hf.1 hg.1⟩
  cases hone : a.isOne with
  | true =>
    cases hone' : b.isOne with
    | true =>
      have hcmp : a.cmp b = .eq := by
        rw [MeasureUnit.cmp_eq_form, MeasureUnit.form_of_isOne hone, MeasureUnit.form_of_isOne hone']
        rfl
      simp [MeasureUnit.same, hcmp]
    | false =>
      have hempty := hs.symm.trans (MeasureUnit.symbolText_of_isOne hone)
      have htext := hb.product_text hone' hlegible hsimple' hs'
      exact absurd (Except.ok.inj hempty) (hlegible.text_ne_empty hsimple' hb.reduced.canonical htext)
  | false =>
    have htext := ha.product_text hone hlegible hsimple hs
    cases hone' : b.isOne with
    | true =>
      have hempty := hs'.symm.trans (MeasureUnit.symbolText_of_isOne hone')
      exact absurd (Except.ok.inj hempty) (hlegible.text_ne_empty hsimple ha.reduced.canonical htext)
    | false =>
      have htext' := hb.product_text hone' hlegible hsimple' hs'
      apply ha.reduced.same_of_product hb.reduced
      exact hlegible.same_of_text (MeasureUnit.simple_orderedOn.mono fun _ hf => hf.2) hsimple hsimple'
        ha.reduced.canonical hb.reduced.canonical htext htext'

/-! ### The laws -/

/-- Texts tell products apart, as far as the texts of their factors are legible. -/
structure UnambiguousTexts (ascii : Bool) : Prop where
  /-- Factors with different texts make products with different texts, whatever the factors are. -/
  products : ∀ S a b s, Legible ascii S Eq → Over S a → Over S b → Canonical a → Canonical b →
    FactorProduct.text ascii a = .ok s → FactorProduct.text ascii b = .ok s → a = b
  /-- Where the comparison is an order, it is enough that the texts tell factors apart as far as the
  comparison does; the products are then equal as far as it goes. -/
  compared : ∀ S a b s, Atom.OrderedOn S → Legible ascii S (fun f g => f.cmp g = .eq) → Over S a →
    Over S b → Canonical a → Canonical b → FactorProduct.text ascii a = .ok s →
    FactorProduct.text ascii b = .ok s → PowerProduct.same a b = true
  dimensions : ∀ (a b : Dimension) s, Canonical a → Canonical b →
    (∀ t ∈ a ++ b, Clean ascii t.factor.symbol) → a.text ascii = .ok s → b.text ascii = .ok s → a = b
  /-- Units of any form are compared, so a unit that is named and one with a recipe print apart too. -/
  units : ∀ a b s, MeasureUnit.Built a → MeasureUnit.Built b →
    Legible ascii (fun f => ∃ t ∈ a.product ++ b.product, t.factor = f) (fun f g => f.cmp g = .eq) →
    a.symbolText ascii = .ok s → b.symbolText ascii = .ok s → a.same b = true

theorem unambiguous_texts (ascii : Bool) : UnambiguousTexts ascii where
  products S a b s h ha hb hcanonicalA hcanonicalB :=
    h.eq_of_text ha hb hcanonicalA hcanonicalB
  compared S a b s hS h ha hb hcanonicalA hcanonicalB :=
    h.same_of_text hS ha hb hcanonicalA hcanonicalB
  dimensions := by
    intro a b s hcanonicalA hcanonicalB hclean hs hs'
    have hasymm (d e : BaseDimension) (h : Atom.cmp d e = .lt) : Atom.cmp e d ≠ .lt := by
      rw [(BaseDimension.orderedOn.gt_iff_lt trivial trivial).mpr h]
      decide
    have hname (d e : BaseDimension) (_ : Clean ascii d.symbol) (_ : Clean ascii e.symbol)
        (h : d.symbol = e.symbol) : d = e := congrArg BaseDimension.mk h
    exact eq_of_textWith hasymm (fun _ hd => hd) hname
      (fun t ht => hclean t (List.mem_append_left _ ht))
      (fun t ht => hclean t (List.mem_append_right _ ht)) hcanonicalA hcanonicalB hs hs'
  units := by
    intro a b s ha hb h hs hs'
    exact h.same_of_symbolText ha hb (fun t ht => ⟨t, List.mem_append_left _ ht, rfl⟩)
      (fun t ht => ⟨t, List.mem_append_right _ ht, rfl⟩) hs hs'

/-- A symbol with a slash is not clean: it prints like a quotient. -/
example : Dimension.text false (Dimension.base "L/T") =
    Dimension.text false [⟨⟨"L"⟩, .one⟩, ⟨⟨"T"⟩, .minusOne⟩] := by rfl

/-- The text of a root of a length over a time belongs to no other product of lengths and times. -/
theorem unambiguous_texts_root (ascii : Bool) : ∃ root : FactorProduct, ∃ s,
    root = [⟨.dimension ⟨"L"⟩, ⟨1 / 2, by decide +kernel⟩⟩, ⟨.dimension ⟨"T"⟩, .minusOne⟩] ∧
      root.text ascii = .ok s ∧ ∀ e : FactorProduct,
        Over (fun f => f = .dimension ⟨"L"⟩ ∨ f = .dimension ⟨"T"⟩) e → Canonical e →
          e.text ascii = .ok s → e = root := by
  let root : FactorProduct := [⟨.dimension ⟨"L"⟩, ⟨1 / 2, by decide +kernel⟩⟩, ⟨.dimension ⟨"T"⟩, .minusOne⟩]
  have hlegible : Legible ascii (fun f => f = .dimension ⟨"L"⟩ ∨ f = .dimension ⟨"T"⟩) Eq := by
    constructor
    · rintro f s (rfl | rfl) h
      · exact Except.ok.inj h ▸ by cases ascii <;> decide +kernel
      · exact Except.ok.inj h ▸ by cases ascii <;> decide +kernel
    · rintro f g s (rfl | rfl) (rfl | rfl) h h'
      · rfl
      · exact absurd (Except.ok.inj (h.trans h'.symm)) (by decide)
      · exact absurd (Except.ok.inj (h.trans h'.symm)) (by decide)
      · rfl
  have hcanonical : Canonical root := by decide +kernel
  have hroot : Over (fun f => f = .dimension ⟨"L"⟩ ∨ f = .dimension ⟨"T"⟩) root := by
    simp [Over, root]
  obtain ⟨s, hs⟩ := exists_eq_ok (show (root.text ascii).isOk = true by
    cases ascii <;> decide +kernel)
  exact ⟨root, s, rfl, hs, fun e he hcanonicalE hs' =>
    (unambiguous_texts ascii).products _ e root s hlegible he hroot hcanonicalE hcanonical hs' hs⟩

end Metrology
