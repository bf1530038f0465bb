import Metrology.Proofs.Factor.Order

/-!
# Products that operations reach

Every product that the operations make from arbitrary terms is canonical. The invariant needs the
comparison of atoms to be an order. For factors it is one as soon as names are coherent, and not without:
two quantities that share a name but not their tree compare as equal to each other and differently to a
third one, which can come to stand between them.
-/

namespace Metrology

namespace PowerProduct

/-- What a sequence of operations makes from terms with atoms in `S`, where each operation has a result. -/
inductive Reachable {α : Type} [Atom α] (S : α → Prop) : PowerProduct α → Prop where
  | one : Reachable S one
  | single {factor : α} {power : Ratio} {c : PowerProduct α} : S factor →
      PowerProduct.single factor power = .ok c → Reachable S c
  | ofTerms {terms : List (Term α)} {c : PowerProduct α} : Over S terms →
      PowerProduct.ofTerms terms = .ok c → Reachable S c
  | mulTerm {a c : PowerProduct α} {t : Term α} : Reachable S a → S t.factor →
      a.mulTerm t = .ok c → Reachable S c
  | removeAt {a c : PowerProduct α} {position : Nat} : Reachable S a → position < a.length →
      a.removeAt position = .ok c → Reachable S c
  | mul {a b c : PowerProduct α} : Reachable S a → Reachable S b → a.mul b = .ok c → Reachable S c
  | div {a b c : PowerProduct α} : Reachable S a → Reachable S b → a.div b = .ok c → Reachable S c
  | pow {a c : PowerProduct α} {p : Ratio} : Reachable S a → a.pow p = .ok c → Reachable S c
  | inverse {a c : PowerProduct α} : Reachable S a → a.inverse = .ok c → Reachable S c

/-- Removing a term leaves the others in their order. -/
theorem sublist_of_removeAt {α : Type} {a c : PowerProduct α} {position : Nat}
    (h : a.removeAt position = .ok c) : c.Sublist a := by
  unfold removeAt at h
  split at h
  · cases h
  · split at h
    · cases h
    · split at h
      · exact Except.ok.inj h ▸ List.eraseIdx_sublist a position
      · exact Except.ok.inj h ▸ List.dropLast_sublist a

variable {α : Type} [Atom α] {S : α → Prop} {e : PowerProduct α}

theorem Reachable.over (h : Reachable S e) : Over S e := by
  induction h with
  | one => exact over_nil
  | single hfactor h => exact over_mulTerm over_nil hfactor h
  | ofTerms hterms h => exact over_mul over_nil hterms h
  | mulTerm _ hfactor h ih => exact over_mulTerm ih hfactor h
  | removeAt _ _ h ih => exact fun t ht => ih t ((sublist_of_removeAt h).mem ht)
  | mul _ _ h iha ihb => exact over_mul iha ihb h
  | div _ _ h iha ihb => exact over_div iha ihb h
  | pow _ h ih => exact over_pow ih h
  | inverse _ h ih => exact over_pow ih h

theorem Reachable.canonical (hS : Atom.OrderedOn S) (h : Reachable S e) : Canonical e := by
  induction h with
  | one => exact canonical_one
  | single hfactor h => exact canonical_mulTerm hS over_nil hfactor canonical_one h
  | ofTerms hterms h => exact canonical_mul hS over_nil hterms canonical_one h
  | mulTerm ha hfactor h ih => exact canonical_mulTerm hS ha.over hfactor ih h
  | removeAt _ _ h ih => exact ih.sublist (sublist_of_removeAt h)
  | mul ha hb h iha _ => exact canonical_mul hS ha.over hb.over iha h
  | div ha hb h iha _ => exact canonical_div hS ha.over hb.over iha h
  | pow _ h ih => exact canonical_pow ih h
  | inverse _ h ih => exact canonical_pow ih h

/-- Numerator and denominator of a power have no common divisor, and the denominator is positive. -/
def LowestTerms {α : Type} (e : PowerProduct α) : Prop :=
  ∀ t ∈ e, 0 < t.power.den ∧ t.power.num.natAbs.Coprime t.power.den

theorem lowestTerms {α : Type} (e : PowerProduct α) : LowestTerms e :=
  fun t _ => ⟨t.power.value.pos, t.power.value.reduced⟩

end PowerProduct

namespace FactorProduct

theorem reachable_canonical {P : NamedQuantity → Prop} (hP : NamedQuantity.Coherent P)
    {e : FactorProduct} (h : PowerProduct.Reachable (Factor.QuantitiesIn P) e) :
    PowerProduct.Canonical e ∧ PowerProduct.LowestTerms e :=
  ⟨h.canonical (Factor.orderedOn_of_coherent hP), PowerProduct.lowestTerms e⟩

/-- The root of a height twice, with a width in between and taken away again. -/
theorem reachable_canonical_heights :
    ∃ e c, PowerProduct.Reachable (Factor.QuantitiesIn World.lengths.Holds) e ∧ e.length = 2 ∧
      PowerProduct.removeAt e 1 = .ok c ∧ PowerProduct.Canonical c ∧ PowerProduct.LowestTerms c := by
  let half : Ratio := ⟨⟨1, 2, by decide, by decide⟩, by decide⟩
  let root : Term Factor := ⟨.quantity Catalog.Isq.height, half⟩
  let width : Term Factor := ⟨.quantity Catalog.Isq.width, .one⟩
  have hterms : PowerProduct.Over (Factor.QuantitiesIn World.lengths.Holds) [root, width, root] := by
    have hheight : World.lengths.Holds Catalog.Isq.height := World.lengths_holds (by simp)
    have hwidth : World.lengths.Holds Catalog.Isq.width := World.lengths_holds (by simp)
    simpa [root, width] using ⟨hheight, hwidth, hheight⟩
  obtain ⟨_, hresults⟩ := exists_eq_ok (show (do
    let e ← PowerProduct.ofTerms [root, width, root]
    let _ ← PowerProduct.removeAt e 1
    if e.length = 2 then .ok () else .error .tooManyFactors).isOk = true by decide +kernel)
  simp only [bind_eq_ok, guard_eq_ok] at hresults
  obtain ⟨e, he, c, hc, hlength⟩ := hresults
  have hreachable := PowerProduct.Reachable.ofTerms hterms he
  have hremoved := hreachable.removeAt (by omega) hc
  exact ⟨e, c, hreachable, hlength, hc,
    reachable_canonical (.of_unique fun _ _ => World.lengths.eq_of_name) hremoved⟩

section SharedName

def north : NamedQuantity := .ofDimension "z" (Dimension.base "L")

def middle : NamedQuantity := .ofDimension "y" (Dimension.base "L")

/-- Two quantities of one name, in different trees. -/
def south : NamedQuantity := .ofDimension "x" (Dimension.base "L")

def southOfNorth : NamedQuantity := .childOf "x" north

/-- A quantity, another one above it, and the namesake of the first above both. -/
def betweenNamesakes : FactorProduct :=
  [⟨.quantity south, .one⟩, ⟨.quantity middle, .one⟩, ⟨.quantity southOfNorth, .one⟩]

/-- A name that stands for two quantities puts equal factors into one product. -/
theorem shared_name_not_canonical :
    PowerProduct.ofTerms [⟨.quantity middle, .one⟩, ⟨.quantity southOfNorth, .one⟩,
        ⟨.quantity south, .one⟩] = .ok betweenNamesakes ∧
      PowerProduct.Reachable (fun _ => True) betweenNamesakes ∧
      (Factor.quantity south).cmp (.quantity southOfNorth) = .eq ∧
      ¬ PowerProduct.Canonical betweenNamesakes := by
  have hproduct : PowerProduct.ofTerms [⟨.quantity middle, .one⟩, ⟨.quantity southOfNorth, .one⟩,
      ⟨.quantity south, .one⟩] = .ok betweenNamesakes := rfl
  exact ⟨hproduct, .ofTerms (fun _ _ => trivial) hproduct, by decide +kernel, by decide +kernel⟩

end SharedName

end FactorProduct

end Metrology
