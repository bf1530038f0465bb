import Metrology.Proofs.Magnitude.Common

/-!
# Magnitudes that can be built

A magnitude is built from ratios and constants by products, quotients, powers and common parts. It is
canonical, and since factorization yields positive numbers only, so are its primes.
-/

namespace Metrology

/-! ### Factorization yields positive numbers -/

theorem pos_of_mem_lastFactor {n q : Nat} (h : q ∈ lastFactor n) : 0 < q := by
  unfold lastFactor at h
  split at h
  · cases h
  · obtain rfl := List.mem_singleton.mp h
    omega

section Search

variable {n p q : Nat} {search : Nat → List Nat} (hsearch : ∀ m, ∀ q ∈ search m, 0 < q)

include hsearch

theorem pos_of_mem_splitFactor (hp : 0 < p) (h : q ∈ splitFactor p n search) : 0 < q := by
  rcases List.mem_append.mp h with h | h
  · exact List.eq_of_mem_replicate h ▸ hp
  · exact hsearch _ q h

theorem pos_of_mem_unlessKnownPrime (h : q ∈ unlessKnownPrime n search) : 0 < q := by
  unfold unlessKnownPrime at h
  split at h
  · rename_i hknown
    obtain rfl := List.mem_singleton.mp h
    apply Nat.pos_of_ne_zero
    rintro rfl
    cases hknown
  · exact hsearch n q h

end Search

theorem pos_of_mem_wheelFactors {fuel p n q : Nat} (hp : 0 < p) (h : q ∈ wheelFactors fuel p n) :
    0 < q := by
  induction fuel generalizing p n q with
  | zero => exact pos_of_mem_lastFactor h
  | succ fuel ih =>
    unfold wheelFactors at h
    split at h
    · exact pos_of_mem_lastFactor h
    · split at h
      · refine pos_of_mem_splitFactor (fun m q h => ?_) hp h
        refine pos_of_mem_splitFactor (fun m q h => ?_) (Nat.add_pos_left hp 2) h
        exact pos_of_mem_unlessKnownPrime (fun m q h => ih (Nat.add_pos_left hp 6) h) h
      · exact ih (Nat.add_pos_left hp 6) h

theorem pos_of_mem_primeFactors {n q : Nat} (h : q ∈ primeFactors n) : 0 < q := by
  refine pos_of_mem_splitFactor (fun m q h => ?_) two_pos h
  refine pos_of_mem_splitFactor (fun m q h => ?_) three_pos h
  exact pos_of_mem_unlessKnownPrime (fun m q h => pos_of_mem_wheelFactors (by omega) h) h

/-! ### Magnitudes -/

def MagnitudeBase.IsPositive : MagnitudeBase → Prop
  | .prime p => 0 < p
  | .constant _ => True

namespace Magnitude

open PowerProduct

/-- A canonical magnitude of positive primes. -/
structure Regular (m : Magnitude) : Prop where
  canonical : Canonical m
  positive : Over MagnitudeBase.IsPositive m

/-- The magnitudes that the operations on magnitudes construct, each in any number of steps. Integers,
fractions and prefixes are ratios and their powers; roots and inverses are powers. -/
inductive Built : Magnitude → Prop where
  | ofRatio {r : Ratio} {m : Magnitude} : Magnitude.ofRatio r = .ok m → Built m
  | constant {c : Constant} {m : Magnitude} : Magnitude.constant c = .ok m → Built m
  | mul {a b m : Magnitude} : Built a → Built b → PowerProduct.mul a b = .ok m → Built m
  | div {a b m : Magnitude} : Built a → Built b → PowerProduct.div a b = .ok m → Built m
  | pow {a m : Magnitude} {p : Ratio} : Built a → PowerProduct.pow a p = .ok m → Built m
  | common {a b m : Magnitude} : Built a → Built b → Magnitude.common a b = .ok m → Built m

variable {a b m : Magnitude}

theorem Regular.mul (ha : a.Regular) (hb : b.Regular) (h : PowerProduct.mul a b = .ok m) :
    m.Regular where
  canonical := canonical_mul MagnitudeBase.orderedOn a.over_all b.over_all ha.canonical h
  positive := over_mul ha.positive hb.positive h

theorem Regular.div (ha : a.Regular) (hb : b.Regular) (h : PowerProduct.div a b = .ok m) :
    m.Regular where
  canonical := canonical_div MagnitudeBase.orderedOn a.over_all b.over_all ha.canonical h
  positive := over_div ha.positive hb.positive h

theorem Regular.powerOf_div (ha : a.Regular) (hb : b.Regular) (h : PowerProduct.div a b = .ok m)
    (f : MagnitudeBase) : (m.powerOf f).value = (a.powerOf f).value - (b.powerOf f).value :=
  PowerProduct.powerOf_div MagnitudeBase.orderedOn a.over_all b.over_all ha.canonical hb.canonical h
    trivial

theorem Regular.pow {p : Ratio} (ha : a.Regular) (h : PowerProduct.pow a p = .ok m) : m.Regular where
  canonical := canonical_pow ha.canonical h
  positive := over_pow ha.positive h

theorem regular_ofTerms {terms : List (Term MagnitudeBase)}
    (hterms : Over MagnitudeBase.IsPositive terms) (h : ofTerms terms = .ok m) : m.Regular where
  canonical := canonical_mul MagnitudeBase.orderedOn over_nil (over_all _) canonical_one h
  positive := over_mul over_nil hterms h

theorem regular_ofNat {n : Nat} (h : ofNat n = .ok m) : m.Regular := by
  refine regular_ofTerms (fun t ht => ?_) h
  obtain ⟨q, hq, rfl⟩ := List.mem_map.mp ht
  exact pos_of_mem_primeFactors hq

theorem regular_ofRatio {r : Ratio} (h : ofRatio r = .ok m) : m.Regular := by
  unfold ofRatio at h
  split at h
  · obtain ⟨a, ha, h⟩ := bind_eq_ok.mp h
    obtain ⟨b, hb, hdiv⟩ := bind_eq_ok.mp h
    exact (regular_ofNat ha).div (regular_ofNat hb) hdiv
  · cases h

theorem regular_constant {c : Constant} (h : constant c = .ok m) : m.Regular := by
  have hover : Over MagnitudeBase.IsPositive [⟨.constant c, .one⟩] :=
    over_cons.mpr ⟨trivial, over_nil⟩
  exact regular_ofTerms hover (mul_cons_eq_ok.mpr ⟨m, h, mul_nil m⟩)

theorem Built.regular (h : m.Built) : m.Regular := by
  induction h with
  | ofRatio h => exact regular_ofRatio h
  | constant h => exact regular_constant h
  | mul _ _ h ha hb => exact ha.mul hb h
  | div _ _ h ha hb => exact ha.div hb h
  | pow _ h ha => exact ha.pow h
  | common _ _ h ha hb => exact ⟨canonical_common h, over_common ha.positive hb.positive h⟩

end Magnitude

/-! ### Magnitudes inside units -/

/-- The magnitude that a form multiplies the unit inside it by. -/
def UnitForm.magnitude? : UnitForm → Option Magnitude
  | .defined _ _ magnitude _ | .prefixed _ magnitude _ | .scaled magnitude _ => some magnitude
  | _ => none

end Metrology
