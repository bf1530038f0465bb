import Metrology.Proofs.Convertibility.Sides

/-!
# Taking out all pairs

Before it looks at any equation the search takes out all pairs of numerators and then all pairs of
denominators. What it takes out on one side depends on that side alone.
-/

namespace Metrology

namespace Question

open FactorProduct (SameAmounts)
open QuantitySpec (ofProduct)

variable {W : World} {e f e' f' : FactorProduct} {b b' : Bool} {p : Pairing}

/-- Pairs are taken out on one side until none is left, or until one does not convert. -/
inductive PairsOff (b : Bool) : FactorProduct → FactorProduct →
    Option (Convertibility × FactorProduct × FactorProduct) → Prop where
  | done {e f : FactorProduct} : extractPair e f b = .ok none → PairsOff b e f (some (.yes, e, f))
  | apart {e f : FactorProduct} {p : Pairing} : extractPair e f b = .ok (some p) → p.grade = .no →
      PairsOff b e f none
  | next {e f : FactorProduct} {p : Pairing}
      {left : Option (Convertibility × FactorProduct × FactorProduct)} :
      extractPair e f b = .ok (some p) → p.grade ≠ .no → PairsOff b p.source p.target left →
      PairsOff b e f (left.map fun r => (p.grade.min r.1, r.2))

/-- What is left has no pair on that side, and the other side is as it was. -/
structure Unpaired (W : World) (b : Bool) (e f c d : FactorProduct) : Prop where
  source_within : (ofProduct c).Within W
  target_within : (ofProduct d).Within W
  none_left : extractPair c d b = .ok none
  source_other : SameAmounts W e (!b) c (!b)
  target_other : SameAmounts W f (!b) d (!b)
  reached : Relation.ReflTransGen LeadsTo (.products e f) (.products c d)

namespace PairsOff

variable {left left' : Option (Convertibility × FactorProduct × FactorProduct)}

theorem unpaired (h : PairsOff b e f left) (he : (ofProduct e).Within W) (hf : (ofProduct f).Within W)
    {g : Convertibility} {c d : FactorProduct} (hleft : left = some (g, c, d)) :
    Unpaired W b e f c d := by
  induction h generalizing g with
  | done hnone =>
    obtain ⟨-, rfl, rfl⟩ := Option.some.inj hleft
    exact ⟨he, hf, hnone, .refl, .refl, .refl⟩
  | apart => cases hleft
  | next hpair hno _ ih =>
    obtain ⟨⟨g', c', d'⟩, hrest, hleft⟩ := Option.map_eq_some_iff.mp hleft
    obtain ⟨-, rfl, rfl⟩ := hleft
    obtain ⟨hsourceW, htargetW⟩ := pairing_within he hf hpair hno
    obtain ⟨hsource, htarget⟩ := pairing_other he hf hpair hno
    have hunpaired := ih hsourceW htargetW hrest
    exact
      { hunpaired with
        source_other := hsource.trans hunpaired.source_other
        target_other := htarget.trans hunpaired.target_other
        reached := hunpaired.reached.head ⟨0, .paired hpair hno⟩ }

/-- What the first pair decides. -/
theorem first (h : PairsOff b e f left) : ∃ x, extractPair e f b = .ok x ∧
    (x = none → left = some (.yes, e, f)) ∧ ∀ p, x = some p → (p.grade = .no → left = none) ∧
      (p.grade ≠ .no → ∃ rest, PairsOff b p.source p.target rest ∧
        left = rest.map fun r => (p.grade.min r.1, r.2)) := by
  cases h with
  | done hnone => exact ⟨none, hnone, fun _ => rfl, fun p hp => nomatch hp⟩
  | @apart _ _ p hpair hno =>
    refine ⟨some p, hpair, nofun, fun p' hp => ?_⟩
    obtain rfl := Option.some.inj hp
    exact ⟨fun _ => rfl, fun hyes => absurd hno hyes⟩
  | @next _ _ p rest hpair hno hrest =>
    refine ⟨some p, hpair, nofun, fun p' hp => ?_⟩
    obtain rfl := Option.some.inj hp
    exact ⟨fun hyes => absurd hyes hno, fun _ => ⟨rest, hrest, rfl⟩⟩

/-- Sides that hold the same amounts are paired off in the same way. -/
theorem same (h : PairsOff b e f left) (h' : PairsOff b' e' f' left') (he : (ofProduct e).Within W)
    (hf : (ofProduct f).Within W) (he' : (ofProduct e').Within W) (hf' : (ofProduct f').Within W)
    (hsource : SameAmounts W e b e' b') (htarget : SameAmounts W f b f' b') :
    (left = none ∧ left' = none) ∨ ∃ g c d c' d', left = some (g, c, d) ∧ left' = some (g, c', d') ∧
      SameAmounts W c b c' b' ∧ SameAmounts W d b d' b' := by
  induction h generalizing e' f' left' with
  | @done e f hnone =>
    obtain ⟨x', hx', hdone, -⟩ := h'.first
    rcases pairing_of_same he hf he' hf' hsource htarget hnone hx' with ⟨-, rfl⟩ | ⟨p, p', hp, -⟩
    · exact .inr ⟨.yes, e, f, e', f', rfl, hdone rfl, hsource, htarget⟩
    · cases hp
  | @apart e f p hpair hno =>
    obtain ⟨x', hx', -, hnext⟩ := h'.first
    rcases pairing_of_same he hf he' hf' hsource htarget hpair hx' with
      ⟨hp, -⟩ | ⟨q, p', hq, rfl, hgrade, -⟩
    · cases hp
    · obtain rfl := Option.some.inj hq
      exact .inl ⟨rfl, (hnext p' rfl).1 (hgrade ▸ hno)⟩
  | @next e f p rest hpair hno hrest ih =>
    obtain ⟨x', hx', -, hnext⟩ := h'.first
    rcases pairing_of_same he hf he' hf' hsource htarget hpair hx' with
      ⟨hp, -⟩ | ⟨q, p', hq, rfl, hgrade, hsame⟩
    · cases hp
    · obtain rfl := Option.some.inj hq
      obtain ⟨rest', hrest', rfl⟩ := (hnext p' rfl).2 (hgrade ▸ hno)
      obtain ⟨hsameSource, hsameTarget⟩ := hsame hno
      obtain ⟨hsourceW, htargetW⟩ := pairing_within he hf hpair hno
      obtain ⟨hsourceW', htargetW'⟩ := pairing_within he' hf' hx' (hgrade ▸ hno)
      rcases ih hrest' hsourceW htargetW hsourceW' htargetW' hsameSource hsameTarget with
        ⟨rfl, rfl⟩ | ⟨g, c, d, c', d', rfl, rfl, hc, hd⟩
      · exact .inl ⟨rfl, rfl⟩
      · exact .inr ⟨p.grade.min g, c, d, c', d', rfl, by rw [hgrade]; rfl, hc, hd⟩

end PairsOff

/-! ### The search takes out all pairs -/

theorem extractPair_empty_left (f : FactorProduct) (b : Bool) : extractPair [] f b = .ok none := rfl

theorem nonempty_of_pair (h : extractPair e f b = .ok (some p)) :
    e.isEmpty = false ∧ f.isEmpty = false := by
  cases e with
  | nil => cases (extractPair_empty_left f b).symm.trans h
  | cons =>
    cases f with
    | nil => cases (extractPair_empty _ b).symm.trans h
    | cons => exact ⟨rfl, rfl⟩

section Steps

variable {ask : Question → Except Fault Convertibility} {g : Convertibility} {n : Nat}
  (hb : b = true ∨ extractPair e f true = .ok none)

include hb

/-- Numerators come first, and denominators when there is no pair of numerators. -/
theorem stepProducts_pair (h : extractPair e f b = .ok (some p)) :
    stepProducts ask e f = stepPairing ask p := by
  obtain ⟨hsource, htarget⟩ := nonempty_of_pair h
  unfold stepProducts
  rw [if_neg (by simp [htarget]), if_neg (by simp [hsource])]
  cases b with
  | true =>
    rw [h]
    rfl
  | false =>
    rw [hb.resolve_left (by simp), h]
    rfl

theorem exists_extractPair (h : stepProducts ask e f = .ok g) : ∃ x, extractPair e f b = .ok x := by
  cases e with
  | nil => exact ⟨none, extractPair_empty_left f b⟩
  | cons s e =>
    cases f with
    | nil => exact ⟨none, extractPair_empty _ b⟩
    | cons t f =>
      unfold stepProducts at h
      rw [if_neg (by simp), if_neg (by simp)] at h
      obtain ⟨above, habove, h⟩ := bind_eq_ok.mp h
      cases b with
      | true => exact ⟨above, habove⟩
      | false =>
        obtain rfl := Except.ok.inj (habove.symm.trans (hb.resolve_left (by simp)))
        obtain ⟨below, hbelow, -⟩ := bind_eq_ok.mp h
        exact ⟨below, hbelow⟩

theorem pairsOff_of_answer (he : (ofProduct e).Within W) (hf : (ofProduct f).Within W)
    (h : answer n (.products e f) = .ok g) : ∃ left, PairsOff b e f left ∧
      (left = none ∧ g = .no ∨ ∃ g₁ c d g₂, left = some (g₁, c, d) ∧
        answer n (.products c d) = .ok g₂ ∧ g = g₁.min g₂) := by
  induction n generalizing e f g with
  | zero => cases h
  | succ n ih =>
    have hstep := h
    rw [answer_succ, step] at hstep
    obtain ⟨x, hx⟩ := exists_extractPair hb hstep
    cases x with
    | none => exact ⟨_, .done hx, .inr ⟨.yes, e, f, g, rfl, h, (g.yes_min).symm⟩⟩
    | some p =>
      rw [stepProducts_pair hb hx, stepPairing] at hstep
      by_cases hno : p.grade = .no
      · rw [if_pos hno] at hstep
        exact ⟨none, .apart hx hno, .inl ⟨rfl, (Except.ok.inj hstep).symm⟩⟩
      · rw [if_neg hno] at hstep
        obtain ⟨g', hg', hg⟩ := bind_eq_ok.mp hstep
        obtain rfl := Except.ok.inj hg
        obtain ⟨hsourceW, htargetW⟩ := pairing_within he hf hx hno
        have hb' : b = true ∨ extractPair p.source p.target true = .ok none := by
          refine hb.imp_right fun hnone => ?_
          cases b with
          | true => cases hnone.symm.trans hx
          | false =>
            obtain ⟨hsource, htarget⟩ := pairing_other he hf hx hno
            exact extractPair_none_of_same (hsource.quantities_eq he hsourceW)
              (htarget.quantities_eq hf htargetW) hnone
        obtain ⟨left, hleft, hrest⟩ := ih hb' hsourceW htargetW hg'
        refine ⟨_, .next hx hno hleft, ?_⟩
        rcases hrest with ⟨rfl, rfl⟩ | ⟨g₁, c, d, g₂, rfl, hg₂, rfl⟩
        · exact .inl ⟨rfl, Convertibility.min_no _⟩
        · exact .inr ⟨p.grade.min g₁, c, d, g₂, rfl, answer_mono n.le_succ hg₂,
            (Convertibility.min_assoc _ _ _).symm⟩

end Steps

end Question

end Metrology
