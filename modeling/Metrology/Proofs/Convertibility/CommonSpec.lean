import Metrology.Convertibility.CommonSpec
import Metrology.Proofs.Convertibility.KindRoot

/-!
# Safety of the common specification

Both operands of an addition should convert implicitly to their common specification. They do if it is
found among the operands and their ancestors. If the root of a kind has to stand for both, nothing makes
sure that the operands reach it: kinds never do, and products do if nothing is mixed in them.
-/

namespace Metrology

namespace QuantitySpec

def Becomes (s t : QuantitySpec) : Prop := s.implicitlyConvertible t = .ok true

/-- One operand becomes the other, or both are named quantities of one tree. -/
def Related (a b : QuantitySpec) : Prop :=
  a.same b = true ∨ a.Becomes b ∨ b.Becomes a ∨
    ∃ p q, a.named? = some p ∧ b.named? = some q ∧ p.haveCommonBase q = true

section Common

variable {W : World} {s t a b c : QuantitySpec}

theorem becomes_iff : s.Becomes t ↔ s.convertible t = .ok .yes := by
  unfold Becomes implicitlyConvertible
  constructor
  · intro h
    obtain ⟨g, hg, hresult⟩ := bind_eq_ok.mp h
    rw [hg, of_decide_eq_true (pure_eq_ok.mp hresult)]
  · intro h
    rw [h]
    rfl

theorem not_becomes_iff {implicit : Bool} (h : s.implicitlyConvertible t = .ok implicit) :
    ¬ s.Becomes t ↔ implicit = false := by
  rw [Becomes, h, Except.ok.injEq, Bool.not_eq_true]

theorem becomes_of_same (h : s.same t = true) : s.Becomes t :=
  becomes_iff.mpr (Question.answer_same h _)

theorem preferred_eq (a b : QuantitySpec) : a.preferred b = a ∨ a.preferred b = b := by
  unfold preferred
  dsimp only
  split_ifs <;> simp

/-! ### The ways to a common specification -/

theorem commonAncestor?_eq_some {p q : NamedQuantity} (h : commonAncestor? a b p q = .ok (some c)) :
    a.Becomes c ∧ b.Becomes c := by
  obtain ⟨base, -, h⟩ := bind_eq_ok.mp h
  obtain ⟨forth, hforth, h⟩ := bind_eq_ok.mp h
  cases forth with
  | false => cases h
  | true =>
    obtain ⟨back, hback, h⟩ := bind_eq_ok.mp h
    cases back with
    | false => cases h
    | true =>
      obtain rfl := Option.some.inj (pure_eq_ok.mp h)
      exact ⟨hforth, hback⟩

theorem commonKindRoot?_eq_some (h : commonKindRoot? a b = .ok (some c)) :
    ∃ aRoot bRoot, a.kindTreeRoot = .ok aRoot ∧ b.kindTreeRoot = .ok bRoot ∧
      (aRoot.Becomes bRoot ∧ c = bRoot ∨ bRoot.Becomes aRoot ∧ c = aRoot) := by
  obtain ⟨aRoot, haRoot, h⟩ := bind_eq_ok.mp h
  obtain ⟨bRoot, hbRoot, h⟩ := bind_eq_ok.mp h
  obtain ⟨forth, hforth, h⟩ := bind_eq_ok.mp h
  refine ⟨aRoot, bRoot, haRoot, hbRoot, ?_⟩
  cases forth with
  | true => exact .inl ⟨hforth, (Option.some.inj (pure_eq_ok.mp h)).symm⟩
  | false =>
    obtain ⟨back, hback, h⟩ := bind_eq_ok.mp h
    cases back with
    | true => exact .inr ⟨hback, (Option.some.inj (pure_eq_ok.mp h)).symm⟩
    | false => cases h

theorem exists_directions {x : Option QuantitySpec} (hsame : a.same b = false) (h : a.common? b = .ok x) :
    ∃ forth back, a.implicitlyConvertible b = .ok forth ∧ b.implicitlyConvertible a = .ok back := by
  unfold common? at h
  rw [if_neg (by simp [hsame])] at h
  obtain ⟨forth, hforth, h⟩ := bind_eq_ok.mp h
  obtain ⟨back, hback, -⟩ := bind_eq_ok.mp h
  exact ⟨forth, back, hforth, hback⟩

theorem common?_of_becomes {forth back : Bool} (hsame : a.same b = false)
    (hforth : a.implicitlyConvertible b = .ok forth) (hback : b.implicitlyConvertible a = .ok back)
    (hone : forth = true ∨ back = true) :
    a.common? b = .ok (some (if forth && back then a.preferred b else if forth then b else a)) := by
  unfold common?
  rw [if_neg (by simp [hsame]), hforth, hback]
  cases forth with
  | true => cases back <;> rfl
  | false =>
    obtain rfl : back = true := by simpa using hone
    rfl

theorem common?_becomes {forth back : Bool} (ha : a.Within W) (hb : b.Within W)
    (hsame : a.same b = false) (hforth : a.implicitlyConvertible b = .ok forth)
    (hback : b.implicitlyConvertible a = .ok back) (hone : forth = true ∨ back = true)
    (h : a.common? b = .ok (some c)) : a.Related b ∧ a.Becomes c ∧ b.Becomes c := by
  have haself : a.Becomes a := becomes_of_same ha.same_self
  have hbself : b.Becomes b := becomes_of_same hb.same_self
  rw [common?_of_becomes hsame hforth hback hone] at h
  obtain rfl := Option.some.inj (Except.ok.inj h)
  cases forth <;> cases back
  case true.true =>
    refine ⟨.inr (.inl hforth), ?_⟩
    rcases preferred_eq a b with heq | heq
    · exact heq.symm ▸ ⟨haself, hback⟩
    · exact heq.symm ▸ ⟨hforth, hbself⟩
  case true.false => exact ⟨.inr (.inl hforth), hforth, hbself⟩
  case false.true => exact ⟨.inr (.inr (.inl hback)), haself, hback⟩
  case false.false => simp at hone

theorem exists_grade_of_not_implicit (h : s.implicitlyConvertible t = .ok false) :
    ∃ g, s.convertible t = .ok g ∧ g ≠ .yes := by
  obtain ⟨g, hg, hresult⟩ := bind_eq_ok.mp h
  exact ⟨g, hg, of_decide_eq_false (pure_eq_ok.mp hresult)⟩

/-- Operands of which neither becomes the other meet in an ancestor if they are quantities of one tree,
else in the root of a kind, if they meet at all. -/
theorem common?_apart {x : Option QuantitySpec} (hsame : a.same b = false)
    (hforth : a.implicitlyConvertible b = .ok false) (hback : b.implicitlyConvertible a = .ok false)
    (h : a.common? b = .ok x) :
    (∃ p q, a.named? = some p ∧ b.named? = some q ∧ p.haveCommonBase q = true ∧
      commonAncestor? a b p q = .ok x) ∨ ¬ a.Related b ∧ commonKindRoot? a b = .ok x := by
  unfold common? at h
  rw [if_neg (by simp [hsame]), hforth, hback] at h
  have hunrelated : (∀ p q, a.named? = some p → b.named? = some q → p.haveCommonBase q = false) →
      ¬ a.Related b := by
    rintro hnames (hsame' | hforth' | hback' | ⟨p, q, hp, hq, hcommon⟩)
    · rw [hsame] at hsame'
      cases hsame'
    · exact (not_becomes_iff hforth).mpr rfl hforth'
    · exact (not_becomes_iff hback).mpr rfl hback'
    · rw [hnames p q hp hq] at hcommon
      cases hcommon
  simp only [bind, Except.bind] at h
  cases hp : a.named? with
  | none =>
    rw [hp] at h
    exact .inr ⟨hunrelated fun p q hp' _ => by simp [hp] at hp', h⟩
  | some p =>
    cases hq : b.named? with
    | none =>
      rw [hp, hq] at h
      exact .inr ⟨hunrelated fun p q _ hq' => by simp [hq] at hq', h⟩
    | some q =>
      rw [hp, hq] at h
      cases hcommon : p.haveCommonBase q with
      | true =>
        have hancestor : commonAncestor? a b p q = .ok x := by simpa [hcommon] using h
        exact .inl ⟨p, q, rfl, rfl, hcommon, hancestor⟩
      | false =>
        have hroot : commonKindRoot? a b = .ok x := by simpa [hcommon] using h
        refine .inr ⟨hunrelated fun p' q' hp' hq' => ?_, hroot⟩
        rw [hp] at hp'
        rw [hq] at hq'
        rw [← Option.some.inj hp', ← Option.some.inj hq', hcommon]

theorem common?_of_not_becomes (hsame : a.same b = false) (hforth : a.implicitlyConvertible b = .ok false)
    (hback : b.implicitlyConvertible a = .ok false) (h : a.common? b = .ok (some c)) :
    a.Related b ∧ a.Becomes c ∧ b.Becomes c ∨ ¬ a.Related b ∧ commonKindRoot? a b = .ok (some c) := by
  rcases common?_apart hsame hforth hback h with ⟨p, q, hp, hq, hcommon, hancestor⟩ | hroot
  · exact .inl ⟨.inr (.inr (.inr ⟨p, q, hp, hq, hcommon⟩)), commonAncestor?_eq_some hancestor⟩
  · exact .inr hroot

/-- The common specification is safe, or else it is the root of the kind of one of two operands that are
not related. -/
theorem common?_eq_some (ha : a.Within W) (hb : b.Within W) (h : a.common? b = .ok (some c)) :
    a.Related b ∧ a.Becomes c ∧ b.Becomes c ∨
      ¬ a.Related b ∧ commonKindRoot? a b = .ok (some c) ∧
        (∃ g, a.convertible b = .ok g ∧ g ≠ .yes) ∧ ∃ g, b.convertible a = .ok g ∧ g ≠ .yes := by
  cases hsame : a.same b with
  | true =>
    have haself : a.Becomes a := becomes_of_same ha.same_self
    obtain rfl := ha.eq_of_same hb hsame
    unfold common? at h
    rw [if_pos hsame] at h
    obtain rfl := Option.some.inj (pure_eq_ok.mp h)
    exact .inl ⟨.inl hsame, haself, haself⟩
  | false =>
    obtain ⟨forth, back, hforth, hback⟩ := exists_directions hsame h
    by_cases hone : forth = true ∨ back = true
    · exact .inl (common?_becomes ha hb hsame hforth hback hone h)
    · obtain ⟨rfl, rfl⟩ : forth = false ∧ back = false := by simpa using hone
      rcases common?_of_not_becomes hsame hforth hback h with hrelated | ⟨hunrelated, hroot⟩
      · exact .inl hrelated
      · exact .inr ⟨hunrelated, hroot, exists_grade_of_not_implicit hforth,
          exists_grade_of_not_implicit hback⟩

/-- Where a kind has to stand for an operand, the operand that is no root does not reach it: if it did,
it would have become the other operand. -/
theorem not_becomes_root {aRoot bRoot : QuantitySpec} {g : Convertibility} (ha : a.Within W)
    (hb : b.Within W) (haRoot : a.kindTreeRoot = .ok aRoot) (hbRoot : b.kindTreeRoot = .ok bRoot)
    (hroots : aRoot.Becomes bRoot) (hg : a.convertible b = .ok g) (hne : g ≠ .yes)
    (hkind : a.isKindOf = true ∨ b.isKindOf = true) : ¬ a.Becomes bRoot := by
  intro hreach
  cases hakind : a.isKindOf with
  | true => exact hne (convertible_of_roots ha hb hakind haRoot hbRoot (becomes_iff.mp hroots) hg)
  | false =>
    have hbkind : b.isKindOf = true := by simpa [hakind] using hkind
    exact hne (convertible_of_target_root ha hb hakind hbkind hbRoot (becomes_iff.mp hreach) hg)

/-- What the common specification promises. Related operands both reach it. Of operands that are not
related, only two that are no kinds can. -/
structure CommonSafety (a b c : QuantitySpec) : Prop where
  safe : a.Related b → a.Becomes c ∧ b.Becomes c
  not_kind : ¬ a.Related b → a.Becomes c → b.Becomes c → a.isKindOf = false ∧ b.isKindOf = false
  /-- What stands for operands that are not related is the root of the kind of one of them. -/
  root : ¬ a.Related b → a.kindTreeRoot = .ok c ∨ b.kindTreeRoot = .ok c
  /-- An operand in which nothing is mixed reaches the root of its own kind. -/
  unmixed : ∀ s, s = a ∨ s = b → s.isKindOf = false → s.Unmixed → s.kindTreeRoot = .ok c →
    ∀ g, s.convertible c = .ok g → g = .yes

theorem common_safety (ha : a.Within W) (hb : b.Within W) (h : a.common? b = .ok (some c)) :
    CommonSafety a b c := by
  constructor
  case unmixed =>
    rintro s (rfl | rfl) hkind hunmixed hroot g hg
    · exact convertible_kindTreeRoot ha hkind hunmixed hroot hg
    · exact convertible_kindTreeRoot hb hkind hunmixed hroot hg
  case root =>
    intro hunrelated
    rcases common?_eq_some ha hb h with ⟨hrelated, -⟩ | ⟨-, hroot, -⟩
    · exact absurd hrelated hunrelated
    · obtain ⟨aRoot, bRoot, haRoot, hbRoot, ⟨-, rfl⟩ | ⟨-, rfl⟩⟩ := commonKindRoot?_eq_some hroot
      · exact .inr hbRoot
      · exact .inl haRoot
  case safe =>
    intro hrelated
    rcases common?_eq_some ha hb h with ⟨-, hsafe⟩ | ⟨hunrelated, -⟩
    · exact hsafe
    · exact absurd hrelated hunrelated
  case not_kind =>
    intro hunrelated hac hbc
    rcases common?_eq_some ha hb h with ⟨hrelated, -⟩ | ⟨-, hroot, ⟨g, hg, hgne⟩, k, hk, hkne⟩
    · exact absurd hrelated hunrelated
    · obtain ⟨aRoot, bRoot, haRoot, hbRoot, hroots⟩ := commonKindRoot?_eq_some hroot
      have hnokinds : ¬ (a.isKindOf = true ∨ b.isKindOf = true) := by
        intro hkind
        rcases hroots with ⟨hroots, rfl⟩ | ⟨hroots, rfl⟩
        · exact not_becomes_root ha hb haRoot hbRoot hroots hg hgne hkind hac
        · exact not_becomes_root hb ha hbRoot haRoot hroots hk hkne hkind.symm hbc
      simpa using hnokinds

end Common

section Lengths

open Catalog

/-- The squares of a width and of a height are squares of a length. -/
theorem common_safety_squares : ∃ a b c, (named Isq.width).pow ⟨2, by decide⟩ = .ok a ∧
    (named Isq.height).pow ⟨2, by decide⟩ = .ok b ∧ a.common? b = .ok (some c) ∧
    CommonSafety a b c ∧ a.Becomes c ∧ b.Becomes c := by
  have hresults : (do
      let a ← (named Isq.width).pow ⟨2, by decide⟩
      let b ← (named Isq.height).pow ⟨2, by decide⟩
      (← a.common? b).elim (return false) fun c => do
        return (← a.implicitlyConvertible c) && (← b.implicitlyConvertible c)) = .ok true := by
    decide +kernel
  obtain ⟨a, ha, hresults⟩ := bind_eq_ok.mp hresults
  obtain ⟨b, hb, hresults⟩ := bind_eq_ok.mp hresults
  obtain ⟨c?, hc, hresults⟩ := bind_eq_ok.mp hresults
  cases c? with
  | none => cases hresults
  | some c =>
    obtain ⟨forth, hforth, hresults⟩ := bind_eq_ok.mp hresults
    obtain ⟨back, hback, hresults⟩ := bind_eq_ok.mp hresults
    obtain ⟨rfl, rfl⟩ : forth = true ∧ back = true := by
      simpa [Bool.and_eq_true] using pure_eq_ok.mp hresults
    have hwidth : (named Isq.width).Within World.lengths := .named (World.lengths_holds (by simp))
    have hheight : (named Isq.height).Within World.lengths := .named (World.lengths_holds (by simp))
    exact ⟨a, b, c, ha, hb, hc, common_safety (hwidth.pow ha) (hheight.pow hb) hc, hforth, hback⟩

/-- The cube of a height divided by a width and a distance has the dimension of a length, so the root
that stands for it and for a height is the length. It does not reach that root. -/
theorem common_not_safe : ¬ ∀ (W : World) (a b c : QuantitySpec), a.Within W → b.Within W →
    a.common? b = .ok (some c) → a.Becomes c ∧ b.Becomes c := by
  intro hsafe
  have hresults : (do
      let cube ← (named Isq.height).pow ⟨3, by decide⟩
      let quotient ← cube.div (named Isq.width)
      let a ← quotient.div (named Isq.distance)
      (← a.common? (named Isq.height)).elim (return true) a.implicitlyConvertible) = .ok false := by
    decide +kernel
  obtain ⟨cube, hcube, hresults⟩ := bind_eq_ok.mp hresults
  obtain ⟨quotient, hquotient, hresults⟩ := bind_eq_ok.mp hresults
  obtain ⟨a, ha, hresults⟩ := bind_eq_ok.mp hresults
  obtain ⟨c?, hc, hresults⟩ := bind_eq_ok.mp hresults
  cases c? with
  | none => cases hresults
  | some c =>
    have hheight : (named Isq.height).Within World.lengths := .named (World.lengths_holds (by simp))
    have hwidth : (named Isq.width).Within World.lengths := .named (World.lengths_holds (by simp))
    have hdistance : (named Isq.distance).Within World.lengths :=
      .named (World.lengths_holds (by simp))
    have haW : a.Within World.lengths := ((hheight.pow hcube).div hwidth hquotient).div hdistance ha
    exact (not_becomes_iff hresults).mpr rfl (hsafe World.lengths a _ c haW hheight hc).1

end Lengths

end QuantitySpec

end Metrology
