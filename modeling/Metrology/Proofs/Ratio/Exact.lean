import Metrology.Proofs.Ratio.Fraction

/-!
# The fractions that arithmetic reaches

Whatever is calculated from 64-bit integers is in lowest terms with a positive denominator, and every
such fraction can be reached. Two of them are equal field by field where they are equal as rational
numbers, and they are ordered as these are. A calculation fails where its exact result has no lowest
terms in 64 bits, and nowhere else: the wide words between never overflow, not even for the least
numerator.
-/

namespace Metrology

namespace Fraction

/-- The fractions that the operations construct from 64-bit integers, each in any number of steps. A
decoded fraction is one that was checked. -/
inductive Reachable : Fraction → Prop where
  | integer {n : Int} : Fits64 n → Reachable (integer n)
  | new {n d : Int} {f : Fraction} : Fits64 n → Fits64 d → Fraction.new n d = .ok f → Reachable f
  | checkedNew {n d : Int} {f : Fraction} : Fits64 n → Fits64 d → Fraction.checkedNew n d = .ok f →
      Reachable f
  | neg {a f : Fraction} : Reachable a → a.neg = .ok f → Reachable f
  | abs {a f : Fraction} : Reachable a → a.abs = .ok f → Reachable f
  | recip {a f : Fraction} : Reachable a → a.recip = .ok f → Reachable f
  | min {a b f : Fraction} : Reachable a → Reachable b → a.min b = .ok f → Reachable f
  | add {a b f : Fraction} : Reachable a → Reachable b → a.add b = .ok f → Reachable f
  | sub {a b f : Fraction} : Reachable a → Reachable b → a.sub b = .ok f → Reachable f
  | mul {a b f : Fraction} : Reachable a → Reachable b → a.mul b = .ok f → Reachable f
  | div {a b f : Fraction} : Reachable a → Reachable b → a.div b = .ok f → Reachable f
  | checkedAdd {a b f : Fraction} : Reachable a → Reachable b → a.checkedAdd b = .ok f → Reachable f
  | checkedMul {a b f : Fraction} : Reachable a → Reachable b → a.checkedMul b = .ok f → Reachable f
  | checkedDiv {a b f : Fraction} : Reachable a → Reachable b → a.checkedDiv b = .ok f → Reachable f

/-- Lowest terms in 64 bits, with a positive denominator. -/
structure Lowest (f : Fraction) : Prop where
  num : Fits64 f.num
  den : Fits64 f.den
  positive : 0 < f.den
  coprime : f.num.gcd f.den = 1

variable {f : Fraction} {a b : Ratio}

/-- A fraction in lowest terms is a ratio in words. -/
theorem lowest_iff : f.Lowest ↔ ∃ r : Ratio, r.words = f := by
  constructor
  · intro h
    have hfitted := fitted_of_coprime h.positive h.coprime
    have hnum := h.num
    have hden := h.den
    unfold Fits64 at hnum hden
    rw [fitted, if_neg (by omega)] at hfitted
    obtain ⟨r, -, hwords⟩ := Option.map_eq_some_iff.mp hfitted.symm
    exact ⟨r, hwords⟩
  · rintro ⟨r, rfl⟩
    exact ⟨r.fits.1, r.fits.2, Int.natCast_pos.mpr r.den_pos, r.value.reduced⟩

/-! ### What is reached -/

theorem exists_of_exactResult {ε : Type} {otherwise : ε} {q : Rat} (h : exactResult otherwise q = .ok f) :
    ∃ r : Ratio, r.words = f :=
  (exactResult_eq_ok.mp h).imp fun _ hr => hr.2

theorem sub_words (ha : RatFits (-b.value)) :
    a.words.sub b.words = exactResult .overflow (a.value - b.value) := by
  have hneg : b.words.neg = .ok (Ratio.words ⟨-b.value, ha⟩) := by
    rw [neg_words]
    exact exactResult_eq_ok.mpr ⟨_, rfl, rfl⟩
  rw [sub, hneg]
  exact (add_words a ⟨-b.value, ha⟩).trans (by rw [sub_eq_add_neg])

theorem sub_words_of_not_fits (ha : ¬ RatFits (-b.value)) : a.words.sub b.words = .error .overflow := by
  rw [sub, neg_words, exactResult_of_not_fits ha]
  rfl

theorem div_words_zero (ha : b.value = 0) : a.words.div b.words = .error .ratioDividedByZero :=
  if_pos (Ratio.num_eq_zero.mpr ha)

theorem checkedDiv_words_zero (ha : b.value = 0) :
    a.words.checkedDiv b.words = .error (.reported .zeroDenominator) :=
  if_pos (Ratio.num_eq_zero.mpr ha)

theorem exists_of_div (h : a.words.div b.words = .ok f) : ∃ r : Ratio, r.words = f := by
  by_cases hzero : b.value = 0
  · rw [div_words_zero hzero] at h
    cases h
  · exact exists_of_exactResult (div_words a hzero ▸ h)

/-- Every operation gives a ratio in words when its operands are ratios in words. -/
theorem Reachable.exists_ratio (h : Reachable f) : ∃ r : Ratio, r.words = f := by
  induction h with
  | @integer n hn =>
    have hfits : RatFits n := ⟨hn, by rw [Rat.den_intCast]; decide⟩
    exact ⟨⟨n, hfits⟩, rfl⟩
  | @new n d f hn hd h =>
    by_cases hzero : d = 0
    · subst hzero
      cases h
    · exact exists_of_exactResult (new_eq hn hd hzero ▸ h)
  | @checkedNew n d f hn hd h =>
    by_cases hzero : d = 0
    · subst hzero
      cases h
    · exact exists_of_exactResult (checkedNew_eq hn hd hzero ▸ h)
  | neg _ h ha =>
    obtain ⟨a, rfl⟩ := ha
    exact exists_of_exactResult (neg_words a ▸ h)
  | abs _ h ha =>
    obtain ⟨a, rfl⟩ := ha
    unfold Fraction.abs at h
    split at h
    · exact exists_of_exactResult (neg_words a ▸ h)
    · exact ⟨a, Except.ok.inj h⟩
  | recip _ h ha =>
    obtain ⟨a, rfl⟩ := ha
    exact exists_of_div (a := .one) h
  | min _ _ h ha hb =>
    obtain ⟨a, rfl⟩ := ha
    obtain ⟨b, rfl⟩ := hb
    exact ⟨a.min b, Except.ok.inj ((min_words a b).symm.trans h)⟩
  | add _ _ h ha hb =>
    obtain ⟨a, rfl⟩ := ha
    obtain ⟨b, rfl⟩ := hb
    exact exists_of_exactResult (add_words a b ▸ h)
  | sub _ _ h ha hb =>
    obtain ⟨a, rfl⟩ := ha
    obtain ⟨b, rfl⟩ := hb
    by_cases hfits : RatFits (-b.value)
    · exact exists_of_exactResult (sub_words hfits ▸ h)
    · rw [sub_words_of_not_fits hfits] at h
      cases h
  | mul _ _ h ha hb =>
    obtain ⟨a, rfl⟩ := ha
    obtain ⟨b, rfl⟩ := hb
    exact exists_of_exactResult (mul_words a b ▸ h)
  | div _ _ h ha hb =>
    obtain ⟨a, rfl⟩ := ha
    obtain ⟨b, rfl⟩ := hb
    exact exists_of_div h
  | checkedAdd _ _ h ha hb =>
    obtain ⟨a, rfl⟩ := ha
    obtain ⟨b, rfl⟩ := hb
    exact exists_of_exactResult (checkedAdd_words a b ▸ h)
  | checkedMul _ _ h ha hb =>
    obtain ⟨a, rfl⟩ := ha
    obtain ⟨b, rfl⟩ := hb
    exact exists_of_exactResult (checkedMul_words a b ▸ h)
  | checkedDiv _ _ h ha hb =>
    obtain ⟨a, rfl⟩ := ha
    obtain ⟨b, rfl⟩ := hb
    by_cases hzero : b.value = 0
    · rw [checkedDiv_words_zero hzero] at h
      cases h
    · exact exists_of_exactResult (checkedDiv_words a hzero ▸ h)

theorem reachable_words (r : Ratio) : Reachable r.words := by
  have hnum : Fits64 r.num := r.fits.1
  have hden : Fits64 r.den := r.fits.2
  have hne : (r.den : Int) ≠ 0 := by exact_mod_cast r.den_pos.ne'
  refine .new hnum hden ?_
  rw [new_eq hnum hden hne]
  exact exactResult_eq_ok.mpr ⟨r, r.value_eq_divInt.symm, rfl⟩

/-- What holds of the ratios in words holds of the fractions that are reached. -/
theorem forall_reachable {P : Fraction → Prop} (h : ∀ a : Ratio, P a.words) :
    ∀ a, Reachable a → P a := by
  intro a ha
  obtain ⟨a, rfl⟩ := ha.exists_ratio
  exact h a

theorem forall_reachable₂ {P : Fraction → Fraction → Prop} (h : ∀ a b : Ratio, P a.words b.words) :
    ∀ a b, Reachable a → Reachable b → P a b := by
  intro a b ha hb
  obtain ⟨a, rfl⟩ := ha.exists_ratio
  obtain ⟨b, rfl⟩ := hb.exists_ratio
  exact h a b

/-- The fractions that are reached are those in lowest terms. -/
theorem reachable_iff : Reachable f ↔ f.Lowest := by
  rw [lowest_iff]
  constructor
  · exact Reachable.exists_ratio
  · rintro ⟨r, rfl⟩
    exact reachable_words r

/-! ### The laws -/

/-- The calculation has the exact result if its lowest terms fit 64 bits, and fails otherwise. -/
def Exactly {ε : Type} (calculation : Except ε Fraction) (otherwise : ε) (q : Rat) : Prop :=
  (RatFits q ∧ ∃ f, calculation = .ok f ∧ Reachable f ∧ f.value = q) ∨
    (¬ RatFits q ∧ calculation = .error otherwise)

theorem exactly_exactResult {ε : Type} (otherwise : ε) (q : Rat) :
    Exactly (exactResult otherwise q) otherwise q := by
  by_cases h : RatFits q
  · refine .inl ⟨h, Ratio.words ⟨q, h⟩, exactResult_eq_ok.mpr ⟨_, rfl, rfl⟩, reachable_words _, ?_⟩
    exact value_words ⟨q, h⟩
  · exact .inr ⟨h, exactResult_of_not_fits h⟩

theorem text_words (r : Ratio) : r.words.text = r.text := by
  have hden : r.words.den = 1 ↔ r.isInteger = true := by
    unfold Ratio.isInteger
    rw [beq_iff_eq]
    exact Nat.cast_eq_one
  unfold Fraction.text Ratio.text
  simp only [hden]
  rfl

/-- A calculation in words and the same one on ratios. -/
def Agrees (words : Except Fault Fraction) (calculation : Except Fault Ratio) : Prop :=
  words = calculation.map Ratio.words

/-- A checked calculation in words and the same one on ratios. -/
def AgreesChecked (words : Except Failure Fraction) (calculation : Except UnitError Ratio) : Prop :=
  words = (calculation.mapError Failure.reported).map Ratio.words

theorem agrees_exactResult (q : Rat) : Agrees (exactResult .overflow q) (Ratio.ofRat q) := (map_ofRat q).symm

/-- The reported text is the same, with the symbol between two spaces. -/
theorem agreesChecked_report (a b : Ratio) {symbol spaced : String} (h : " " ++ symbol ++ " " = spaced)
    (q : Rat) : AgreesChecked (exactResult (.reported (.overflow (a.words.text ++ spaced ++ b.words.text))) q)
      (a.report symbol b q) := by
  have htext : a.words.text ++ spaced ++ b.words.text = s!"{a.text} {symbol} {b.text}" := by
    change _ = a.text ++ " " ++ symbol ++ " " ++ b.text
    rw [text_words, text_words, ← h]
    simp only [String.append_assoc]
  unfold AgreesChecked exactResult Ratio.report fit?
  rw [htext]
  cases Ratio.ofRat? q <;> rfl

theorem agrees_add (a b : Ratio) : Agrees (a.words.add b.words) (a.add b) := by
  rw [add_words]
  exact agrees_exactResult _

theorem agrees_neg (a : Ratio) : Agrees a.words.neg a.neg := by
  rw [neg_words]
  exact agrees_exactResult _

theorem agrees_sub (a b : Ratio) : Agrees (a.words.sub b.words) (a.sub b) := by
  have hneg := agrees_neg b
  unfold Fraction.sub Ratio.sub
  unfold Agrees at hneg ⊢
  rw [hneg]
  cases b.neg with
  | error fault => rfl
  | ok c => exact agrees_add a c

theorem agrees_mul (a b : Ratio) : Agrees (a.words.mul b.words) (a.mul b) := by
  rw [mul_words]
  exact agrees_exactResult _

theorem agrees_div (a b : Ratio) : Agrees (a.words.div b.words) (a.div b) := by
  by_cases hzero : b.value = 0
  · rw [div_words_zero hzero, Ratio.div, if_pos (Ratio.isZero_iff.mpr hzero)]
    rfl
  · rw [div_words a hzero, Ratio.div, if_neg (by simpa using hzero)]
    exact agrees_exactResult _

theorem agreesChecked_div (a b : Ratio) :
    AgreesChecked (a.words.checkedDiv b.words) (a.checkedDiv b) := by
  by_cases hzero : b.value = 0
  · rw [checkedDiv_words_zero hzero, Ratio.checkedDiv, if_pos (Ratio.isZero_iff.mpr hzero)]
    rfl
  · rw [checkedDiv_words a hzero, Ratio.checkedDiv, if_neg (by simpa using hzero)]
    exact agreesChecked_report a b (by decide) _

theorem agrees_new {n d : Int} (hn : Fits64 n) (hd : Fits64 d) :
    Agrees (Fraction.new n d) (Ratio.new n d) ∧
      AgreesChecked (Fraction.checkedNew n d) (Ratio.checkedNew n d) := by
  by_cases hzero : d = 0
  · subst hzero
    exact ⟨rfl, rfl⟩
  · rw [new_eq hn hd hzero, checkedNew_eq hn hd hzero, Ratio.new, Ratio.checkedNew, if_neg hzero,
      if_neg hzero]
    refine ⟨agrees_exactResult _, ?_⟩
    unfold AgreesChecked exactResult fit?
    cases Ratio.ofRat? (Rat.divInt n d) <;> rfl

/-- The arithmetic of fractions is that of the rational numbers, up to the limits of 64 bits. -/
structure ExactArithmetic : Prop where
  lowest : ∀ f, Reachable f ↔ f.Lowest
  equal : ∀ a b, Reachable a → Reachable b →
    (a = b ↔ a.value = b.value) ∧ (a.same b = true ↔ a.value = b.value)
  order : ∀ a b, Reachable a → Reachable b → a.cmp b = .ok (compare a.value b.value)
  min : ∀ a b, Reachable a → Reachable b → a.min b = .ok (if b.value < a.value then b else a)
  new : ∀ n d, Fits64 n → Fits64 d → d ≠ 0 → Exactly (Fraction.new n d) .overflow (n / d) ∧
    Exactly (Fraction.checkedNew n d) (.reported (.overflow s!"{n}/{d}")) (n / d)
  new_zero : ∀ n, Fraction.new n 0 = .error .zeroDenominator ∧
    Fraction.checkedNew n 0 = .error (.reported .zeroDenominator)
  neg : ∀ a, Reachable a → Exactly a.neg .overflow (-a.value)
  add : ∀ a b, Reachable a → Reachable b → Exactly (a.add b) .overflow (a.value + b.value) ∧
    Exactly (a.checkedAdd b) (.reported (.overflow s!"{a.text} + {b.text}")) (a.value + b.value)
  mul : ∀ a b, Reachable a → Reachable b → Exactly (a.mul b) .overflow (a.value * b.value) ∧
    Exactly (a.checkedMul b) (.reported (.overflow s!"{a.text} * {b.text}")) (a.value * b.value)
  div : ∀ a b, Reachable a → Reachable b → b.value ≠ 0 →
    Exactly (a.div b) .overflow (a.value / b.value) ∧
    Exactly (a.checkedDiv b) (.reported (.overflow s!"{a.text} / {b.text}")) (a.value / b.value)
  div_zero : ∀ a b, Reachable a → Reachable b → b.value = 0 →
    a.div b = .error .ratioDividedByZero ∧ a.checkedDiv b = .error (.reported .zeroDenominator)
  recip : ∀ a, Reachable a → (a.value ≠ 0 → Exactly a.recip .overflow a.value⁻¹) ∧
    (a.value = 0 → a.recip = .error .ratioDividedByZero)
  /-- A difference adds the negation, which the least numerator does not have. -/
  sub : ∀ a b, Reachable a → Reachable b →
    (RatFits (-b.value) → Exactly (a.sub b) .overflow (a.value - b.value)) ∧
    (¬ RatFits (-b.value) → a.sub b = .error .overflow)
  /-- The arithmetic of `Ratio` is this arithmetic. -/
  agrees : ∀ a b : Ratio, a.words.cmp b.words = .ok (a.cmp b) ∧
    a.words.min b.words = .ok (a.min b).words ∧ Agrees a.words.neg a.neg ∧
    Agrees (a.words.add b.words) (a.add b) ∧ Agrees (a.words.sub b.words) (a.sub b) ∧
    Agrees (a.words.mul b.words) (a.mul b) ∧ Agrees (a.words.div b.words) (a.div b) ∧
    Agrees a.words.recip a.recip ∧ AgreesChecked (a.words.checkedAdd b.words) (a.checkedAdd b) ∧
    AgreesChecked (a.words.checkedMul b.words) (a.checkedMul b) ∧
    AgreesChecked (a.words.checkedDiv b.words) (a.checkedDiv b)
  agrees_new : ∀ n d, Fits64 n → Fits64 d → Agrees (Fraction.new n d) (Ratio.new n d) ∧
    AgreesChecked (Fraction.checkedNew n d) (Ratio.checkedNew n d)

theorem exact_arithmetic : ExactArithmetic := by
  constructor
  case lowest => exact fun f => reachable_iff
  case equal =>
    refine forall_reachable₂ fun a b => ?_
    have hequal : a.words = b.words ↔ a.words.value = b.words.value := by
      rw [words_inj, value_words, value_words]
    refine ⟨hequal, ?_⟩
    rw [← hequal, same, Bool.and_eq_true, beq_iff_eq, beq_iff_eq, Fraction.mk.injEq]
  case order =>
    refine forall_reachable₂ fun a b => ?_
    rw [cmp_words, value_words, value_words, Ratio.cmp_eq_compare]
  case min =>
    refine forall_reachable₂ fun a b => ?_
    rw [min_words, value_words, value_words, Ratio.min_eq_ite, apply_ite Ratio.words]
  case new =>
    intro n d hn hd hne
    rw [new_eq hn hd hne, checkedNew_eq hn hd hne, Rat.divInt_eq_div]
    exact ⟨exactly_exactResult _ _, exactly_exactResult _ _⟩
  case new_zero => exact fun n => ⟨rfl, rfl⟩
  case neg =>
    refine forall_reachable fun a => ?_
    rw [neg_words, value_words]
    exact exactly_exactResult _ _
  case add =>
    refine forall_reachable₂ fun a b => ?_
    rw [add_words, checkedAdd_words, value_words, value_words]
    exact ⟨exactly_exactResult _ _, exactly_exactResult _ _⟩
  case mul =>
    refine forall_reachable₂ fun a b => ?_
    rw [mul_words, checkedMul_words, value_words, value_words]
    exact ⟨exactly_exactResult _ _, exactly_exactResult _ _⟩
  case div =>
    refine forall_reachable₂ fun a b hne => ?_
    rw [value_words] at hne
    rw [div_words a hne, checkedDiv_words a hne, value_words, value_words]
    exact ⟨exactly_exactResult _ _, exactly_exactResult _ _⟩
  case div_zero =>
    refine forall_reachable₂ fun a b hzero => ?_
    rw [value_words] at hzero
    exact ⟨div_words_zero hzero, checkedDiv_words_zero hzero⟩
  case recip =>
    refine forall_reachable fun a => ?_
    rw [value_words]
    refine ⟨fun hne => ?_, fun hzero => div_words_zero (a := .one) hzero⟩
    have hrecip : a.words.recip = exactResult .overflow a.value⁻¹ := by
      rw [← one_div]
      exact div_words .one hne
    rw [hrecip]
    exact exactly_exactResult _ _
  case sub =>
    refine forall_reachable₂ fun a b => ?_
    rw [value_words, value_words]
    refine ⟨fun hfits => ?_, sub_words_of_not_fits⟩
    rw [sub_words hfits]
    exact exactly_exactResult _ _
  case agrees =>
    intro a b
    refine ⟨cmp_words a b, min_words a b, agrees_neg a, agrees_add a b, agrees_sub a b, agrees_mul a b,
      agrees_div a b, agrees_div .one a, ?_, ?_, agreesChecked_div a b⟩
    · rw [checkedAdd_words]
      exact agreesChecked_report a b (by decide) _
    · rw [checkedMul_words]
      exact agreesChecked_report a b (by decide) _
  case agrees_new => exact fun n d => agrees_new

/-- The least numerator over minus one overflows and is reported; over itself it is one, although it
cannot be subtracted. -/
theorem exact_arithmetic_least : let least := integer (-9223372036854775808)
    least.checkedDiv (integer (-1)) =
        .error (.reported (.overflow s!"{least.text} / {(integer (-1)).text}")) ∧
      (∃ f, least.div least = .ok f ∧ f.value = 1) ∧ least.sub least = .error .overflow := by
  intro least
  have hleast : Reachable least := .integer (by decide)
  have hminus : Reachable (integer (-1)) := .integer (by decide)
  have hvalue : least.value = -9223372036854775808 := by decide +kernel
  have hvalue' : (integer (-1)).value = -1 := by decide +kernel
  refine ⟨?_, ?_, ?_⟩
  · have hlaw := (exact_arithmetic.div least (integer (-1)) hleast hminus (by rw [hvalue']; decide)).2
    rcases hlaw with ⟨hfits, -⟩ | ⟨-, herror⟩
    · rw [hvalue, hvalue'] at hfits
      exact absurd hfits (by decide +kernel)
    · exact herror
  · have hlaw := (exact_arithmetic.div least least hleast hleast (by rw [hvalue]; decide)).1
    rw [hvalue] at hlaw
    rcases hlaw with ⟨-, f, hf, -, hone⟩ | ⟨hfits, -⟩
    · exact ⟨f, hf, hone.trans (by norm_num)⟩
    · exact absurd (show RatFits (-9223372036854775808 / -9223372036854775808) by decide +kernel) hfits
  · apply (exact_arithmetic.sub least least hleast hleast).2
    rw [hvalue]
    decide +kernel

end Fraction

end Metrology
