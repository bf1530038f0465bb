import Metrology.PowerProduct.Text
import Metrology.Proofs.Ratio

/-!
# Reading the text of a product

The text of a product can be read back. The first slash outside parentheses ends the numerator, because
the only other slashes stand inside the parentheses of a fractional power. Within a numerator or a
denominator the separator ends a factor, and within a factor the first mark of a power ends its name.
What has been read determines the factors above and below the slash with their powers, as long as no
name uses a character that the text uses itself, is empty or reads `1`.
-/

namespace Metrology

namespace PowerProduct

def separatorChar (ascii : Bool) : Char := if ascii then '*' else '\u22c5'

def digits : List Char := ['0', '1', '2', '3', '4', '5', '6', '7', '8', '9']

/-- The characters that a power can begin with. -/
def marks (ascii : Bool) : List Char := if ascii then ['^'] else '^' :: digits.map raised

/-- The characters that the text of a product uses itself. -/
def reserved (ascii : Bool) : List Char := separatorChar ascii :: '/' :: '(' :: ')' :: marks ascii

/-- A name that cannot be mistaken for anything else in the text of a product. -/
structure Clean (ascii : Bool) (name : String) : Prop where
  ne_empty : name ≠ ""
  ne_one : name ≠ "1"
  free : ∀ c ∈ name.toList, c ∉ reserved ascii

instance (ascii : Bool) (name : String) : Decidable (Clean ascii name) :=
  decidable_of_iff (name ≠ "" ∧ name ≠ "1" ∧ name.toList.all (fun c => c ∉ reserved ascii) = true) <| by
    rw [List.all_eq_true]
    simp only [decide_eq_true_eq]
    exact ⟨fun h => ⟨h.1, h.2.1, h.2.2⟩, fun h => ⟨h.ne_empty, h.ne_one, h.free⟩⟩

variable {ascii : Bool} {name : String} {p q : Ratio} {m n : Nat} {c : Char}

theorem toList_separator : (separator ascii).toList = [separatorChar ascii] := by
  cases ascii <;> rfl

/-! ### Digits -/

theorem mem_digits_of_isDigit (h : c.isDigit = true) : c ∈ digits := by
  have hrange : 48 ≤ c.toNat ∧ c.toNat ≤ 57 := by
    unfold Char.isDigit at h
    rw [Bool.and_eq_true, decide_eq_true_eq, decide_eq_true_eq] at h
    exact h
  obtain ⟨hlow, hhigh⟩ := hrange
  rw [← Char.ofNat_toNat c]
  generalize c.toNat = n at hlow hhigh
  interval_cases n <;> decide +kernel

theorem mem_digits (h : c ∈ Nat.toDigits 10 n) : c ∈ digits :=
  mem_digits_of_isDigit (Nat.isDigit_of_mem_toDigits (by decide) (by decide) h)

theorem toDigits_inj (h : Nat.toDigits 10 m = Nat.toDigits 10 n) : m = n := by
  rw [← @Nat.ofDigitChars_toDigits 10 m (by decide) (by decide), h,
    Nat.ofDigitChars_toDigits (by decide) (by decide)]

/-- Raising tells the digits apart. -/
theorem raised_inj {c d : Char} (hc : c ∈ digits) (hd : d ∈ digits) (h : raised c = raised d) :
    c = d :=
  List.inj_on_of_nodup_map (show (digits.map raised).Nodup by decide +kernel) hc hd h

theorem map_injOn {α β : Type} {f : α → β} {P : α → Prop}
    (hf : ∀ a b, P a → P b → f a = f b → a = b) {k l : List α} (hk : ∀ a ∈ k, P a)
    (hl : ∀ a ∈ l, P a) (h : k.map f = l.map f) : k = l := by
  induction k generalizing l with
  | nil => exact (List.map_eq_nil_iff.mp h.symm).symm
  | cons a k ih =>
    cases l with
    | nil => cases h
    | cons b l =>
      rw [List.forall_mem_cons] at hk hl
      rw [List.map_cons, List.map_cons, List.cons.injEq] at h
      rw [hf a b hk.1 hl.1 h.1, ih hk.2 hl.2 h.2]

/-! ### Powers -/

/-- How a positive whole power is written. -/
def wholeText (ascii : Bool) (n : Nat) : List Char :=
  if n = 1 then [] else if ascii then '^' :: Nat.toDigits 10 n else (Nat.toDigits 10 n).map raised

/-- How a positive fraction is written. -/
def fractionText (n d : Nat) : List Char :=
  '^' :: '(' :: (Nat.toDigits 10 n ++ '/' :: (Nat.toDigits 10 d ++ [')']))

theorem toList_exponentText (hp : 0 < p.value) : (exponentText p ascii).toList =
    if p.isInteger then wholeText ascii p.num.toNat else fractionText p.num.toNat p.den := by
  have hnum : 0 ≤ p.num := Rat.num_nonneg.mpr hp.le
  have hdigits : (toString p.num).toList = Nat.toDigits 10 p.num.toNat := by
    rw [Int.toString_eq_repr, Int.repr_eq_if, if_pos hnum, Nat.toList_repr]
  unfold exponentText wholeText
  by_cases hwhole : p.isInteger
  · rw [if_pos hwhole, if_pos hwhole]
    by_cases hone : p.num = 1
    · have hnat : p.num.toNat = 1 := by omega
      rw [if_pos hone, if_pos hnat]
      rfl
    · have hnat : p.num.toNat ≠ 1 := by omega
      rw [if_neg hone, if_neg hnat]
      cases ascii with
      | true =>
        change ("^" ++ toString p.num).toList = '^' :: Nat.toDigits 10 p.num.toNat
        rw [String.toList_append, hdigits]
        rfl
      | false =>
        change (String.ofList ((toString p.num).toList.map raised)).toList = _
        rw [String.toList_ofList, hdigits]
        rfl
  · rw [if_neg hwhole, if_neg hwhole, Ratio.text, if_neg hwhole]
    change ("^(" ++ (toString p.num ++ "/" ++ toString p.den) ++ ")").toList = _
    rw [String.toList_append, String.toList_append, String.toList_append, String.toList_append,
      hdigits, Nat.toString_eq_repr, Nat.toList_repr, fractionText]
    simp

theorem wholeText_eq_nil_iff : wholeText ascii n = [] ↔ n = 1 := by
  unfold wholeText
  by_cases hone : n = 1
  · simp [hone]
  · rw [if_neg hone]
    split
    · simp [hone]
    · simp [hone, Nat.toDigits_ne_nil]

theorem wholeText_inj (h : wholeText ascii m = wholeText ascii n) : m = n := by
  by_cases hm : m = 1
  · rw [wholeText_eq_nil_iff.mpr hm] at h
    exact hm.trans (wholeText_eq_nil_iff.mp h.symm).symm
  · have hn : n ≠ 1 := fun hn => by
      rw [wholeText_eq_nil_iff.mpr hn] at h
      exact hm (wholeText_eq_nil_iff.mp h)
    unfold wholeText at h
    rw [if_neg hm, if_neg hn] at h
    cases ascii with
    | true => exact toDigits_inj (List.cons.inj h).2
    | false =>
      exact toDigits_inj (map_injOn (fun _ _ => raised_inj) (fun _ => mem_digits)
        (fun _ => mem_digits) h)

theorem mem_wholeText (h : c ∈ wholeText ascii n) : c ∈ '^' :: (digits ++ digits.map raised) := by
  unfold wholeText at h
  split at h
  · cases h
  · split at h
    · rcases List.mem_cons.mp h with rfl | h
      · exact List.mem_cons_self
      · exact List.mem_cons_of_mem _ (List.mem_append_left _ (mem_digits h))
    · obtain ⟨d, hd, rfl⟩ := List.mem_map.mp h
      exact List.mem_cons_of_mem _ (List.mem_append_right _ (List.mem_map_of_mem (mem_digits hd)))

/-- A fraction starts with the parenthesis that no whole power has. -/
theorem wholeText_ne_fractionText {d : Nat} : wholeText ascii m ≠ fractionText n d := by
  intro h
  have hparenthesis : '(' ∈ wholeText ascii m := by
    rw [h, fractionText]
    simp
  exact absurd (mem_wholeText hparenthesis) (by decide +kernel)

theorem fractionText_inj {d e : Nat} (h : fractionText m d = fractionText n e) : m = n ∧ d = e := by
  unfold fractionText at h
  have hslash (k : Nat) : '/' ∉ Nat.toDigits 10 k := fun hmem =>
    absurd (mem_digits hmem) (by decide +kernel)
  have hslash' : '/' ∉ Nat.toDigits 10 d ++ [')'] := by
    rw [List.mem_append, not_or]
    exact ⟨hslash d, by decide⟩
  obtain ⟨hnumerator, -, hdenominator⟩ :=
    (List.append_cons_inj_of_notMem (hslash m) hslash').mp (List.cons.inj (List.cons.inj h).2).2
  exact ⟨toDigits_inj hnumerator, toDigits_inj (List.append_cancel_right hdenominator)⟩

/-- The text of a positive power determines it. -/
theorem exponentText_inj (hp : 0 < p.value) (hq : 0 < q.value)
    (h : exponentText p ascii = exponentText q ascii) : p = q := by
  have hnum (hnat : p.num.toNat = q.num.toNat) : p.num = q.num := by
    have hpos : 0 < p.num := Rat.num_pos.mpr hp
    have hpos' : 0 < q.num := Rat.num_pos.mpr hq
    omega
  have hlists := congrArg String.toList h
  rw [toList_exponentText hp, toList_exponentText hq] at hlists
  by_cases hwhole : p.isInteger
  · by_cases hwhole' : q.isInteger
    · rw [if_pos hwhole, if_pos hwhole'] at hlists
      have hden : p.den = q.den := (beq_iff_eq.mp hwhole).trans (beq_iff_eq.mp hwhole').symm
      exact Ratio.ext (Rat.ext (hnum (wholeText_inj hlists)) hden)
    · rw [if_pos hwhole, if_neg hwhole'] at hlists
      exact absurd hlists wholeText_ne_fractionText
  · by_cases hwhole' : q.isInteger
    · rw [if_neg hwhole, if_pos hwhole'] at hlists
      exact absurd hlists.symm wholeText_ne_fractionText
    · rw [if_neg hwhole, if_neg hwhole'] at hlists
      obtain ⟨hnat, hden⟩ := fractionText_inj hlists
      exact Ratio.ext (Rat.ext (hnum hnat) hden)

/-- A power starts with a mark, or it is not written. -/
theorem exponentText_head (hp : 0 < p.value) (ascii : Bool) : (exponentText p ascii).toList = [] ∨
    ∃ c rest, (exponentText p ascii).toList = c :: rest ∧ c ∈ marks ascii := by
  rw [toList_exponentText hp]
  split
  · unfold wholeText
    split
    · exact .inl rfl
    · cases ascii with
      | true => exact .inr ⟨_, _, rfl, List.mem_cons_self⟩
      | false =>
        obtain ⟨d, rest, hrest⟩ := List.exists_cons_of_ne_nil
          (@Nat.toDigits_ne_nil p.num.toNat 10)
        have hd : d ∈ digits := mem_digits (hrest ▸ List.mem_cons_self)
        refine .inr ⟨raised d, rest.map raised, ?_, List.mem_cons_of_mem _ (List.mem_map_of_mem hd)⟩
        rw [hrest]
        rfl
  · refine .inr ⟨'^', _, rfl, ?_⟩
    cases ascii <;> exact List.mem_cons_self

theorem mem_exponentText (hp : 0 < p.value) (h : c ∈ (exponentText p ascii).toList) :
    c ∈ '^' :: (digits ++ digits.map raised) ++ ['/', '(', ')'] := by
  rw [toList_exponentText hp] at h
  split at h
  · exact List.mem_append_left _ (mem_wholeText h)
  · have hdigit {k : Nat} (hc : c ∈ Nat.toDigits 10 k) :
        c ∈ '^' :: (digits ++ digits.map raised) ++ ['/', '(', ')'] :=
      List.mem_append_left _ (List.mem_cons_of_mem _ (List.mem_append_left _ (mem_digits hc)))
    simp only [fractionText, List.mem_cons, List.mem_append, List.not_mem_nil, or_false] at h
    obtain rfl | rfl | hc | rfl | hc | rfl := h
    · exact List.mem_append_left _ List.mem_cons_self
    · simp
    · exact hdigit hc
    · simp
    · exact hdigit hc
    · simp

/-! ### Factors with their powers -/

/-- A factor with its power, as it is written. -/
def partText (ascii : Bool) (part : String × Ratio) : List Char :=
  part.1.toList ++ (exponentText part.2 ascii).toList

/-- A factor that can be written: its name is clean and its power is positive. -/
def Writable (ascii : Bool) (part : String × Ratio) : Prop := Clean ascii part.1 ∧ 0 < part.2.value

variable {part part' : String × Ratio} {parts k l : List (String × Ratio)} {s : String}

/-- The name of a factor ends before the first mark. -/
theorem takeWhile_partText (h : Writable ascii part) :
    (partText ascii part).takeWhile (fun c => decide (c ∉ marks ascii)) = part.1.toList := by
  have hname : ∀ c ∈ part.1.toList, decide (c ∉ marks ascii) = true := fun c hc =>
    decide_eq_true fun hmark => h.1.free c hc (List.mem_append_right [_, _, _, _] hmark)
  rw [partText, List.takeWhile_append_of_pos hname]
  rcases exponentText_head h.2 ascii with hnil | ⟨c, rest, hcons, hmark⟩
  · rw [hnil, List.takeWhile_nil, List.append_nil]
  · rw [hcons, List.takeWhile_cons_of_neg (by simpa using hmark), List.append_nil]

/-- The text of a factor with its power determines both. -/
theorem partText_inj (h : Writable ascii part) (h' : Writable ascii part')
    (heq : partText ascii part = partText ascii part') : part = part' := by
  have hname : part.1.toList = part'.1.toList := by
    rw [← takeWhile_partText h, heq, takeWhile_partText h']
  have hpower : (exponentText part.2 ascii).toList = (exponentText part'.2 ascii).toList := by
    rw [partText, partText, hname] at heq
    exact List.append_cancel_left heq
  exact Prod.ext (String.toList_inj.mp hname) (exponentText_inj h.2 h'.2 (String.toList_inj.mp hpower))

theorem partText_ne_nil (h : Writable ascii part) : partText ascii part ≠ [] := by
  intro hnil
  exact h.1.ne_empty (String.toList_eq_nil_iff.mp (List.append_eq_nil_iff.mp hnil).1)

theorem partText_ne_one (h : Writable ascii part) : partText ascii part ≠ ['1'] := by
  intro hone
  have hname := takeWhile_partText h
  have hmark : '1' ∉ marks ascii := by cases ascii <;> decide +kernel
  rw [hone, List.takeWhile_cons_of_pos (by simpa using hmark), List.takeWhile_nil] at hname
  exact h.1.ne_one (String.toList_inj.mp hname.symm)

theorem separatorChar_notMem_partText (h : Writable ascii part) :
    separatorChar ascii ∉ partText ascii part := by
  rw [partText, List.mem_append, not_or]
  constructor
  · exact fun hmem => h.1.free _ hmem List.mem_cons_self
  · intro hmem
    have hreserved := mem_exponentText h.2 hmem
    cases ascii <;> exact absurd hreserved (by decide +kernel)

/-! ### Groups -/

/-- The text of the factors on one side of the slash. -/
def sideText (ascii : Bool) (parts : List (String × Ratio)) : List Char :=
  [separatorChar ascii].intercalate (parts.map (partText ascii))

theorem splitOn_sideText (h : ∀ part ∈ parts, Writable ascii part) (hne : parts ≠ []) :
    (sideText ascii parts).splitOn (separatorChar ascii) = parts.map (partText ascii) := by
  apply List.splitOn_intercalate
  · rw [List.forall_mem_map]
    exact fun part hpart => separatorChar_notMem_partText (h part hpart)
  · simpa using hne

theorem sideText_eq_nil_iff (h : ∀ part ∈ parts, Writable ascii part) :
    sideText ascii parts = [] ↔ parts = [] := by
  constructor
  · intro hnil
    by_contra hne
    have hsplit := splitOn_sideText h hne
    rw [hnil, List.splitOn_nil] at hsplit
    obtain ⟨part, hpart, htext⟩ := List.mem_map.mp (hsplit ▸ List.mem_singleton_self [])
    exact partText_ne_nil (h part hpart) htext
  · rintro rfl
    rfl

theorem sideText_ne_one (h : ∀ part ∈ parts, Writable ascii part) : sideText ascii parts ≠ ['1'] := by
  intro hone
  have hne : parts ≠ [] := by
    rintro rfl
    cases hone
  have hsplit := splitOn_sideText h hne
  have hmark : ['1'].splitOn (separatorChar ascii) = [['1']] := by cases ascii <;> decide +kernel
  rw [hone, hmark] at hsplit
  obtain ⟨part, hpart, htext⟩ := List.mem_map.mp (hsplit ▸ List.mem_singleton_self ['1'])
  exact partText_ne_one (h part hpart) htext

/-- The text of one side determines its factors. -/
theorem sideText_inj (hk : ∀ part ∈ k, Writable ascii part) (hl : ∀ part ∈ l, Writable ascii part)
    (h : sideText ascii k = sideText ascii l) : k = l := by
  by_cases hnil : k = []
  · have hnil' : sideText ascii l = [] := h ▸ (sideText_eq_nil_iff hk).mpr hnil
    exact hnil.trans ((sideText_eq_nil_iff hl).mp hnil').symm
  · have hne : l ≠ [] := fun hl' => hnil ((sideText_eq_nil_iff hk).mp (by rw [h, hl']; rfl))
    apply map_injOn (fun _ _ => partText_inj) hk hl
    rw [← splitOn_sideText hk hnil, h, splitOn_sideText hl hne]

/-! ### The slash -/

/-- The text up to the first slash outside parentheses. -/
def numerator (inside : Bool) : List Char → List Char
  | [] => []
  | c :: rest =>
    if c = '/' ∧ inside = false then []
    else c :: numerator (if c = '(' then true else if c = ')' then false else inside) rest

/-- A text that is read to its end outside parentheses. -/
def Passed (cs : List Char) : Prop :=
  ∀ rest, numerator false (cs ++ rest) = cs ++ numerator false rest

theorem passed_nil : Passed [] := fun _ => rfl

theorem Passed.append {cs ds : List Char} (hc : Passed cs) (hd : Passed ds) : Passed (cs ++ ds) := by
  intro rest
  rw [List.append_assoc, hc, hd, List.append_assoc]

theorem passed_of_plain {cs : List Char} (h : ∀ c ∈ cs, c ≠ '/' ∧ c ≠ '(') : Passed cs := by
  induction cs with
  | nil => exact passed_nil
  | cons c cs ih =>
    rw [List.forall_mem_cons] at h
    intro rest
    rw [List.cons_append, numerator, if_neg (fun hslash => h.1.1 hslash.1), if_neg h.1.2, ite_self,
      ih h.2, List.cons_append]

/-- Inside parentheses everything is read up to the closing one. -/
theorem numerator_inside {cs : List Char} (h : ∀ c ∈ cs, c ≠ ')') (rest : List Char) :
    numerator true (cs ++ ')' :: rest) = cs ++ ')' :: numerator false rest := by
  induction cs with
  | nil => rfl
  | cons c cs ih =>
    rw [List.forall_mem_cons] at h
    rw [List.cons_append, numerator, if_neg (by simp), if_neg h.1, ite_self, ih h.2, List.cons_append]

theorem passed_fractionText (n d : Nat) : Passed (fractionText n d) := by
  intro rest
  have hdigits (k : Nat) : ∀ c ∈ Nat.toDigits 10 k, c ≠ ')' := by
    rintro _ hc rfl
    exact absurd (mem_digits hc) (by decide +kernel)
  have hinner : ∀ c ∈ Nat.toDigits 10 n ++ '/' :: Nat.toDigits 10 d, c ≠ ')' := by
    rw [List.forall_mem_append, List.forall_mem_cons]
    exact ⟨hdigits n, by decide, hdigits d⟩
  have htext : fractionText n d ++ rest =
      '^' :: '(' :: ((Nat.toDigits 10 n ++ '/' :: Nat.toDigits 10 d) ++ ')' :: rest) := by
    simp [fractionText]
  rw [htext, numerator, if_neg (by decide), numerator, if_neg (by decide)]
  change '^' :: '(' :: numerator true _ = _
  rw [numerator_inside hinner]
  simp [fractionText]

theorem passed_partText (h : Writable ascii part) : Passed (partText ascii part) := by
  apply Passed.append
  · apply passed_of_plain
    intro c hc
    have hfree := h.1.free c hc
    constructor
    · rintro rfl
      exact hfree (List.mem_cons_of_mem _ List.mem_cons_self)
    · rintro rfl
      exact hfree (List.mem_cons_of_mem _ (List.mem_cons_of_mem _ List.mem_cons_self))
  · rw [toList_exponentText h.2]
    split
    · apply passed_of_plain
      intro c hc
      have hmem := mem_wholeText hc
      constructor
      · rintro rfl
        exact absurd hmem (by decide +kernel)
      · rintro rfl
        exact absurd hmem (by decide +kernel)
    · exact passed_fractionText _ _

theorem passed_sideText (h : ∀ part ∈ parts, Writable ascii part) : Passed (sideText ascii parts) := by
  unfold sideText
  induction parts with
  | nil => exact passed_nil
  | cons part parts ih =>
    rw [List.forall_mem_cons] at h
    cases parts with
    | nil =>
      rw [List.map_singleton, List.intercalate_singleton]
      exact passed_partText h.1
    | cons next parts =>
      rw [List.map_cons, List.map_cons, List.intercalate_cons_cons]
      have hplain : separatorChar ascii ≠ '/' ∧ separatorChar ascii ≠ '(' := by
        cases ascii <;> decide
      have hseparator : Passed [separatorChar ascii] :=
        passed_of_plain (List.forall_mem_singleton.mpr hplain)
      exact ((passed_partText h.1).append hseparator).append (ih h.2)

/-! ### Both sides -/

/-- How a factor is shown on its side of the slash: below it the power is negated. -/
def Shown (positive : Bool) (part shown : String × Ratio) : Prop :=
  shown.1 = part.1 ∧ shown.2.value = if positive then part.2.value else -part.2.value

theorem shown_leftUnique (positive : Bool) : Relator.LeftUnique (Shown positive) := by
  rintro ⟨name, p⟩ ⟨name', p'⟩ shown ⟨rfl, hp⟩ ⟨rfl, hp'⟩
  have hvalue : p.value = p'.value := by
    cases positive with
    | true => exact hp.symm.trans hp'
    | false => exact neg_inj.mp (hp.symm.trans hp')
  rw [Ratio.ext hvalue]

variable {positive : Bool}

theorem groupText_eq_ok (h : groupText ascii positive parts = .ok s) : ∃ shown,
    List.Forall₂ (Shown positive) (parts.filter fun part => part.2.isPositive == positive) shown ∧
      s.toList = sideText ascii shown := by
  obtain ⟨texts, htexts, hs⟩ := bind_eq_ok.mp h
  obtain rfl := pure_eq_ok.mp hs
  suffices hshown : ∃ shown, List.Forall₂ (Shown positive)
      (parts.filter fun part => part.2.isPositive == positive) shown ∧
        texts.map String.toList = shown.map (partText ascii) by
    obtain ⟨shown, hforall, heq⟩ := hshown
    exact ⟨shown, hforall, by rw [String.toList_intercalate, heq, toList_separator, sideText]⟩
  rw [mapM_eq_ok] at htexts
  clear h hs
  generalize parts.filter (fun part => part.2.isPositive == positive) = chosen at htexts ⊢
  induction htexts with
  | nil => exact ⟨[], .nil, rfl⟩
  | @cons part text chosen texts htext _ ih =>
    obtain ⟨shown, hforall, heq⟩ := ih
    obtain ⟨power, hpower, rfl⟩ : ∃ power : Ratio,
        power.value = (if positive then part.2.value else -part.2.value) ∧
          part.1 ++ exponentText power ascii = text := by
      cases positive with
      | true => exact ⟨part.2, rfl, pure_eq_ok.mp htext⟩
      | false =>
        obtain ⟨power, hpower, htext⟩ := bind_eq_ok.mp htext
        exact ⟨power, Ratio.neg_eq_ok.mp hpower, pure_eq_ok.mp htext⟩
    refine ⟨(part.1, power) :: shown, .cons ⟨rfl, hpower⟩ hforall, ?_⟩
    rw [List.map_cons, List.map_cons, heq, String.toList_append, partText]

/-- Proper factors are shown with positive powers on both sides. -/
theorem writable_of_shown {chosen shown : List (String × Ratio)}
    (h : List.Forall₂ (Shown positive) chosen shown) (hchosen : ∀ part ∈ chosen,
      Clean ascii part.1 ∧ part.2.value ≠ 0 ∧ part.2.isPositive = positive) :
    ∀ part ∈ shown, Writable ascii part := by
  induction h with
  | nil => rintro _ ⟨⟩
  | @cons part shown chosen rest hshown _ ih =>
    rw [List.forall_mem_cons] at hchosen ⊢
    obtain ⟨⟨hclean, hne, hsign⟩, hchosen⟩ := hchosen
    refine ⟨⟨hshown.1 ▸ hclean, ?_⟩, ih hchosen⟩
    rw [hshown.2]
    cases positive with
    | true => exact Ratio.isPositive_iff.mp hsign
    | false =>
      exact neg_pos.mpr (lt_of_le_of_ne (Ratio.isPositive_eq_false_iff.mp hsign) hne)

/-- What stands above the slash. -/
def upperText (ascii : Bool) (above : List (String × Ratio)) : List Char :=
  if above = [] then ['1'] else sideText ascii above

/-- The slash and what stands below it. -/
def lowerText (ascii : Bool) (below : List (String × Ratio)) : List Char :=
  if below = [] then [] else '/' :: sideText ascii below

theorem upperText_inj (hk : ∀ part ∈ k, Writable ascii part) (hl : ∀ part ∈ l, Writable ascii part)
    (h : upperText ascii k = upperText ascii l) : k = l := by
  unfold upperText at h
  by_cases hnil : k = []
  · by_cases hnil' : l = []
    · rw [hnil, hnil']
    · rw [if_pos hnil, if_neg hnil'] at h
      exact absurd h.symm (sideText_ne_one hl)
  · by_cases hnil' : l = []
    · rw [if_neg hnil, if_pos hnil'] at h
      exact absurd h (sideText_ne_one hk)
    · rw [if_neg hnil, if_neg hnil'] at h
      exact sideText_inj hk hl h

theorem lowerText_inj (hk : ∀ part ∈ k, Writable ascii part) (hl : ∀ part ∈ l, Writable ascii part)
    (h : lowerText ascii k = lowerText ascii l) : k = l := by
  unfold lowerText at h
  by_cases hnil : k = []
  · by_cases hnil' : l = []
    · rw [hnil, hnil']
    · rw [if_pos hnil, if_neg hnil'] at h
      cases h
  · by_cases hnil' : l = []
    · rw [if_neg hnil, if_pos hnil'] at h
      cases h
    · rw [if_neg hnil, if_neg hnil', List.cons.injEq] at h
      exact sideText_inj hk hl h.2

/-- Reading to the slash gives back what stands above it. -/
theorem numerator_text {above below : List (String × Ratio)} (h : ∀ part ∈ above, Writable ascii part) :
    numerator false (upperText ascii above ++ lowerText ascii below) = upperText ascii above := by
  have hupper : Passed (upperText ascii above) := by
    unfold upperText
    split
    · exact passed_of_plain (List.forall_mem_singleton.mpr (by decide))
    · exact passed_sideText h
  have hlower : numerator false (lowerText ascii below) = [] := by
    unfold lowerText
    split <;> rfl
  rw [hupper, hlower, List.append_nil]

theorem render_eq_ok (h : render ascii parts = .ok s)
    (hproper : ∀ part ∈ parts, Clean ascii part.1 ∧ part.2.value ≠ 0) : ∃ above below,
      List.Forall₂ (Shown true) (parts.filter fun part => part.2.isPositive == true) above ∧
      List.Forall₂ (Shown false) (parts.filter fun part => part.2.isPositive == false) below ∧
      (∀ part ∈ above, Writable ascii part) ∧ (∀ part ∈ below, Writable ascii part) ∧
      s.toList = upperText ascii above ++ lowerText ascii below := by
  have hchosen (positive : Bool) : ∀ part ∈ parts.filter (fun part => part.2.isPositive == positive),
      Clean ascii part.1 ∧ part.2.value ≠ 0 ∧ part.2.isPositive = positive := by
    intro part hpart
    obtain ⟨hmem, hsign⟩ := List.mem_filter.mp hpart
    exact ⟨(hproper part hmem).1, (hproper part hmem).2, beq_iff_eq.mp hsign⟩
  obtain ⟨upper, hupper, h⟩ := bind_eq_ok.mp h
  obtain ⟨lower, hlower, h⟩ := bind_eq_ok.mp h
  obtain ⟨above, habove, hupper⟩ := groupText_eq_ok hupper
  obtain ⟨below, hbelow, hlower⟩ := groupText_eq_ok hlower
  have hwritable := writable_of_shown habove (hchosen true)
  have hwritable' := writable_of_shown hbelow (hchosen false)
  refine ⟨above, below, habove, hbelow, hwritable, hwritable', ?_⟩
  have hempty {side : String} {shown : List (String × Ratio)}
      (hshown : ∀ part ∈ shown, Writable ascii part) (hside : side.toList = sideText ascii shown) :
      side.isEmpty = decide (shown = []) := by
    rw [Bool.eq_iff_iff, String.isEmpty_iff, decide_eq_true_iff, ← String.toList_eq_nil_iff, hside,
      sideText_eq_nil_iff hshown]
  rw [hempty hwritable hupper, hempty hwritable' hlower] at h
  obtain rfl := pure_eq_ok.mp h
  unfold upperText lowerText
  by_cases hnil : above = []
  · by_cases hnil' : below = []
    · simp [hnil, hnil']
    · simp [hnil, hnil', hlower]
  · by_cases hnil' : below = []
    · simp [hnil, hnil', hupper]
    · simp [hnil, hnil', hupper, hlower]

/-- The text of a product tells on which side each factor stands and with which power. -/
theorem render_inj (hk : ∀ part ∈ k, Clean ascii part.1 ∧ part.2.value ≠ 0)
    (hl : ∀ part ∈ l, Clean ascii part.1 ∧ part.2.value ≠ 0)
    (h : render ascii k = .ok s) (h' : render ascii l = .ok s) (positive : Bool) :
    k.filter (fun part => part.2.isPositive == positive) =
      l.filter fun part => part.2.isPositive == positive := by
  obtain ⟨above, below, habove, hbelow, hwritable, hwritable', htext⟩ := render_eq_ok h hk
  obtain ⟨above', below', habove', hbelow', hwritableL, hwritableL', htext'⟩ := render_eq_ok h' hl
  -- What is read up to the slash is what stands above it, and the rest of the text is the rest.
  have hboth := htext.symm.trans htext'
  have hupper : upperText ascii above = upperText ascii above' := by
    rw [← numerator_text hwritable, hboth, numerator_text hwritableL]
  rw [hupper] at hboth
  obtain rfl := upperText_inj hwritable hwritableL hupper
  obtain rfl := lowerText_inj hwritable' hwritableL' (List.append_cancel_left hboth)
  cases positive with
  | true => exact (shown_leftUnique true).forall₂ habove habove'
  | false => exact (shown_leftUnique false).forall₂ hbelow hbelow'

end PowerProduct

end Metrology
