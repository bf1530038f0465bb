import Metrology.Proofs.PowerProduct.Canonical

/-!
# Limits

A power has to fit its numerator and its denominator, and a product has to fit its factors. The
operations on products fail for no other reason, so what is built from them has a result unless it
passes one of these limits.
-/

namespace Metrology

/-- Of a power that does not fit, or of a product with too many factors. -/
def Fault.IsLimit (fault : Fault) : Prop := fault = .overflow ∨ fault = .tooManyFactors

/-- The computation has a result, and one with `P`, unless it passes a limit. -/
def Answers {α : Type} (computation : Except Fault α) (P : α → Prop) : Prop :=
  (∃ a, computation = .ok a ∧ P a) ∨ ∃ fault, computation = .error fault ∧ fault.IsLimit

namespace Answers

variable {α β : Type} {computation : Except Fault α} {P Q : α → Prop} {a : α}

theorem of_ok (h : computation = .ok a) (ha : P a) : Answers computation P := .inl ⟨a, h, ha⟩

theorem bind {next : α → Except Fault β} {R : β → Prop} (h : Answers computation P)
    (hnext : ∀ a, computation = .ok a → P a → Answers (next a) R) :
    Answers (computation >>= next) R := by
  rcases h with ⟨a, ha, hP⟩ | ⟨fault, hfault, hlimit⟩
  · rw [ha]
    exact hnext a ha hP
  · rw [hfault]
    exact .inr ⟨fault, rfl, hlimit⟩

theorem mono (h : Answers computation P) (hPQ : ∀ a, computation = .ok a → P a → Q a) :
    Answers computation Q := by
  rcases h with ⟨a, ha, hP⟩ | hfault
  · exact .of_ok ha (hPQ a ha hP)
  · exact .inr hfault

theorem result (h : Answers computation P) (ha : computation = .ok a) : P a := by
  rcases h with ⟨b, hb, hP⟩ | ⟨fault, hfault, -⟩
  · exact Except.ok.inj (hb.symm.trans ha) ▸ hP
  · rw [hfault] at ha
    cases ha

theorem foldlM {step : β → α → Except Fault β} {items : List α}
    (hstep : ∀ b, ∀ a ∈ items, Answers (step b a) fun _ => True) (start : β) :
    Answers (items.foldlM step start) fun _ => True := by
  induction items generalizing start with
  | nil => exact .of_ok rfl trivial
  | cons a items ih =>
    rw [List.foldlM_cons]
    exact (hstep start a List.mem_cons_self).bind fun b _ _ =>
      ih (fun c d hd => hstep c d (List.mem_cons_of_mem a hd)) b

theorem mapM {f : α → Except Fault β} {items : List α}
    (hf : ∀ a ∈ items, Answers (f a) fun _ => True) : Answers (items.mapM f) fun _ => True := by
  induction items with
  | nil => exact .of_ok rfl trivial
  | cons a items ih =>
    rw [List.mapM_cons]
    refine (hf a List.mem_cons_self).bind fun _ _ _ => ?_
    exact (ih fun b hb => hf b (List.mem_cons_of_mem a hb)).bind fun _ _ _ => .of_ok rfl trivial

end Answers

theorem Ratio.ofRat_answers (q : Rat) : Answers (Ratio.ofRat q) fun _ => True := by
  rcases Ratio.ofRat_attains q with ⟨r, hr, -⟩ | ⟨hfault, -⟩
  · exact .of_ok hr trivial
  · exact .inr ⟨.overflow, hfault, .inl rfl⟩

namespace PowerProduct

section Shape

variable {α : Type}

theorem pow_answers (e : PowerProduct α) (power : Ratio) : Answers (e.pow power) fun _ => True := by
  unfold pow
  split
  · exact .of_ok rfl trivial
  · exact .mapM fun t _ => (Ratio.ofRat_answers _).bind fun _ _ _ => .of_ok rfl trivial

end Shape

variable {α : Type} [Atom α]

theorem place_answers (t : Term α) (e : PowerProduct α) : Answers (place t e) fun _ => True := by
  fun_induction place t e with
  | case1 => exact .of_ok rfl trivial
  | case2 s rest _ ih => exact ih.bind fun _ _ _ => .of_ok rfl trivial
  | case3 => exact (Ratio.ofRat_answers _).bind fun _ _ _ => .of_ok rfl trivial
  | case4 => exact .of_ok rfl trivial

theorem mulTerm_answers (e : PowerProduct α) (t : Term α) : Answers (e.mulTerm t) fun _ => True := by
  unfold mulTerm
  split
  · exact .of_ok rfl trivial
  · refine (place_answers t e).bind fun product _ _ => ?_
    split
    · exact .of_ok rfl trivial
    · exact .inr ⟨.tooManyFactors, rfl, .inr rfl⟩

theorem mul_answers (a b : PowerProduct α) : Answers (a.mul b) fun _ => True :=
  .foldlM (fun e t _ => mulTerm_answers e t) a

theorem div_answers (a b : PowerProduct α) : Answers (a.div b) fun _ => True :=
  (pow_answers b .minusOne).bind fun _ _ _ => mul_answers a _

end PowerProduct

end Metrology
