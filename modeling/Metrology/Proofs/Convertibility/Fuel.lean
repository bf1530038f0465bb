import Metrology.Convertibility.Search
import Metrology.Proofs.Ratio

/-!
# The bound of the conversion search

The bound on nested questions decides only whether there is an answer. A search that has one keeps it
under every larger bound, so two searches for the same question never disagree.
-/

namespace Metrology

/-- Every result of the first computation is the result of the second one. -/
def Refines {ε α : Type} (x y : Except ε α) : Prop := ∀ a, x = .ok a → y = .ok a

namespace Refines

variable {ε α β : Type} {x y x' y' : Except ε α} {f g : α → Except ε β}

theorem refl (x : Except ε α) : Refines x x := fun _ h => h

theorem bind (hxy : Refines x y) (hfg : ∀ a, Refines (f a) (g a)) :
    Refines (x >>= f) (y >>= g) := by
  intro b h
  obtain ⟨a, ha, hb⟩ := bind_eq_ok.mp h
  exact bind_eq_ok.mpr ⟨a, hxy a ha, hfg a b hb⟩

theorem ite {c : Prop} [Decidable c] (h : Refines x y) (h' : Refines x' y') :
    Refines (if c then x else x') (if c then y else y') := by
  split
  · exact h
  · exact h'

/-- An attempt that may be taken, and whose result may be enough. -/
theorem attempt {c : Prop} [Decidable c] {p : α → Prop} [DecidablePred p] {z z' : Except ε β}
    (hxy : Refines x y) (hfg : ∀ a, Refines (f a) (g a)) (hz : Refines z z') :
    Refines (if c then x >>= fun a => if p a then f a else z else z)
      (if c then y >>= fun a => if p a then g a else z' else z') :=
  .ite (.bind hxy fun a => .ite (hfg a) hz) hz

end Refines

namespace Question

theorem answer_refines (n : Nat) (q : Question) : Refines (answer n q) (answer (n + 1) q) := by
  induction n generalizing q with
  | zero =>
    intro g h
    cases h
  | succ n ih =>
    cases q with
    | specs source target =>
      rw [answer.eq_2 n, answer.eq_2 (n + 1)]
      refine .ite (.refl _) (.bind (.refl _) fun _ => .bind (.refl _) fun _ => ?_)
      refine .ite (.refl _) (.ite ?_ ?_)
      · refine .bind (.refl _) fun targetRoot => .ite ?_ (ih _)
        exact .bind (.refl _) fun sourceRoot => .bind (ih _) fun _ => .refl _
      · split
        · refine .ite (.refl _) (.ite (.refl _) (.ite ?_ (.ite ?_ (.refl _))))
          · exact .bind (.refl _) fun _ => ih _
          · exact .bind (.refl _) fun _ => .bind (ih _) fun _ => .refl _
        · exact ih _
    | products source target =>
      rw [answer.eq_3 n, answer.eq_3 (n + 1)]
      refine .ite (.refl _) (.ite (.refl _) (.bind (.refl _) fun pairing => ?_))
      have hpair : ∀ p : Pairing, Refines
          (if p.grade = .no then pure .no else do
            return p.grade.min (← answer n (.products p.source p.target)))
          (if p.grade = .no then pure .no else do
            return p.grade.min (← answer (n + 1) (.products p.source p.target))) :=
        fun p => .ite (.refl _) (.bind (ih _) fun _ => .refl _)
      cases pairing with
      | some p => exact hpair p
      | none =>
        refine .bind (.refl _) fun pairing => ?_
        cases pairing with
        | some p => exact hpair p
        | none =>
          dsimp only
          cases mostComplex source target with
          | none => exact .refl _
          | some choice =>
            obtain ⟨side, i⟩ := choice
            refine .attempt (ih _) (fun _ => .bind (.refl _) fun _ => .bind (ih _) fun _ => .refl _) ?_
            refine .attempt (ih _) (fun _ => .bind (.refl _) fun _ => .bind (ih _) fun _ => .refl _) ?_
            refine .ite (.refl _) ?_
            cases i.quantity.explode? with
            | none => exact .refl _
            | some replacement =>
              cases side with
              | sourceAbove => exact .bind (.refl _) fun _ => ih _
              | _ => exact .bind (.refl _) fun _ => .bind (ih _) fun _ => .refl _

theorem answer_mono {m n : Nat} {q : Question} {g : Convertibility} (hmn : m ≤ n)
    (h : answer m q = .ok g) : answer n q = .ok g := by
  induction hmn with
  | refl => exact h
  | step _ ih => exact answer_refines _ q g ih

/-- Two searches that have an answer have the same one. -/
theorem answer_unique {m n : Nat} {q : Question} {g h : Convertibility} (hg : answer m q = .ok g)
    (hh : answer n q = .ok h) : g = h := by
  have hm := answer_mono (Nat.le_max_left m n) hg
  have hn := answer_mono (Nat.le_max_right m n) hh
  exact Except.ok.inj (hm.symm.trans hn)

end Question

end Metrology
