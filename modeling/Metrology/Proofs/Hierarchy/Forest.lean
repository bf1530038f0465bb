import Metrology.Proofs.Hierarchy.Climb

/-!
# Forests of quantities

A forest is a collection of quantities with all their ancestors, in which a name belongs to one quantity
only. Nothing is asked of dimensions or equations: the questions about ancestors follow the parent links
and compare names, and so their answers need nothing more.
-/

namespace Metrology

structure Forest where
  Holds : NamedQuantity → Prop
  parent_holds {q p : NamedQuantity} : Holds q → q.parent? = some p → Holds p
  eq_of_name {a b : NamedQuantity} : Holds a → Holds b → a.name = b.name → a = b

namespace Forest

variable {F : Forest} {a b : NamedQuantity}

/-- The forest of finitely many quantities. -/
def ofList (quantities : List NamedQuantity)
    (hparent : ∀ q ∈ quantities, ∀ p, q.parent? = some p → p ∈ quantities)
    (hname : (quantities.map (·.name)).Nodup) : Forest where
  Holds q := q ∈ quantities
  parent_holds {q p} hq hp := hparent q hq p hp
  eq_of_name ha hb hab := List.inj_on_of_nodup_map hname ha hb hab

theorem same_iff_eq (ha : F.Holds a) (hb : F.Holds b) : a.same b = true ↔ a = b := by
  rw [NamedQuantity.same_iff]
  exact ⟨F.eq_of_name ha hb, fun h => h ▸ rfl⟩

theorem treeRoot_holds (ha : F.Holds a) : F.Holds a.treeRoot :=
  NamedQuantity.treeRoot_of_closed (fun _ _ => F.parent_holds) ha

theorem haveCommonBase_iff (ha : F.Holds a) (hb : F.Holds b) :
    a.haveCommonBase b = true ↔ a.treeRoot = b.treeRoot :=
  F.same_iff_eq (F.treeRoot_holds ha) (F.treeRoot_holds hb)

theorem not_same_of_treeRoot_ne (ha : F.Holds a) (hb : F.Holds b) (h : a.treeRoot ≠ b.treeRoot) :
    ¬ a.same b = true :=
  fun hsame => h (congrArg NamedQuantity.treeRoot ((F.same_iff_eq ha hb).mp hsame))

end Forest

end Metrology
