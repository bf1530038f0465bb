import Metrology.Proofs.Hierarchy.Ancestor

/-!
# The closest common ancestor

The ancestors of a quantity form a line, so of the common ancestors of two quantities one is the deepest
and lies below all the others. Climbing both paths in step from the same depth finds it, as long as the
two belong to one tree.
-/

namespace Metrology

namespace NamedQuantity

/-- `b` is `a` itself or one of its ancestors. -/
def AtOrBelow (a b : NamedQuantity) : Prop := a = b ∨ a.Below b

/-- `c` is an ancestor of both `a` and `b`, where each counts as its own, and the lowest one there is. -/
structure LowestCommonAncestor (a b c : NamedQuantity) : Prop where
  left : a.AtOrBelow c
  right : b.AtOrBelow c
  lowest {d : NamedQuantity} : a.AtOrBelow d → b.AtOrBelow d → c.AtOrBelow d

variable {a b c d p q : NamedQuantity}

theorem AtOrBelow.refl (a : NamedQuantity) : a.AtOrBelow a := .inl rfl

theorem AtOrBelow.depth_le (h : a.AtOrBelow b) : b.depth ≤ a.depth := by
  rcases h with rfl | h
  · exact le_rfl
  · exact h.depth_lt.le

theorem AtOrBelow.eq_of_depth (h : a.AtOrBelow b) (hdepth : a.depth = b.depth) : a = b := by
  rcases h with rfl | h
  · rfl
  · have := h.depth_lt
    omega

theorem AtOrBelow.treeRoot_eq (h : a.AtOrBelow b) : a.treeRoot = b.treeRoot := by
  rcases h with rfl | h
  · rfl
  · exact h.treeRoot_eq

theorem atOrBelow_step (h : a.parent? = some p) : a.AtOrBelow b ↔ a = b ∨ p.AtOrBelow b := by
  unfold AtOrBelow
  rw [below_iff]
  simp [h]

theorem atOrBelow_top (h : a.parent? = none) : a.AtOrBelow b ↔ a = b := by
  unfold AtOrBelow
  rw [below_iff]
  simp [h]

theorem AtOrBelow.trans (hab : a.AtOrBelow b) (hbc : b.AtOrBelow c) : a.AtOrBelow c := by
  rcases hab with rfl | hab
  · exact hbc
  rcases hbc with rfl | hbc
  · exact .inr hab
  · exact .inr (Relation.TransGen.trans hab hbc)

/-- The ancestors of a quantity form a line. -/
theorem AtOrBelow.of_depth_le (hb : a.AtOrBelow b) (hc : a.AtOrBelow c) (h : c.depth ≤ b.depth) :
    b.AtOrBelow c := by
  induction a using climb with
  | top a hroot =>
    rw [atOrBelow_top hroot] at hb hc
    exact .inl (hb.symm.trans hc)
  | step a p hparent ih =>
    rcases (atOrBelow_step hparent).mp hb with rfl | hpb
    · exact hc
    rcases (atOrBelow_step hparent).mp hc with rfl | hpc
    · -- The child itself is deeper than whatever its parent stands at or below.
      have := hpb.depth_le
      rw [depth_step hparent] at h
      omega
    · exact ih hpb hpc

theorem atOrBelow_advance {n : Nat} (hn : n ≤ a.depth) : a.AtOrBelow (a.advance n) := by
  cases n with
  | zero => exact .inl advance_zero.symm
  | succ n => exact .inr (below_advance (Nat.succ_pos n) hn)

theorem depth_advance (a : NamedQuantity) (n : Nat) : (a.advance n).depth = a.depth - n := by
  induction a using climb generalizing n with
  | top a h =>
    have hstay : a.advance n = a := by
      cases a with
      | root => cases n <;> rfl
      | child => cases h
    rw [hstay, depth_top h, Nat.zero_sub]
  | step a p h ih =>
    cases n with
    | zero => simp
    | succ n =>
      rw [advance_step h, ih, depth_step h]
      omega

theorem atOrBelow_kindRoot (a : NamedQuantity) : a.AtOrBelow a.kindRoot := by
  induction a using climb with
  | top a h =>
    rw [kindRoot_top h]
    exact .refl a
  | step a p h ih =>
    rw [kindRoot_step h]
    split
    · exact .refl a
    · exact (atOrBelow_step h).mpr (.inr ih)

/-- A kind is connected: what stands between a quantity and the root of its kind is of that kind. -/
theorem kindRoot_eq_of_between (hc : a.AtOrBelow c) (hroot : c.AtOrBelow a.kindRoot) :
    c.kindRoot = a.kindRoot := by
  induction a using climb with
  | top a h =>
    rw [(atOrBelow_top h).mp hc]
  | step a p h ih =>
    rcases (atOrBelow_step h).mp hc with rfl | hpc
    · rfl
    rw [kindRoot_step h] at hroot ⊢
    split at hroot
    · -- A marked quantity is the root of its kind, and no ancestor stands at or below it.
      have := hpc.depth_le
      have := hroot.depth_le
      rw [depth_step h] at this
      omega
    · rename_i hkind
      rw [if_neg hkind]
      exact ih hpc hroot

namespace LowestCommonAncestor

theorem symm (h : LowestCommonAncestor a b c) : LowestCommonAncestor b a c where
  left := h.right
  right := h.left
  lowest ha hb := h.lowest hb ha

theorem of_atOrBelow (h : a.AtOrBelow b) : LowestCommonAncestor a b b where
  left := h
  right := .refl b
  lowest _ hb := hb

theorem eq (h : LowestCommonAncestor a b c) (h' : LowestCommonAncestor a b d) : c = d := by
  have hcd := h.lowest h'.left h'.right
  have hdc := h'.lowest h.left h.right
  exact hcd.eq_of_depth (le_antisymm hdc.depth_le hcd.depth_le)

/-- Any other common ancestor is strictly higher up. -/
theorem deepest (h : LowestCommonAncestor a b c) (ha : a.AtOrBelow d) (hb : b.AtOrBelow d)
    (hne : d ≠ c) : d.depth < c.depth := by
  rcases h.lowest ha hb with rfl | hbelow
  · exact absurd rfl hne
  · exact hbelow.depth_lt

/-- Quantities of one depth that differ meet where their parents meet. -/
theorem of_parents (hne : a ≠ b) (hdepth : a.depth = b.depth) (ha : a.parent? = some p)
    (hb : b.parent? = some q) (h : LowestCommonAncestor p q c) : LowestCommonAncestor a b c where
  left := (atOrBelow_step ha).mpr (.inr h.left)
  right := (atOrBelow_step hb).mpr (.inr h.right)
  lowest {d} had hbd := by
    rcases (atOrBelow_step ha).mp had with rfl | hpd
    · exact absurd (hbd.eq_of_depth hdepth.symm).symm hne
    rcases (atOrBelow_step hb).mp hbd with rfl | hqd
    · exact absurd (had.eq_of_depth hdepth) hne
    · exact h.lowest hpd hqd

/-- The deeper quantity may be replaced by its ancestor at the depth of the other. -/
theorem of_advance (hdepth : b.depth ≤ a.depth)
    (h : LowestCommonAncestor (a.advance (a.depth - b.depth)) b c) : LowestCommonAncestor a b c where
  left := (atOrBelow_advance (Nat.sub_le _ _)).trans h.left
  right := h.right
  lowest {d} had hbd := by
    have hlevel : d.depth ≤ (a.advance (a.depth - b.depth)).depth := by
      have := hbd.depth_le
      rw [depth_advance]
      omega
    exact h.lowest ((atOrBelow_advance (Nat.sub_le _ _)).of_depth_le had hlevel) hbd

/-- Within one kind the closest common ancestor is of that kind. -/
theorem kindRoot_eq (h : LowestCommonAncestor a b c) (hkind : a.kindRoot = b.kindRoot) :
    c.kindRoot = a.kindRoot := by
  refine kindRoot_eq_of_between h.left (h.lowest (atOrBelow_kindRoot a) ?_)
  rw [hkind]
  exact atOrBelow_kindRoot b

end LowestCommonAncestor

/-! ### One step of the climb -/

theorem meet_same (h : a.same b = true) : a.meet b = .ok a := by
  cases a with
  | root => simp [meet, h]
  | child => cases b <;> simp [meet, h]

theorem meet_top (h : ¬ a.same b = true) (htop : a.parent? = none ∨ b.parent? = none) :
    a.meet b = .error .noCommonBase := by
  cases a with
  | root => simp [meet, h]
  | child =>
    cases b with
    | root => simp [meet, h]
    | child => rcases htop with htop | htop <;> cases htop

theorem meet_step (h : ¬ a.same b = true) (ha : a.parent? = some p) (hb : b.parent? = some q) :
    a.meet b = p.meet q := by
  cases a with
  | root => cases ha
  | child =>
    cases b with
    | root => cases hb
    | child =>
      obtain rfl := Option.some.inj ha
      obtain rfl := Option.some.inj hb
      rw [meet, if_neg h]

end NamedQuantity

namespace Forest

open NamedQuantity

variable {F : Forest} {a b : NamedQuantity}

theorem atOrBelow_holds (ha : F.Holds a) (h : a.AtOrBelow b) : F.Holds b := by
  rcases h with rfl | h
  · exact ha
  · exact F.below_holds ha h

/-- The climb from one depth ends at the closest common ancestor. -/
theorem meet_spec (ha : F.Holds a) (hb : F.Holds b) (hdepth : a.depth = b.depth)
    (htree : a.treeRoot = b.treeRoot) : ∃ c, a.meet b = .ok c ∧ LowestCommonAncestor a b c := by
  induction a using climb generalizing b with
  | top a h =>
    have hroot : b.parent? = none := by
      cases hp : b.parent? with
      | none => rfl
      | some p =>
        rw [depth_top h, depth_step hp] at hdepth
        omega
    obtain rfl : a = b := by rwa [treeRoot_top h, treeRoot_top hroot] at htree
    exact ⟨a, meet_same (by simp), .of_atOrBelow (.refl a)⟩
  | step a p h ih =>
    by_cases heq : a = b
    · subst heq
      exact ⟨a, meet_same (by simp), .of_atOrBelow (.refl a)⟩
    have hsame : ¬ a.same b = true := fun hsame => heq ((F.same_iff_eq ha hb).mp hsame)
    rw [depth_step h] at hdepth
    cases hq : b.parent? with
    | none =>
      rw [depth_top hq] at hdepth
      omega
    | some q =>
      rw [depth_step hq] at hdepth
      rw [treeRoot_step h, treeRoot_step hq] at htree
      obtain ⟨c, hc, hlowest⟩ :=
        ih (F.parent_holds ha h) (F.parent_holds hb hq) (by omega) htree
      refine ⟨c, by rw [meet_step hsame h hq, hc], .of_parents heq ?_ h hq hlowest⟩
      rw [depth_step h, depth_step hq, hdepth]

/-- Quantities of different trees never meet, whatever their depths. -/
theorem meet_apart (ha : F.Holds a) (hb : F.Holds b) (htree : a.treeRoot ≠ b.treeRoot) :
    a.meet b = .error .noCommonBase := by
  induction a using climb generalizing b with
  | top a h => exact meet_top (F.not_same_of_treeRoot_ne ha hb htree) (.inl h)
  | step a p h ih =>
    have hsame := F.not_same_of_treeRoot_ne ha hb htree
    cases hq : b.parent? with
    | none => exact meet_top hsame (.inr hq)
    | some q =>
      rw [treeRoot_step h, treeRoot_step hq] at htree
      rw [meet_step hsame h hq]
      exact ih (F.parent_holds ha h) (F.parent_holds hb hq) htree

/-- Quantities of one tree have a closest common ancestor, and the climb finds it. -/
theorem commonBase_spec (ha : F.Holds a) (hb : F.Holds b) (htree : a.treeRoot = b.treeRoot) :
    ∃ c, a.commonBase b = .ok c ∧ LowestCommonAncestor a b c := by
  unfold commonBase
  by_cases hdepth : a.depth > b.depth
  · have hclimb : a.AtOrBelow (a.advance (a.depth - b.depth)) := atOrBelow_advance (Nat.sub_le _ _)
    obtain ⟨c, hc, hlowest⟩ := meet_spec (F.atOrBelow_holds ha hclimb) hb
      (by rw [depth_advance]; omega) (hclimb.treeRoot_eq.symm.trans htree)
    rw [if_pos hdepth]
    exact ⟨c, hc, .of_advance hdepth.le hlowest⟩
  · have hclimb : b.AtOrBelow (b.advance (b.depth - a.depth)) := atOrBelow_advance (Nat.sub_le _ _)
    obtain ⟨c, hc, hlowest⟩ := meet_spec ha (F.atOrBelow_holds hb hclimb)
      (by rw [depth_advance]; omega) (htree.trans hclimb.treeRoot_eq)
    rw [if_neg hdepth]
    exact ⟨c, hc, (LowestCommonAncestor.of_advance (by omega) hlowest.symm).symm⟩

/-- Levelling the depths stays within the trees, so quantities of different trees have nothing in
common. -/
theorem commonBase_apart (ha : F.Holds a) (hb : F.Holds b) (htree : a.treeRoot ≠ b.treeRoot) :
    a.commonBase b = .error .noCommonBase := by
  unfold commonBase
  split
  · have hclimb : a.AtOrBelow (a.advance (a.depth - b.depth)) := atOrBelow_advance (Nat.sub_le _ _)
    exact meet_apart (F.atOrBelow_holds ha hclimb) hb (hclimb.treeRoot_eq ▸ htree)
  · have hclimb : b.AtOrBelow (b.advance (b.depth - a.depth)) := atOrBelow_advance (Nat.sub_le _ _)
    exact meet_apart ha (F.atOrBelow_holds hb hclimb) (hclimb.treeRoot_eq ▸ htree)

/-- The climb either finds the closest common ancestor or fails for want of any. -/
theorem commonBase_cases (ha : F.Holds a) (hb : F.Holds b) :
    (a.treeRoot = b.treeRoot ∧ ∃ c, a.commonBase b = .ok c ∧ F.Holds c ∧ LowestCommonAncestor a b c) ∨
      a.treeRoot ≠ b.treeRoot ∧ a.commonBase b = .error .noCommonBase := by
  by_cases htree : a.treeRoot = b.treeRoot
  · obtain ⟨c, hc, hlowest⟩ := F.commonBase_spec ha hb htree
    exact .inl ⟨htree, c, hc, F.atOrBelow_holds ha hlowest.left, hlowest⟩
  · exact .inr ⟨htree, F.commonBase_apart ha hb htree⟩

/-- The closest common ancestor is the same from either side. -/
theorem commonBase_comm (ha : F.Holds a) (hb : F.Holds b) : a.commonBase b = b.commonBase a := by
  rcases F.commonBase_cases ha hb with ⟨htree, c, hc, -, hlowest⟩ | ⟨htree, herror⟩
  · obtain ⟨d, hd, hlowest'⟩ := F.commonBase_spec hb ha htree.symm
    rw [hc, hd, hlowest.eq hlowest'.symm]
  · rw [herror, F.commonBase_apart hb ha htree.symm]

end Forest

namespace World

variable {W : World} {a b c : NamedQuantity}

theorem atOrBelow_holds (ha : W.Holds a) (h : a.AtOrBelow b) : W.Holds b := W.forest.atOrBelow_holds ha h

theorem commonBase_spec (ha : W.Holds a) (hb : W.Holds b) (htree : a.treeRoot = b.treeRoot) :
    ∃ c, a.commonBase b = .ok c ∧ NamedQuantity.LowestCommonAncestor a b c :=
  W.forest.commonBase_spec ha hb htree

end World

end Metrology
