import Metrology.Proofs.Convertibility.Exchange

/-!
# Matchings

The search pairs the first ingredients of one tree, so it finds the exchanges of a list if they are
uncrossed: of two exchanges in one tree and of one sign, one comes first on both sides. A quantity that
is exchanged against the dimensionless one finds no partner and has to come last.
-/

namespace Metrology

namespace Exchange

/-- One exchange comes before another on both sides. -/
def Precedes (x y : Exchange) : Prop :=
  x.source.cmp y.source ≠ .gt ∧ (y.target.isDimensionless = true ∨
    x.target.isDimensionless = false ∧ x.target.cmp y.target ≠ .gt)

theorem precedes_self (x : Exchange) : x.Precedes x := by
  refine ⟨by simp [NamedQuantity.cmp_self], ?_⟩
  cases htarget : x.target.isDimensionless with
  | true => exact .inl rfl
  | false => exact .inr ⟨rfl, by simp [NamedQuantity.cmp_self]⟩

end Exchange

structure Matching (W : World) (T : List Exchange) : Prop where
  source : Coherent W Exchange.source T
  target : Coherent W Exchange.target T
  tree : ∀ x ∈ T, x.source.treeRoot = x.target.treeRoot
  source_proper : ∀ x ∈ T, x.source.isDimensionless = false
  /-- Only what stands above the line may vanish. -/
  vanishing : ∀ x ∈ T, x.target.isDimensionless = true → x.positive = true
  uncrossed : ∀ x ∈ T, ∀ y ∈ T, x.source.treeRoot = y.source.treeRoot → x.positive = y.positive →
    x.Precedes y ∨ y.Precedes x
  distinct : T.Pairwise fun x y => ¬ (x.source = y.source ∧ x.target = y.target)

namespace Matching

variable {W : World} {T T' : List Exchange} {x : Exchange}

theorem single (hsource : W.Holds x.source) (htarget : W.Holds x.target)
    (htree : x.source.treeRoot = x.target.treeRoot) (hproper : x.source.isDimensionless = false)
    (hpower : x.power ≠ 0) (hvanish : x.target.isDimensionless = true → x.positive = true) :
    Matching W [x] where
  source := ⟨by simp [hsource], by simp [hpower], by simp⟩
  target := ⟨by simp [htarget], by simp [hpower], by simp⟩
  tree := by simp [htree]
  source_proper := by simp [hproper]
  vanishing := by simpa using hvanish
  uncrossed := by
    simp only [List.mem_singleton, forall_eq]
    exact fun _ _ => .inl (Exchange.precedes_self _)
  distinct := List.pairwise_singleton _ _

theorem sublist (h : Matching W T) (hT : T'.Sublist T) : Matching W T' where
  source := h.source.subset fun _ => hT.mem
  target := h.target.subset fun _ => hT.mem
  tree x hx := h.tree x (hT.mem hx)
  source_proper x hx := h.source_proper x (hT.mem hx)
  vanishing x hx := h.vanishing x (hT.mem hx)
  uncrossed x hx y hy := h.uncrossed x (hT.mem hx) y (hT.mem hy)
  distinct := h.distinct.sublist hT

theorem ne_of_perm (h : Matching W T) (hT : T.Perm (x :: T')) {y : Exchange} (hy : y ∈ T') :
    ¬ (x.source = y.source ∧ x.target = y.target) := by
  have hsymm : ∀ {x y : Exchange}, ¬ (x.source = y.source ∧ x.target = y.target) →
      ¬ (y.source = x.source ∧ y.target = x.target) :=
    fun hxy hyx => hxy ⟨hyx.1.symm, hyx.2.symm⟩
  exact (List.pairwise_cons.mp ((hT.pairwise_iff hsymm).mp h.distinct)).1 y hy

section Pairing

variable {e f : FactorProduct} {b : Bool} {i j : Ingredient} (h : Matching W T)
  (he : Presents W Exchange.source T e) (hf : Presents W Exchange.target T f)

include h he hf

/-- An exchange whose target does not vanish gives the search a pair of its sign. -/
theorem find_isSome (hx : x ∈ T) (hproper : x.target.isDimensionless = false) :
    ((candidatePairs e f x.positive).find? arePartners).isSome = true := by
  obtain ⟨i, hi, hix⟩ := he.exists_ingredient h.source hx (h.source_proper x hx)
  obtain ⟨j, hj, hjx⟩ := hf.exists_ingredient h.target hx hproper
  rw [List.find?_isSome]
  refine ⟨(i, j), mem_candidatePairs.mpr ⟨hi, hj⟩, ?_⟩
  rw [arePartners, hix, hjx]
  exact (W.haveCommonBase_iff (h.source.holds x hx) (h.target.holds x hx)).mpr (h.tree x hx)

/-- Of two exchanges that touch the pair, one on each side, one is between the two. Otherwise the
search would have found an earlier pair. -/
theorem touches_both (hfind : (candidatePairs e f b).find? arePartners = some (i, j))
    {u v : Exchange} (hu : u ∈ T) (hv : v ∈ T) (husource : u.source = i.quantity)
    (hvtarget : v.target = j.quantity) (hub : u.positive = b) (hvb : v.positive = b) :
    u.target = j.quantity ∨ v.source = i.quantity := by
  obtain ⟨hi, hj, hij, hfirst⟩ := first_pair he.canonical.sorted hf.canonical.sorted hfind
  obtain ⟨hiW, hiproper, -⟩ := he.exists_exchange h.source hi
  obtain ⟨hjW, hjproper, -⟩ := hf.exists_exchange h.target hj
  have htree : i.quantity.treeRoot = j.quantity.treeRoot := (W.haveCommonBase_iff hiW hjW).mp hij
  have hsources : u.source.treeRoot = v.source.treeRoot := by
    rw [husource, h.tree v hv, hvtarget, htree]
  rcases h.uncrossed u hu v hv hsources (hub.trans hvb.symm) with ⟨-, hdim | ⟨huproper, hle⟩⟩ | ⟨hle, -⟩
  · rw [hvtarget, hjproper] at hdim
    cases hdim
  · left
    obtain ⟨l, hl, hlu⟩ := hf.exists_ingredient h.target hu huproper
    rw [hub] at hl
    have hil : i.quantity.haveCommonBase l.quantity = true := by
      rw [hlu, ← husource, W.haveCommonBase_iff (h.source.holds u hu) (h.target.holds u hu)]
      exact h.tree u hu
    rcases hfirst i hi l hl hil with hlt | ⟨-, heq | hlt⟩
    · rw [i.quantity.cmp_self] at hlt
      cases hlt
    · rw [heq, hlu]
    · rw [hlu] at hlt
      rw [hvtarget] at hle
      exact absurd ((W.cmp_gt_iff (h.target.holds u hu) hjW).mpr hlt) hle
  · right
    obtain ⟨k, hk, hkv⟩ := he.exists_ingredient h.source hv (h.source_proper v hv)
    rw [hvb] at hk
    have hkj : k.quantity.haveCommonBase j.quantity = true := by
      rw [hkv, ← hvtarget, W.haveCommonBase_iff (h.source.holds v hv) (h.target.holds v hv)]
      exact h.tree v hv
    rcases hfirst k hk j hj hkj with hlt | ⟨heq, -⟩
    · rw [hkv] at hlt
      rw [husource] at hle
      exact absurd ((W.cmp_gt_iff (h.source.holds v hv) hiW).mpr hlt) hle
    · rw [heq, hkv]

theorem exists_exchange (hfind : (candidatePairs e f b).find? arePartners = some (i, j)) :
    ∃ x ∈ T, x.source = i.quantity ∧ x.target = j.quantity ∧ x.positive = b := by
  obtain ⟨hi, hj, -⟩ := first_pair he.canonical.sorted hf.canonical.sorted hfind
  obtain ⟨-, -, -, u, hu, husource, hub⟩ := he.exists_exchange h.source hi
  obtain ⟨-, -, -, v, hv, hvtarget, hvb⟩ := hf.exists_exchange h.target hj
  rcases h.touches_both he hf hfind hu hv husource hvtarget hub hvb with htarget | hsource
  · exact ⟨u, hu, husource, htarget, hub⟩
  · exact ⟨v, hv, hsource, hvtarget, hvb⟩

/-- Once the exchange is made, one of its two quantities is used up. -/
theorem used_up (hfind : (candidatePairs e f b).find? arePartners = some (i, j))
    (hT : T.Perm (x :: T')) (hsource : x.source = i.quantity) (htarget : x.target = j.quantity)
    (hb : x.positive = b) :
    Exchange.powerAt Exchange.source x.source T' = 0 ∨
      Exchange.powerAt Exchange.target x.target T' = 0 := by
  have hsub : ∀ y ∈ T', y ∈ T := fun y hy => hT.mem_iff.mpr (List.mem_cons_of_mem x hy)
  have hx : x ∈ T := hT.mem_iff.mpr (by simp)
  obtain ⟨hi, hj, -⟩ := first_pair he.canonical.sorted hf.canonical.sorted hfind
  have hjproper : x.target.isDimensionless = false :=
    htarget ▸ (hf.exists_exchange h.target hj).2.1
  by_contra hboth
  push Not at hboth
  obtain ⟨u, hu, husame⟩ := Exchange.exists_of_powerAt_ne hboth.1
  obtain ⟨v, hv, hvsame⟩ := Exchange.exists_of_powerAt_ne hboth.2
  have hux : u.source = x.source :=
    (W.same_iff_eq (h.source.holds u (hsub u hu)) (h.source.holds x hx)).mp husame
  have hvx : v.target = x.target :=
    (W.same_iff_eq (h.target.holds v (hsub v hv)) (h.target.holds x hx)).mp hvsame
  have hub : u.positive = b := by
    rw [← hb]
    exact h.source.sign u (hsub u hu) x hx hux (hux ▸ h.source_proper x hx)
  have hvb : v.positive = b := by
    rw [← hb]
    exact h.target.sign v (hsub v hv) x hx hvx (hvx ▸ hjproper)
  rcases h.touches_both he hf hfind (hsub u hu) (hsub v hv) (hux.trans hsource) (hvx.trans htarget)
    hub hvb with htarget' | hsource'
  · exact h.ne_of_perm hT hu ⟨hux.symm, htarget.trans htarget'.symm⟩
  · exact h.ne_of_perm hT hv ⟨hsource.trans hsource'.symm, hvx.symm⟩

end Pairing

end Matching

end Metrology
