import Xv6Plus.VmReach
import Xv6Plus.Steps

/-!
# Collapsing while the process runs

`khugepaged` collapses with `p->lock` held, which keeps the state of `p` as it is but does not
stop it : `is_runnable_state` admits a process that is `RUNNING` on another hart, and that
process goes on storing through its page table. The steps here are those of `Collapse`, with
stores of the process in between.

What the process will see when the collapse is over is the view `V` of `PcInv`. A store to a
page that is not copied yet, or to another block, changes it as the process expects
(`PcInv.store`); a store to a page that is already copied does not change it (`PcInv.lose`), so
it is lost.
-/

namespace Xv6Plus

/-! ## The hardware's view during a collapse -/

section Mmu

variable {s s' : Phys} {R : Set ℕ} {rest frame T : Set (ℕ × ℕ)} {A : PTree} {va perm : ℕ}

/-- A page walk reads the tables on its path only. -/
theorem mmuWalk_keeps (h : PT s R frame A) (hk : Keeps T s s') : ∀ {L p : ℕ},
    A.IsTable L (va / 4096 / 512 ^ L / 512) p →
    (∀ L' p', A.IsTable L' (va / 4096 / 512 ^ L' / 512) p' → (p', 0) ∈ T) →
    mmuWalk s'.mem va L p = mmuWalk s.mem va L p := by
  intro L
  induction L with
  | zero =>
    intro p ht hT
    rw [mmuWalk.eq_def, mmuWalk.eq_def s.mem]
    dsimp only
    rw [px_eq, hk.read64 (hT 0 p ht) (by omega) (by omega)]
  | succ L ih =>
    intro p ht hT
    have hL := ht.level_le
    rw [mmuWalk.eq_def, mmuWalk.eq_def s.mem]
    dsimp only
    rw [px_eq, hk.read64 (hT _ p ht) (by omega) (by omega), h.rep.entry ht]
    cases he : A.ent (L + 1) (va / 4096 / 512 ^ (L + 1)) with
    | absent => rw [if_pos (not_not.1 absent_valid), if_pos (not_not.1 absent_valid)]
    | leaf pa fl =>
      have hl := h.ok.leaves _ _ _ _ he
      rw [if_neg hl.bits_valid, if_neg hl.bits_valid, if_pos hl.bits_rwx, if_pos hl.bits_rwx]
    | table t =>
      have hchild := PTree.isTable_of_ent (by omega) he
      rw [if_neg (table_valid t), if_neg (table_valid t), if_neg (not_not.2 (table_rwx t)),
        if_neg (not_not.2 (table_rwx t)), table_pa (h.table_page hchild).1]
      rw [div_pow_succ] at hchild
      exact ih hchild hT

theorem mmu_keeps (h : PT s R frame A) (hk : Keeps T s s')
    (hT : ∀ L p, A.IsTable L (va / 4096 / 512 ^ L / 512) p → (p, 0) ∈ T) :
    mmu s'.mem A.root va perm = mmu s.mem A.root va perm := by
  unfold mmu
  by_cases hva : va ≥ maxVa
  · rw [if_pos hva, if_pos hva]
  · simp only [maxVa] at hva
    rw [if_neg hva, if_neg hva, mmuWalk_keeps h hk ?_ hT]
    rw [show va / 4096 / 512 ^ 2 / 512 = 0 by omega]
    exact A.root_isTable

end Mmu

/-! ## Stores -/

/-- The view after a store of `b` at `va`. -/
def View.store (V : View) (va : ℕ) (b : UInt8) : View := fun v =>
  if v = va / 4096 then
    (V v).map fun x => (x.1, fun i => if i.val = va % 4096 then b else x.2 i)
  else V v

/-- The byte at `va`, if the access is permitted. -/
def View.load (V : View) (va perm : ℕ) : Option UInt8 :=
  match V (va / 4096) with
  | some (fl, bytes) =>
    if fl &&& pteU = 0 ∨ fl &&& perm = 0 then none
    else some (bytes ⟨va % 4096, mod_pgSize_lt va⟩)
  | none => none

/-- The byte that the process `p` finds at `va`. -/
def Proc.sees (p : Proc) (s : Phys) (va perm : ℕ) : Option UInt8 :=
  (mmu s.mem p.pagetable va perm).map s.mem

section Stores

variable {V : View} {va va' perm : ℕ} {b : UInt8}

theorem View.load_store : (V.store va b).load va' perm =
    if va' = va then (V.load va' perm).map fun _ => b else V.load va' perm := by
  unfold View.load View.store
  by_cases hv : va' / 4096 = va / 4096
  · rw [if_pos hv]
    cases hV : V (va' / 4096) with
    | none => simp
    | some x =>
      dsimp only [Option.map_some]
      by_cases hd : x.1 &&& pteU = 0 ∨ x.1 &&& perm = 0
      · rw [if_pos hd, if_pos hd]
        simp
      · rw [if_neg hd, if_neg hd]
        by_cases he : va' = va
        · rw [if_pos he, if_pos (by rw [he]), Option.map_some]
        · rw [if_neg he, if_neg (by omega)]
  · rw [if_neg hv, if_neg fun he => hv (by rw [he])]

/-- What the process sees is what the view says. -/
theorem Uvm.sees_eq {s : Phys} {R : Set ℕ} {rest : Set (ℕ × ℕ)} {A : PTree} {p : Proc}
    (h : Uvm s R rest A) (hh : TopHidden A) (hp : p.pagetable = A.root) (hperm : perm < 1024) :
    p.sees s va perm = View.load (A.view s.mem) va perm := by
  unfold Proc.sees View.load
  rw [hp]
  cases he : mmu s.mem A.root va perm with
  | some pa =>
    obtain ⟨hv, pg, fl, hl, hg, rfl⟩ := h.mmu_some hh hperm he
    rw [PTree.view_of_lt hv, hl]
    simp only [Option.map_some]
    rw [if_neg hg]
  | none =>
    by_cases hv : va / 4096 < topVpn
    · rw [mmu_eq h.pt hperm, if_pos (by simp only [topVpn] at hv; omega)] at he
      rw [PTree.view_of_lt hv]
      cases hl : A.lookup (va / 4096) with
      | none => rfl
      | some x =>
        rw [hl] at he
        dsimp only at he
        simp only [Option.map_some, Option.map_none]
        by_cases hd : x.2 &&& pteU = 0 ∨ x.2 &&& perm = 0
        · rw [if_pos hd]
        · rw [if_neg hd] at he
          cases he
    · rw [PTree.view_of_ge (not_lt.1 hv)]
      rfl

/-- The view after a write of one byte into the frame of a page. -/
theorem View.store_eq {m : Mem} {pg fl : ℕ}
    (hV : V (va / 4096) = some (fl, fun i : Fin 4096 => m (pg + i))) :
    Function.update V (va / 4096) (some (fl, fun i : Fin 4096 =>
      storeBytes m (pg + va % 4096) [b] (pg + i))) = V.store va b := by
  funext v
  unfold View.store
  by_cases hv : v = va / 4096
  · subst hv
    rw [Function.update_self, if_pos rfl, hV, Option.map_some]
    congr 2
    funext i
    unfold storeBytes
    by_cases hi : i.val = va % 4096
    · rw [if_pos hi, if_pos (by simp; omega), show pg + i.val - (pg + va % 4096) = 0 by omega]
      rfl
    · rw [if_neg hi, if_neg (by simp; omega)]
  · rw [Function.update_of_ne hv, if_neg hv]

theorem Owns.store_byte {s : Phys} {R : Set ℕ} {own frame : Set (ℕ × ℕ)} {B : PTree} {pg fl : ℕ}
    (hown : Owns s R own frame) (hsub : B.leaves ⊆ own ∪ frame)
    (hinj : ∀ L k k' pa, B.OwnLeaf L k pa → B.OwnLeaf L k' pa → k = k')
    (hhuge : ∀ k pa fl, B.ent 1 k = .leaf pa fl → PTree.User 1 k) (hv : va / 4096 < topVpn)
    (hl : B.lookup (va / 4096) = some (pg, fl)) :
    Owns (s.setMem (storeBytes s.mem (pg + va % 4096) [b])) R own frame ∧
      Keeps ((own ∪ frame) \ B.leaves) s (s.setMem (storeBytes s.mem (pg + va % 4096) [b])) ∧
      B.view (storeBytes s.mem (pg + va % 4096) [b]) = View.store (B.view s.mem) va b := by
  have hall : Owns s R (own ∪ frame) ∅ :=
    hown.reassoc (Set.union_empty _) (Set.disjoint_empty _)
  obtain ⟨hown', hk, hview⟩ := hall.store_user (m := storeBytes s.mem (pg + va % 4096) [b]) hsub
    hinj hhuge hv hl fun x hx => if_neg (by simp; omega)
  rw [Set.union_empty] at hk
  refine ⟨hown'.reassoc (Set.union_empty _).symm hown.apart, hk, hview.trans (View.store_eq ?_)⟩
  rw [PTree.view_of_lt hv, hl, Option.map_some]

end Stores

/-! ## Stores during a collapse -/

/-- A store to `va` does not hit a page that is copied already. -/
def CollapsePc.Uncopied (va : ℕ) : CollapsePc → Prop
  | .idle => True
  | .copies c i => va / hugePgSize ≠ c.va / hugePgSize ∨ i ≤ va / pgSize % 512
  | .frees c _ => va / hugePgSize ≠ c.va / hugePgSize
  | .freesTable c => va / hugePgSize ≠ c.va / hugePgSize
  | .switches c => va / hugePgSize ≠ c.va / hugePgSize

section Race

variable {s s₀ s₁ : Phys} {R : Set ℕ} {rest T : Set (ℕ × ℕ)} {A A₁ : PTree} {V : View}
  {c : CollapseCall} {pages : ℕ → ℕ} {va pa i : ℕ} {b : UInt8} {p : Proc}

theorem CollapseCall.block_eq (c : CollapseCall) : c.va / hugePgSize = c.block := by
  unfold block
  simp only [hugePgSize]
  omega

/-- The page is there, and it may be accessed. -/
theorem View.load_ne_none {B : PTree} {m : Mem} {pg fl perm : ℕ} (hv : va / 4096 < topVpn)
    (hl : B.lookup (va / 4096) = some (pg, fl)) (hg : ¬(fl &&& pteU = 0 ∨ fl &&& perm = 0))
    (hV : B.view m (va / 4096) = V (va / 4096)) : V.load va perm ≠ none := by
  unfold View.load
  rw [← hV, PTree.view_of_lt hv, hl]
  simp only [Option.map_some]
  rw [if_neg hg]
  exact Option.some_ne_none _

/-- The page that a store goes to, while the tables on the way to it are kept. -/
theorem CollapseCall.Ok.mmu_some (hc : c.Ok s₀ R rest A pages) (hh : TopHidden A)
    (hk : Keeps T s₀ s) (hT : ∀ L q, A.IsTable L (va / 4096 / 512 ^ L / 512) q → (q, 0) ∈ T)
    (he : mmu s.mem A.root va pteW = some pa) : va / 4096 < topVpn ∧ ∃ pg fl,
      A.lookup (va / 4096) = some (pg, fl) ∧ ¬(fl &&& pteU = 0 ∨ fl &&& pteW = 0) ∧
      pa = pg + va % 4096 := by
  rw [mmu_keeps hc.uvm.pt hk hT] at he
  exact hc.uvm.mmu_some hh (by decide) he

theorem CollapseCall.Ok.path (_ : c.Ok s₀ R rest A pages) :
    ∀ L q, A.IsTable L (va / 4096 / 512 ^ L / 512) q → (q, 0) ∈ A.tables ∪ rest :=
  fun L _ ht => Or.inl (PTree.mem_tables.2 ⟨L, _, ht⟩)

/-- The walk to another block does not read the table of pages. -/
theorem CollapseCall.Ok.path_other (hc : c.Ok s₀ R rest A pages)
    (hne : va / hugePgSize ≠ c.va / hugePgSize) :
    ∀ L q, A.IsTable L (va / 4096 / 512 ^ L / 512) q → (q, 0) ∈ A.tables \ {(c.l0, 0)} ∪ rest := by
  intro L q ht
  refine Or.inl ⟨PTree.mem_tables.2 ⟨L, _, ht⟩, fun heq => hne ?_⟩
  obtain ⟨rfl, -⟩ := Prod.mk.inj heq
  obtain ⟨rfl, hq⟩ := hc.uvm.pt.ok.inj _ _ _ _ _ ht hc.table
  rw [c.block_eq, ← hq]
  simp only [hugePgSize]
  omega

/-- The page of another block is mapped as before. -/
theorem CollapseCall.lookup_tree (c : CollapseCall) (hne : va / hugePgSize ≠ c.va / hugePgSize) :
    (c.tree A).lookup (va / 4096) = A.lookup (va / 4096) := by
  rw [c.block_eq] at hne
  simp only [hugePgSize] at hne
  rw [tree, PTree.lookup_collapse, if_neg (by omega)]

theorem View.store_of_ne {v : ℕ} (h : v ≠ va / 4096) : V.store va b v = V v := if_neg h

/-- A store while pages are copied : `V'` follows it on the pages that are not copied. -/
theorem CollapseCall.Copying.store {pg fl : ℕ} {V' : View} (h : c.Copying s₀ R rest A V i s)
    (hc : c.Ok s₀ R rest A pages) (hi : i < 512) (hv : va / 4096 < topVpn)
    (hl : A.lookup (va / 4096) = some (pg, fl))
    (hV : ∀ v, (∀ j < i, v ≠ 512 * c.block + j) → V' v = V.store va b v)
    (hcopied : ∀ j < i, V' (512 * c.block + j) = V (512 * c.block + j)) :
    c.Copying s₀ R rest A V' i (s.setMem (storeBytes s.mem (pg + va % 4096) [b])) := by
  obtain ⟨hown, hk, hview⟩ := h.owns.store_byte (b := b) (B := A)
    (fun x hx => Or.inr (Or.inl (Or.inr hx))) hc.uvm.inj hc.uvm.huge hv hl
  have hnew : (c.newPage, 9) ∉ A.tables ∪ A.leaves ∪ rest := Set.disjoint_left.1 h.owns.apart rfl
  refine ⟨hown, h.keeps.trans (hk.mono ?_), fun v hv' => ?_, fun j hj => ?_⟩
  · rintro x (hx | hx)
    · exact ⟨Or.inr (Or.inl (Or.inl hx)), fun hb =>
        Set.disjoint_left.1 hc.uvm.pt.owns.apart hx (Or.inl hb)⟩
    · exact ⟨Or.inr (Or.inr hx), fun hb => Set.disjoint_left.1 hc.uvm.apart hb hx⟩
  · rw [Phys.setMem_mem, hview, hV v hv']
    unfold View.store
    rw [h.view v hv']
  · rw [hcopied j hj, h.copied j hj]
    congr 2
    funext x
    rw [Nat.add_assoc]
    exact (hk.byte ⟨Or.inl rfl, fun hb => hnew (Or.inl (Or.inr hb))⟩ (by omega)).symm

/-- A store to another block when all pages are copied. -/
theorem CollapseCall.Ok.store_tree {own frame : Set (ℕ × ℕ)} {pg fl : ℕ}
    (hc : c.Ok s₀ R rest A pages) (hfresh : (c.newPage, 9) ∉ A.tables ∪ A.leaves ∪ rest)
    (hown : Owns s R own frame) (hsub : (c.tree A).leaves ⊆ own ∪ frame)
    (hne : va / hugePgSize ≠ c.va / hugePgSize) (hv : va / 4096 < topVpn)
    (hl : A.lookup (va / 4096) = some (pg, fl)) :
    Owns (s.setMem (storeBytes s.mem (pg + va % 4096) [b])) R own frame ∧
      (∀ T ⊆ A.tables ∪ rest, T ⊆ own ∪ frame →
        Keeps T s (s.setMem (storeBytes s.mem (pg + va % 4096) [b]))) ∧
      (c.tree A).view (storeBytes s.mem (pg + va % 4096) [b]) =
        View.store ((c.tree A).view s.mem) va b := by
  obtain ⟨hown', hk, hview⟩ := hown.store_byte (b := b) hsub
    (PTree.ownLeaf_collapse_inj hc.ent hc.user (fun hb => hfresh (Or.inl (Or.inr hb))) hc.uvm.inj)
    hc.tree_huge hv ((c.lookup_tree hne).trans hl)
  refine ⟨hown', fun T hT hTo => hk.mono fun x hx => ⟨hTo hx, fun hb => ?_⟩, hview⟩
  rw [hc.leaves_tree] at hb
  rcases hb with rfl | hb
  · rcases hT hx with ht | hr
    · exact hfresh (Or.inl (Or.inl ht))
    · exact hfresh (Or.inr hr)
  · rcases hT hx with ht | hr
    · exact Set.disjoint_left.1 hc.uvm.pt.owns.apart ht (Or.inl hb.1)
    · exact Set.disjoint_left.1 hc.uvm.apart hb.1 hr

theorem CollapseCall.Freeing.store {pg fl : ℕ} (h : c.Freeing s₀ R rest A pages V i s)
    (hc : c.Ok s₀ R rest A pages) (hne : va / hugePgSize ≠ c.va / hugePgSize)
    (hv : va / 4096 < topVpn) (hl : A.lookup (va / 4096) = some (pg, fl)) :
    c.Freeing s₀ R rest A pages (V.store va b) i
      (s.setMem (storeBytes s.mem (pg + va % 4096) [b])) := by
  have hsub : (c.tree A).leaves ⊆ {(c.newPage, 9)} ∪ pagesFrom pages i 512 ∪
      (A.tables ∪ (A.leaves \ pageBlocks pages 512 ∪ rest)) := by
    rw [hc.leaves_tree]
    rintro x (rfl | hx)
    · exact Or.inl (Or.inl rfl)
    · exact Or.inr (Or.inr (Or.inl hx))
  obtain ⟨hown, hk, hview⟩ := hc.store_tree (b := b) h.fresh h.owns hsub hne hv hl
  refine ⟨h.fresh, hown, h.keeps.trans (hk _ subset_rfl ?_), ?_⟩
  · rintro x (hx | hx)
    · exact Or.inr (Or.inl hx)
    · exact Or.inr (Or.inr (Or.inr hx))
  · rw [Phys.setMem_mem, hview, h.view]

theorem CollapseCall.Switching.store {pg fl : ℕ} (h : c.Switching s₀ R rest A pages V s)
    (hc : c.Ok s₀ R rest A pages) (hne : va / hugePgSize ≠ c.va / hugePgSize)
    (hv : va / 4096 < topVpn) (hl : A.lookup (va / 4096) = some (pg, fl)) :
    c.Switching s₀ R rest A pages (V.store va b)
      (s.setMem (storeBytes s.mem (pg + va % 4096) [b])) := by
  have hsub : (c.tree A).leaves ⊆ A.tables \ {(c.l0, 0)} ∪
      (insert (c.newPage, 9) (A.leaves \ pageBlocks pages 512) ∪ rest) := by
    rw [hc.leaves_tree]
    exact Set.subset_union_left.trans Set.subset_union_right
  obtain ⟨hown, hk, hview⟩ := hc.store_tree (b := b) h.fresh h.owns hsub hne hv hl
  refine ⟨h.fresh, hown, h.keeps.trans (hk _ ?_ ?_), ?_⟩
  · exact Set.union_subset_union_left _ Set.sdiff_subset
  · exact Set.union_subset_union_right _ Set.subset_union_right
  · rw [Phys.setMem_mem, hview, h.view]

/-- A store to a page that is not copied is seen in the end. -/
theorem PcInv.store {pc : CollapsePc} (h : PcInv R rest s₁ A₁ V pc s) (hh : TopHidden A₁)
    (hp : p.pagetable = A₁.root) (hu : pc.Uncopied va)
    (hpa : mmu s.mem p.pagetable va pteW = some pa) :
    PcInv R rest s₁ A₁ (V.store va b) pc (s.setMem (storeBytes s.mem pa [b])) ∧
      V.load va pteW ≠ none := by
  rw [hp] at hpa
  cases pc with
  | idle =>
    obtain ⟨A, huvm, htop, hview, hk⟩ := h
    rw [← htop.root] at hpa
    obtain ⟨hv, pg, fl, hl, hg, rfl⟩ := huvm.mmu_some (hh.of_sameTop htop) (by decide) hpa
    obtain ⟨huvm', hk', hview'⟩ := huvm.store_user
      (m := storeBytes s.mem (pg + va % 4096) [b]) hv hl
      fun x hx => if_neg (by simp; omega)
    refine ⟨⟨A, huvm', htop, hview'.trans ?_, hk.trans hk'⟩,
      View.load_ne_none hv hl hg (congrFun hview _)⟩
    rw [hview]
    refine View.store_eq ?_
    rw [← hview, PTree.view_of_lt hv, hl, Option.map_some]
  | copies c i =>
    obtain ⟨hi, s₀, A, pages, hc, htop, hk, hcopy⟩ := h
    rw [← htop.root] at hpa
    obtain ⟨hv, pg, fl, hl, hg, rfl⟩ :=
      hc.mmu_some (hh.of_sameTop htop) hcopy.keeps hc.path hpa
    have hne : ∀ j < i, va / 4096 ≠ 512 * c.block + j := by
      intro j hj heq
      rw [CollapsePc.Uncopied, c.block_eq] at hu
      simp only [hugePgSize, pgSize] at hu
      omega
    exact ⟨⟨hi, s₀, A, pages, hc, htop, hk, hcopy.store hc hi hv hl (fun _ _ => rfl) fun j hj =>
      View.store_of_ne (hne j hj).symm⟩, View.load_ne_none hv hl hg (hcopy.view _ hne)⟩
  | frees c i =>
    obtain ⟨hi, s₀, A, pages, hc, htop, hk, hfree⟩ := h
    rw [← htop.root] at hpa
    obtain ⟨hv, pg, fl, hl, hg, rfl⟩ :=
      hc.mmu_some (hh.of_sameTop htop) hfree.keeps hc.path hpa
    exact ⟨⟨hi, s₀, A, pages, hc, htop, hk, hfree.store hc hu hv hl⟩,
      View.load_ne_none hv ((c.lookup_tree hu).trans hl) hg (congrFun hfree.view _)⟩
  | freesTable c =>
    obtain ⟨s₀, A, pages, hc, htop, hk, hfree⟩ := h
    rw [← htop.root] at hpa
    obtain ⟨hv, pg, fl, hl, hg, rfl⟩ :=
      hc.mmu_some (hh.of_sameTop htop) hfree.keeps hc.path hpa
    exact ⟨⟨s₀, A, pages, hc, htop, hk, hfree.store hc hu hv hl⟩,
      View.load_ne_none hv ((c.lookup_tree hu).trans hl) hg (congrFun hfree.view _)⟩
  | switches c =>
    obtain ⟨s₀, A, pages, hc, htop, hk, hsw⟩ := h
    rw [← htop.root] at hpa
    obtain ⟨hv, pg, fl, hl, hg, rfl⟩ :=
      hc.mmu_some (hh.of_sameTop htop) hsw.keeps (hc.path_other hu) hpa
    exact ⟨⟨s₀, A, pages, hc, htop, hk, hsw.store hc hu hv hl⟩,
      View.load_ne_none hv ((c.lookup_tree hu).trans hl) hg (congrFun hsw.view _)⟩

/-- While pages are copied the process can access what it will see. -/
theorem PcInv.access {perm : ℕ} (h : PcInv R rest s₁ A₁ V (.copies c i) s)
    (hp : p.pagetable = A₁.root) (hperm : perm < 1024) (hload : V.load va perm ≠ none) :
    ∃ pa, mmu s.mem p.pagetable va perm = some pa := by
  obtain ⟨hi, s₀, A, pages, hc, htop, hk, hcopy⟩ := h
  rw [hp, ← htop.root, mmu_keeps hc.uvm.pt hcopy.keeps hc.path, mmu_eq hc.uvm.pt hperm]
  have hpage : ∃ pg fl bytes, va / 4096 < topVpn ∧ A.lookup (va / 4096) = some (pg, fl) ∧
      V (va / 4096) = some (fl, bytes) := by
    by_cases hj : ∃ j < i, va / 4096 = 512 * c.block + j
    · obtain ⟨j, hj, heq⟩ := hj
      have := hc.block_le
      rw [heq]
      exact ⟨_, _, _, by omega, hc.lookup (by omega), hcopy.copied j hj⟩
    · have hview := hcopy.view (va / 4096) fun j hj' heq => hj ⟨j, hj', heq⟩
      unfold View.load at hload
      cases hV : V (va / 4096) with
      | none =>
        rw [hV] at hload
        exact absurd rfl hload
      | some x =>
        rw [hV] at hview
        unfold PTree.view at hview
        split_ifs at hview with hlt
        obtain ⟨⟨pg, fl⟩, hl, hx⟩ := Option.map_eq_some_iff.1 hview
        exact ⟨pg, fl, x.2, hlt, hl, by rw [← hx]⟩
  obtain ⟨pg, fl, bytes, hlt, hl, hV⟩ := hpage
  simp only [topVpn] at hlt
  rw [if_pos (by omega), hl]
  dsimp only
  unfold View.load at hload
  rw [hV] at hload
  dsimp only at hload
  by_cases hd : fl &&& pteU = 0 ∨ fl &&& perm = 0
  · rw [if_pos hd] at hload
    exact absurd rfl hload
  · rw [if_neg hd]
    exact ⟨_, rfl⟩

/-- A store to a page that is copied already is not seen in the end. -/
theorem PcInv.lose (h : PcInv R rest s₁ A₁ V (.copies c i) s) (hh : TopHidden A₁)
    (hp : p.pagetable = A₁.root) (hu : ¬(CollapsePc.copies c i).Uncopied va)
    (hpa : mmu s.mem p.pagetable va pteW = some pa) :
    PcInv R rest s₁ A₁ V (.copies c i) (s.setMem (storeBytes s.mem pa [b])) := by
  obtain ⟨hi, s₀, A, pages, hc, htop, hk, hcopy⟩ := h
  rw [hp, ← htop.root] at hpa
  obtain ⟨hv, pg, fl, hl, -, rfl⟩ := hc.mmu_some (hh.of_sameTop htop) hcopy.keeps hc.path hpa
  refine ⟨hi, s₀, A, pages, hc, htop, hk, hcopy.store hc hi hv hl (fun v hv' => ?_) fun _ _ => rfl⟩
  refine (View.store_of_ne fun heq => hv' (va / 4096 % 512) ?_ ?_).symm
  all_goals
    rw [CollapsePc.Uncopied, c.block_eq] at hu
    simp only [hugePgSize, pgSize] at hu
    omega

end Race

/-! ## Runs -/

def isRunnableState (state : RunState) : Bool :=
  state = .runnable || state = .running || state = .sleeping

structure CollapseState where
  phys : Phys
  pc : CollapsePc

inductive CollapseEvent
  /-- `khugepaged` enters `vm_try_collapse`. -/
  | begin
  /-- One step of `vm_try_collapse`. -/
  | kernel
  /-- The process stores `b` at `va`. -/
  | store (va : ℕ) (b : UInt8)
  deriving DecidableEq

/-- The process `p` is in the state `state`, which `p->lock` keeps; it stores only if it is
`RUNNING`. -/
inductive CollapseStep (p : Proc) (state : RunState) :
    CollapseState → CollapseEvent → CollapseState → Prop
  /-- `scan_proc_for_collapse` at `va`. -/
  | begin {s s' : Phys} {pc : CollapsePc} {n : ℕ} : isRunnableState state = true →
      hugePgSize * n + hugePgSize ≤ p.sz → (collapseBegin p (hugePgSize * n)).run s = .ok (pc, s') →
      CollapseStep p state ⟨s, .idle⟩ .begin ⟨s', pc⟩
  | kernel {s s' : Phys} {pc pc' : CollapsePc} : pc ≠ .idle →
      (collapseNext pc).run s = .ok (pc', s') → CollapseStep p state ⟨s, pc⟩ .kernel ⟨s', pc'⟩
  | store {s : Phys} {pc : CollapsePc} {va pa : ℕ} {b : UInt8} : state = .running →
      mmu s.mem p.pagetable va pteW = some pa →
      CollapseStep p state ⟨s, pc⟩ (.store va b) ⟨s.setMem (storeBytes s.mem pa [b]), pc⟩

/-- No store hits a page that is copied already. -/
def SparesCopied (st : CollapseState) (e : CollapseEvent) : Prop :=
  ∀ va b, e = .store va b → st.pc.Uncopied va

/-- The last value stored at `va`. -/
def lastStored (va : ℕ) (h : List CollapseEvent) : Option UInt8 :=
  h.foldl (fun o e => match e with
    | .store va' b => if va' = va then some b else o
    | _ => o) none

/-- The view after the stores of a history. -/
def View.stores (V : View) (h : List CollapseEvent) : View :=
  h.foldl (fun V e => match e with
    | .store va b => V.store va b
    | _ => V) V

section Run

variable {s s₁ : Phys} {R : Set ℕ} {rest : Set (ℕ × ℕ)} {A A₁ : PTree} {V : View} {p : Proc}
  {state : RunState} {va perm : ℕ} {h : List CollapseEvent} {st : CollapseState}

theorem View.load_stores (V : View) (h : List CollapseEvent) (va perm : ℕ) :
    (V.stores h).load va perm = match lastStored va h with
      | some b => (V.load va perm).map fun _ => b
      | none => V.load va perm := by
  induction h using List.reverseRecOn with
  | nil => rfl
  | append_singleton h e ih =>
    unfold View.stores lastStored at *
    rw [List.foldl_append, List.foldl_append]
    simp only [List.foldl_cons, List.foldl_nil]
    cases e with
    | begin => exact ih
    | kernel => exact ih
    | store va' b =>
      dsimp only
      rw [View.load_store, ih]
      by_cases hva : va = va'
      · subst hva
        rw [if_pos rfl, if_pos rfl]
        split <;> simp [Option.map_map, Function.comp_def]
      · rw [if_neg hva, if_neg (Ne.symm hva)]

/-- What holds in every state of a run : the process will see its stores. -/
structure RaceInv (R : Set ℕ) (rest : Set (ℕ × ℕ)) (s₁ : Phys) (A₁ : PTree)
    (h : List CollapseEvent) (st : CollapseState) : Prop where
  pc : PcInv R rest s₁ A₁ (View.stores (A₁.view s₁.mem) h) st.pc st.phys
  stored : ∀ va, lastStored va h ≠ none → View.load (A₁.view s₁.mem) va pteW ≠ none

theorem RaceInv.start (hA : Uvm s₁ R rest A₁) : RaceInv R rest s₁ A₁ [] ⟨s₁, .idle⟩ :=
  ⟨⟨A₁, hA, .refl A₁, rfl, .refl _ _⟩, fun _ hne => absurd rfl hne⟩

theorem lastStored_quiet {e : CollapseEvent} (he : ∀ va b, e ≠ .store va b) :
    lastStored va (h ++ [e]) = lastStored va h := by
  unfold lastStored
  rw [List.foldl_append]
  cases e with
  | begin => rfl
  | kernel => rfl
  | store va b => exact absurd rfl (he va b)

theorem View.stores_quiet {e : CollapseEvent} (he : ∀ va b, e ≠ .store va b) :
    V.stores (h ++ [e]) = V.stores h := by
  unfold View.stores
  rw [List.foldl_append]
  cases e with
  | begin => rfl
  | kernel => rfl
  | store va b => exact absurd rfl (he va b)

theorem RaceInv.quiet {e : CollapseEvent} {st' : CollapseState} (hi : RaceInv R rest s₁ A₁ h st)
    (he : ∀ va b, e ≠ .store va b)
    (hpc : PcInv R rest s₁ A₁ (View.stores (A₁.view s₁.mem) h) st'.pc st'.phys) :
    RaceInv R rest s₁ A₁ (h ++ [e]) st' := by
  refine ⟨?_, fun va hne => ?_⟩
  · rw [View.stores_quiet he]
    exact hpc
  · rw [lastStored_quiet he] at hne
    exact hi.stored va hne

/-- `scan_proc_for_collapse` in a state between two calls. -/
theorem RaceInv.begin {n : ℕ} {s' : Phys} {pc : CollapsePc} (hi : RaceInv R rest s₁ A₁ h ⟨s, .idle⟩)
    (hp : p.pagetable = A₁.root) (hsz : p.sz ≤ trapframe) (hn : hugePgSize * n + hugePgSize ≤ p.sz)
    (hrun : (collapseBegin p (hugePgSize * n)).run s = .ok (pc, s')) :
    RaceInv R rest s₁ A₁ (h ++ [.begin]) ⟨s', pc⟩ := by
  refine hi.quiet (fun _ _ => CollapseEvent.noConfusion) ?_
  obtain ⟨A, huvm, htop, hview, hk⟩ := hi.pc
  simp only [trapframe, trampoline, maxVa, pgSize] at hsz
  simp only [hugePgSize] at hn hrun
  rcases wp_of_run (collapseBegin_spec huvm (hp.trans htop.root.symm)
    (by simp only [trapframe, trampoline, maxVa, pgSize]; omega) (by omega)) hrun with
    ⟨rfl, rfl, -⟩ | ⟨c, rfl, -, hc, s₀, A', pages, hok, htop', hk', hcopy⟩
  · exact ⟨A, huvm, htop, hview, hk⟩
  · rw [← hview]
    exact ⟨hc, s₀, A', pages, hok, htop.trans htop', hk.trans hk', hcopy⟩

theorem RaceInv.kernel {s' : Phys} {pc pc' : CollapsePc} (hi : RaceInv R rest s₁ A₁ h ⟨s, pc⟩)
    (hrun : (collapseNext pc).run s = .ok (pc', s')) :
    RaceInv R rest s₁ A₁ (h ++ [.kernel]) ⟨s', pc'⟩ :=
  hi.quiet (fun _ _ => CollapseEvent.noConfusion) (wp_of_run (collapseNext_spec hi.pc) hrun).1

theorem RaceInv.store {pc : CollapsePc} {pa : ℕ} {b : UInt8}
    (hi : RaceInv R rest s₁ A₁ h ⟨s, pc⟩) (hh : TopHidden A₁) (hp : p.pagetable = A₁.root)
    (hu : pc.Uncopied va) (hpa : mmu s.mem p.pagetable va pteW = some pa) :
    RaceInv R rest s₁ A₁ (h ++ [.store va b]) ⟨s.setMem (storeBytes s.mem pa [b]), pc⟩ := by
  obtain ⟨hpc, hload⟩ := hi.pc.store (b := b) hh hp hu hpa
  refine ⟨?_, fun va' hne => ?_⟩
  · unfold View.stores at hpc ⊢
    rw [List.foldl_append]
    exact hpc
  · by_cases hva : va = va'
    · subst hva
      rw [View.load_stores] at hload
      intro hnone
      rw [hnone] at hload
      split at hload <;> exact hload rfl
    · refine hi.stored va' fun hnone => hne ?_
      unfold lastStored at hnone ⊢
      rw [List.foldl_append, hnone]
      exact if_neg hva

/-- Every run whose stores spare the pages that are copied already. -/
theorem RaceInv.of_run {tramp : ℕ} (hA : AddrSpace s₁ R rest tramp p A₁)
    (hrun : Run (· = ⟨s₁, .idle⟩) (restrict (CollapseStep p state) SparesCopied) h st) :
    RaceInv R rest s₁ A₁ h st := by
  refine hrun.invariant (P := RaceInv R rest s₁ A₁) ?_ ?_
  · rintro _ rfl
    exact .start hA.uvm
  · rintro h st e st' hi ⟨hstep, hspare⟩
    cases hstep with
    | begin _ hn hr => exact hi.begin hA.root hA.sz_le hn hr
    | kernel _ hr => exact hi.kernel hr
    | store _ hpa => exact hi.store hA.topHidden hA.root (hspare _ _ rfl) hpa

end Run

/-- If no store hits a page that is copied already, then after a collapse the process finds at
each address the last value it stored there, and where it has not stored what was there before.
No step of the collapse panics. -/
theorem collapse_keeps_stores (p : Proc) (state : RunState) (s₁ : Phys) (R : Set ℕ)
    (rest : Set (ℕ × ℕ)) (tramp : ℕ) (A₁ : PTree) (hA : AddrSpace s₁ R rest tramp p A₁)
    (h : List CollapseEvent) (st : CollapseState)
    (hrun : Run (· = ⟨s₁, .idle⟩) (restrict (CollapseStep p state) SparesCopied) h st) :
    (st.pc = .idle → ∀ va,
      (∀ b, lastStored va h = some b → p.sees st.phys va pteW = some b) ∧
      (lastStored va h = none → ∀ perm, DataPerm perm →
        p.sees st.phys va perm = p.sees s₁ va perm)) ∧
    ∃ r, (collapseNext st.pc).run st.phys = .ok r := by
  have hi := RaceInv.of_run hA hrun
  refine ⟨fun hidle va => ?_, ?_⟩
  · have hpc := hi.pc
    rw [hidle] at hpc
    obtain ⟨A, huvm, htop, hview, -⟩ := hpc
    have hsees : ∀ perm, perm < 1024 → p.sees st.phys va perm =
        View.load (View.stores (A₁.view s₁.mem) h) va perm := fun perm hperm => by
      rw [huvm.sees_eq (hA.topHidden.of_sameTop htop) (hA.root.trans htop.root.symm) hperm, hview]
    refine ⟨fun b hb => ?_, fun hnone perm hperm => ?_⟩
    · obtain ⟨b₀, hb₀⟩ := Option.ne_none_iff_exists'.1 (hi.stored va (by rw [hb]; simp))
      rw [hsees pteW (by decide), View.load_stores, hb, hb₀]
      rfl
    · rw [hsees perm hperm.lt, View.load_stores, hnone,
        hA.uvm.sees_eq hA.topHidden hA.root hperm.lt]
  · obtain ⟨pc', s', hr, -⟩ := wp_noPanic_iff.1 (collapseNext_spec hi.pc)
    exact ⟨(pc', s'), hr⟩

/-! ## A store that is lost -/

section Lost

variable {s s₁ : Phys} {R : Set ℕ} {rest : Set (ℕ × ℕ)} {A₁ : PTree} {V : View}
  {init : CollapseState → Prop} {step : CollapseState → CollapseEvent → CollapseState → Prop}

/-- `khugepaged` goes on alone to the end of the call. -/
theorem Run.collapse_ends (hstep : ∀ s s' pc pc', pc ≠ .idle →
    (collapseNext pc).run s = .ok (pc', s') → step ⟨s, pc⟩ .kernel ⟨s', pc'⟩) :
    ∀ {n : ℕ} {h : List CollapseEvent} {s : Phys} {pc : CollapsePc}, pc.left = n →
      Run init step h ⟨s, pc⟩ → PcInv R rest s₁ A₁ V pc s →
      ∃ h' s', Run init step h' ⟨s', .idle⟩ ∧ PcInv R rest s₁ A₁ V .idle s' ∧
        ∀ va, lastStored va h' = lastStored va h
  | 0, h, s, pc, hn, hrun, hpc => by
    obtain rfl := hpc.eq_idle hn
    exact ⟨h, s, hrun, hpc, fun _ => rfl⟩
  | n + 1, h, s, pc, hn, hrun, hpc => by
    obtain ⟨pc', s', hr, hpc', -, hl⟩ := wp_noPanic_iff.1 (collapseNext_spec hpc)
    have hne : pc ≠ .idle := by
      rintro rfl
      exact absurd hn (by simp [CollapsePc.left])
    obtain ⟨h', s'', hrun', hend, hlast⟩ :=
      collapse_ends hstep (by omega) (hrun.snoc (hstep _ _ _ _ hne hr)) hpc'
    refine ⟨h', s'', hrun', hend, fun va => ?_⟩
    rw [hlast, lastStored_quiet fun _ _ => CollapseEvent.noConfusion]

/-- The process of 512 pages runs, and `khugepaged` has copied its first page. -/
theorem exists_collapse : ∃ s₁ rest A s c,
    AddrSpace s₁ sampleEnd.managed rest 0x80001000 sampleProc A ∧
    Run (· = ⟨s₁, .idle⟩) (restrict (CollapseStep sampleProc .running) SparesCopied)
      [.begin, .kernel] ⟨s, .copies c 1⟩ ∧ c.va = 0 ∧
    PcInv sampleEnd.managed rest s₁ A (A.view s₁.mem) (.copies c 1) s ∧
    ∀ va < 2097152, View.load (A.view s₁.mem) va pteW ≠ none := by
  obtain ⟨s₁, hrun, hA⟩ := exists_sample false ∅ (by simp)
  have hfree : ∃ b ∈ s₁.free, 9 ≤ b.2 := by
    refine hrun.inv.buddy.exists_free_order (a := 0x80600000) (by decide) (by decide) ?_
    rw [hrun.inv.region_free, sampleEnd_managed]
    intro x hx
    rw [mem_span] at hx
    norm_num at hx
    refine ⟨⟨by omega, by omega⟩, fun hlive => ?_⟩
    rcases sample_region hlive with hx' | hx' | ⟨a, ha, -⟩
    · omega
    · omega
    · simp at ha
  have hcollapsible : Collapsible (sampleTree false) sampleProc 0 := by
    refine ⟨rfl, le_refl _, ⟨_, rfl⟩, 23, by decide, fun j hj => ⟨0x80400000 + 4096 * j, ?_⟩⟩
    exact sampleTree_leaf.2 (Or.inr (Or.inl ⟨rfl, by omega, by omega, rfl, rfl⟩))
  have hload : ∀ va < 2097152, View.load ((sampleTree false).view s₁.mem) va pteW ≠ none := by
    intro va hva
    have hleaf : (sampleTree false).ent 0 (va / 4096) =
        .leaf (0x80400000 + 4096 * (va / 4096)) 23 :=
      sampleTree_leaf.2 (Or.inr (Or.inl ⟨rfl, by omega, rfl, rfl, rfl⟩))
    refine View.load_ne_none (by simp only [topVpn]; omega)
      (PTree.lookup_page (fun b f he => ?_) hleaf)
      (by decide) rfl
    have := sampleTree_leaf.1 he
    simp at this
  have h₀ : Run (· = ⟨s₁, .idle⟩) (restrict (CollapseStep sampleProc .running) SparesCopied) []
      ⟨s₁, .idle⟩ := .start rfl
  obtain ⟨pc, s₂, hr, ⟨rfl, -, hno⟩ | ⟨c, rfl, hva, hpc⟩⟩ := wp_noPanic_iff.1
    (collapseBegin_spec hA.uvm hA.root hA.sz_le (show 0 + 2097152 < 2 ^ 64 by decide))
  · obtain ⟨b, hb, hle⟩ := hfree
    exact absurd (hno hcollapsible b hb) (not_lt.2 hle)
  have h₁ := h₀.snoc ⟨CollapseStep.begin (n := 0) rfl (by decide) hr,
    fun _ _ he => CollapseEvent.noConfusion he⟩
  obtain ⟨pc', s₃, hr', hpc', rfl, -⟩ := wp_noPanic_iff.1 (collapseNext_spec hpc)
  have h₂ := h₁.snoc ⟨CollapseStep.kernel CollapsePc.noConfusion hr',
    fun _ _ he => CollapseEvent.noConfusion he⟩
  exact ⟨s₁, _, _, s₃, c, hA, h₂, hva, hpc', hload⟩

end Lost

/-- A process stores to its second page after its first page is copied, and finds it there when
the collapse is over. -/
theorem collapse_keeps_stores_sample : ∃ s₁ rest A h st,
    AddrSpace s₁ sampleEnd.managed rest 0x80001000 sampleProc A ∧
    Run (· = ⟨s₁, .idle⟩) (restrict (CollapseStep sampleProc .running) SparesCopied) h st ∧
    st.pc = .idle ∧ lastStored 4096 h = some 7 ∧ sampleProc.sees st.phys 4096 pteW = some 7 := by
  obtain ⟨s₁, rest, A, s, c, hA, hrun, hva, hpc, hload⟩ := exists_collapse
  obtain ⟨pa, hpa⟩ := hpc.access hA.root (by decide) (hload 4096 (by decide))
  have hu : (CollapsePc.copies c 1).Uncopied 4096 := Or.inr (by decide)
  have hrun' := hrun.snoc ⟨CollapseStep.store (b := 7) rfl hpa, fun va b he => by
    obtain ⟨rfl, -⟩ := CollapseEvent.store.inj he
    exact hu⟩
  obtain ⟨hpc', -⟩ := hpc.store (b := 7) hA.topHidden hA.root hu hpa
  obtain ⟨h', s', hend, -, hlast⟩ := Run.collapse_ends (fun _ _ _ _ hne hr =>
    ⟨CollapseStep.kernel hne hr, fun _ _ he => CollapseEvent.noConfusion he⟩) rfl hrun' hpc'
  have hstored : lastStored 4096 h' = some 7 := hlast 4096
  exact ⟨s₁, rest, A, h', _, hA, hend, rfl, hstored,
    ((collapse_keeps_stores _ _ _ _ _ _ _ hA _ _ hend).1 rfl 4096).1 7 hstored⟩

/-- A process stores to its first page after that page is copied, and the store is lost. -/
theorem collapse_loses_store : ∃ s₁ rest A h st,
    AddrSpace s₁ sampleEnd.managed rest 0x80001000 sampleProc A ∧
    Run (· = ⟨s₁, .idle⟩) (CollapseStep sampleProc .running) h st ∧ st.pc = .idle ∧
    ∃ b, lastStored 0 h = some b ∧ sampleProc.sees st.phys 0 pteW ≠ some b := by
  obtain ⟨s₁, rest, A, s, c, hA, hrun, hva, hpc, hload⟩ := exists_collapse
  obtain ⟨pa, hpa⟩ := hpc.access hA.root (by decide) (hload 0 (by decide))
  obtain ⟨b₀, hb₀⟩ := Option.ne_none_iff_exists'.1 (hload 0 (by decide))
  -- a byte other than the one that was copied
  obtain ⟨b, hb⟩ : ∃ b : UInt8, b ≠ b₀ := by
    by_cases h0 : b₀ = 0
    · exact ⟨1, by rw [h0]; decide⟩
    · exact ⟨0, Ne.symm h0⟩
  have hu : ¬(CollapsePc.copies c 1).Uncopied 0 := by
    rw [CollapsePc.Uncopied, hva]
    decide
  have hrun' := hrun.of_restrict.snoc (CollapseStep.store (b := b) rfl hpa)
  have hpc' := hpc.lose (b := b) hA.topHidden hA.root hu hpa
  obtain ⟨h', s', hend, ⟨A', huvm, htop, hview, -⟩, hlast⟩ := Run.collapse_ends
    (fun _ _ _ _ hne hr => CollapseStep.kernel hne hr) rfl hrun' hpc'
  refine ⟨s₁, rest, A, h', _, hA, hend, rfl, b, hlast 0, ?_⟩
  rw [huvm.sees_eq (hA.topHidden.of_sameTop htop) (hA.root.trans htop.root.symm) (by decide), hview,
    hb₀]
  exact fun he => hb (Option.some.inj he).symm

end Xv6Plus
