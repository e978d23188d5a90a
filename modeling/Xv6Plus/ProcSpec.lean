import Xv6Plus.AddrSpace
import Xv6Plus.VmFree
import Xv6Plus.VmCopy

/-!
# The memory of a process : made, copied and freed

`allocproc` gives a process a trapframe page and a page table that maps only that page and
the trampoline, `kfork` copies the parent's pages into it, and `freeproc` gives back all of it.
When memory runs out on the way, what was taken is given back. Each function is specified
beside arbitrary blocks `rest` of everybody else, which it leaves as they are.
-/

namespace Xv6Plus

/-- Nothing below the top is mapped, and there are no tables for it. -/
structure PTree.Fresh (A : PTree) : Prop where
  tables : ∀ k, User 1 k → A.ent 1 k = .absent
  pages : ∀ v < topVpn, A.ent 0 v = .absent

/-- The entries that link the tables over the top. -/
def topLinks : Finset (ℕ × ℕ) := {(2, topVpn / 512 ^ 2), (1, topVpn / 512)}

/-- A page table that is one cleared page. -/
def PTree.empty (root : ℕ) : PTree := ⟨root, fun _ _ => .absent⟩

section Pagetable

variable {s s' : Phys} {R : Set ℕ} {rest : Set (ℕ × ℕ)} {A A' : PTree} {k pa perm root sz : ℕ}

theorem PTree.empty_fresh (root : ℕ) : (empty root).Fresh := ⟨fun _ _ => rfl, fun _ _ => rfl⟩

theorem PTree.empty_isTable {L q p : ℕ} :
    (empty root).IsTable L q p ↔ L = 2 ∧ q = 0 ∧ p = root := by
  simp [IsTable, empty]

theorem PTree.empty_tables : (empty root).tables = {(root, 0)} := by
  ext ⟨a, o⟩
  simp only [tables, empty_isTable, Set.mem_ofPred_eq, Set.mem_singleton_iff, Prod.mk.injEq]
  constructor
  · rintro ⟨rfl, L, q, -, -, rfl⟩
    exact ⟨rfl, rfl⟩
  · rintro ⟨rfl, rfl⟩
    exact ⟨rfl, 2, 0, rfl, rfl, rfl⟩

theorem PTree.empty_leaves : (empty root).leaves = ∅ := by
  refine Set.eq_empty_of_forall_notMem ?_
  rintro b ⟨L, k, ⟨⟨fl, he⟩, _⟩, _⟩
  cases he

theorem PTree.empty_ok (root : ℕ) : (empty root).Ok where
  up _ _ h := absurd rfl h
  bottom _ _ := Entry.noConfusion
  top _ _ _ := Entry.noConfusion
  leaves _ _ _ _ h := Entry.noConfusion h
  inj L q L' q' p h h' := by
    rw [empty_isTable] at h h'
    exact ⟨h.1.trans h'.1.symm, h.2.1.trans h'.2.1.symm⟩
  low _ _ := rfl

/-- A page table without user pages has an empty view. -/
theorem Uvm.view_fresh (h : Uvm s R rest A) (hf : A.Fresh) (v : ℕ) : A.view s.mem v = none := by
  by_cases hv : v < topVpn
  · rw [PTree.view_eq_none hv]
    refine PTree.lookup_absent (fun b f he => ?_) (hf.pages v hv)
    rw [hf.tables _ (h.huge _ _ _ he)] at he
    cases he
  · exact PTree.view_of_ge (not_lt.1 hv)

theorem uvmcreate_spec (h : Owns s R ∅ rest) :
    wp uvmcreate (fun r s' => (r = 0 ∧ s' = s ∧ s.free = ∅) ∨
      (r ≠ 0 ∧ Uvm s' R rest (.empty r) ∧ Keeps rest s s')) noPanic s := by
  rw [uvmcreate, wp_bind]
  refine wp_post h.kalloc_spec fun r s₁ hr => ?_
  rcases hr with ⟨rfl, rfl, hfree⟩ | ⟨hne, _, h₁, hk₁⟩
  · rw [if_pos rfl, wp_pure]
    exact Or.inl ⟨rfl, rfl,
      Set.eq_empty_of_forall_notMem fun b hb => absurd (hfree b hb) (by omega)⟩
  · rw [insert_empty_eq] at h₁
    obtain ⟨h₂, hk₂⟩ := h₁.store_block (Set.mem_singleton _)
      (memset_span (c := 0) (n := 4096) (le_refl r) (by omega))
    rw [if_neg hne, wp_bind, wp_zeroPage, wp_pure]
    refine Or.inr ⟨hne, ⟨⟨?_, PTree.empty_ok r, ?_⟩, ?_, ?_, ?_⟩,
      (hk₁.mono Set.subset_union_right).trans (hk₂.mono Set.subset_union_right)⟩
    · rw [PTree.empty_tables, PTree.empty_leaves, Set.empty_union]
      exact h₂
    · intro L q p ht j hj
      obtain ⟨rfl, rfl, rfl⟩ := PTree.empty_isTable.1 ht
      exact read64_memset_zero (by omega) (by omega)
    · rw [PTree.empty_leaves]
      exact Set.empty_disjoint _
    · rintro L k k' pa ⟨⟨fl, he⟩, _⟩
      cases he
    · intro k pa fl he
      cases he

/-- Mapping one of the two pages at the top. -/
theorem Uvm.mapTop_spec (perm : ℕ) (h : Uvm s R rest A) (hf : A.Fresh) (hk : topVpn ≤ k)
    (hk' : k < 2 ^ 26)
    (habs : A.ent 0 k = .absent) (hl : LeafOk 0 pa (perm ||| pteV)) :
    wp (mappages A.root (4096 * k) pgSize pa perm) (fun r s' => ∃ A', Uvm s' R rest A' ∧
      A'.Fresh ∧ A'.root = A.root ∧ Keeps rest s s' ∧ (∀ k' ≠ k, A'.ent 0 k' = A.ent 0 k') ∧
      (∀ L k', 0 < L → k' ≠ k / 512 ^ L → A'.ent L k' = A.ent L k') ∧
      ((r = -1 ∧ A'.ent 0 k = .absent ∧ s'.free = ∅) ∨
        (r = 0 ∧ A'.ent 0 k = .leaf pa (perm ||| pteV)))) noPanic s := by
  have hv : 4096 * k / 4096 = k := Nat.mul_div_cancel_left _ (by omega)
  have hkk : k / 512 = 131071 := by
    simp only [topVpn] at hk
    omega
  have hup : ∀ b f, A.ent 1 (k / 512) ≠ .leaf b f := by
    intro b f he
    have := PTree.user_one.1 (h.huge _ _ _ he)
    simp only [topVpn] at this
    omega
  refine wp_post (Xv6Plus.mappages_spec h.pt (by omega) (by omega) hl (by rw [hv]; exact habs)
    (by rw [hv]; exact hup)) ?_
  rintro r s' ⟨A₁, hok, hg, hsame, hkeep, hr⟩
  rw [hv] at hsame hr
  have hfresh : ∀ k', PTree.User 1 k' → A₁.ent 1 k' = .absent := by
    intro k' hu
    have hu' := PTree.user_one.1 hu
    rw [hsame 1 k' (Or.inr (by rw [pow_one]; simp only [topVpn] at hu'; omega)), hf.tables k' hu]
  have hkr := hkeep.mono (Set.subset_union_right (s := A.leaves) (t := rest))
  rcases hr with ⟨rfl, hfree, hpt⟩ | ⟨rfl, hpt⟩
  · refine ⟨A₁, h.grows hg hpt, ⟨hfresh, fun v hv => ?_⟩, hg.root, hkr,
      fun k' _ => hsame 0 k' (Or.inl le_rfl), fun L k' hL hne => hsame L k' (Or.inr hne),
      Or.inl ⟨rfl, ?_, hfree⟩⟩
    · rw [hsame 0 v (Or.inl le_rfl), hf.pages v hv]
    · rw [hsame 0 k (Or.inl le_rfl), habs]
  · rw [pow_zero, Nat.div_one] at hpt
    refine ⟨A₁.put 0 k (.leaf pa (perm ||| pteV)) PTree.noKids, h.set_top hg hok hk hpt,
      ⟨fun k' hu => ?_, fun v hv => ?_⟩, hg.root, hkr, fun k' hne => ?_, fun L k' hL hne => ?_,
      Or.inr ⟨rfl, PTree.put_same⟩⟩
    · rw [PTree.put_other (by omega) (by omega)]
      exact hfresh k' hu
    · rw [PTree.put_other (by omega) (by omega), hsame 0 v (Or.inl le_rfl), hf.pages v hv]
    · rw [PTree.put_other (by omega) (by omega), hsame 0 k' (Or.inl le_rfl)]
    · rw [PTree.put_other (by omega) (by omega), hsame L k' (Or.inr hne)]

/-- Nothing is mapped at the top but maybe the trapframe and the trampoline. -/
theorem PTree.Ok.top_absent (h : A.Ok) (h0 : A.ent 0 topVpn = .absent)
    (h1 : A.ent 0 (topVpn + 1) = .absent) : ∀ k, topVpn ≤ k → A.ent 0 k = .absent := by
  intro k hk
  rcases (by omega : k = topVpn ∨ k = topVpn + 1 ∨ topVpn + 2 ≤ k) with rfl | rfl | hk
  · exact h0
  · exact h1
  · exact h.absent_high (by simp only [topVpn] at hk; omega)

/-- `proc_freepagetable` with the way to split huge pages as a parameter. -/
def procFreepagetableWith (split : ℕ → ℕ → Kern Phys ℤ) (pagetable sz : ℕ) : Kern Phys Unit := do
  uvmunmapWith split pagetable trampoline 1 false
  uvmunmapWith split pagetable trapframe 1 false
  uvmfreeWith split pagetable sz

theorem procFreepagetable_eq (pagetable sz : ℕ) :
    procFreepagetable pagetable sz = procFreepagetableWith splitHugePage pagetable sz := by
  rw [procFreepagetable, procFreepagetableWith, uvmunmap_eq, uvmfree_eq]

/-- `proc_freepagetable` gives back everything; no huge page is split for it. -/
theorem procFreepagetableWith_spec (split : ℕ → ℕ → Kern Phys ℤ) (h : Uvm s R rest A)
    (hsz : sz ≤ trapframe) (hbelow : ∀ v, pages sz ≤ v → A.view s.mem v = none) :
    wp (procFreepagetableWith split A.root sz) (fun _ s' => Owns s' R ∅ rest ∧ Keeps rest s s')
      noPanic s := by
  have htop : trampoline = 4096 * (topVpn + 1) := by decide
  have hframe : trapframe = 4096 * topVpn := by decide
  rw [procFreepagetableWith, wp_bind, htop]
  refine wp_post (uvmunmap_top_spec _ h (by omega) (by decide)) ?_
  rintro _ s₁ ⟨A₁, h₁, hr₁, ha₁, hs₁, hv₁, hk₁⟩
  rw [wp_bind, hframe, ← hr₁]
  refine wp_post (uvmunmap_top_spec _ h₁ le_rfl (by decide)) ?_
  rintro _ s₂ ⟨A₂, h₂, hr₂, ha₂, hs₂, hv₂, hk₂⟩
  rw [← hr₂]
  refine wp_post (uvmfreeWith_spec _ h₂ hsz (by rw [hv₂, hv₁]; exact hbelow)
    (h₂.pt.ok.top_absent ha₂ (by rw [hs₂ _ (by omega), ha₁]))) ?_
  rintro _ s₃ ⟨hown, hk₃⟩
  exact ⟨hown, (hk₁.trans hk₂).trans hk₃⟩

theorem procFreepagetable_spec (h : Uvm s R rest A) (hsz : sz ≤ trapframe)
    (hbelow : ∀ v, pages sz ≤ v → A.view s.mem v = none) :
    wp (procFreepagetable A.root sz) (fun _ s' => Owns s' R ∅ rest ∧ Keeps rest s s')
      noPanic s := by
  rw [procFreepagetable_eq]
  exact procFreepagetableWith_spec _ h hsz hbelow

/-- The pages that a page table is made of. -/
structure TrapPages (tramp tf : ℕ) : Prop where
  tramp : LeafOk 0 tramp 11
  tf : LeafOk 0 tf 7

theorem Uvm.mapped_fresh (h : Uvm s R rest A) (hf : A.Fresh) : A.mapped = ∅ := by
  refine Set.eq_empty_of_forall_notMem fun v hv => ?_
  exact (PTree.mem_mapped (m := s.mem)).1 hv (h.view_fresh hf v)

/-- A page table with nothing but the top has three pages. -/
theorem Uvm.freeCount_top {s₀ : Phys} (h : Uvm s R rest A) (hf : A.Fresh)
    (hl : A.LinksIn topLinks) (h₀ : Owns s₀ R ∅ rest) : s₀.freeCount ≤ s.freeCount + 3 := by
  have hc := h.census
  have hc₀ := h₀.census
  have ht := hl.ncard_tables
  have hcard : topLinks.card ≤ 2 := Finset.card_le_two
  rw [h.mapped_fresh hf, Set.ncard_empty] at hc
  omega

/-- `proc_pagetable` : a page table with nothing but the two pages at the top, or nothing, for
which there are no more than three free pages. -/
theorem procPagetable_spec {tramp : ℕ} {p : Proc} (h : Owns s R ∅ rest)
    (htp : TrapPages tramp p.trapframe) :
    wp (procPagetable tramp p) (fun r s' =>
      (r = 0 ∧ Owns s' R ∅ rest ∧ Keeps rest s s' ∧ s.freeCount ≤ 3) ∨
      (r ≠ 0 ∧ ∃ A, AddrSpace s' R rest tramp { p with pagetable := r, sz := 0 } A ∧ A.Fresh ∧
        A.LinksIn topLinks ∧ Keeps rest s s')) noPanic s := by
  have htop : trampoline = 4096 * (topVpn + 1) := by decide
  have hframe : trapframe = 4096 * topVpn := by decide
  have hzero : (0 : ℕ) ≤ trapframe := Nat.zero_le _
  rw [procPagetable, wp_bind]
  refine wp_post (uvmcreate_spec h) ?_
  rintro root s₁ (⟨rfl, rfl, hfree⟩ | ⟨hne, h₁, hk₁⟩)
  · rw [if_pos rfl, wp_pure]
    exact Or.inl ⟨rfl, h, .refl _ _, by rw [freeCount_eq_zero hfree]; omega⟩
  have hl₁ : (PTree.empty root).LinksIn topLinks := fun _ _ _ he => Entry.noConfusion he
  rw [if_neg hne, wp_bind, htop]
  refine wp_post (h₁.mapTop_spec (k := topVpn + 1) _ (PTree.empty_fresh root) (by omega) (by decide)
    rfl htp.tramp) ?_
  rintro r s₂ ⟨A₂, h₂, hf₂, hr₂, hk₂, hs₂, ho₂, hcase₂⟩
  have hl₂ : A₂.LinksIn topLinks := hl₁.grow h₂.pt.ok ho₂ (by decide)
  rcases hcase₂ with ⟨rfl, ha₂, hfree⟩ | ⟨rfl, ha₂⟩
  · -- no memory for the tables over the trampoline
    rw [if_pos (by decide), wp_bind]
    have hfreed := uvmfree_spec h₂ hzero (fun v _ => h₂.view_fresh hf₂ v)
      (h₂.pt.ok.top_absent (by rw [hs₂ _ (by omega)]; rfl) ha₂)
    rw [hr₂] at hfreed
    refine wp_post hfreed ?_
    rintro _ s₃ ⟨hown, hk₃⟩
    rw [wp_pure]
    have hcount := h₂.freeCount_top hf₂ hl₂ h
    rw [freeCount_eq_zero hfree] at hcount
    exact Or.inl ⟨rfl, hown, (hk₁.trans hk₂).trans hk₃, hcount⟩
  have habs : A₂.ent 0 topVpn = .absent := by
    rw [hs₂ _ (by omega)]
    rfl
  have hmap := h₂.mapTop_spec (pteR ||| pteW) hf₂ le_rfl (by decide) habs htp.tf
  rw [hr₂] at hmap
  rw [if_neg (by decide), wp_bind, hframe]
  refine wp_post hmap ?_
  rintro r s₃ ⟨A₃, h₃, hf₃, hr₃, hk₃, hs₃, ho₃, hcase₃⟩
  have hl₃ : A₃.LinksIn topLinks := hl₂.grow h₃.pt.ok ho₃ (by decide)
  rcases hcase₃ with ⟨rfl, ha₃, hfree⟩ | ⟨rfl, ha₃⟩
  · rw [if_pos (by decide), wp_bind]
    have hunmap := uvmunmap_top_spec (k := topVpn + 1) splitHugePage h₃ (by omega) (by decide)
    rw [hr₃, ← uvmunmap_eq] at hunmap
    refine wp_post hunmap ?_
    rintro _ s₄ ⟨A₄, h₄, hr₄, ha₄, hs₄, hv₄, hk₄⟩
    have hfreed := uvmfree_spec h₄ hzero (fun v _ => by rw [hv₄]; exact h₃.view_fresh hf₃ v)
      (h₄.pt.ok.top_absent (by rw [hs₄ _ (by omega), ha₃]) ha₄)
    rw [hr₄] at hfreed
    rw [wp_bind]
    refine wp_post hfreed ?_
    rintro _ s₅ ⟨hown, hk₅⟩
    have hcount := h₃.freeCount_top hf₃ hl₃ h
    rw [freeCount_eq_zero hfree] at hcount
    rw [wp_pure]
    exact Or.inl ⟨rfl, hown, (((hk₁.trans hk₂).trans hk₃).trans hk₄).trans hk₅, hcount⟩
  · rw [if_neg (by decide), wp_pure]
    refine Or.inr ⟨hne, A₃, ⟨h₃, hr₃.symm, hzero, fun v _ => h₃.view_fresh hf₃ v, ha₃, ?_⟩,
      hf₃, hl₃, (hk₁.trans hk₂).trans hk₃⟩
    rw [hs₃ _ (by omega), ha₂]
    rfl

end Pagetable

/-! ## `allocproc` and `freeproc` -/

section Allocproc

variable {s s' : Phys} {R : Set ℕ} {rest : Set (ℕ × ℕ)} {A : PTree} {tramp : ℕ} {p : Proc}

/-- The address space is unchanged, and the others hold something else now. -/
theorem AddrSpace.reframe {rest' : Set (ℕ × ℕ)} (h : AddrSpace s R rest tramp p A)
    (hown : Owns s' R (A.tables ∪ A.leaves) rest') (hk : Keeps (A.tables ∪ A.leaves) s s') :
    AddrSpace s' R rest' tramp p A := by
  refine ⟨.of_owns hown h.uvm (hk.mono Set.subset_union_left), h.root, h.sz_le, fun v hv => ?_,
    h.frame, h.tramp⟩
  rw [h.uvm.view_keeps (hk.mono Set.subset_union_right)]
  exact h.below v hv

/-- A page that is owned can be the trapframe. -/
theorem Owns.leafOk {own frame : Set (ℕ × ℕ)} {a : ℕ} (h : Owns s R own frame)
    (ha : (a, 0) ∈ own) : LeafOk 0 a 7 := by
  have hp := h.page ha
  exact ⟨by omega, by omega, by decide, by decide, by decide⟩

theorem AddrSpace.pagetable_ne_zero (h : AddrSpace s R rest tramp p A) : p.pagetable ≠ 0 := by
  have := h.uvm.pt.table_page A.root_isTable
  rw [h.root]
  omega

/-- `freeproc` gives back the trapframe page and all that the page table holds. -/
theorem freeproc_spec (h : AddrSpace s R (insert (p.trapframe, 0) rest) tramp p A)
    (hnot : (p.trapframe, 0) ∉ rest) :
    wp (freeproc p) (fun q s' => q = unusedProc ∧ Owns s' R ∅ rest ∧ Keeps rest s s')
      noPanic s := by
  have htf := h.uvm.owns.symm.page (Set.mem_insert _ _)
  rw [freeproc]
  dsimp only
  rw [if_pos (by omega), wp_bind]
  refine wp_post (h.uvm.kfree_spec (Set.mem_insert _ _)) ?_
  rintro _ s₁ ⟨h₁, hk₁⟩
  rw [Set.insert_sdiff_self_of_notMem hnot] at h₁ hk₁
  rw [if_pos h.pagetable_ne_zero, wp_bind, h.root]
  have hbelow : ∀ v, pages p.sz ≤ v → A.view s₁.mem v = none := by
    rw [h.uvm.view_keeps (hk₁.mono fun b hb => Or.inl (Or.inr hb))]
    exact h.below
  refine wp_post (procFreepagetable_spec h₁ h.sz_le hbelow) ?_
  rintro _ s₂ ⟨hown, hk₂⟩
  rw [wp_pure]
  exact ⟨rfl, hown, (hk₁.mono Set.subset_union_right).trans hk₂⟩

/-- `freeproc` of a process without a page table. -/
theorem freeproc_of_pagetable_zero (h : p.pagetable = 0) :
    freeproc p = if p.trapframe ≠ 0 then do kfree p.trapframe; pure unusedProc
      else pure unusedProc := by
  rw [freeproc]
  dsimp only
  rw [if_neg (not_not.2 h)]

/-- `allocproc` sets up a process without memory of its own, or leaves the slot unused for want
of memory. -/
theorem allocprocFound_spec (h : Owns s R ∅ rest) (ht : LeafOk 0 tramp 11) :
    wp (allocprocFound tramp unusedProc) (fun r s' =>
      (r = (unusedProc, false) ∧ Owns s' R ∅ rest ∧ Keeps rest s s' ∧ s.freeCount ≤ 4) ∨
      (r.2 = true ∧ r.1.state = .used ∧ r.1.sz = 0 ∧ (r.1.trapframe, 0) ∉ rest ∧ ∃ A,
        AddrSpace s' R (insert (r.1.trapframe, 0) rest) tramp r.1 A ∧ A.Fresh ∧
        Keeps rest s s' ∧ s.freeCount ≤ s'.freeCount + 4)) noPanic s := by
  rw [allocprocFound, wp_bind]
  refine wp_post h.symm.kalloc_spec fun tf s₁ hr => ?_
  rcases hr with ⟨rfl, rfl, hfree⟩ | ⟨hne, hnot, h₁, hk₁⟩
  · -- no trapframe page
    have hzero : s₁.freeCount = 0 := freeCount_eq_zero
      (Set.eq_empty_of_forall_notMem fun b hb => absurd (hfree b hb) (by omega))
    dsimp only
    rw [if_pos rfl, wp_bind, freeproc_of_pagetable_zero rfl, if_neg (not_not.2 rfl), wp_pure,
      wp_pure]
    exact Or.inl ⟨rfl, h, .refl _ _, by omega⟩
  have hcount := h.symm.freeCount_alloc h₁ hnot
  have hk₁' : Keeps rest s s₁ := hk₁.mono Set.subset_union_left
  dsimp only
  rw [if_neg hne, wp_bind]
  refine wp_post (procPagetable_spec h₁.symm ⟨ht, h₁.leafOk (Set.mem_insert _ _)⟩) ?_
  rintro r s₂ (⟨rfl, hown, hk₂, hle⟩ | ⟨hr, A, hA, hf, hl, hk₂⟩)
  · -- no memory for the page table : the trapframe page is given back
    have hk₂' := hk₂.mono (Set.subset_insert (tf, 0) rest)
    rw [if_pos rfl, wp_bind, freeproc_of_pagetable_zero rfl, if_pos hne, wp_bind]
    refine wp_post (hown.symm.kfree_spec (Set.mem_insert _ _)) ?_
    rintro _ s₃ ⟨hown₃, hk₃⟩
    rw [Set.insert_sdiff_self_of_notMem hnot] at hown₃ hk₃
    rw [wp_pure, wp_pure]
    exact Or.inl ⟨rfl, hown₃.symm, (hk₁'.trans hk₂').trans (hk₃.mono Set.subset_union_left),
      by omega⟩
  · have htop := hA.uvm.freeCount_top hf hl h₁.symm
    rw [if_neg hr, wp_pure]
    exact Or.inr ⟨rfl, rfl, rfl, hnot, A, hA, hf,
      hk₁'.trans (hk₂.mono (Set.subset_insert _ _)), by omega⟩

end Allocproc

end Xv6Plus
