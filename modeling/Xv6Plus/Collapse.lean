import Xv6Plus.Split

/-!
# Collapsing pages into a huge page

`vm_try_collapse` replaces the 512 pages of a table, if they are all mapped with the same
flags, by one huge page with the same bytes. It frees the pages and the table before it
writes the new entry, so in between the entry points to a free page; when it returns, the
process sees what it saw before (`vmTryCollapse_spec`).

After its checks the function is a sequence of small steps : one page copied, one page freed,
the table freed, the entry written (`vmTryCollapse_eq`). `PcInv` says what holds before each of
them, with the view `V` that the process will have in the end.
-/

namespace Xv6Plus

/-! ## The tree after a collapse -/

namespace PTree

variable {A : PTree} {k new fl l0 v p : ℕ} {pages : ℕ → ℕ}

/-- The table `k` of pages becomes the huge page at `new`. -/
def collapse (A : PTree) (k new fl : ℕ) : PTree := A.put 1 k (.leaf new fl) noKids

theorem ownLeaf_collapse (he : A.ent 1 k = .table l0) (hu : User 1 k) {L' k' pa' : ℕ} :
    (A.collapse k new fl).OwnLeaf L' k' pa' ↔ (L' = 1 ∧ k' = k ∧ pa' = new) ∨
      (¬(L' = 0 ∧ k' / 512 = k) ∧ A.OwnLeaf L' k' pa') := by
  rw [collapse, ownLeaf_put]
  constructor
  · rintro (⟨hL, hk, ⟨_, h⟩, _⟩ | ⟨_, _, ⟨_, h⟩, _⟩ | ⟨_, hn, h⟩)
    · exact Or.inl ⟨hL, hk, (Entry.leaf.inj h).1.symm⟩
    · cases h
    · exact Or.inr ⟨by omega, h⟩
  · rintro (⟨rfl, rfl, rfl⟩ | ⟨hn, h⟩)
    · exact Or.inl ⟨rfl, rfl, ⟨fl, rfl⟩, hu⟩
    · refine Or.inr (Or.inr ⟨?_, by omega, h⟩)
      rintro ⟨rfl, rfl⟩
      obtain ⟨fl', hfl⟩ := h.1
      rw [he] at hfl
      cases hfl

theorem leaves_collapse (new : ℕ) (he : A.ent 1 k = .table l0) (hu : User 1 k)
    (hpages : ∀ j < 512, A.ent 0 (512 * k + j) = .leaf (pages j) fl)
    (hinj : ∀ k₁ k₂ pa, A.OwnLeaf 0 k₁ pa → A.OwnLeaf 0 k₂ pa → k₁ = k₂) :
    (A.collapse k new fl).leaves = insert (new, 9) (A.leaves \ pageBlocks pages 512) := by
  have hu' := user_one.1 hu
  have hown : ∀ j < 512, A.OwnLeaf 0 (512 * k + j) (pages j) := fun j hj => by
    refine ⟨⟨fl, hpages j hj⟩, user_zero.2 ?_⟩
    simp only [topVpn] at hu' ⊢
    omega
  ext ⟨a, o⟩
  constructor
  · rintro ⟨L', k', h, ho⟩
    rw [ownLeaf_collapse he hu] at h
    rcases h with ⟨rfl, _, ha⟩ | ⟨hn, h⟩
    · exact Or.inl (Prod.ext ha ho)
    · refine Or.inr ⟨⟨L', k', h, ho⟩, ?_⟩
      rintro ⟨j, hj, heq⟩
      obtain ⟨rfl, rfl⟩ := Prod.mk.inj heq
      obtain rfl : L' = 0 := by omega
      have := hinj _ _ _ h (hown j hj)
      omega
  · rintro (heq | ⟨⟨L', k', h, ho⟩, hne⟩)
    · obtain ⟨rfl, rfl⟩ := Prod.mk.inj heq
      exact ⟨1, k, (ownLeaf_collapse he hu).2 (Or.inl ⟨rfl, rfl, rfl⟩), rfl⟩
    · refine ⟨L', k', (ownLeaf_collapse he hu).2 (Or.inr ⟨?_, h⟩), ho⟩
      rintro ⟨rfl, hk⟩
      obtain ⟨fl', hfl⟩ := h.1
      have hp := hpages (k' % 512) (Nat.mod_lt _ (by omega))
      rw [show 512 * k + k' % 512 = k' by omega, hfl] at hp
      exact hne ⟨k' % 512, Nat.mod_lt _ (by omega), Prod.ext (Entry.leaf.inj hp).1 ho⟩

theorem ownLeaf_collapse_inj (he : A.ent 1 k = .table l0) (hu : User 1 k)
    (hnew : (new, 9) ∉ A.leaves)
    (hinj : ∀ L k k' pa, A.OwnLeaf L k pa → A.OwnLeaf L k' pa → k = k') (L k₁ k₂ pa : ℕ)
    (h₁ : (A.collapse k new fl).OwnLeaf L k₁ pa) (h₂ : (A.collapse k new fl).OwnLeaf L k₂ pa) :
    k₁ = k₂ := by
  rw [ownLeaf_collapse he hu] at h₁ h₂
  have hclash : ∀ k', A.OwnLeaf 1 k' new → False := fun k' hk' => hnew ⟨1, k', hk', rfl⟩
  rcases h₁ with ⟨rfl, rfl, rfl⟩ | ⟨_, h₁⟩ <;> rcases h₂ with ⟨hL, hk₂, hp⟩ | ⟨_, h₂⟩
  · exact hk₂.symm
  · exact (hclash k₂ h₂).elim
  · subst hL hp
    exact (hclash k₁ h₁).elim
  · exact hinj L k₁ k₂ pa h₁ h₂

theorem lookup_collapse : (A.collapse k new fl).lookup v =
    if v / 512 = k then some (new + 4096 * (v % 512), fl) else A.lookup v := by
  split_ifs with hv
  · subst hv
    exact lookup_huge put_same
  · refine lookup_congr (fun b f => ?_) fun b f => ?_
    · rw [collapse, put_other (by omega) (by omega)]
    · rw [collapse, put_other (by omega) (by omega)]

theorem collapse_sameTop (hu : User 1 k) : A.SameTop (A.collapse k new fl) := by
  have hu' := user_one.1 hu
  refine ⟨rfl, fun k' hk' => put_other (by omega) ?_⟩
  simp only [topVpn] at hu' hk'
  omega

end PTree

/-! ## The steps of `vm_try_collapse` -/

/-- The argument and the locals of `vm_try_collapse`. -/
structure CollapseCall where
  va : ℕ
  l1 : ℕ
  l0 : ℕ
  newPage : ℕ
  flags : ℕ

/-- Where `khugepaged` is. -/
inductive CollapsePc
  | idle
  /-- Copies the page `i` next. -/
  | copies (c : CollapseCall) (i : ℕ)
  /-- Frees the page `i` next. -/
  | frees (c : CollapseCall) (i : ℕ)
  /-- Frees the table next. -/
  | freesTable (c : CollapseCall)
  /-- Writes the entry of level 1 next. -/
  | switches (c : CollapseCall)

/-- `vm_try_collapse` up to and with `kalloc_huge`. -/
def collapseBegin (p : Proc) (va : ℕ) : Kern Phys CollapsePc :=
  if p.pagetable = 0 then pure .idle
  else if va % hugePgSize ≠ 0 then pure .idle
  else if wrap64 (va + hugePgSize) > p.sz then pure .idle
  else do
    match ← walkToLevel p.pagetable va false 1 with
    | none => pure .idle
    | some (l1, _) =>
      let e ← load64 l1
      if e &&& pteV = 0 then pure .idle
      else if e &&& (pteR ||| pteW ||| pteX) ≠ 0 then pure .idle
      else
        let l0 := pte2pa e
        match ← collapseFlags l0 512 0 0 with
        | none => pure .idle
        | some flags =>
          let newPage ← kallocHuge
          if newPage = 0 then pure .idle
          else pure (.copies ⟨va, l1, l0, newPage, flags⟩ 0)

/-- One step after that. -/
def collapseNext : CollapsePc → Kern Phys CollapsePc
  | .idle => pure .idle
  | .copies c i => do
    let entry ← load64 (c.l0 + 8 * i)
    moveBytes (c.newPage + i * pgSize) (pte2pa entry) pgSize
    pure (if i + 1 < 512 then .copies c (i + 1) else .frees c 0)
  | .frees c i => do
    let entry ← load64 (c.l0 + 8 * i)
    kfree (pte2pa entry)
    pure (if i + 1 < 512 then .frees c (i + 1) else .freesTable c)
  | .freesTable c => do
    kfree c.l0
    pure (.switches c)
  | .switches c => do
    store64 c.l1 (pa2pte c.newPage ||| c.flags)
    pure .idle

/-- A number of steps. -/
def collapseSteps : ℕ → CollapsePc → Kern Phys CollapsePc
  | 0, pc => pure pc
  | n + 1, pc => collapseNext pc >>= collapseSteps n

theorem collapseSteps_add (m : ℕ) : ∀ (n : ℕ) (pc : CollapsePc),
    collapseSteps (n + m) pc = collapseSteps n pc >>= collapseSteps m
  | 0, pc => by rw [Nat.zero_add, collapseSteps, pure_bind]
  | n + 1, pc => by
    rw [Nat.add_right_comm, collapseSteps, collapseSteps, bind_assoc]
    exact bind_congr fun pc' => collapseSteps_add m n pc'

theorem collapseSteps_copies (c : CollapseCall) : ∀ n i : ℕ, n + 1 + i = 512 →
    collapseSteps (n + 1) (.copies c i) =
      collapseCopy c.l0 c.newPage (n + 1) i >>= fun _ => pure (.frees c 0)
  | 0, i, hi => by
    simp only [collapseSteps, collapseNext, collapseCopy, bind_assoc, pure_bind]
    rw [if_neg (by omega)]
  | n + 1, i, hi => by
    rw [collapseSteps, collapseNext, collapseCopy, if_pos (by omega)]
    simp only [bind_assoc, pure_bind]
    rw [collapseSteps_copies c n (i + 1) (by omega)]

theorem collapseSteps_frees (c : CollapseCall) : ∀ n i : ℕ, n + 1 + i = 512 →
    collapseSteps (n + 1) (.frees c i) =
      freeEach pte2pa c.l0 (n + 1) i >>= fun _ => pure (.freesTable c)
  | 0, i, hi => by
    simp only [collapseSteps, collapseNext, freeEach, bind_assoc, pure_bind]
    rw [if_neg (by omega)]
  | n + 1, i, hi => by
    rw [collapseSteps, collapseNext, freeEach, if_pos (by omega)]
    simp only [bind_assoc, pure_bind]
    rw [collapseSteps_frees c n (i + 1) (by omega)]

/-- The steps are those of `vm_try_collapse`. -/
theorem vmTryCollapse_eq (p : Proc) (va : ℕ) : vmTryCollapse p va = (do
    match ← collapseBegin p va with
    | .idle => pure 0
    | pc =>
      let _ ← collapseSteps 1026 pc
      pure 1) := by
  have hsteps : ∀ c, collapseSteps 1026 (.copies c 0) = (do
      collapseCopy c.l0 c.newPage 512 0
      freeEach pte2pa c.l0 512 0
      kfree c.l0
      store64 c.l1 (pa2pte c.newPage ||| c.flags)
      pure .idle) := by
    intro c
    rw [show 1026 = 512 + (512 + 2) from rfl, collapseSteps_add,
      collapseSteps_copies c 511 0 rfl, bind_assoc]
    refine bind_congr fun _ => ?_
    rw [pure_bind, collapseSteps_add, collapseSteps_frees c 511 0 rfl, bind_assoc]
    refine bind_congr fun _ => ?_
    simp only [pure_bind, collapseSteps, collapseNext, bind_assoc]
  rw [vmTryCollapse, collapseBegin]
  split_ifs with h1 h2 h3
  · rw [pure_bind]
  · rw [pure_bind]
  · rw [pure_bind]
  · rw [bind_assoc]
    refine bind_congr fun r => ?_
    rcases r with _ | ⟨l1, L⟩
    · rw [pure_bind]
    dsimp only
    rw [bind_assoc]
    refine bind_congr fun e => ?_
    split_ifs with h4 h5
    · rw [pure_bind]
    · rw [pure_bind]
    rw [bind_assoc]
    refine bind_congr fun r => ?_
    rcases r with _ | flags
    · rw [pure_bind]
    dsimp only
    rw [bind_assoc]
    refine bind_congr fun newPage => ?_
    split_ifs with h6
    · rw [pure_bind]
    · rw [pure_bind]
      dsimp only
      rw [hsteps]
      simp only [bind_assoc, pure_bind]

/-! ## What holds before each step -/

/-- The block of 512 pages. -/
def CollapseCall.block (c : CollapseCall) : ℕ := c.va / 4096 / 512

/-- The tree in the end. -/
def CollapseCall.tree (c : CollapseCall) (A : PTree) : PTree :=
  A.collapse c.block c.newPage c.flags

/-- The call has passed its checks in the state `s₀`. -/
structure CollapseCall.Ok (c : CollapseCall) (s₀ : Phys) (R : Set ℕ) (rest : Set (ℕ × ℕ))
    (A : PTree) (pages : ℕ → ℕ) : Prop where
  uvm : Uvm s₀ R rest A
  ent : A.ent 1 c.block = .table c.l0
  user : PTree.User 1 c.block
  slot : ∃ p, A.IsTable 1 (c.block / 512) p ∧ c.l1 = p + 8 * (c.block % 512)
  leaf : ∀ j < 512, A.ent 0 (512 * c.block + j) = .leaf (pages j) c.flags

/-- The pages below `i` are copied. What the process will see of them is the copy. -/
structure CollapseCall.Copying (c : CollapseCall) (s₀ : Phys) (R : Set ℕ) (rest : Set (ℕ × ℕ))
    (A : PTree)
    (V : View) (i : ℕ) (s : Phys) : Prop where
  owns : Owns s R {(c.newPage, 9)} (A.tables ∪ A.leaves ∪ rest)
  keeps : Keeps (A.tables ∪ rest) s₀ s
  view : ∀ v, (∀ j < i, v ≠ 512 * c.block + j) → A.view s.mem v = V v
  copied : ∀ j < i, V (512 * c.block + j) =
    some (c.flags, fun x : Fin 4096 => s.mem (c.newPage + j * 4096 + x))

/-- The pages below `i` are freed. -/
structure CollapseCall.Freeing (c : CollapseCall) (s₀ : Phys) (R : Set ℕ) (rest : Set (ℕ × ℕ))
    (A : PTree)
    (pages : ℕ → ℕ) (V : View) (i : ℕ) (s : Phys) : Prop where
  fresh : (c.newPage, 9) ∉ A.tables ∪ A.leaves ∪ rest
  owns : Owns s R ({(c.newPage, 9)} ∪ pagesFrom pages i 512)
    (A.tables ∪ (A.leaves \ pageBlocks pages 512 ∪ rest))
  keeps : Keeps (A.tables ∪ rest) s₀ s
  view : (c.tree A).view s.mem = V

/-- The table is freed. -/
structure CollapseCall.Switching (c : CollapseCall) (s₀ : Phys) (R : Set ℕ) (rest : Set (ℕ × ℕ))
    (A : PTree)
    (pages : ℕ → ℕ) (V : View) (s : Phys) : Prop where
  fresh : (c.newPage, 9) ∉ A.tables ∪ A.leaves ∪ rest
  owns : Owns s R (A.tables \ {(c.l0, 0)})
    (insert (c.newPage, 9) (A.leaves \ pageBlocks pages 512) ∪ rest)
  keeps : Keeps (A.tables \ {(c.l0, 0)} ∪ rest) s₀ s
  view : (c.tree A).view s.mem = V

/-- What holds at `pc`. Since the state `s₁` with the page table `A₁` the memory of others has
not changed. -/
def PcInv (R : Set ℕ) (rest : Set (ℕ × ℕ)) (s₁ : Phys) (A₁ : PTree) (V : View) :
    CollapsePc → Phys → Prop
  | .idle, s => ∃ A, Uvm s R rest A ∧ A₁.SameTop A ∧ A.view s.mem = V ∧ Keeps rest s₁ s
  | .copies c i, s => i < 512 ∧ ∃ s₀ A pages, c.Ok s₀ R rest A pages ∧ A₁.SameTop A ∧
      Keeps rest s₁ s₀ ∧ c.Copying s₀ R rest A V i s
  | .frees c i, s => i < 512 ∧ ∃ s₀ A pages, c.Ok s₀ R rest A pages ∧ A₁.SameTop A ∧
      Keeps rest s₁ s₀ ∧ c.Freeing s₀ R rest A pages V i s
  | .freesTable c, s => ∃ s₀ A pages, c.Ok s₀ R rest A pages ∧ A₁.SameTop A ∧
      Keeps rest s₁ s₀ ∧ c.Freeing s₀ R rest A pages V 512 s
  | .switches c, s => ∃ s₀ A pages, c.Ok s₀ R rest A pages ∧ A₁.SameTop A ∧
      Keeps rest s₁ s₀ ∧ c.Switching s₀ R rest A pages V s

/-- Where the next step leads. -/
def CollapsePc.next : CollapsePc → CollapsePc
  | .idle => .idle
  | .copies c i => if i + 1 < 512 then .copies c (i + 1) else .frees c 0
  | .frees c i => if i + 1 < 512 then .frees c (i + 1) else .freesTable c
  | .freesTable c => .switches c
  | .switches _ => .idle

/-- The number of steps that are left. -/
def CollapsePc.left : CollapsePc → ℕ
  | .idle => 0
  | .copies _ i => 1026 - i
  | .frees _ i => 514 - i
  | .freesTable _ => 2
  | .switches _ => 1

namespace CollapseCall.Ok

variable {c : CollapseCall} {s₀ : Phys} {R : Set ℕ} {rest : Set (ℕ × ℕ)} {A : PTree}
  {pages : ℕ → ℕ}

theorem table (h : c.Ok s₀ R rest A pages) : A.IsTable 0 c.block c.l0 :=
  PTree.isTable_of_ent (by omega) h.ent

theorem table_mem (h : c.Ok s₀ R rest A pages) : (c.l0, 0) ∈ A.tables :=
  PTree.mem_tables.2 ⟨0, c.block, h.table⟩

theorem block_le (h : c.Ok s₀ R rest A pages) : 512 * c.block + 512 ≤ topVpn :=
  PTree.user_one.1 h.user

theorem ownLeaf (h : c.Ok s₀ R rest A pages) {j : ℕ} (hj : j < 512) :
    A.OwnLeaf 0 (512 * c.block + j) (pages j) := by
  have := h.block_le
  exact ⟨⟨c.flags, h.leaf j hj⟩, PTree.user_zero.2 (by omega)⟩

theorem page_mem (h : c.Ok s₀ R rest A pages) {j : ℕ} (hj : j < 512) : (pages j, 0) ∈ A.leaves :=
  ⟨0, _, h.ownLeaf hj, rfl⟩

theorem pages_subset (h : c.Ok s₀ R rest A pages) : pageBlocks pages 512 ⊆ A.leaves := by
  rintro b ⟨j, hj, rfl⟩
  exact h.page_mem hj

theorem pages_inj (h : c.Ok s₀ R rest A pages) {j j' : ℕ} (hj : j < 512) (hj' : j' < 512)
    (heq : pages j = pages j') : j = j' := by
  have := h.uvm.inj 0 _ _ _ (h.ownLeaf hj) (heq ▸ h.ownLeaf hj')
  omega

theorem lookup (h : c.Ok s₀ R rest A pages) {j : ℕ} (hj : j < 512) :
    A.lookup (512 * c.block + j) = some (pages j, c.flags) := by
  refine PTree.lookup_page (fun b f he => ?_) (h.leaf j hj)
  rw [show (512 * c.block + j) / 512 = c.block by omega, h.ent] at he
  cases he

theorem leaves_tree (h : c.Ok s₀ R rest A pages) :
    (c.tree A).leaves = insert (c.newPage, 9) (A.leaves \ pageBlocks pages 512) :=
  PTree.leaves_collapse c.newPage h.ent h.user h.leaf (h.uvm.inj 0)

/-- The entry of the page `j`, read while the tables are kept. -/
theorem entry (h : c.Ok s₀ R rest A pages) {s : Phys} (hk : Keeps (A.tables ∪ rest) s₀ s) {j : ℕ}
    (hj : j < 512) : pte2pa (read64 s.mem (c.l0 + 8 * j)) = pages j := by
  rw [hk.read64 (Or.inl h.table_mem) (by omega) (by omega), h.uvm.pt.rep 0 _ _ h.table j hj,
    h.leaf j hj, (h.uvm.pt.ok.leaves _ _ _ _ (h.leaf j hj)).bits_pa]

theorem tree_huge (h : c.Ok s₀ R rest A pages) :
    ∀ k pa fl, (c.tree A).ent 1 k = .leaf pa fl → PTree.User 1 k := by
  intro k pa fl he
  by_cases hk : k = c.block
  · exact hk ▸ h.user
  · rw [tree, PTree.collapse, PTree.put_other (by omega) (by omega)] at he
    exact h.uvm.huge k pa fl he

theorem sameTop (h : c.Ok s₀ R rest A pages) : A.SameTop (c.tree A) :=
  PTree.collapse_sameTop h.user

end CollapseCall.Ok

section Collapse

variable {s s₀ s₁ : Phys} {R : Set ℕ} {rest frame : Set (ℕ × ℕ)} {A A₁ : PTree}
  {k new fl l0 : ℕ} {pages : ℕ → ℕ} {E : String → Prop} {c : CollapseCall} {V : View} {i : ℕ}

/-! ## Each step -/

theorem CollapseCall.Copying.step (h : c.Copying s₀ R rest A V i s) (hc : c.Ok s₀ R rest A pages)
    (hi : i < 512) : c.Copying s₀ R rest A V (i + 1)
      (s.setMem (memmove s.mem (c.newPage + i * 4096) (pages i) 4096)) := by
  obtain ⟨hown, hk⟩ := h.owns.store (WritesOwn.of_block rfl
    (memmove_span (pages i) (n := 4096) (Nat.le_add_right c.newPage (i * 4096)) (by omega)))
  have hview : A.view (memmove s.mem (c.newPage + i * 4096) (pages i) 4096) = A.view s.mem :=
    PTree.view_keeps hc.uvm.huge (hk.mono (Set.subset_union_right.trans Set.subset_union_left))
  refine ⟨hown, h.keeps.trans (hk.mono ?_), fun v hv => ?_, fun j hj => ?_⟩
  · exact Set.union_subset_union_left _ Set.subset_union_left
  · rw [Phys.setMem_mem, hview]
    exact h.view v fun j hj => hv j (by omega)
  · rw [Phys.setMem_mem]
    rcases Nat.lt_succ_iff_lt_or_eq.1 hj with hj | rfl
    · rw [h.copied j hj]
      congr 2
      funext x
      exact (if_neg (by omega)).symm
    · have hb := hc.block_le
      rw [← h.view _ fun j' hj' => by omega, PTree.view_of_lt (by omega), hc.lookup hi,
        Option.map_some]
      congr 2
      funext x
      exact (memmove_apply x.isLt).symm

theorem CollapseCall.Copying.finish (h : c.Copying s₀ R rest A V 512 s)
    (hc : c.Ok s₀ R rest A pages) :
    c.Freeing s₀ R rest A pages V 0 s := by
  have hnew : (c.newPage, 9) ∉ A.tables ∪ A.leaves ∪ rest := Set.disjoint_left.1 h.owns.apart rfl
  have htl : Disjoint A.tables A.leaves := hc.uvm.pt.owns.apart.mono_right Set.subset_union_left
  refine ⟨hnew, ?_, h.keeps, funext fun v => ?_⟩
  · rw [pagesFrom_zero]
    refine h.owns.reassoc ?_ ?_
    · rw [Set.union_assoc, Set.union_assoc A.tables, Set.union_left_comm (pageBlocks pages 512),
        ← Set.union_assoc (pageBlocks pages 512), Set.union_sdiff_cancel hc.pages_subset]
    · rw [Set.disjoint_union_left, Set.disjoint_singleton_left, Set.disjoint_union_right,
        Set.disjoint_union_right]
      refine ⟨?_, (htl.mono_right hc.pages_subset).symm, Set.disjoint_sdiff_right,
        hc.uvm.apart.mono_left hc.pages_subset⟩
      rintro (hb | hb | hb)
      · exact hnew (Or.inl (Or.inl hb))
      · exact hnew (Or.inl (Or.inr hb.1))
      · exact hnew (Or.inr hb)
  · by_cases hv : v / 512 = c.block
    · have hb := hc.block_le
      have hcopy := h.copied (v % 512) (Nat.mod_lt _ (by omega))
      rw [show 512 * c.block + v % 512 = v by omega] at hcopy
      rw [hcopy, PTree.view_of_lt (by omega), CollapseCall.tree, PTree.lookup_collapse, if_pos hv,
        Option.map_some, Nat.mul_comm 4096]
    · rw [← h.view v fun j hj heq => hv (by omega)]
      refine PTree.view_congr (fun _ => ?_) fun _ _ _ _ _ _ => rfl
      rw [CollapseCall.tree, PTree.lookup_collapse, if_neg hv]

theorem CollapseCall.Freeing.step (h : c.Freeing s₀ R rest A pages V i s)
    (hc : c.Ok s₀ R rest A pages)
    (hi : i < 512) : wp (kfree (pages i))
      (fun _ s' => c.Freeing s₀ R rest A pages V (i + 1) s') noPanic s := by
  refine wp_post (h.owns.kfree_spec (Or.inr ⟨i, le_refl i, hi, rfl⟩)) ?_
  rintro _ s' ⟨hown, hk⟩
  have hne : (pages i, 0) ∉ ({(c.newPage, 9)} : Set (ℕ × ℕ)) := fun hb =>
    absurd (Prod.mk.inj hb).2 (by omega)
  rw [pagesFrom_erase hi hne fun j hj he => hc.pages_inj hi hj he] at hown hk
  refine ⟨h.fresh, hown, h.keeps.trans (hk.mono ?_), ?_⟩
  · rintro b (hb | hb)
    · exact Or.inr (Or.inl hb)
    · exact Or.inr (Or.inr (Or.inr hb))
  · rw [PTree.view_keeps hc.tree_huge (hk.mono ?_), h.view]
    rw [hc.leaves_tree]
    rintro b (rfl | hb)
    · exact Or.inl (Or.inl rfl)
    · exact Or.inr (Or.inr (Or.inl hb))

theorem CollapseCall.Freeing.finish (h : c.Freeing s₀ R rest A pages V 512 s)
    (hc : c.Ok s₀ R rest A pages) :
    wp (kfree c.l0) (fun _ s' => c.Switching s₀ R rest A pages V s') noPanic s := by
  have hown : Owns s R A.tables
      (insert (c.newPage, 9) (A.leaves \ pageBlocks pages 512) ∪ rest) := by
    refine h.owns.reassoc ?_ ?_
    · rw [pagesFrom_self, Set.union_empty, Set.insert_union, Set.union_insert, Set.singleton_union]
    · rw [Set.insert_union, Set.disjoint_insert_right]
      refine ⟨fun hb => h.fresh (Or.inl (Or.inl hb)), hc.uvm.pt.owns.apart.mono_right ?_⟩
      exact Set.union_subset_union_left _ Set.sdiff_subset
  refine wp_post (hown.kfree_spec hc.table_mem) ?_
  rintro _ s' ⟨hown', hk⟩
  refine ⟨h.fresh, hown', ?_, ?_⟩
  · refine (h.keeps.mono (Set.union_subset_union_left _ Set.sdiff_subset)).trans (hk.mono ?_)
    exact Set.union_subset_union_right _ Set.subset_union_right
  · rw [PTree.view_keeps hc.tree_huge (hk.mono ?_), h.view]
    rw [hc.leaves_tree]
    exact Set.subset_union_left.trans Set.subset_union_right

/-- The address space with the pages replaced by the huge page. -/
theorem Uvm.collapse (h : Uvm s₀ R rest A) (he : A.ent 1 k = .table l0) (hu : PTree.User 1 k)
    (hpages : ∀ j < 512, A.ent 0 (512 * k + j) = .leaf (pages j) fl)
    (hnew : (new, 9) ∉ A.leaves ∧ (new, 9) ∉ rest)
    (hpt : PT s R (insert (new, 9) (A.leaves \ pageBlocks pages 512) ∪ rest)
      (A.collapse k new fl)) : Uvm s R rest (A.collapse k new fl) := by
  have hleaves := PTree.leaves_collapse new he hu hpages (h.inj 0)
  refine ⟨by rw [hleaves]; exact hpt, ?_, ?_, ?_⟩
  · rw [hleaves, Set.disjoint_insert_left]
    exact ⟨hnew.2, h.apart.mono_left Set.sdiff_subset⟩
  · exact PTree.ownLeaf_collapse_inj he hu hnew.1 h.inj
  · intro k' pa' fl' he'
    by_cases hc : k' = k
    · exact hc ▸ hu
    · rw [PTree.collapse, PTree.put_other (by omega) (by omega)] at he'
      exact h.huge k' pa' fl' he'

theorem CollapseCall.Switching.finish (h : c.Switching s₀ R rest A pages V s)
    (hc : c.Ok s₀ R rest A pages) :
    wp (store64 c.l1 (pa2pte c.newPage ||| c.flags)) (fun _ s' => Uvm s' R rest (c.tree A) ∧
      (c.tree A).view s'.mem = V ∧ Keeps rest s₀ s') noPanic s := by
  obtain ⟨p, ht, hl1⟩ := hc.slot
  have hal := h.owns.symm.mem_own (Or.inl (Set.mem_insert _ _))
  have hl := hc.uvm.pt.ok.leaves _ _ _ _ (hc.leaf 0 (by omega))
  have hlo : LeafOk 1 c.newPage c.flags :=
    ⟨Nat.mod_eq_zero_of_dvd hal.1, by norm_num at hal; omega, hl.flags_lt, hl.valid, hl.rwx⟩
  obtain ⟨hpt, hk⟩ := hc.uvm.pt.unlink h.owns (h.keeps.mono Set.subset_union_left)
    (.of_leaf (by omega) ht hlo) (by omega) hc.ent fun _ => Entry.noConfusion
  have huvm := hc.uvm.collapse hc.ent hc.user hc.leaf
    ⟨fun hb => h.fresh (Or.inl (Or.inr hb)), fun hb => h.fresh (Or.inr hb)⟩ hpt
  rw [hl1, wp_store64, pa2pte_or hlo.flags_lt,
    show c.newPage / 4096 * 1024 + c.flags = (Entry.leaf c.newPage c.flags).bits from rfl]
  refine ⟨huvm, ?_, (h.keeps.mono Set.subset_union_right).trans (hk.mono Set.subset_union_right)⟩
  rw [PTree.view_keeps hc.tree_huge (hk.mono ?_), h.view]
  rw [hc.leaves_tree]
  exact Set.subset_union_left

theorem PcInv.eq_idle {pc : CollapsePc} (h : PcInv R rest s₁ A₁ V pc s) (hl : pc.left = 0) :
    pc = .idle := by
  cases pc with
  | idle => rfl
  | copies c i =>
    have hi := h.1
    simp only [CollapsePc.left] at hl
    omega
  | frees c i =>
    have hi := h.1
    simp only [CollapsePc.left] at hl
    omega
  | freesTable c => exact absurd hl (by simp [CollapsePc.left])
  | switches c => exact absurd hl (by simp [CollapsePc.left])

/-- A step leads to what holds before the next one. -/
theorem collapseNext_spec {pc : CollapsePc} (h : PcInv R rest s₁ A₁ V pc s) :
    wp (collapseNext pc) (fun pc' s' => PcInv R rest s₁ A₁ V pc' s' ∧ pc' = pc.next ∧
      pc'.left = pc.left - 1) noPanic s := by
  cases pc with
  | idle =>
    rw [collapseNext, wp_pure]
    exact ⟨h, rfl, rfl⟩
  | copies c i =>
    obtain ⟨hi, s₀, A, pages, hc, htop, hk, hcopy⟩ := h
    rw [collapseNext, wp_bind, wp_load64, wp_bind, wp_moveBytes, wp_pure, hc.entry hcopy.keeps hi]
    have hnext := hcopy.step hc hi
    rw [CollapsePc.next]
    by_cases hlast : i + 1 < 512
    · rw [if_pos hlast]
      exact ⟨⟨hlast, s₀, A, pages, hc, htop, hk, hnext⟩, rfl, by
        simp only [CollapsePc.left]; omega⟩
    · rw [if_neg hlast]
      obtain rfl : i = 511 := by omega
      exact ⟨⟨by omega, s₀, A, pages, hc, htop, hk, hnext.finish hc⟩, rfl, rfl⟩
  | frees c i =>
    obtain ⟨hi, s₀, A, pages, hc, htop, hk, hfree⟩ := h
    rw [collapseNext, wp_bind, wp_load64, wp_bind, hc.entry hfree.keeps hi]
    refine wp_post (hfree.step hc hi) fun _ s' hnext => ?_
    rw [wp_pure, CollapsePc.next]
    by_cases hlast : i + 1 < 512
    · rw [if_pos hlast]
      exact ⟨⟨hlast, s₀, A, pages, hc, htop, hk, hnext⟩, rfl, by
        simp only [CollapsePc.left]; omega⟩
    · rw [if_neg hlast]
      obtain rfl : i = 511 := by omega
      exact ⟨⟨s₀, A, pages, hc, htop, hk, hnext⟩, rfl, rfl⟩
  | freesTable c =>
    obtain ⟨s₀, A, pages, hc, htop, hk, hfree⟩ := h
    rw [collapseNext, wp_bind]
    refine wp_post (hfree.finish hc) fun _ s' hnext => ?_
    rw [wp_pure]
    exact ⟨⟨s₀, A, pages, hc, htop, hk, hnext⟩, rfl, rfl⟩
  | switches c =>
    obtain ⟨s₀, A, pages, hc, htop, hk, hsw⟩ := h
    rw [collapseNext, wp_bind]
    refine wp_post (hsw.finish hc) fun _ s' ⟨huvm, hview, hk'⟩ => ?_
    rw [wp_pure]
    exact ⟨⟨_, huvm, htop.trans hc.sameTop, hview, hk.trans hk'⟩, rfl, rfl⟩

theorem collapseSteps_spec : ∀ {n : ℕ} {pc : CollapsePc} {s : Phys}, PcInv R rest s₁ A₁ V pc s →
    pc.left = n → wp (collapseSteps n pc)
      (fun pc' s' => PcInv R rest s₁ A₁ V pc' s' ∧ pc'.left = 0) noPanic s
  | 0, pc, s, h, hn => by
    rw [collapseSteps, wp_pure]
    exact ⟨h, hn⟩
  | n + 1, pc, s, h, hn => by
    rw [collapseSteps, wp_bind]
    refine wp_post (collapseNext_spec h) fun pc' s' ⟨h', _, hl⟩ => ?_
    exact collapseSteps_spec h' (by omega)

/-! ## The checks, and the whole call -/

/-- The check reads only. What passes it is 512 leaves with the same flags, and it passes if
they are for the user. -/
theorem collapseFlags_spec (h : PT s R frame A) (ht : A.IsTable 0 k l0) :
    ∀ {n i flags : ℕ}, n + i = 512 →
    (∀ j < i, ∃ pa, A.ent 0 (512 * k + j) = .leaf pa flags) →
    wp (collapseFlags l0 n i flags) (fun r s' => s' = s ∧
      (∀ fl, r = some fl → ∀ j < 512, ∃ pa, A.ent 0 (512 * k + j) = .leaf pa fl) ∧
      (r = none → ∀ fl, fl &&& pteU ≠ 0 → ¬∀ j < 512, ∃ pa, A.ent 0 (512 * k + j) = .leaf pa fl))
      E s
  | 0, i, flags, hn, hold => by
    obtain rfl : i = 512 := by omega
    rw [collapseFlags, wp_pure]
    refine ⟨rfl, fun fl hfl => ?_, nofun⟩
    rw [← Option.some.inj hfl]
    exact hold
  | n + 1, i, flags, hn, hold => by
    have hread := h.rep 0 k l0 ht i (by omega)
    rw [collapseFlags, wp_bind, wp_load64, hread]
    cases he : A.ent 0 (512 * k + i) with
    | absent =>
      rw [if_pos (not_not.1 absent_valid), wp_pure]
      refine ⟨rfl, nofun, fun _ fl _ hall => ?_⟩
      obtain ⟨pa, hpa⟩ := hall i (by omega)
      exact Entry.noConfusion (he.symm.trans hpa)
    | table t => exact absurd he (h.ok.bottom _ t)
    | leaf pa fl =>
      have hl := h.ok.leaves _ _ _ _ he
      have heq : ∀ fl', (∀ j < 512, ∃ pa, A.ent 0 (512 * k + j) = .leaf pa fl') → fl' = fl := by
        intro fl' hall
        obtain ⟨pa', hpa⟩ := hall i (by omega)
        exact (Entry.leaf.inj (hpa.symm.trans he)).2
      rw [if_neg hl.bits_valid, wp_ite]
      refine ⟨fun hU => ?_, fun _ => ?_⟩
      · rw [wp_pure]
        refine ⟨rfl, nofun, fun _ fl' hfl' hall => hfl' ?_⟩
        rw [heq fl' hall, ← hl.and_bits (by norm_num)]
        exact hU
      · rw [hl.bits_flags, wp_ite, wp_ite, wp_pure]
        refine ⟨fun hi => ?_, fun hi => ⟨fun hne => ⟨rfl, nofun, fun _ fl' _ hall => ?_⟩,
          fun hfl => ?_⟩⟩
        · subst hi
          refine collapseFlags_spec h ht (by omega) fun j hj => ?_
          obtain rfl : j = 0 := by omega
          exact ⟨pa, he⟩
        · obtain ⟨pa₀, h₀⟩ := hold 0 (by omega)
          obtain ⟨pa₁, h₁⟩ := hall 0 (by omega)
          refine hne ?_
          rw [← heq fl' hall]
          exact (Entry.leaf.inj (h₁.symm.trans h₀)).2
        · refine collapseFlags_spec h ht (by omega) fun j hj => ?_
          rcases Nat.lt_succ_iff_lt_or_eq.1 hj with hj | rfl
          · exact hold j hj
          · exact ⟨pa, not_not.1 hfl ▸ he⟩

/-- The block at `va` can be collapsed : it is below `p->sz`, and has 512 pages of the user with
the same flags. -/
def Collapsible (A : PTree) (p : Proc) (va : ℕ) : Prop :=
  va % 2097152 = 0 ∧ va + 2097152 ≤ p.sz ∧ (∃ l0, A.ent 1 (va / 4096 / 512) = .table l0) ∧
    ∃ fl, fl &&& pteU ≠ 0 ∧ ∀ j < 512, ∃ pa, A.ent 0 (512 * (va / 4096 / 512) + j) = .leaf pa fl

/-- The checks do not change anything, and fail only if the block cannot be collapsed or there
is no free huge page. -/
theorem collapseBegin_spec {p : Proc} {va : ℕ} (h : Uvm s R rest A) (hp : p.pagetable = A.root)
    (hsz : p.sz ≤ trapframe) (hva : va + 2097152 < 2 ^ 64) :
    wp (collapseBegin p va) (fun pc s' =>
      (pc = .idle ∧ s' = s ∧ (Collapsible A p va → ∀ b ∈ s.free, b.2 < 9)) ∨
      ∃ c, pc = .copies c 0 ∧ c.va = va ∧ PcInv R rest s A (A.view s.mem) (.copies c 0) s')
      noPanic s := by
  have hok := h.pt.ok
  have hroot : p.pagetable ≠ 0 := by
    have := h.pt.table_page A.root_isTable
    omega
  rw [collapseBegin, if_neg hroot, wp_ite, wp_ite, wp_pure, hp, wrap64, Nat.mod_eq_of_lt hva]
  refine ⟨fun hal => Or.inl ⟨rfl, rfl, fun hc => absurd hc.1 hal⟩, fun hal => ⟨fun hgt =>
    Or.inl ⟨rfl, rfl, fun hc => absurd hc.2.1 (not_le.2 hgt)⟩, fun hle => ?_⟩⟩
  simp only [trapframe, trampoline, maxVa, pgSize, hugePgSize] at hsz hal hle
  rw [wp_bind]
  refine wp_post (walkToLevel_spec h.pt (by omega) (by omega)) ?_
  rintro r s' ⟨rfl, hw⟩
  rcases r with _ | ⟨l1, L⟩
  · rw [wp_pure]
    -- there is a table above the entry of level 1
    refine Or.inl ⟨rfl, rfl, fun ⟨_, _, ⟨l0, hl0⟩, _⟩ => ?_⟩
    obtain ⟨L, h1, h2, habs⟩ := hw
    obtain rfl : L = 2 := by omega
    obtain ⟨q, ⟨h3, _⟩ | ⟨_, hq⟩⟩ := hok.up 1 _ (by rw [hl0]; exact Entry.noConfusion)
    · omega
    · rw [show va / 4096 / 512 / 512 = va / 4096 / 512 ^ 2 by omega] at hq
      exact Entry.noConfusion (habs.symm.trans hq)
  obtain ⟨hL, hleaf, pg, ht, rfl⟩ := hw
  -- there are no leaves at level 2
  obtain rfl : L = 1 := by
    by_contra hne
    obtain ⟨pa, fl, he⟩ := hleaf hne
    obtain rfl : L = 2 := by
      have := ht.level_le
      omega
    exact hok.top _ _ _ he
  have hu : PTree.User 1 (va / 4096 / 512) := by
    rw [PTree.user_one]
    simp only [topVpn]
    omega
  rw [pow_one] at ht ⊢
  dsimp only
  rw [wp_bind, wp_load64, h.pt.rep.entry ht]
  cases he : A.ent 1 (va / 4096 / 512) with
  | absent =>
    rw [if_pos (not_not.1 absent_valid), wp_pure]
    refine Or.inl ⟨rfl, rfl, fun ⟨_, _, ⟨l0, hl0⟩, _⟩ => ?_⟩
    exact Entry.noConfusion (he.symm.trans hl0)
  | leaf pa fl =>
    have hl := hok.leaves _ _ _ _ he
    rw [if_neg hl.bits_valid, if_pos hl.bits_rwx, wp_pure]
    refine Or.inl ⟨rfl, rfl, fun ⟨_, _, ⟨l0, hl0⟩, _⟩ => ?_⟩
    exact Entry.noConfusion (he.symm.trans hl0)
  | table l0 =>
    have ht0 : A.IsTable 0 (va / 4096 / 512) l0 := PTree.isTable_of_ent (by omega) he
    rw [if_neg (table_valid l0), if_neg (not_not.2 (table_rwx l0)),
      table_pa (h.pt.table_page ht0).1, wp_bind]
    refine wp_post (collapseFlags_spec h.pt ht0 (by omega) nofun) ?_
    rintro r s' ⟨rfl, hr, hnone⟩
    rcases r with _ | fl
    · rw [wp_pure]
      exact Or.inl ⟨rfl, rfl, fun ⟨_, _, _, fl, hU, hall⟩ => absurd hall (hnone rfl fl hU)⟩
    choose! pages hpages using hr fl rfl
    have hown : Owns s' R ∅ (A.tables ∪ A.leaves ∪ rest) :=
      h.owns.reassoc (Set.empty_union _) (Set.empty_disjoint _)
    dsimp only
    rw [wp_bind]
    refine wp_post hown.kallocHuge_spec fun new s₁ hr₁ => ?_
    rcases hr₁ with ⟨rfl, rfl, hno⟩ | ⟨hne, _, h₁, hk₁⟩
    · rw [if_pos rfl, wp_pure]
      exact Or.inl ⟨rfl, rfl, fun _ => hno⟩
    rw [if_neg hne, wp_pure]
    rw [insert_empty_eq] at h₁
    refine Or.inr ⟨_, rfl, rfl, by omega, s', A, pages, ⟨h, he, hu, ⟨pg, ht, rfl⟩, hpages⟩,
      .refl A, .refl _ _, h₁, hk₁.mono ?_, fun v _ => ?_, nofun⟩
    · exact (Set.union_subset_union_left _ Set.subset_union_left).trans Set.subset_union_right
    · rw [h.view_keeps (hk₁.mono fun b hb => Or.inr (Or.inl (Or.inr hb)))]

/-- Collapsing is invisible. -/
theorem vmTryCollapse_spec {p : Proc} {va : ℕ} (h : Uvm s R rest A) (hp : p.pagetable = A.root)
    (hsz : p.sz ≤ trapframe) (hva : va + 2097152 < 2 ^ 64) :
    wp (vmTryCollapse p va) (fun _ s' => ∃ A', Uvm s' R rest A' ∧ A.SameTop A' ∧
      A'.view s'.mem = A.view s.mem ∧ Keeps rest s s') noPanic s := by
  rw [vmTryCollapse_eq, wp_bind]
  refine wp_post (collapseBegin_spec h hp hsz hva) ?_
  rintro pc s' (⟨rfl, rfl, -⟩ | ⟨c, rfl, -, hinv⟩)
  · rw [wp_pure]
    exact ⟨A, h, .refl A, rfl, .refl _ _⟩
  · dsimp only
    rw [wp_bind]
    refine wp_post (collapseSteps_spec hinv rfl) fun pc' s'' ⟨hend, hleft⟩ => ?_
    rw [wp_pure]
    obtain rfl := hend.eq_idle hleft
    exact hend

end Collapse

end Xv6Plus
