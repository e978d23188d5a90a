import Xv6Plus.KallocSpec

/-!
# Runs of the page allocator

`KallocRun k s live` : the allocator is in state `s`, with the blocks `live` handed out,
after `kinit` for the kernel end `k` and a sequence of matched calls. Every free passes a
block that the allocator of the same size returned and that was not freed since. Between
the calls the holders may write anything into their blocks.

The step lemmas of `KallocSpec` carry the invariant `Buddy` along such a run. What it says
in terms of the lists and tables of `kalloc.c` is `BuddyRep`.
-/

namespace Xv6Plus

/-- An address of the symbol `end` that leaves `kinit` some memory between `KERNBASE` and
`PHYSTOP`. -/
structure KernelEnd where
  addr : ℕ
  addr_lt : addr < 2 ^ 64
  base_le : kernBase ≤ pgRoundUp addr
  lt_top : pgRoundUp addr < physTop

namespace KernelEnd

/-- The memory `kinit` manages. -/
def managed (k : KernelEnd) : Set ℕ := Set.Ico (pgRoundUp k.addr) physTop

theorem addr_le (k : KernelEnd) : k.addr ≤ pgRoundUp k.addr := by
  have h := k.base_le
  have h64 := k.addr_lt
  simp only [kernBase, pgRoundUp] at h
  unfold pgRoundUp
  omega

end KernelEnd

/-- Matched sequences of calls from `kinit`, with the blocks that are handed out. -/
inductive KallocRun (k : KernelEnd) : Phys → Set (ℕ × ℕ) → Prop
  | init {s s' : Phys} : s.kend = k.addr → kinit.run s = .ok ((), s') → KallocRun k s' ∅
  | kalloc {s s' : Phys} {live : Set (ℕ × ℕ)} {r : ℕ} : KallocRun k s live →
      kalloc.run s = .ok (r, s') → KallocRun k s' (if r = 0 then live else insert (r, 0) live)
  | kallocHuge {s s' : Phys} {live : Set (ℕ × ℕ)} {r : ℕ} : KallocRun k s live →
      kallocHuge.run s = .ok (r, s') →
      KallocRun k s' (if r = 0 then live else insert (r, hugeOrder) live)
  | kfree {s s' : Phys} {live : Set (ℕ × ℕ)} {pa : ℕ} : KallocRun k s live → (pa, 0) ∈ live →
      (kfree pa).run s = .ok ((), s') → KallocRun k s' (live \ {(pa, 0)})
  | kfreeHuge {s s' : Phys} {live : Set (ℕ × ℕ)} {pa : ℕ} : KallocRun k s live →
      (pa, hugeOrder) ∈ live → (kfreeHuge pa).run s = .ok ((), s') →
      KallocRun k s' (live \ {(pa, hugeOrder)})
  | write {s : Phys} {live : Set (ℕ × ℕ)} {m : Mem} : KallocRun k s live →
      Set.EqOn m s.mem (region live)ᶜ → KallocRun k (s.setMem m) live

/-- What the lists, the table of page states and the live blocks say about each other. -/
structure BuddyRep (k : KernelEnd) (s : Phys) (live : Set (ℕ × ℕ)) : Prop where
  live_order : ∀ b ∈ live, b.2 = minOrder ∨ b.2 = hugeOrder
  live_aligned : ∀ b ∈ live, orderSize b.2 ∣ b.1
  live_managed : ∀ b ∈ live, span pgSize b ⊆ k.managed
  live_disjoint : live.PairwiseDisjoint (span pgSize)
  free_disjoint : s.free.PairwiseDisjoint (span pgSize)
  free_live : ∀ b ∈ s.free, ∀ c ∈ live, Disjoint (span pgSize b) (span pgSize c)
  cover : ∀ x, x ∈ k.managed ↔ ∃ b ∈ s.free ∪ live, x ∈ span pgSize b
  lists : ∀ order ≤ maxOrder, ∃ l : List ℕ, l.Nodup ∧
    DList s.next s.prev 0 (s.freelist order) l ∧
    ∀ pa, pa ∈ l ↔ ∃ i < nPages, pa = kernBase + pgSize * i ∧ s.pageState i = order
  states : ∀ i < nPages, s.pageState i = pageStateAlloc ∨
    ∃ order ≤ maxOrder, s.pageState i = (order : ℤ)

/-- The pages, by index, that lie in free blocks. -/
def Phys.freePages (s : Phys) : Set ℕ :=
  {i | kernBase + pgSize * i ∈ region s.free}

/-- The maximal blocks within a set of pages. -/
def maximalBlocks (P : Set ℕ) : Set (ℕ × ℕ) :=
  {b | MaximalIn pgSize maxOrder {x | kernBase ≤ x ∧ (x - kernBase) / pgSize ∈ P} b}

section Steps

variable {s s' : Phys} {k : KernelEnd} {live : Set (ℕ × ℕ)} {R : Set ℕ} {o r : ℕ}

/-- What a run keeps. -/
structure RunInv (k : KernelEnd) (s : Phys) (live : Set (ℕ × ℕ)) : Prop where
  buddy : Buddy s k.managed live
  kend : s.kend = k.addr
  order : ∀ b ∈ live, b.2 = 0 ∨ b.2 = 9

namespace RunInv

theorem alloc (h : RunInv k s live) (ho : o = 0 ∨ o = 9)
    (hr : AllocResult k.managed live s o r s') :
    RunInv k s' (if r = 0 then live else insert (r, o) live) := by
  rcases hr with ⟨rfl, rfl, -⟩ | ⟨hne, hr⟩
  · rw [if_pos rfl]
    exact h
  · rw [if_neg hne]
    refine ⟨hr.buddy, hr.keeps.kend.trans h.kend, ?_⟩
    rintro b (rfl | hb)
    · exact ho
    · exact h.order b hb

theorem free {b : ℕ × ℕ} (h : RunInv k s live)
    (hs : Buddy s' k.managed (live \ {b}) ∧ Keeps (live \ {b}) s s') :
    RunInv k s' (live \ {b}) :=
  ⟨hs.1, hs.2.kend.trans h.kend, fun c hc => h.order c hc.1⟩

theorem kend_le {a : ℕ} (h : RunInv k s live) (hb : (a, o) ∈ live) : s.kend ≤ a := by
  have ha : a ∈ k.managed := h.buddy.live_subset (start_mem_region hb)
  rw [h.kend]
  exact k.addr_le.trans ha.1

end RunInv

theorem KallocRun.inv (h : KallocRun k s live) : RunInv k s live := by
  induction h with
  | @init s s' hk hrun =>
    have hbase := k.base_le
    rw [← hk] at hbase
    obtain ⟨hb, he⟩ := wp_of_run (kinit_spec hbase) hrun
    rw [hk] at hb he
    exact ⟨hb, he, fun _ hb => absurd hb (Set.notMem_empty _)⟩
  | kalloc _ hrun ih => exact ih.alloc (.inl rfl) (wp_of_run (kalloc_spec ih.buddy) hrun)
  | kallocHuge _ hrun ih => exact ih.alloc (.inr rfl) (wp_of_run (kallocHuge_spec ih.buddy) hrun)
  | kfree _ hb hrun ih =>
    exact ih.free (wp_of_run (kfree_spec ih.buddy hb (ih.kend_le hb)) hrun)
  | kfreeHuge _ hb hrun ih => exact ih.free (wp_of_run (kfreeHuge_spec ih.buddy hb) hrun)
  | write _ hm ih =>
    exact ⟨ih.buddy.setMem (hm.mono ih.buddy.apart.subset_compl_right), ih.kend, ih.order⟩

theorem RunInv.rep (h : RunInv k s live) : BuddyRep k s live where
  live_order := h.order
  live_aligned b hb := by
    rw [orderSize_eq]
    exact h.buddy.liveTiles.aligned b hb
  live_managed _ hb := (span_subset_region hb).trans h.buddy.live_subset
  live_disjoint b hb c hc := h.buddy.liveTiles.disjoint b hb c hc
  free_disjoint b hb c hc := h.buddy.freeTiles.disjoint b hb c hc
  free_live _ hb _ hc := h.buddy.apart.mono (span_subset_region hb) (span_subset_region hc)
  cover x := by
    rw [← h.buddy.cover]
    simp only [region, Set.mem_union, Set.mem_ofPred_eq, or_and_right, exists_or]
  lists o ho := by
    obtain ⟨l, hnd, hl, hmem⟩ := h.buddy.lists o ho
    refine ⟨l, hnd, hl, fun pa => ?_⟩
    rw [hmem]
    exact exists_congr fun i => and_congr_right fun _ => and_congr_right fun _ => and_iff_left ho
  states := h.buddy.state

theorem Buddy.kalloc_succeeds (h : Buddy s R live) (hne : (region s.free).Nonempty) :
    ∃ r s', kalloc.run s = .ok (r, s') ∧ r ≠ 0 ∧ Allocated R live s r 0 s' := by
  obtain ⟨r, s', hrun, ⟨-, -, hno⟩ | hr⟩ := wp_noPanic_iff.1 (kalloc_spec h)
  · obtain ⟨x, b, hb, -⟩ := hne
    exact absurd (hno b hb) (Nat.not_lt_zero _)
  · exact ⟨r, s', hrun, hr⟩

/-- The bytes of the free blocks are those of the free pages. -/
theorem Buddy.mem_region_free (h : Buddy s R live) (x : ℕ) :
    x ∈ region s.free ↔ kernBase ≤ x ∧ (x - kernBase) / pgSize ∈ s.freePages := by
  have hpage : ∀ {a o y}, (a, o) ∈ s.free → kernBase ≤ y →
      (y ∈ span 4096 (a, o) ↔ kernBase + pgSize * ((y - kernBase) / pgSize) ∈
        span 4096 (a, o)) := by
    intro a o y hb hy
    obtain ⟨hmod, hlo, -⟩ := h.node hb
    have hsize : 4096 * 2 ^ o % 4096 = 0 := Nat.mul_mod_right _ _
    simp only [mem_span, kernBase, pgSize] at *
    generalize 4096 * 2 ^ o = n at *
    omega
  constructor
  · rintro ⟨⟨a, o⟩, hb, hx⟩
    have hlo : kernBase ≤ x := (h.node hb).2.1.trans hx.1
    exact ⟨hlo, (a, o), hb, (hpage hb hlo).1 hx⟩
  · rintro ⟨hlo, ⟨a, o⟩, hb, hx⟩
    exact ⟨(a, o), hb, (hpage hb hlo).2 hx⟩

/-- The free blocks are the maximal blocks within the free pages. -/
theorem Buddy.free_eq (h : Buddy s R live) :
    s.free = maximalBlocks s.freePages := by
  have hreg : region s.free = {x | kernBase ≤ x ∧ (x - kernBase) / pgSize ∈ s.freePages} :=
    Set.ext h.mem_region_free
  ext b
  rw [maximalBlocks, ← hreg, Set.mem_ofPred_eq]
  exact h.freeTiles.mem_iff_maximal (by decide) h.coalesced (fun c ⟨_, _, _, _, hc⟩ => hc) b

theorem Buddy.region_free (h : Buddy s R live) : region s.free = R \ region live := by
  rw [← h.cover, Set.union_sdiff_cancel_right (Set.disjoint_iff.1 h.apart)]

/-- The free blocks are determined by what is held. -/
theorem Buddy.free_congr {s' : Phys} (h : Buddy s R live) (h' : Buddy s' R live) :
    s'.free = s.free := by
  rw [h'.free_eq, h.free_eq, Phys.freePages, Phys.freePages, h'.region_free, h.region_free]

theorem Buddy.buddyPa_not_free {a : ℕ} (h : Buddy s R live) (ho : o < 15) (hb : (a, o) ∈ s.free) :
    (buddyPa a o, o) ∉ s.free := by
  obtain ⟨-, hlo, hhi⟩ := h.node hb
  intro hbud
  obtain ⟨lo, hal, -, -, ⟨rfl, he⟩ | ⟨he, rfl⟩⟩ :=
    exists_parent ho (h.freeTiles.aligned _ hb) hlo hhi
  · exact h.coalesced a o ho hal hb (he ▸ hbud)
  · exact h.coalesced lo o ho hal (he ▸ hbud) hb

end Steps

/-! ## The properties of a run -/

/-- `kinit` does not panic, and neither does any matched call in a state reached from it.
In every such state the live and the free blocks tile the managed memory, and the free
lists and the table of page states describe the free blocks. -/
theorem kallocRun_rep (k : KernelEnd) :
    (∀ s : Phys, s.kend = k.addr → ∃ s', kinit.run s = .ok ((), s')) ∧
    ∀ s live, KallocRun k s live → BuddyRep k s live ∧
      (∃ r s', kalloc.run s = .ok (r, s') ∧ (r ≠ 0 → (r, 0) ∉ live)) ∧
      (∃ r s', kallocHuge.run s = .ok (r, s') ∧ (r ≠ 0 → (r, hugeOrder) ∉ live)) ∧
      (∀ pa, (pa, 0) ∈ live → ∃ s', (kfree pa).run s = .ok ((), s')) ∧
      ∀ pa, (pa, hugeOrder) ∈ live → ∃ s', (kfreeHuge pa).run s = .ok ((), s') := by
  refine ⟨fun s hk => ?_, fun s live hrun => ?_⟩
  · have hbase := k.base_le
    rw [← hk] at hbase
    obtain ⟨_, s', hs', -⟩ := wp_noPanic_iff.1 (kinit_spec hbase)
    exact ⟨s', hs'⟩
  · have h := hrun.inv
    have hfresh : ∀ {o r s'}, AllocResult k.managed live s o r s' → r ≠ 0 → (r, o) ∉ live := by
      rintro o r s' (⟨h0, -⟩ | ⟨-, hr⟩) hne
      · exact absurd h0 hne
      · exact hr.fresh
    refine ⟨h.rep, ?_, ?_, fun pa hpa => ?_, fun pa hpa => ?_⟩
    · obtain ⟨r, s', hs', hr⟩ := wp_noPanic_iff.1 (kalloc_spec h.buddy)
      exact ⟨r, s', hs', hfresh hr⟩
    · obtain ⟨r, s', hs', hr⟩ := wp_noPanic_iff.1 (kallocHuge_spec h.buddy)
      exact ⟨r, s', hs', hfresh hr⟩
    · obtain ⟨_, s', hs', -⟩ := wp_noPanic_iff.1 (kfree_spec h.buddy hpa (h.kend_le hpa))
      exact ⟨s', hs'⟩
    · obtain ⟨_, s', hs', -⟩ := wp_noPanic_iff.1 (kfreeHuge_spec h.buddy hpa)
      exact ⟨s', hs'⟩

/-- A kernel that ends inside its first two megabytes. -/
def sampleEnd : KernelEnd := ⟨0x80021d58, by decide, by decide, by decide⟩

/-- The state a machine boots in. -/
def bootPhys : Phys := ⟨fun _ => 0, fun _ => 0, fun _ => 0, sampleEnd.addr⟩

theorem kallocRun_rep_sample : ∃ s r, KallocRun sampleEnd s {(r, 0)} ∧
    BuddyRep sampleEnd s {(r, 0)} ∧ ∃ s', (kfree r).run s = .ok ((), s') := by
  obtain ⟨s₀, hs₀⟩ := (kallocRun_rep sampleEnd).1 bootPhys rfl
  have h₀ := KallocRun.init rfl hs₀
  have hmem : pgRoundUp sampleEnd.addr ∈ sampleEnd.managed := ⟨le_refl _, sampleEnd.lt_top⟩
  rw [← h₀.inv.buddy.cover, region_empty, Set.union_empty] at hmem
  obtain ⟨r, s, hs, hr, -⟩ := h₀.inv.buddy.kalloc_succeeds ⟨_, hmem⟩
  have h₁ := h₀.kalloc hs
  rw [if_neg hr, insert_empty_eq] at h₁
  obtain ⟨hrep, -, -, hfree, -⟩ := (kallocRun_rep sampleEnd).2 s _ h₁
  exact ⟨s, r, h₁, hrep, hfree r (Set.mem_singleton _)⟩

/-- No two buddies are ever both free, so the free blocks are a function of the free
pages : two runs that end with the same free pages end with the same free blocks. After
all blocks are freed they are those `kinit` built. -/
theorem kallocRun_free_determined :
    (∀ k s live, KallocRun k s live → ∀ a o, o < maxOrder → (a, o) ∈ s.free →
      (buddyPa a o, o) ∉ s.free) ∧
    (∃ f : Set ℕ → Set (ℕ × ℕ), ∀ k s live, KallocRun k s live → s.free = f s.freePages) ∧
    (∀ k₁ s₁ live₁ k₂ s₂ live₂, KallocRun k₁ s₁ live₁ → KallocRun k₂ s₂ live₂ →
      s₁.freePages = s₂.freePages → s₁.free = s₂.free) ∧
    ∀ k s s₀ s₁, KallocRun k s ∅ → s₀.kend = k.addr → kinit.run s₀ = .ok ((), s₁) →
      s.free = s₁.free := by
  refine ⟨fun k s live h a o ho hb => h.inv.buddy.buddyPa_not_free ho hb,
    ⟨maximalBlocks, fun k s live h => h.inv.buddy.free_eq⟩,
    fun k₁ s₁ live₁ k₂ s₂ live₂ h₁ h₂ he => ?_,
    fun k s s₀ s₁ h hk hs₁ => ?_⟩
  · rw [h₁.inv.buddy.free_eq, h₂.inv.buddy.free_eq, he]
  · have h₁ := KallocRun.init hk hs₁
    have hcover : region s.free = region s₁.free := by
      have hc := h.inv.buddy.cover
      have hc₁ := h₁.inv.buddy.cover
      rw [region_empty, Set.union_empty] at hc hc₁
      exact hc.trans hc₁.symm
    have hpages : s.freePages = s₁.freePages := by
      unfold Phys.freePages
      rw [hcover]
    rw [h.inv.buddy.free_eq, h₁.inv.buddy.free_eq, hpages]

/-- Two boots of one kernel, one of them followed by a `kalloc` and its `kfree`. -/
theorem kallocRun_free_determined_sample : ∃ s₁ s₂,
    kinit.run bootPhys = .ok ((), s₁) ∧ KallocRun sampleEnd s₂ ∅ ∧ s₂.free = s₁.free := by
  obtain ⟨_, s₁, hs₁, -⟩ := wp_noPanic_iff.1 (kinit_spec (s := bootPhys) (by decide))
  have h₁ := KallocRun.init (k := sampleEnd) rfl hs₁
  have hmem : pgRoundUp sampleEnd.addr ∈ sampleEnd.managed := ⟨le_refl _, sampleEnd.lt_top⟩
  rw [← h₁.inv.buddy.cover, region_empty, Set.union_empty] at hmem
  obtain ⟨r, s, hs, hr, -⟩ := h₁.inv.buddy.kalloc_succeeds ⟨_, hmem⟩
  have h₂ := h₁.kalloc hs
  rw [if_neg hr] at h₂
  have hr' : (r, 0) ∈ insert (r, 0) (∅ : Set (ℕ × ℕ)) := Set.mem_insert _ _
  obtain ⟨_, s₂, hs₂, -⟩ := wp_noPanic_iff.1 (kfree_spec h₂.inv.buddy hr' (h₂.inv.kend_le hr'))
  have h₃ := h₂.kfree hr' hs₂
  rw [Set.insert_sdiff_self_of_notMem (Set.notMem_empty _)] at h₃
  exact ⟨s₁, s₂, hs₁, h₃, kallocRun_free_determined.2.2.2 _ _ _ _ h₃ rfl hs₁⟩

end Xv6Plus
