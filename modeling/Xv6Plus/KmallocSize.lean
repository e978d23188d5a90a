import Xv6Plus.SlabRun

/-!
# The regions that kmalloc hands out

`kmalloc` takes an object of the class of the size from a slab, and above the largest class one page
from the page allocator, whatever the size is. What is live at the two allocators is determined by
the memory (`SlabRun.unique`), so a region of more than one page cannot be what the page is said to
be : `kmalloc_regions` says for which sizes the region is as large as asked for.
-/

namespace Xv6Plus

variable {k : KernelEnd} {s : Kmem} {R : Set ℕ} {live others live' others' : Set (ℕ × ℕ)}
  {G H : ℕ → Slabs} {x y : ℕ × ℕ} {size i a : ℕ}

/-! ## Live regions -/

/-- The bytes of a region, which is a start and a length. -/
def extent (x : ℕ × ℕ) : Set ℕ := Set.Ico x.1 (x.1 + x.2)

/-- The live regions : the objects, and the blocks of pages with their lengths. -/
def regions (live others : Set (ℕ × ℕ)) : Set (ℕ × ℕ) :=
  {x | x ∈ live ∨ ∃ b ∈ others, x = (b.1, 4096 * 2 ^ b.2)}

theorem regions_insert_live : regions (insert x live) others = insert x (regions live others) := by
  ext y
  simp only [regions, Set.mem_insert_iff, Set.mem_ofPred_eq, or_assoc]

theorem regions_insert_block : regions live (insert (a, 0) others) =
    insert (a, 4096) (regions live others) := by
  ext y
  constructor
  · rintro (hy | ⟨b, rfl | hb, rfl⟩)
    · exact .inr (.inl hy)
    · exact .inl rfl
    · exact .inr (.inr ⟨b, hb, rfl⟩)
  · rintro (rfl | hy | ⟨b, hb, rfl⟩)
    · exact .inr ⟨(a, 0), .inl rfl, rfl⟩
    · exact .inl hy
    · exact .inr ⟨b, .inr hb, rfl⟩

theorem KmemInv.length_le (hx : x ∈ liveObjs G) : x.2 ≤ 2048 := by
  obtain ⟨i, hi, hclass, -⟩ := hx
  have hpow : (2 : ℕ) ^ i ≤ 2 ^ 5 := Nat.pow_le_pow_right (by decide) (by omega)
  omega

theorem block_length_le (b : ℕ × ℕ) : 4096 ≤ 4096 * 2 ^ b.2 :=
  Nat.le_mul_of_pos_right _ (Nat.two_pow_pos _)

theorem mem_regions_live (hlen : x.2 ≤ 2048) : x ∈ regions live others ↔ x ∈ live := by
  refine ⟨?_, .inl⟩
  rintro (hx | ⟨b, -, rfl⟩)
  · exact hx
  · have := block_length_le b
    simp only at hlen
    omega

theorem mem_regions_block : (a, 4096) ∈ regions (liveObjs G) others ↔ (a, 0) ∈ others := by
  constructor
  · rintro (hx | ⟨⟨b, o⟩, hb, he⟩)
    · have := KmemInv.length_le hx
      simp only at this
      omega
    · simp only [Prod.mk.injEq] at he
      obtain ⟨rfl, he⟩ := he
      have ho : o = 0 := by
        by_contra ho
        have hpow : 2 ^ 1 ≤ 2 ^ o := Nat.pow_le_pow_right (by decide) (by omega)
        omega
      exact ho ▸ hb
  · exact fun hb => .inr ⟨(a, 0), hb, rfl⟩

theorem regions_erase_live (hlen : x.2 ≤ 2048) :
    regions (live \ {x}) others = regions live others \ {x} := by
  ext y
  constructor
  · rintro (⟨hy, hne⟩ | ⟨b, hb, rfl⟩)
    · exact ⟨.inl hy, hne⟩
    · refine ⟨.inr ⟨b, hb, rfl⟩, ?_⟩
      rintro rfl
      have := block_length_le b
      simp only at hlen
      omega
  · rintro ⟨hy | hy, hne⟩
    · exact .inl ⟨hy, hne⟩
    · exact .inr hy

theorem regions_erase_block :
    regions (liveObjs G) (others \ {(a, 0)}) = regions (liveObjs G) others \ {(a, 4096)} := by
  ext y
  constructor
  · rintro (hy | ⟨b, ⟨hb, hne⟩, rfl⟩)
    · refine ⟨.inl hy, ?_⟩
      rintro rfl
      have := KmemInv.length_le hy
      simp only at this
      omega
    · refine ⟨.inr ⟨b, hb, rfl⟩, fun he => hne ?_⟩
      have hmem : (a, 4096) ∈ regions (liveObjs G) {b} := .inr ⟨b, rfl, he.symm⟩
      exact (mem_regions_block.1 hmem).symm
  · rintro ⟨hy | ⟨b, hb, rfl⟩, hne⟩
    · exact .inl hy
    · refine .inr ⟨b, ⟨hb, ?_⟩, rfl⟩
      rintro rfl
      exact hne rfl

/-- An object is in a page of the caches. -/
theorem KmemInv.extent_subset (h : KmemInv s R others G) (hx : x ∈ liveObjs G) :
    extent x ⊆ region (slabBlocks G) := by
  obtain ⟨i, hi, a, ha, -, -, -, -, hsub⟩ := h.object hx
  exact fun y hy => ⟨_, blocks_subset hi (CacheInv.page_block ha), hsub hy⟩

theorem KmemInv.regions_disjoint (h : KmemInv s R others G)
    (hx : x ∈ regions (liveObjs G) others) (hy : y ∈ regions (liveObjs G) others) (hne : x ≠ y) :
    Disjoint (extent x) (extent y) := by
  have hcross : ∀ z ∈ liveObjs G, ∀ b ∈ others, Disjoint (extent z) (span 4096 b) :=
    fun z hz b hb => (h.owns.region_apart.mono (span_subset_region hb) (h.extent_subset hz)).symm
  rcases hx with hx | ⟨b, hb, rfl⟩ <;> rcases hy with hy | ⟨d, hd, rfl⟩
  · exact h.live_disjoint hx hy hne
  · exact hcross _ hx d hd
  · exact (hcross _ hy b hb).symm
  · refine Set.disjoint_left.2 fun z hz hz' => hne ?_
    rw [h.owns.buddy.liveTiles.eq_of_mem (.inl hb) (.inl hd) hz hz']

/-! ## The memory determines what is live -/

section Unique

theorem KmemInv.list_unique (h : KmemInv s R others G) (h' : KmemInv s R others' H) (hi : i < 6) :
    (G i).list = (H i).list :=
  funext fun l => ((h.good i hi).inv.links_zero l).unique ((h'.good i hi).inv.links_zero l)

theorem KmemInv.all_unique (h : KmemInv s R others G) (h' : KmemInv s R others' H) (hi : i < 6) :
    (G i).all = (H i).all := by
  ext a
  simp only [Slabs.all, h.list_unique h' hi]

theorem KmemInv.header_unique (h : KmemInv s R others G) (h' : KmemInv s R others' H) (hi : i < 6)
    (ha : a ∈ (G i).all) : (G i).page a = (H i).page a ∧ (G i).map a = (H i).map a := by
  have hok := (h.good i hi).inv.header a ha
  have hok' := (h'.good i hi).inv.header a (h.all_unique h' hi ▸ ha)
  exact ⟨hok.mem.symm.trans hok'.mem, hok.freemap.symm.trans hok'.freemap⟩

theorem KmemInv.live_subset (h : KmemInv s R others G) (h' : KmemInv s R others' H) :
    liveObjs G ⊆ liveObjs H := by
  rintro x ⟨i, hi, hclass, a, ha, j, hj, hbit, hx⟩
  obtain ⟨hpage, hmap⟩ := h.header_unique h' hi ha
  rw [hmap] at hbit
  rw [hpage] at hx
  exact ⟨i, hi, hclass, a, h.all_unique h' hi ▸ ha, j, hj, hbit, hx⟩

theorem KmemInv.blocks_unique (h : KmemInv s R others G) (h' : KmemInv s R others' H) :
    slabBlocks G ⊆ slabBlocks H := by
  rintro b ⟨i, hi, ha | ⟨a, ha, hb⟩, h0⟩
  · exact ⟨i, hi, .inl (h.all_unique h' hi ▸ ha), h0⟩
  · rw [(h.header_unique h' hi ha).1] at hb
    exact ⟨i, hi, .inr ⟨a, h.all_unique h' hi ▸ ha, hb⟩, h0⟩

theorem KmemInv.region_subset (h : KmemInv s R others G) (h' : KmemInv s R others' H) :
    region others ⊆ region others' := by
  intro x hx
  have hfree : x ∉ region s.phys.free := by
    rw [h.owns.buddy.region_free]
    exact fun hx' => hx'.2 (region_mono Set.subset_union_left hx)
  have hR : x ∈ R := h.owns.buddy.live_subset (region_mono Set.subset_union_left hx)
  rw [h'.owns.buddy.region_free, Set.mem_sdiff, not_and_not_right, region_union] at hfree
  rcases hfree hR with hx' | hx'
  · exact hx'
  · exact absurd (region_mono (h'.blocks_unique h) hx') (Set.disjoint_left.1 h.owns.region_apart hx)

/-- What is live in a state of a run does not depend on the run. -/
theorem SlabRun.unique (h : SlabRun k s live others) (h' : SlabRun k s live' others') :
    live = live' ∧ region others = region others' := by
  obtain ⟨G, hG, rfl⟩ := h.inv
  obtain ⟨H, hH, rfl⟩ := h'.inv
  exact ⟨(hG.live_subset hH).antisymm (hH.live_subset hG),
    (hG.region_subset hH).antisymm (hH.region_subset hG)⟩

end Unique

/-! ## kmalloc -/

/-- In every state of every run in which the region `x` is live, `kmfree` with the size ends its
life and leaves the other regions live. -/
def Frees (k : KernelEnd) (x : ℕ × ℕ) (size : ℕ) : Prop :=
  ∀ t live others, SlabRun k t live others → x ∈ regions live others →
    ∃ t' live' others', (kmfree x.1 size).run t = .ok ((), t') ∧ SlabRun k t' live' others' ∧
      regions live' others' = regions live others \ {x}

/-- The call has returned 0, or the start of a region as large as asked for that is apart from
every other live one and that `kmfree` with the size ends. -/
def Served (k : KernelEnd) (live others : Set (ℕ × ℕ)) (size r : ℕ) (s' : Kmem) : Prop :=
  r = 0 ∨ ∃ live' others' n, SlabRun k s' live' others' ∧ size ≤ n ∧
    regions live' others' = insert (r, n) (regions live others) ∧
    (∀ x ∈ regions live others, Disjoint (extent (r, n)) (extent x)) ∧ Frees k (r, n) size

theorem frees_object (hsize : size ≤ 2048) : Frees k (a, assistSize size) size := by
  intro t live others hrun hx
  obtain ⟨G, h, rfl⟩ := hrun.inv
  have hlen : assistSize size ≤ 2048 := by
    unfold assistSize
    split_ifs <;> omega
  rw [mem_regions_live hlen] at hx
  obtain ⟨⟨⟩, t', ht, -⟩ := wp_noPanic_iff.1 (kmfree_spec h hsize hx)
  exact ⟨t', _, _, ht, hrun.kmfree hsize hx ht, regions_erase_live hlen⟩

theorem assistSize_large (hsize : 2048 < size) : assistSize size = 0 := by
  unfold assistSize
  split_ifs <;> omega

theorem frees_page (hsize : 2048 < size) : Frees k (a, 4096) size := by
  intro t live others hrun hx
  obtain ⟨G, h, rfl⟩ := hrun.inv
  rw [mem_regions_block] at hx
  obtain ⟨⟨⟩, p, hp, -⟩ := wp_noPanic_iff.1 (h.owns.kfree_spec hx)
  refine ⟨t.setPhys p, _, _, ?_, hrun.kfree hx hp, regions_erase_block⟩
  rw [kmfree, if_pos (assistSize_large hsize)]
  exact zoom_ok hp

/-- A call whose size has a class. -/
theorem kmalloc_object (hrun : SlabRun k s live others) (hsize : size ≤ 2048) :
    ∃ r s', (kmalloc size).run s = .ok (r, s') ∧ Served k live others size r s' := by
  obtain ⟨G, h, rfl⟩ := hrun.inv
  obtain ⟨r, s', hs, G', h', -, ⟨hr, -⟩ | ⟨hr, hfresh, hlive, -⟩⟩ :=
    wp_noPanic_iff.1 (kmalloc_spec h hsize)
  · exact ⟨r, s', hs, .inl hr⟩
  · have hrun' := hrun.kmalloc hsize hs
    rw [if_neg hr] at hrun'
    obtain ⟨-, -, -, hle⟩ := assistSize_spec hsize
    have hlen : assistSize size ≤ 2048 := by
      unfold assistSize
      split_ifs <;> omega
    refine ⟨r, s', hs, .inr ⟨_, _, assistSize size, hrun', hle, regions_insert_live, fun x hx => ?_,
      frees_object hsize⟩⟩
    refine h'.regions_disjoint ?_ ?_ ?_
    · rw [hlive]
      exact .inl (.inl rfl)
    · rw [hlive, regions_insert_live]
      exact .inr hx
    · rintro rfl
      exact hfresh ((mem_regions_live hlen).1 hx)

/-- A call that goes to the page allocator. -/
theorem kmalloc_page (hrun : SlabRun k s live others) (hsize : 2048 < size) :
    ∃ r s', (kmalloc size).run s = .ok (r, s') ∧ (r = 0 ↔ s.phys.free = ∅) ∧
      (r ≠ 0 → SlabRun k s' live (insert (r, 0) others) ∧
        ∀ x ∈ regions live others, Disjoint (extent (r, 4096)) (extent x)) := by
  obtain ⟨G, h, rfl⟩ := hrun.inv
  obtain ⟨r, p, hp, hpost⟩ := wp_noPanic_iff.1 h.owns.kalloc_spec
  have hs : (kmalloc size).run s = .ok (r, s.setPhys p) := by
    rw [kmalloc, if_pos (assistSize_large hsize)]
    exact zoom_ok hp
  refine ⟨r, s.setPhys p, hs, ?_, ?_⟩
  · refine ⟨fun hr => ?_, fun hfree => ?_⟩
    · rcases hpost with ⟨-, -, hnone⟩ | ⟨hne, -⟩
      · exact free_eq_empty hnone
      · exact absurd hr hne
    · rcases hpost with ⟨hr, -⟩ | ⟨-, hfresh, howns, -⟩
      · exact hr
      · have hstart := start_mem_span (u := 4096) (by decide) (r, 0)
        have hin : r ∈ region (others ∪ slabBlocks G) := by
          have hR := howns.buddy.live_subset ⟨(r, 0), .inl (.inl rfl), hstart⟩
          rw [← h.owns.buddy.cover, hfree, region_empty, Set.empty_union] at hR
          exact hR
        obtain ⟨b, hb | hb, hrb⟩ := hin
        · obtain rfl := howns.buddy.liveTiles.eq_of_mem (.inl (.inl rfl)) (.inl (.inr hb)) hstart
            hrb
          exact absurd hb hfresh
        · obtain rfl := howns.buddy.liveTiles.eq_of_mem (.inl (.inl rfl)) (.inr hb) hstart hrb
          exact absurd hb (Set.disjoint_left.1 howns.apart (.inl rfl))
  · intro hr
    have hinv := h.alloc hpost
    have hrun' := hrun.kalloc hp
    rw [if_neg hr] at hinv hrun'
    refine ⟨hrun', fun x hx => hinv.regions_disjoint (.inr ⟨(r, 0), .inl rfl, rfl⟩) ?_ ?_⟩
    · rw [regions_insert_block]
      exact .inr hx
    · rintro rfl
      obtain ⟨h0, -⟩ | ⟨-, hfresh, -⟩ := hpost
      · exact hr h0
      · exact hfresh (mem_regions_block.1 hx)

/-- However a run has come to the state, a region that starts at the new page and is apart from the
regions of before is the page at most. -/
theorem SlabRun.length_le_page {r n : ℕ} (h : SlabRun k s live (insert (r, 0) others))
    (h' : SlabRun k s live' others') (hmem : (r, n) ∈ regions live' others')
    (hap : ∀ x ∈ regions live others, Disjoint (extent (r, n)) (extent x)) : n ≤ 4096 := by
  by_contra hn
  obtain ⟨rfl, hregion⟩ := h.unique h'
  have hx : r + 4096 ∈ extent (r, n) := ⟨by omega, by simp only; omega⟩
  rcases hmem with hmem | ⟨b, hb, he⟩
  · exact Set.disjoint_left.1 (hap _ (.inl hmem)) hx hx
  · have hin : r + 4096 ∈ region others' := by
      rw [he] at hx
      exact ⟨b, hb, hx⟩
    rw [← hregion] at hin
    obtain ⟨d, rfl | hd, hxd⟩ := hin
    · have := (mem_span.1 hxd).2
      norm_num at this
    · exact Set.disjoint_left.1 (hap _ (.inr ⟨d, hd, rfl⟩)) hx hxd

/-- One page does not serve a larger size. -/
theorem not_served {r : ℕ} (hsize : 4096 < size) (hr : r ≠ 0)
    (h : SlabRun k s live (insert (r, 0) others)) : ¬Served k live others size r s := by
  rintro (hr0 | ⟨live', others', n, h', hle, hregions, hap, -⟩)
  · exact hr hr0
  · have hlen := h.length_le_page h' (hregions ▸ .inl rfl) hap
    omega

/-- In every state of every run, `kmalloc` returns, and the region is as large as asked for and the
rest of what is expected holds exactly when the size is a page at most, or no page is free. -/
theorem kmalloc_regions (size : ℕ) (hrun : SlabRun k s live others) :
    ∃ r s', (kmalloc size).run s = .ok (r, s') ∧
      (Served k live others size r s' ↔ size ≤ 4096 ∨ s.phys.free = ∅) := by
  by_cases hsize : size ≤ 2048
  · obtain ⟨r, s', hs, hserved⟩ := kmalloc_object hrun hsize
    exact ⟨r, s', hs, iff_of_true hserved (.inl (hsize.trans (by decide)))⟩
  rw [not_le] at hsize
  obtain ⟨r, s', hs, hzero, hpage⟩ := kmalloc_page hrun hsize
  refine ⟨r, s', hs, ?_, ?_⟩
  · intro hserved
    by_cases hr : r = 0
    · exact .inr (hzero.1 hr)
    · refine .inl (le_of_not_gt fun hlt => ?_)
      exact not_served hlt hr (hpage hr).1 hserved
  · intro hcond
    by_cases hr : r = 0
    · exact .inl hr
    · have hle : size ≤ 4096 := hcond.resolve_right fun hfree => hr (hzero.2 hfree)
      obtain ⟨hrun', hap⟩ := hpage hr
      exact .inr ⟨_, _, 4096, hrun', hle, regions_insert_block, hap, frees_page hsize⟩

/-- After boot there are free pages. -/
theorem SlabRun.exists_boot : ∃ s, SlabRun sampleEnd s ∅ ∅ ∧ s.phys.free ≠ ∅ := by
  obtain ⟨_, p, hp, -⟩ := wp_noPanic_iff.1 (kinit_spec (s := bootPhys) (by decide))
  have hp := KallocRun.init (k := sampleEnd) rfl hp
  refine ⟨_, @SlabRun.init _ _ (fun _ => kmemCacheInit 0) _ hp, fun hfree => ?_⟩
  have hmem : pgRoundUp sampleEnd.addr ∈ sampleEnd.managed := ⟨le_refl _, sampleEnd.lt_top⟩
  rw [← hp.inv.buddy.cover, region_empty, Set.union_empty] at hmem
  have hnone : p.free = ∅ := hfree
  rw [hnone, region_empty] at hmem
  exact hmem

/-- After boot, for a size that fits in a page. -/
theorem kmalloc_regions_boot : ∃ s, SlabRun sampleEnd s ∅ ∅ ∧
    ∃ r s', (kmalloc 3000).run s = .ok (r, s') ∧ Served sampleEnd ∅ ∅ 3000 r s' := by
  obtain ⟨s, hrun, -⟩ := SlabRun.exists_boot
  obtain ⟨r, s', hs, hserved⟩ := kmalloc_regions 3000 hrun
  exact ⟨s, hrun, r, s', hs, hserved.2 (.inl (by decide))⟩

/-- After boot, for a size that does not. -/
theorem kmalloc_too_small : ∃ s, SlabRun sampleEnd s ∅ ∅ ∧
    ∃ r s', (kmalloc 5000).run s = .ok (r, s') ∧ ¬Served sampleEnd ∅ ∅ 5000 r s' := by
  obtain ⟨s, hrun, hfree⟩ := SlabRun.exists_boot
  obtain ⟨r, s', hs, hzero, hpage⟩ := kmalloc_page hrun (show 2048 < 5000 by decide)
  have hr : r ≠ 0 := fun hr => hfree (hzero.1 hr)
  exact ⟨s, hrun, r, s', hs, not_served (by decide) hr (hpage hr).1⟩

end Xv6Plus
