import Xv6Plus.KallocRun

/-!
# Every layout of live blocks is reached

`kalloc` and `kalloc_huge` choose which block they hand out. Still, for any disjoint pages and
huge pages of the managed memory there is a matched sequence of calls after which exactly
those are live (`kallocRun_reaches`) : take all pages, give back the pages of one huge page at a
time and take it as a huge page, which is then the only free block, and at last give back
what is not wanted. So a statement about all states of the allocator is one about all ways
that its memory can be divided.
-/

namespace Xv6Plus

/-- The pages that `kinit` manages. -/
def KernelEnd.pages (k : KernelEnd) : Set ℕ := {a | a % 4096 = 0 ∧ a ∈ k.managed}

/-- The blocks of one order that start at the addresses `P`. -/
def blocksAt (P : Set ℕ) (o : ℕ) : Set (ℕ × ℕ) := {b | b.1 ∈ P ∧ b.2 = o}

section Reach

variable {k : KernelEnd} {s : Phys} {live : Set (ℕ × ℕ)}

theorem KernelEnd.pages_finite (k : KernelEnd) : k.pages.Finite :=
  (Set.finite_Ico _ _).subset fun _ ha => ha.2

theorem KernelEnd.page_end {a : ℕ} (k : KernelEnd) (ha : a ∈ k.pages) : a + 4096 ≤ 2281701376 := by
  obtain ⟨hmod, -, hlt⟩ := ha
  simp only [physTop] at hlt
  omega

theorem mem_span_zero {a x : ℕ} : x ∈ span 4096 (a, 0) ↔ a ≤ x ∧ x < a + 4096 := by
  rw [mem_span]
  norm_num

theorem RunInv.live_page {a : ℕ} (h : RunInv k s live) (hb : (a, 0) ∈ live) : a ∈ k.pages := by
  have hal := h.buddy.liveTiles.aligned _ hb
  norm_num at hal
  exact ⟨Nat.mod_eq_zero_of_dvd hal, h.buddy.live_subset (start_mem_region hb)⟩

/-! ## Taking all pages -/

theorem KallocRun.fill (h : KallocRun k s live) (ho : ∀ b ∈ live, b.2 = 0) :
    ∃ s' live', KallocRun k s' live' ∧ s'.free = ∅ ∧ ∀ b ∈ live', b.2 = 0 := by
  -- by induction on the number of pages that are not live
  induction hn : (k.pages \ {a | (a, 0) ∈ live}).ncard generalizing s live with
  | zero =>
    refine ⟨s, live, h, Set.eq_empty_of_forall_notMem ?_, ho⟩
    rintro ⟨a, o⟩ hb
    have hfin := k.pages_finite.subset (Set.sdiff_subset (t := {a | (a, 0) ∈ live}))
    rw [Set.ncard_eq_zero hfin] at hn
    obtain ⟨hmod, -, -⟩ := h.inv.buddy.node hb
    have hmem : a ∈ k.pages :=
      ⟨hmod, h.inv.buddy.free_subset (start_mem_region hb)⟩
    have hlive : (a, 0) ∈ live := by
      by_contra hno
      exact Set.eq_empty_iff_forall_notMem.1 hn a ⟨hmem, hno⟩
    exact Set.disjoint_left.1 h.inv.buddy.apart (start_mem_region hb)
      (start_mem_region (b := (a, 0)) hlive)
  | succ n ih =>
    by_cases hne : (region s.free).Nonempty
    · obtain ⟨r, s', hrun, hr0, hr⟩ := h.inv.buddy.kalloc_succeeds hne
      have h' := h.kalloc hrun
      rw [if_neg hr0] at h'
      refine ih h' ?_ ?_
      · rintro b (rfl | hb)
        · rfl
        · exact ho b hb
      · have hpage := h'.inv.live_page (Set.mem_insert _ _)
        have heq : k.pages \ {a | (a, 0) ∈ insert (r, 0) live} =
            (k.pages \ {a | (a, 0) ∈ live}) \ {r} := by
          ext a
          simp only [Set.mem_sdiff, Set.mem_ofPred_eq, Set.mem_insert_iff, Prod.mk.injEq, and_true,
            Set.mem_singleton_iff, not_or]
          tauto
        have hfin := k.pages_finite.subset (Set.sdiff_subset (t := {a | (a, 0) ∈ live}))
        have hcard := Set.ncard_sdiff_singleton_of_mem (s := k.pages \ {a | (a, 0) ∈ live})
          (a := r) ⟨hpage, hr.fresh⟩
        rw [heq]
        omega
    · refine ⟨s, live, h, Set.eq_empty_of_forall_notMem fun b hb => hne ?_, ho⟩
      exact ⟨b.1, start_mem_region hb⟩

theorem KallocRun.exists_full (k : KernelEnd) :
    ∃ s, KallocRun k s (blocksAt k.pages 0) ∧ s.free = ∅ := by
  have hbase : 2147483648 ≤ pgRoundUp k.addr := k.base_le
  obtain ⟨_, s₀, hs₀, -⟩ := wp_noPanic_iff.1 (kinit_spec (s := ⟨fun _ => 0, fun _ => 0, fun _ => 0,
    k.addr⟩) hbase)
  obtain ⟨s, live, hrun, hfree, ho⟩ := (KallocRun.init rfl hs₀).fill fun _ hb =>
    absurd hb (Set.notMem_empty _)
  have hall : live = blocksAt k.pages 0 := by
    ext ⟨a, o⟩
    refine ⟨fun hb => ?_, ?_⟩
    · obtain rfl : o = 0 := ho _ hb
      exact ⟨hrun.inv.live_page hb, rfl⟩
    · rintro ⟨⟨hmod, hmem⟩, rfl⟩
      have hcover := hrun.inv.buddy.cover
      rw [hfree, region_empty, Set.empty_union] at hcover
      rw [← hcover] at hmem
      obtain ⟨⟨c, o⟩, hc, hx⟩ := hmem
      obtain rfl : o = 0 := ho _ hc
      have hcp := (hrun.inv.live_page hc).1
      rw [mem_span_zero] at hx
      dsimp only at hmod
      obtain rfl : c = a := by omega
      exact hc
  exact ⟨s, hall ▸ hrun, hfree⟩

/-! ## Giving pages back -/

/-- Any of the live pages are given back. -/
theorem KallocRun.kfree_all (h : KallocRun k s live) (F : Finset ℕ)
    (hF : ∀ a ∈ F, (a, 0) ∈ live) :
    ∃ s', KallocRun k s' (live \ blocksAt F 0) := by
  induction F using Finset.induction_on with
  | empty => exact ⟨s, by simpa [blocksAt] using h⟩
  | insert a F ha ih =>
    obtain ⟨s₁, h₁⟩ := ih fun b hb => hF b (Finset.mem_insert_of_mem hb)
    have hmem : (a, 0) ∈ live \ blocksAt F 0 :=
      ⟨hF a (Finset.mem_insert_self a F), fun hb => ha hb.1⟩
    obtain ⟨_, s₂, hs₂, -⟩ :=
      wp_noPanic_iff.1 (kfree_spec h₁.inv.buddy hmem (h₁.inv.kend_le hmem))
    refine ⟨s₂, ?_⟩
    have heq : live \ blocksAt (insert a F : Finset ℕ) 0 = (live \ blocksAt F 0) \ {(a, 0)} := by
      ext ⟨b, o⟩
      simp only [blocksAt, Set.mem_sdiff, Set.mem_ofPred_eq, Finset.coe_insert, Set.mem_insert_iff,
        Set.mem_singleton_iff, Prod.mk.injEq]
      tauto
    rw [heq]
    exact h₁.kfree hmem hs₂

/-! ## Taking a huge page -/

/-- The pages of a huge page. -/
def hugePages (a : ℕ) : Finset ℕ := (Finset.range 512).image fun j => a + 4096 * j

theorem mem_hugePages {a b : ℕ} : b ∈ hugePages a ↔ ∃ j < 512, b = a + 4096 * j := by
  simp [hugePages, eq_comm]

theorem region_hugePages (a : ℕ) : region (blocksAt (hugePages a) 0) = span 4096 (a, 9) := by
  ext x
  rw [mem_span]
  constructor
  · rintro ⟨⟨b, o⟩, ⟨hb, rfl⟩, hx⟩
    obtain ⟨j, hj, rfl⟩ := mem_hugePages.1 hb
    rw [mem_span_zero] at hx
    norm_num
    omega
  · intro hx
    norm_num at hx
    refine ⟨(a + 4096 * ((x - a) / 4096), 0), ⟨mem_hugePages.2 ⟨_, by omega, rfl⟩, rfl⟩, ?_⟩
    rw [mem_span_zero]
    omega

/-- The free bytes are those that are not live. -/
theorem RunInv.region_free (h : RunInv k s live) : region s.free = k.managed \ region live := by
  rw [← h.buddy.cover, Set.union_sdiff_right]
  exact (sdiff_eq_left.2 h.buddy.apart).symm

/-- An aligned block of free memory lies in a free block. -/
theorem Buddy.exists_free_order {R : Set ℕ} {a o : ℕ} (h : Buddy s R live) (ho : o ≤ 15)
    (hal : 4096 * 2 ^ o ∣ a) (hsub : span 4096 (a, o) ⊆ region s.free) : ∃ b ∈ s.free, o ≤ b.2 := by
  obtain ⟨b, hb, hab⟩ := h.freeTiles.exists_tile_of_subset (by decide) h.coalesced ho hal hsub
  exact ⟨b, hb, order_le_of_subset (by decide) hab⟩

/-- With no page free, the pages of `a` become a huge page. -/
theorem KallocRun.take_huge {a : ℕ} (h : KallocRun k s live) (hfree : s.free = ∅)
    (hal : a % 2097152 = 0) (hpages : ∀ b ∈ hugePages a, (b, 0) ∈ live) :
    ∃ s', KallocRun k s' (insert (a, 9) (live \ blocksAt (hugePages a) 0)) ∧ s'.free = ∅ := by
  obtain ⟨s₁, h₁⟩ := h.kfree_all (hugePages a) hpages
  have hsub : blocksAt (hugePages a) 0 ⊆ live := by
    rintro ⟨b, o⟩ ⟨hb, rfl⟩
    exact hpages b hb
  have hregion : region s₁.free = span 4096 (a, 9) := by
    rw [h₁.inv.region_free, ← region_hugePages]
    have hR : k.managed = region live := by
      rw [← h.inv.buddy.cover, hfree, region_empty, Set.empty_union]
    ext x
    rw [hR]
    constructor
    · rintro ⟨⟨b, hb, hx⟩, hno⟩
      by_contra hnot
      exact hno ⟨b, ⟨hb, fun hbp => hnot ⟨b, hbp, hx⟩⟩, hx⟩
    · rintro ⟨b, hb, hx⟩
      refine ⟨⟨b, hsub hb, hx⟩, ?_⟩
      rintro ⟨c, ⟨hc, hcn⟩, hxc⟩
      obtain rfl := h.inv.buddy.liveTiles.eq_of_mem (hsub hb) hc hx hxc
      exact hcn hb
  have hal' : 4096 * 2 ^ 9 ∣ a := Nat.dvd_of_mod_eq_zero (by norm_num; exact hal)
  obtain ⟨r, s₂, hrun, ⟨-, -, hno⟩ | ⟨hr0, hr⟩⟩ := wp_noPanic_iff.1 (kallocHuge_spec h₁.inv.buddy)
  · obtain ⟨b, hb, hle⟩ := h₁.inv.buddy.exists_free_order (by decide) hal' hregion.ge
    exact absurd (hno b hb) (not_lt.2 hle)
  · have h₂ := h₁.kallocHuge hrun
    rw [if_neg hr0] at h₂
    have hfresh : span 4096 (r, 9) ⊆ span 4096 (a, 9) := by
      rw [← hregion, h₁.inv.region_free]
      intro x hx
      have hb : (r, 9) ∈ insert (r, 9) (live \ blocksAt (hugePages a) 0) := Set.mem_insert _ _
      refine ⟨hr.buddy.live_subset (span_subset_region hb hx), ?_⟩
      rintro ⟨c, hc, hxc⟩
      have := hr.buddy.liveTiles.eq_of_mem hb (Set.mem_insert_of_mem _ hc) hx hxc
      exact hr.fresh (this ▸ hc)
    obtain rfl : r = a := by
      have hb : (r, 9) ∈ insert (r, 9) (live \ blocksAt (hugePages a) 0) := Set.mem_insert _ _
      exact (Prod.mk.inj (eq_of_meet (by decide) (hr.buddy.liveTiles.aligned _ hb) hal' rfl
        (start_mem_span (by decide) _) (hfresh (start_mem_span (by decide) _)))).1
    refine ⟨s₂, h₂, Set.eq_empty_of_forall_notMem fun b hb => ?_⟩
    have hx := start_mem_region hb
    have hlive : b.1 ∉ region (insert (r, 9) (live \ blocksAt (hugePages r) 0)) :=
      Set.disjoint_left.1 hr.buddy.apart hx
    rw [region_insert] at hlive
    have hx₁ : b.1 ∈ region s₁.free := by
      rw [h₁.inv.region_free]
      exact ⟨hr.buddy.free_subset hx, fun hl => hlive (Or.inr hl)⟩
    rw [hregion] at hx₁
    exact hlive (Or.inl hx₁)

/-- With no page free, huge pages at `H`, and all other pages live. -/
theorem KallocRun.exists_huge (k : KernelEnd) (H : Finset ℕ) (hal : ∀ a ∈ H, a % 2097152 = 0)
    (hin : ∀ a ∈ H, span 4096 (a, 9) ⊆ k.managed) :
    ∃ s, KallocRun k s (blocksAt H 9 ∪ blocksAt {a | a ∈ k.pages ∧ ∀ h ∈ H, a ∉ hugePages h} 0) ∧
      s.free = ∅ := by
  induction H using Finset.induction_on with
  | empty =>
    obtain ⟨s, hs, hfree⟩ := KallocRun.exists_full k
    refine ⟨s, ?_, hfree⟩
    have heq : blocksAt (∅ : Finset ℕ) 9 ∪ blocksAt {a | a ∈ k.pages ∧ ∀ h ∈ (∅ : Finset ℕ),
        a ∉ hugePages h} 0 = blocksAt k.pages 0 := by
      ext b
      simp [blocksAt]
    rw [heq]
    exact hs
  | insert a H ha ih =>
    obtain ⟨s, hs, hfree⟩ := ih (fun b hb => hal b (Finset.mem_insert_of_mem hb))
      fun b hb => hin b (Finset.mem_insert_of_mem hb)
    have ha0 := hal a (Finset.mem_insert_self a H)
    have hain := hin a (Finset.mem_insert_self a H)
    have hpages : ∀ b ∈ hugePages a, b ∈ k.pages ∧ ∀ h ∈ H, b ∉ hugePages h := by
      intro b hb
      obtain ⟨j, hj, rfl⟩ := mem_hugePages.1 hb
      refine ⟨⟨by omega, hain ?_⟩, fun h hh hmem => ?_⟩
      · rw [mem_span]
        norm_num
        omega
      · obtain ⟨i, hi, heq⟩ := mem_hugePages.1 hmem
        have hh0 := hal h (Finset.mem_insert_of_mem hh)
        obtain rfl : a = h := by omega
        exact ha hh
    obtain ⟨s', hs', hfree'⟩ := hs.take_huge hfree ha0 fun b hb => Or.inr ⟨hpages b hb, rfl⟩
    refine ⟨s', ?_, hfree'⟩
    have heq : blocksAt (insert a H : Finset ℕ) 9 ∪
        blocksAt {b | b ∈ k.pages ∧ ∀ h ∈ insert a H, b ∉ hugePages h} 0 =
        insert (a, 9) ((blocksAt H 9 ∪ blocksAt {b | b ∈ k.pages ∧ ∀ h ∈ H, b ∉ hugePages h} 0) \
          blocksAt (hugePages a) 0) := by
      ext ⟨b, o⟩
      simp only [blocksAt, Set.mem_union, Set.mem_ofPred_eq, Finset.coe_insert, Set.mem_insert_iff,
        Finset.mem_coe, Finset.forall_mem_insert, Set.mem_sdiff, Prod.mk.injEq]
      by_cases ho : o = 9
      · subst ho
        simp
      · simp only [ho, and_false, false_or]
        constructor
        · rintro ⟨⟨hb, hna, hH⟩, rfl⟩
          exact ⟨⟨⟨hb, hH⟩, rfl⟩, fun h => hna h.1⟩
        · rintro ⟨⟨⟨hb, hH⟩, rfl⟩, hn⟩
          exact ⟨⟨hb, fun h => hn ⟨h, rfl⟩, hH⟩, rfl⟩
    rw [heq]
    exact hs'

/-- Any disjoint pages and huge pages of the managed memory are the live blocks of a run. -/
theorem kallocRun_reaches (k : KernelEnd) (P H : Finset ℕ) (hP : ∀ a ∈ P, a ∈ k.pages)
    (hal : ∀ a ∈ H, a % 2097152 = 0) (hin : ∀ a ∈ H, span 4096 (a, 9) ⊆ k.managed)
    (hd : ∀ a ∈ P, ∀ h ∈ H, a ∉ hugePages h) :
    ∃ s, KallocRun k s (blocksAt P 0 ∪ blocksAt H 9) := by
  classical
  obtain ⟨s, hs, -⟩ := KallocRun.exists_huge k H hal hin
  have hfin : {a | (a ∈ k.pages ∧ ∀ h ∈ H, a ∉ hugePages h) ∧ a ∉ P}.Finite :=
    k.pages_finite.subset fun a ha => ha.1.1
  obtain ⟨s', hs'⟩ := hs.kfree_all hfin.toFinset fun a ha =>
    Or.inr ⟨((Set.Finite.mem_toFinset hfin).1 ha).1, rfl⟩
  refine ⟨s', ?_⟩
  have heq : blocksAt P 0 ∪ blocksAt H 9 = (blocksAt H 9 ∪
      blocksAt {a | a ∈ k.pages ∧ ∀ h ∈ H, a ∉ hugePages h} 0) \ blocksAt hfin.toFinset 0 := by
    ext ⟨b, o⟩
    simp only [blocksAt, Set.mem_union, Set.mem_ofPred_eq, Set.mem_sdiff, Finset.mem_coe,
      Set.Finite.mem_toFinset]
    by_cases ho : o = 9
    · subst ho
      simp
    · simp only [ho, and_false, or_false, false_or]
      constructor
      · rintro ⟨hb, rfl⟩
        exact ⟨⟨⟨hP b hb, hd b hb⟩, rfl⟩, fun hno => hno.1.2 hb⟩
      · rintro ⟨⟨hb, rfl⟩, hno⟩
        by_contra hbP
        exact hno ⟨⟨hb, fun hbp => hbP ⟨hbp, rfl⟩⟩, rfl⟩
  rw [heq]
  exact hs'

end Reach

end Xv6Plus
