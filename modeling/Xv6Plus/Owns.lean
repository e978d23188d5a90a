import Xv6Plus.KallocSpec

/-!
# What a component owns

`Owns s R own frame` : of the blocks the page allocator has handed out, a component holds
`own`, and `frame` is what everybody else holds. Each allocator call of the component
changes its own share and leaves the memory of the frame alone, and so does every write
into a block of its own. The frame is arbitrary, so a component can be verified on its
own and then put beside others.
-/

namespace Xv6Plus

/-- The component holds `own`, the others hold `frame`. -/
structure Owns (s : Phys) (R : Set ℕ) (own frame : Set (ℕ × ℕ)) : Prop where
  buddy : Buddy s R (own ∪ frame)
  apart : Disjoint own frame
  above : ∀ x ∈ R, s.kend ≤ x

variable {s s' : Phys} {R : Set ℕ} {own frame A B : Set (ℕ × ℕ)} {a o : ℕ} {m : Mem}

theorem region_union (A B : Set (ℕ × ℕ)) : region (A ∪ B) = region A ∪ region B := by
  ext x
  simp [region, or_and_right, exists_or]

theorem Keeps.mono (h : Keeps B s s') (hAB : A ⊆ B) : Keeps A s s' :=
  ⟨h.mem.mono (region_mono hAB), h.kend⟩

theorem Keeps.refl (A : Set (ℕ × ℕ)) (s : Phys) : Keeps A s s := ⟨Set.eqOn_refl _ _, rfl⟩

theorem Keeps.read64 {x : ℕ} (h : Keeps A s s') (hb : (a, 0) ∈ A) (h1 : a ≤ x)
    (h2 : x + 8 ≤ a + 4096) : Xv6Plus.read64 s'.mem x = Xv6Plus.read64 s.mem x := by
  have hsub : Set.Ico x (x + 8) ⊆ region A := by
    intro y hy
    refine ⟨(a, 0), hb, ?_⟩
    have hy1 := hy.1
    have hy2 := hy.2
    simp only [mem_span, pow_zero, mul_one, pgSize]
    omega
  exact read64_congr (h.mem.mono hsub)

/-- Only bytes of the blocks `own` are written. -/
structure WritesOwn (own : Set (ℕ × ℕ)) (s s' : Phys) : Prop where
  eq : s' = s.setMem s'.mem
  mem : Set.EqOn s'.mem s.mem (region own)ᶜ

theorem WritesOwn.trans {s'' : Phys} (h : WritesOwn own s s') (h' : WritesOwn own s' s'') :
    WritesOwn own s s'' := by
  refine ⟨?_, h'.mem.trans h.mem⟩
  rw [h'.eq, h.eq]
  rfl

theorem WritesOwn.of_block (hb : (a, o) ∈ own) (hm : Set.EqOn m s.mem (span 4096 (a, o))ᶜ) :
    WritesOwn own s (s.setMem m) :=
  ⟨rfl, hm.mono (Set.compl_subset_compl.2 (span_subset_region hb))⟩

/-! ## Writes inside one block -/

section Span

variable {x n v : ℕ}

theorem not_mem_span (h1 : a ≤ x) (h2 : x + n ≤ a + 4096 * 2 ^ o) :
    ∀ y ∈ (span 4096 (a, o))ᶜ, y < x ∨ x + n ≤ y := by
  intro y hy
  simp only [Set.mem_compl_iff, mem_span, not_and, not_lt] at hy
  omega

theorem write64_span (h1 : a ≤ x) (h2 : x + 8 ≤ a + 4096 * 2 ^ o) :
    Set.EqOn (write64 m x v) m (span 4096 (a, o))ᶜ :=
  write64_eqOn (not_mem_span h1 h2)

theorem memset_span {c : UInt8} (h1 : a ≤ x) (h2 : x + n ≤ a + 4096 * 2 ^ o) :
    Set.EqOn (memset m x c n) m (span 4096 (a, o))ᶜ :=
  memset_eqOn (not_mem_span h1 h2)

theorem memmove_span (src : ℕ) (h1 : a ≤ x) (h2 : x + n ≤ a + 4096 * 2 ^ o) :
    Set.EqOn (memmove m x src n) m (span 4096 (a, o))ᶜ :=
  memmove_eqOn (not_mem_span h1 h2)

end Span

namespace Owns

theorem mem_own (h : Owns s R own frame) (hb : (a, o) ∈ own) :
    4096 * 2 ^ o ∣ a ∧ 2147483648 ≤ a ∧ a + 4096 * 2 ^ o ≤ 2281701376 := by
  have hlive : (a, o) ∈ own ∪ frame := Or.inl hb
  exact ⟨h.buddy.liveTiles.aligned _ hlive,
    h.buddy.bounds ((span_subset_region hlive).trans h.buddy.live_subset)⟩

theorem page (h : Owns s R own frame) (hb : (a, 0) ∈ own) :
    a % 4096 = 0 ∧ 2147483648 ≤ a ∧ a + 4096 ≤ 2281701376 := by
  have hbd := h.mem_own hb
  norm_num at hbd
  omega

theorem kend_le (h : Owns s R own frame) (hb : (a, o) ∈ own) : s.kend ≤ a := by
  have hlive : (a, o) ∈ own ∪ frame := Or.inl hb
  have ha : a ∈ region (own ∪ frame) := start_mem_region hlive
  exact h.above a (h.buddy.live_subset ha)

theorem reassoc {own' frame' : Set (ℕ × ℕ)} (h : Owns s R own frame)
    (hu : own' ∪ frame' = own ∪ frame) (hd : Disjoint own' frame') : Owns s R own' frame' :=
  ⟨by rw [hu]; exact h.buddy, hd, h.above⟩

/-- The roles of the component and of the others swapped. -/
theorem symm (h : Owns s R own frame) : Owns s R frame own :=
  h.reassoc (Set.union_comm _ _) h.apart.symm

/-- One block on its own, and all the others as the frame. -/
theorem single {b : ℕ × ℕ} (h : Owns s R own frame) (hb : b ∈ own) :
    Owns s R {b} (own \ {b} ∪ frame) := by
  refine h.reassoc ?_ ?_
  · rw [← Set.union_assoc, Set.union_sdiff_self, Set.singleton_union,
      Set.insert_eq_of_mem hb]
  · rw [Set.disjoint_singleton_left]
    rintro (hc | hc)
    · exact hc.2 rfl
    · exact Set.disjoint_left.1 h.apart hb hc

/-- Two blocks of the component do not meet. -/
theorem eq_of_mem {b c : ℕ × ℕ} {x : ℕ} (h : Owns s R own frame) (hb : b ∈ own) (hc : c ∈ own)
    (hxb : x ∈ span 4096 b) (hxc : x ∈ span 4096 c) : b = c :=
  h.buddy.liveTiles.eq_of_mem (Or.inl hb) (Or.inl hc) hxb hxc

theorem region_apart (h : Owns s R own frame) : Disjoint (region own) (region frame) := by
  rw [Set.disjoint_left]
  rintro x ⟨b, hb, hx⟩ ⟨c, hc, hx'⟩
  obtain rfl := h.buddy.liveTiles.eq_of_mem (Or.inl hb) (Or.inr hc) hx hx'
  exact Set.disjoint_left.1 h.apart hb hc

theorem store (h : Owns s R own frame) (hw : WritesOwn own s s') :
    Owns s' R own frame ∧ Keeps frame s s' := by
  have hfree : Disjoint (region s.free) (region own) :=
    h.buddy.apart.mono_right (region_mono Set.subset_union_left)
  rw [hw.eq]
  exact ⟨⟨h.buddy.setMem (hw.mem.mono hfree.subset_compl_right), h.apart, h.above⟩,
    hw.mem.mono h.region_apart.symm.subset_compl_right, rfl⟩

theorem store_block {b : ℕ × ℕ} (h : Owns s R own frame) (hb : b ∈ own)
    (hm : Set.EqOn m s.mem (span 4096 b)ᶜ) :
    Owns (s.setMem m) R own frame ∧ Keeps (own \ {b} ∪ frame) s (s.setMem m) := by
  have hw : WritesOwn {b} s (s.setMem m) := WritesOwn.of_block (Set.mem_singleton _) hm
  have hw' : WritesOwn own s (s.setMem m) := WritesOwn.of_block hb hm
  exact ⟨(h.store hw').1, ((h.single hb).store hw).2⟩

theorem insert {r : ℕ} (h : Owns s R own frame) (hr : Allocated R (own ∪ frame) s r o s') :
    Owns s' R (insert (r, o) own) frame := by
  refine ⟨?_, ?_, fun x hx => ?_⟩
  · rw [Set.insert_union]
    exact hr.buddy
  · rw [Set.disjoint_insert_left]
    exact ⟨fun hf => hr.fresh (Or.inr hf), h.apart⟩
  · rw [hr.keeps.kend]
    exact h.above x hx

theorem erase {b : ℕ × ℕ} (h : Owns s R own frame) (hb : b ∈ own)
    (hs : Buddy s' R ((own ∪ frame) \ {b})) (hk : s'.kend = s.kend) :
    Owns s' R (own \ {b}) frame := by
  have hf : frame \ {b} = frame :=
    Set.sdiff_singleton_eq_self fun hf => Set.disjoint_left.1 h.apart hb hf
  refine ⟨?_, h.apart.mono_left Set.sdiff_subset, fun x hx => ?_⟩
  · rw [Set.union_sdiff_distrib, hf] at hs
    exact hs
  · rw [hk]
    exact h.above x hx

/-- What the component has after an allocation of the order `o`. -/
def AllocPost (s : Phys) (R : Set ℕ) (own frame : Set (ℕ × ℕ)) (o r : ℕ) (s' : Phys) : Prop :=
  (r = 0 ∧ s' = s ∧ ∀ b ∈ s.free, b.2 < o) ∨
    (r ≠ 0 ∧ (r, o) ∉ own ∧ Owns s' R (Insert.insert (r, o) own) frame ∧
      Keeps (own ∪ frame) s s')

theorem allocPost (h : Owns s R own frame) {r : ℕ} (hr : AllocResult R (own ∪ frame) s o r s') :
    AllocPost s R own frame o r s' := by
  rcases hr with hr | ⟨hne, hr⟩
  · exact Or.inl hr
  · exact Or.inr ⟨hne, fun hf => hr.fresh (Or.inl hf), h.insert hr, hr.keeps⟩

theorem kalloc_spec (h : Owns s R own frame) :
    wp kalloc (AllocPost s R own frame 0) noPanic s :=
  wp_post (Xv6Plus.kalloc_spec h.buddy) fun _ _ hr => h.allocPost hr

theorem kallocHuge_spec (h : Owns s R own frame) :
    wp kallocHuge (AllocPost s R own frame 9) noPanic s :=
  wp_post (Xv6Plus.kallocHuge_spec h.buddy) fun _ _ hr => h.allocPost hr

theorem keeps_erase {b : ℕ × ℕ} (h : Owns s R own frame) (hb : b ∈ own)
    (hk : Keeps ((own ∪ frame) \ {b}) s s') : Keeps (own \ {b} ∪ frame) s s' := by
  refine hk.mono ?_
  rintro c (⟨hc, hne⟩ | hc)
  · exact ⟨Or.inl hc, hne⟩
  · refine ⟨Or.inr hc, ?_⟩
    rintro rfl
    exact Set.disjoint_left.1 h.apart hb hc

theorem kfree_spec (h : Owns s R own frame) (hb : (a, 0) ∈ own) :
    wp (kfree a) (fun _ s' => Owns s' R (own \ {(a, 0)}) frame ∧
      Keeps (own \ {(a, 0)} ∪ frame) s s') noPanic s :=
  wp_post (Xv6Plus.kfree_spec h.buddy (Or.inl hb) (h.kend_le hb)) fun _ _ hs =>
    ⟨h.erase hb hs.1 hs.2.kend, h.keeps_erase hb hs.2⟩

theorem kfreeHuge_spec (h : Owns s R own frame) (hb : (a, 9) ∈ own) :
    wp (kfreeHuge a) (fun _ s' => Owns s' R (own \ {(a, 9)}) frame ∧
      Keeps (own \ {(a, 9)} ∪ frame) s s') noPanic s :=
  wp_post (Xv6Plus.kfreeHuge_spec h.buddy (Or.inl hb)) fun _ _ hs =>
    ⟨h.erase hb hs.1 hs.2.kend, h.keeps_erase hb hs.2⟩

/-- All memory was in use, and the block `b` was given back. -/
theorem free_subset {own' frame' : Set (ℕ × ℕ)} {b : ℕ × ℕ} (h : Owns s R own frame)
    (hfree : s.free = ∅) (h' : Owns s' R own' frame')
    (hb : own ∪ frame ⊆ Insert.insert b (own' ∪ frame')) : region s'.free ⊆ span 4096 b := by
  intro x hx
  have hR : x ∈ region s.free ∪ region (own ∪ frame) := by
    rw [h.buddy.cover]
    exact h'.buddy.free_subset hx
  rw [hfree, region_empty, Set.empty_union] at hR
  obtain ⟨c, hc, hxc⟩ := hR
  rcases hb hc with rfl | hc
  · exact hxc
  · exact absurd ⟨c, hc, hxc⟩ (Set.disjoint_left.1 h'.buddy.apart hx)

end Owns

/-- At most one page is free. -/
def Exhausted (s : Phys) : Prop := ∃ a, region s.free ⊆ span 4096 (a, 0)

theorem free_eq_empty (h : ∀ b ∈ s.free, b.2 < 0) : s.free = ∅ :=
  Set.eq_empty_of_forall_notMem fun b hb => absurd (h b hb) (by omega)

theorem exhausted_of_empty (h : ∀ b ∈ s.free, b.2 < 0) : Exhausted s := by
  refine ⟨0, ?_⟩
  rw [free_eq_empty h, region_empty]
  exact Set.empty_subset _

/-! ## Several components -/

section Shares

variable {ι : Type} {S : ι → Set (ℕ × ℕ)} {held : Set (ℕ × ℕ)} {i j : ι}

/-- The blocks of the components other than `i`. -/
def restShares (S : ι → Set (ℕ × ℕ)) (i : ι) : Set (ℕ × ℕ) := {b | ∃ j, j ≠ i ∧ b ∈ S j}

/-- Each component holds its share, and `held` is what is held beside them. -/
structure Shares (s : Phys) (R : Set ℕ) (S : ι → Set (ℕ × ℕ)) (held : Set (ℕ × ℕ)) : Prop where
  owns : Owns s R {b | ∃ i, b ∈ S i} held
  apart : ∀ i j, i ≠ j → Disjoint (S i) (S j)

theorem share_union [DecidableEq ι] (S : ι → Set (ℕ × ℕ)) (i : ι) :
    S i ∪ restShares S i = {b | ∃ j, b ∈ S j} := by
  ext b
  constructor
  · rintro (hb | ⟨j, -, hb⟩)
    · exact ⟨i, hb⟩
    · exact ⟨j, hb⟩
  · rintro ⟨j, hb⟩
    by_cases hj : j = i
    · exact Or.inl (hj ▸ hb)
    · exact Or.inr ⟨j, hj, hb⟩

theorem restShares_update [DecidableEq ι] (S : ι → Set (ℕ × ℕ)) (i : ι) (own : Set (ℕ × ℕ)) :
    restShares (Function.update S i own) i = restShares S i := by
  ext b
  refine exists_congr fun j => and_congr_right fun hj => ?_
  rw [Function.update_of_ne hj]

theorem share_subset_restShares (h : j ≠ i) : S j ⊆ restShares S i := fun _ hb => ⟨j, h, hb⟩

variable [DecidableEq ι]

/-- One component, with the others in its frame. -/
theorem Shares.focus (h : Shares s R S held) (i : ι) : Owns s R (S i) (restShares S i ∪ held) := by
  have hap := h.owns.apart
  rw [← share_union S i, Set.disjoint_union_left] at hap
  refine h.owns.reassoc ?_ ?_
  · rw [← Set.union_assoc, share_union]
  · rw [Set.disjoint_union_right]
    refine ⟨?_, hap.1⟩
    rw [Set.disjoint_left]
    rintro b hb ⟨j, hj, hb'⟩
    exact Set.disjoint_left.1 (h.apart j i hj) hb' hb

/-- One component has a new share. -/
theorem Shares.refocus (h : Shares s R S held) (ho : Owns s' R own (restShares S i ∪ held)) :
    Shares s' R (Function.update S i own) held := by
  have hap := ho.apart
  rw [Set.disjoint_union_right] at hap
  have hother : ∀ j, j ≠ i → Disjoint own (S j) := fun j hj =>
    hap.1.mono_right (share_subset_restShares hj)
  constructor
  · refine ho.reassoc ?_ ?_
    · rw [← share_union (Function.update S i own) i, restShares_update, Function.update_self,
        Set.union_assoc]
    · rw [← share_union (Function.update S i own) i, restShares_update, Function.update_self,
        Set.disjoint_union_left]
      have hsub : restShares S i ⊆ {b | ∃ j, b ∈ S j} := fun b ⟨j, _, hb⟩ => ⟨j, hb⟩
      exact ⟨hap.2, h.owns.apart.mono_left hsub⟩
  · intro j k hjk
    by_cases hj : j = i
    · subst hj
      rw [Function.update_self, Function.update_of_ne (Ne.symm hjk)]
      exact hother k (Ne.symm hjk)
    · by_cases hk : k = i
      · subst hk
        rw [Function.update_self, Function.update_of_ne hj]
        exact (hother j hj).symm
      · rw [Function.update_of_ne hj, Function.update_of_ne hk]
        exact h.apart j k hjk

/-- The share of a component goes to the rest. -/
theorem Shares.retire (h : Shares s R S held) (i : ι) :
    Shares s R (Function.update S i ∅) (S i ∪ held) := by
  have hsub : ∀ j, Function.update S i ∅ j ⊆ S j := by
    intro j
    by_cases hj : j = i
    · rw [hj, Function.update_self]
      exact Set.empty_subset _
    · rw [Function.update_of_ne hj]
  refine ⟨(h.focus i).reassoc ?_ ?_, fun j k hjk => (h.apart j k hjk).mono (hsub j) (hsub k)⟩
  · rw [← share_union (Function.update S i ∅) i, restShares_update, Function.update_self,
      Set.empty_union, Set.union_left_comm]
  · rw [← share_union (Function.update S i ∅) i, restShares_update, Function.update_self,
      Set.empty_union, Set.disjoint_union_right]
    have hap := (h.focus i).apart
    rw [Set.disjoint_union_right] at hap
    have hrest : restShares S i ⊆ {b | ∃ j, b ∈ S j} := fun b ⟨j, _, hb⟩ => ⟨j, hb⟩
    exact ⟨hap.1.symm, h.owns.apart.mono_left hrest⟩

end Shares

end Xv6Plus
