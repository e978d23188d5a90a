import Xv6Plus.KallocRun
import Xv6Plus.Uvm

/-!
# Counting pages

Every page of the managed memory is free or lies in a block that somebody holds, so the number
of free pages follows from what is held (`Owns.census`). An address space holds a page for each
of its tables and for each page that is mapped, whether by a page or by a part of a huge page
(`Uvm.census`). So an operation that is specified by the tables and the view it leaves is
specified in the pages it takes and gives back as well.
-/

namespace Xv6Plus

/-- The pages, by index, that start in `X`. -/
def pagesIn (X : Set ℕ) : Set ℕ := {i | kernBase + pgSize * i ∈ X}

/-- The number of pages that start in `X`. -/
noncomputable def pageCount (X : Set ℕ) : ℕ := (pagesIn X).ncard

/-- The number of free pages. -/
noncomputable def Phys.freeCount (s : Phys) : ℕ := s.freePages.ncard

section PageCount

variable {X Y : Set ℕ} {ι : Type} {S : Set ι} {f : ι → ℕ}

theorem pagesIn_finite (h : X ⊆ Set.Ico kernBase physTop) : (pagesIn X).Finite := by
  refine (Set.finite_Iio 32768).subset fun i hi => ?_
  have := (h hi).2
  simp only [kernBase, pgSize, physTop] at this
  simp only [Set.mem_Iio]
  omega

theorem pageCount_union (hX : X ⊆ Set.Ico kernBase physTop) (hY : Y ⊆ Set.Ico kernBase physTop)
    (hd : Disjoint X Y) : pageCount (X ∪ Y) = pageCount X + pageCount Y :=
  Set.ncard_union_eq (hd.preimage fun i => kernBase + pgSize * i) (pagesIn_finite hX)
    (pagesIn_finite hY)

theorem pageCount_empty : pageCount ∅ = 0 := Set.ncard_empty ℕ

/-- The pages at the addresses `f i`. -/
theorem pagesIn_eq_image (hpage : ∀ i ∈ S, f i % 4096 = 0 ∧ 2147483648 ≤ f i)
    (hX : ∀ x, x % 4096 = 0 → (x ∈ X ↔ ∃ i ∈ S, f i = x)) :
    pagesIn X = (fun i => (f i - 2147483648) / 4096) '' S := by
  ext j
  simp only [pagesIn, Set.mem_ofPred_eq, Set.mem_image, kernBase, pgSize]
  rw [hX _ (by omega)]
  refine exists_congr fun i => and_congr_right fun hi => ?_
  have := hpage i hi
  omega

theorem pageCount_eq_ncard (hpage : ∀ i ∈ S, f i % 4096 = 0 ∧ 2147483648 ≤ f i)
    (hinj : S.InjOn f) (hX : ∀ x, x % 4096 = 0 → (x ∈ X ↔ ∃ i ∈ S, f i = x)) :
    pageCount X = S.ncard := by
  rw [pageCount, pagesIn_eq_image hpage hX]
  refine Set.InjOn.ncard_image fun i hi j hj he => hinj hi hj ?_
  have h1 := hpage i hi
  have h2 := hpage j hj
  change (f i - 2147483648) / 4096 = (f j - 2147483648) / 4096 at he
  omega

theorem sampleEnd_managed : sampleEnd.managed = Set.Ico 0x80022000 0x88000000 := by
  simp only [KernelEnd.managed, physTop]
  congr 1

theorem sampleEnd_pageCount : pageCount sampleEnd.managed = 32734 := by
  have hpages : pagesIn sampleEnd.managed = Set.Ico 34 32768 := by
    ext i
    simp only [pagesIn, sampleEnd_managed, Set.mem_ofPred_eq, Set.mem_Ico, kernBase, pgSize]
    omega
  rw [pageCount, hpages, ← Finset.coe_Ico, Set.ncard_coe_finset, Nat.card_Ico]

end PageCount

section Owned

variable {s s' : Phys} {R : Set ℕ} {own frame : Set (ℕ × ℕ)} {b : ℕ × ℕ}

theorem Buddy.census {live : Set (ℕ × ℕ)} (h : Buddy s R live) :
    s.freeCount + pageCount (region live) = pageCount R := by
  rw [← h.cover]
  exact (pageCount_union (h.free_subset.trans h.managed) (h.live_subset.trans h.managed)
    h.apart).symm

theorem Buddy.pageCount_union {live A B : Set (ℕ × ℕ)} (h : Buddy s R live) (hA : A ⊆ live)
    (hB : B ⊆ live) (hd : Disjoint A B) :
    pageCount (region (A ∪ B)) = pageCount (region A) + pageCount (region B) := by
  rw [region_union]
  refine Xv6Plus.pageCount_union (((region_mono hA).trans h.live_subset).trans h.managed)
    (((region_mono hB).trans h.live_subset).trans h.managed) (Set.disjoint_left.2 ?_)
  rintro x ⟨b, hb, hx⟩ ⟨c, hc, hx'⟩
  obtain rfl := h.liveTiles.eq_of_mem (hA hb) (hB hc) hx hx'
  exact Set.disjoint_left.1 hd hb hc

/-- Every page is free, or in the component's share, or in the others'. -/
theorem Owns.census (h : Owns s R own frame) :
    s.freeCount + pageCount (region own) + pageCount (region frame) = pageCount R := by
  rw [← h.buddy.census, h.buddy.pageCount_union Set.subset_union_left Set.subset_union_right
    h.apart, Nat.add_assoc]

theorem Owns.pageCount_pages (h : Owns s R own frame) (h0 : ∀ b ∈ own, b.2 = 0) :
    pageCount (region own) = own.ncard := by
  have hpage : ∀ b ∈ own, b.1 % 4096 = 0 ∧ 2147483648 ≤ b.1 := by
    rintro ⟨a, o⟩ hb
    obtain rfl : o = 0 := h0 _ hb
    exact ⟨(h.page hb).1, (h.page hb).2.1⟩
  refine pageCount_eq_ncard hpage (fun b hb c hc he => ?_) fun x hx => ?_
  · exact Prod.ext he ((h0 b hb).trans (h0 c hc).symm)
  · refine exists_congr fun b => and_congr_right fun hb => ?_
    have := hpage b hb
    rw [mem_span, h0 b hb]
    norm_num
    omega

theorem Owns.finite_pages (h : Owns s R own frame) (h0 : ∀ b ∈ own, b.2 = 0) : own.Finite := by
  refine ((Set.finite_Iio physTop).image fun a => (a, 0)).subset ?_
  rintro ⟨a, o⟩ hb
  obtain rfl : o = 0 := h0 _ hb
  have := h.page hb
  exact ⟨a, by simp only [physTop, Set.mem_Iio]; omega, rfl⟩

theorem freeCount_eq_zero (h : s.free = ∅) : s.freeCount = 0 := by
  rw [Phys.freeCount, Phys.freePages, h, region_empty]
  exact Set.ncard_empty ℕ

theorem Exhausted.freeCount_le (h : Exhausted s) : s.freeCount ≤ 1 := by
  obtain ⟨a, ha⟩ := h
  have hsub : s.freePages.Subsingleton := by
    intro i hi j hj
    have hi' := mem_span.1 (ha hi)
    have hj' := mem_span.1 (ha hj)
    simp only [kernBase, pgSize] at hi' hj'
    omega
  have := hsub.finite.to_subtype
  exact Set.ncard_le_one_iff_subsingleton.2 hsub

theorem Owns.freeCount_alloc {a : ℕ} (h : Owns s R own frame)
    (h' : Owns s' R (Insert.insert (a, 0) own) frame) (hnot : (a, 0) ∉ own) :
    s.freeCount = s'.freeCount + 1 := by
  have hone := h'.single (Set.mem_insert _ _)
  rw [Set.insert_sdiff_self_of_notMem hnot] at hone
  have hc := h.buddy.census
  have hc' := hone.census
  rw [hone.pageCount_pages (fun b hb => by rw [hb]), Set.ncard_singleton] at hc'
  omega

/-- Memory has run out, so what was free is in hand. -/
theorem Owns.freeCount_le (h : Owns s R ∅ frame) (h' : Owns s' R own frame)
    (hfree : s'.free = ∅) (h0 : ∀ b ∈ own, b.2 = 0) : s.freeCount ≤ own.ncard := by
  have hc := h.census
  have hc' := h'.census
  rw [region_empty, pageCount_empty] at hc
  rw [freeCount_eq_zero hfree, h'.pageCount_pages h0] at hc'
  omega

/-- What was given back is what is free now and was not before. -/
theorem Owns.freePages_release (h : Owns s R own frame) (h' : Owns s' R ∅ frame) :
    s'.freePages = s.freePages ∪ pagesIn (region own) ∧
      Disjoint s.freePages (pagesIn (region own)) := by
  have hd : Disjoint (region s.free) (region own) :=
    h.buddy.apart.mono_right (region_mono Set.subset_union_left)
  refine ⟨?_, Set.disjoint_left.2 fun i hi hi' => Set.disjoint_left.1 hd hi hi'⟩
  ext i
  change _ ∈ region s'.free ↔ _ ∈ region s.free ∨ _ ∈ region own
  generalize kernBase + pgSize * i = x
  have hown : x ∈ region own → x ∈ R ∧ x ∉ region frame := fun hx =>
    ⟨h.buddy.live_subset (region_mono Set.subset_union_left hx),
      Set.disjoint_left.1 h.region_apart hx⟩
  rw [h.buddy.region_free, h'.buddy.region_free, Set.empty_union, region_union]
  simp only [Set.mem_sdiff, Set.mem_union]
  tauto

end Owned

/-! ## Address spaces -/

/-- The user pages that are mapped. -/
def PTree.mapped (A : PTree) : Set ℕ := {v | v < topVpn ∧ A.lookup v ≠ none}

section Mapped

variable {s s' : Phys} {R : Set ℕ} {rest : Set (ℕ × ℕ)} {A : PTree} {v : ℕ}

theorem PTree.mem_mapped {m : Mem} : v ∈ A.mapped ↔ A.view m v ≠ none := by
  by_cases hv : v < topVpn
  · rw [Ne, PTree.view_eq_none hv]
    exact and_iff_right hv
  · exact iff_of_false (fun h => hv h.1) fun h => h (PTree.view_of_ge (not_lt.1 hv))

theorem PTree.mapped_finite (A : PTree) : A.mapped.Finite :=
  (Set.finite_Iio topVpn).subset fun _ h => h.1

/-- The frame of the page `v`. -/
def PTree.frameOf (A : PTree) (v : ℕ) : ℕ := ((A.lookup v).map Prod.fst).getD 0

theorem PTree.frameOf_eq {pa fl : ℕ} (h : A.lookup v = some (pa, fl)) : A.frameOf v = pa := by
  rw [PTree.frameOf, h]
  rfl

/-- The frame of a mapped page is a page of one of the leaves. -/
theorem Uvm.frame_page (h : Uvm s R rest A) (hv : v ∈ A.mapped) :
    A.frameOf v % 4096 = 0 ∧ 2147483648 ≤ A.frameOf v ∧ A.frameOf v ∈ region A.leaves := by
  obtain ⟨⟨pa, fl⟩, hl⟩ := Option.ne_none_iff_exists'.1 hv.2
  rw [PTree.frameOf_eq hl]
  obtain ⟨L, hL, b, hown, rfl⟩ := PTree.lookup_leaf hl hv.1 h.huge
  have hb : (b, 9 * L) ∈ A.leaves := ⟨L, _, hown, rfl⟩
  have hmem := h.owns.mem_own (Or.inr hb)
  refine ⟨?_, by omega, (b, 9 * L), hb, ?_⟩
  · have := (Dvd.intro _ rfl).trans hmem.1
    omega
  · rw [mem_span]
    rcases (by omega : L = 0 ∨ L = 1) with rfl | rfl
    · norm_num
      omega
    · norm_num
      omega

/-- Every page of a leaf is the frame of a page that is mapped. -/
theorem Uvm.exists_mapped (h : Uvm s R rest A) {x : ℕ} (hx : x ∈ region A.leaves)
    (hal : x % 4096 = 0) : ∃ v ∈ A.mapped, A.frameOf v = x := by
  obtain ⟨⟨b, o⟩, ⟨L, k, ⟨⟨fl, he⟩, hu⟩, ho⟩, hxb⟩ := hx
  dsimp only at he ho
  subst ho
  obtain ⟨t, ht⟩ := h.pt.ok.up L k (by rw [he]; exact Entry.noConfusion)
  have hmem := h.owns.mem_own (Or.inr ⟨L, k, ⟨⟨fl, he⟩, hu⟩, rfl⟩)
  rw [mem_span] at hxb
  rcases (by have := ht.level_le; omega : L = 0 ∨ L = 1 ∨ L = 2) with rfl | rfl | rfl
  · norm_num at hxb hmem
    have hl := PTree.lookup_page ht.not_leaf he
    refine ⟨k, ⟨PTree.user_zero.1 hu, by rw [hl]; exact Option.some_ne_none _⟩, ?_⟩
    rw [PTree.frameOf_eq hl]
    omega
  · norm_num at hxb hmem
    have hu' := PTree.user_one.1 hu
    have hk : (512 * k + (x - b) / 4096) / 512 = k := by omega
    have hl := PTree.lookup_huge (A := A) (v := 512 * k + (x - b) / 4096) (by rw [hk]; exact he)
    refine ⟨512 * k + (x - b) / 4096, ⟨by omega, by rw [hl]; exact Option.some_ne_none _⟩, ?_⟩
    rw [PTree.frameOf_eq hl]
    omega
  · exact absurd he (h.pt.ok.top k b fl)

/-- A physical page is the frame of one user page. -/
theorem Uvm.frameOf_inj (h : Uvm s R rest A) {v' : ℕ} (hv : v ∈ A.mapped) (hv' : v' ∈ A.mapped)
    (he : A.frameOf v = A.frameOf v') : v = v' := by
  by_contra hne
  obtain ⟨⟨pa, fl⟩, hl⟩ := Option.ne_none_iff_exists'.1 hv.2
  obtain ⟨⟨pa', fl'⟩, hl'⟩ := Option.ne_none_iff_exists'.1 hv'.2
  have hap := h.lookup_apart hv.1 hv'.1 hne hl hl'
  rw [PTree.frameOf_eq hl, PTree.frameOf_eq hl'] at he
  omega

theorem Uvm.pageCount_leaves (h : Uvm s R rest A) :
    pageCount (region A.leaves) = A.mapped.ncard := by
  refine pageCount_eq_ncard (f := A.frameOf) (fun v hv => ?_)
    (fun v hv v' hv' he => h.frameOf_inj hv hv' he) fun x hx => ⟨fun hl => ?_, ?_⟩
  · exact ⟨(h.frame_page hv).1, (h.frame_page hv).2.1⟩
  · exact h.exists_mapped hl hx
  · rintro ⟨v, hv, rfl⟩
    exact (h.frame_page hv).2.2

/-- Every page is free, a table, the frame of a user page, or somebody else's. -/
theorem Uvm.census (h : Uvm s R rest A) :
    s.freeCount + A.tables.ncard + A.mapped.ncard + pageCount (region rest) = pageCount R := by
  have hrest : pageCount (region (A.leaves ∪ rest)) =
      pageCount (region A.leaves) + pageCount (region rest) :=
    h.pt.owns.buddy.pageCount_union (Set.subset_union_left.trans Set.subset_union_right)
      (Set.subset_union_right.trans Set.subset_union_right) h.apart
  rw [← h.pt.owns.census, h.pt.owns.pageCount_pages fun b hb => hb.1, hrest, h.pageCount_leaves,
    Nat.add_assoc _ A.mapped.ncard]

/-! ## The number of tables -/

/-- All links to tables are in entries of `S`, with their level and index. -/
def PTree.LinksIn (A : PTree) (S : Finset (ℕ × ℕ)) : Prop :=
  ∀ L k t, A.ent L k = .table t → (L, k) ∈ S

/-- There is one table for every link, and the root. -/
theorem PTree.LinksIn.ncard_tables {S : Finset (ℕ × ℕ)} (h : A.LinksIn S) :
    A.tables.ncard ≤ S.card + 1 := by
  classical
  let linked : ℕ × ℕ → ℕ × ℕ := fun x =>
    match A.ent x.1 x.2 with
    | .table t => (t, 0)
    | _ => (A.root, 0)
  have hsub : A.tables ⊆ ↑(insert (A.root, 0) (S.image linked)) := by
    rintro ⟨a, o⟩ ⟨ho, L, q, ht⟩
    dsimp only at ho ht
    subst ho
    rcases ht with ⟨-, -, rfl⟩ | ⟨-, he⟩
    · exact Finset.mem_coe.2 (Finset.mem_insert_self _ _)
    · refine Finset.mem_coe.2 (Finset.mem_insert_of_mem (Finset.mem_image.2
        ⟨(L + 1, q), h _ _ _ he, ?_⟩))
      simp only [linked, he]
  refine (Set.ncard_le_ncard hsub (Finset.finite_toSet _)).trans ?_
  rw [Set.ncard_coe_finset]
  exact (Finset.card_insert_le _ _).trans (Nat.add_le_add_right Finset.card_image_le 1)

/-- Only entries over the page `v` have changed. -/
theorem PTree.LinksIn.grow {A' : PTree} {S : Finset (ℕ × ℕ)} (h : A.LinksIn S) (hok : A'.Ok)
    (hsame : ∀ L k, 0 < L → k ≠ v / 512 ^ L → A'.ent L k = A.ent L k)
    (hS : (2, v / 512 ^ 2) ∈ S ∧ (1, v / 512) ∈ S) : A'.LinksIn S := by
  intro L k t he
  obtain ⟨p, hp⟩ := hok.up L k (by rw [he]; exact Entry.noConfusion)
  have hL := hp.level_le
  have hL0 : L ≠ 0 := by
    rintro rfl
    exact hok.bottom k t he
  by_cases hk : k = v / 512 ^ L
  · subst hk
    rcases (by omega : L = 1 ∨ L = 2) with rfl | rfl
    · rw [pow_one]
      exact hS.2
    · exact hS.1
  · rw [hsame L k (by omega) hk] at he
    exact h L k t he

end Mapped

end Xv6Plus
