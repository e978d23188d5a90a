import Xv6Plus.VmReach

/-!
# `split_huge_page`, all or nothing

`split_huge_page` needs 514 pages : the new table, the scratch page and the 512 copies. With
fewer free pages it gives back what it took, at whichever page it got stuck. The free blocks
are then the same set as before, merges included, since they follow from what is held
(`Buddy.free_congr`). With 514 free pages it takes these and gives back the scratch page and
the old block of 2 MB.
-/

namespace Xv6Plus

/-! ## Blocks taken and given back -/

section Regions

variable {s s' : Phys} {R : Set ℕ} {live X : Set (ℕ × ℕ)}

/-- With the blocks `X` no longer held, their bytes are free as well. -/
theorem Buddy.region_free_union (h : Buddy s R (live ∪ X)) (h' : Buddy s' R live)
    (hd : Disjoint live X) : region s'.free = region s.free ∪ region X := by
  have hown : Disjoint (region live) (region X) := by
    rw [Set.disjoint_left]
    rintro x ⟨b, hb, hx⟩ ⟨c, hc, hx'⟩
    obtain rfl := h.liveTiles.eq_of_mem (Or.inl hb) (Or.inr hc) hx hx'
    exact Set.disjoint_left.1 hd hb hc
  have hX : region X ⊆ R := by
    rw [← h.cover, region_union]
    exact Set.subset_union_right.trans Set.subset_union_right
  rw [h'.region_free, h.region_free, region_union]
  ext x
  have hx : x ∈ region live → x ∉ region X := fun h1 h2 => Set.disjoint_left.1 hown h1 h2
  have hR : x ∈ region X → x ∈ R := fun h1 => hX h1
  simp only [Set.mem_sdiff, Set.mem_union]
  tauto

end Regions

/-- The blocks `split_huge_page` takes. -/
def splitTaken (l0 scratch : ℕ) (pages : ℕ → ℕ) : Set (ℕ × ℕ) :=
  insert (l0, 0) (insert (scratch, 0) (pageBlocks pages 512))

/-- The blocks `split_huge_page` of the huge page at `pa` gives back. -/
def splitReturned (pa scratch : ℕ) : Set (ℕ × ℕ) := {(pa, hugeOrder), (scratch, 0)}

/-- Nothing has changed : neither the tables, nor the memory seen through them, nor what the
others hold, nor the free blocks. -/
structure Unsplit (s : Phys) (R : Set ℕ) (rest : Set (ℕ × ℕ)) (A : PTree) (s' : Phys) : Prop where
  uvm : Uvm s' R rest A
  keeps : Keeps (A.tables ∪ A.leaves ∪ rest) s s'
  view : A.view s'.mem = A.view s.mem
  free : s'.free = s.free

/-- The huge page `k` at `pa` with the flags `fl` has become the 512 pages `pages`. -/
structure SplitInto (s : Phys) (R : Set ℕ) (rest : Set (ℕ × ℕ)) (A : PTree) (k pa fl l0 : ℕ)
    (scratch : ℕ) (pages : ℕ → ℕ) (s' : Phys) : Prop where
  uvm : Uvm s' R rest (A.split k l0 fl pages)
  leaf : ∀ j < 512, (A.split k l0 fl pages).ent 0 (512 * k + j) = .leaf (pages j) fl
  copy : ∀ j < 512, ∀ x < pgSize, s'.mem (pages j + x) = s.mem (pa + j * pgSize + x)
  others : ∀ v, v / 512 ≠ k → (A.split k l0 fl pages).lookup v = A.lookup v
  view : (A.split k l0 fl pages).view s'.mem = A.view s.mem
  keeps : Keeps rest s s'
  distinct : (splitTaken l0 scratch pages).ncard = 514
  fresh : region (splitTaken l0 scratch pages) ⊆ region s.free
  returned : region s'.free =
    region s.free \ region (splitTaken l0 scratch pages) ∪ region (splitReturned pa scratch)

section Exact

variable {s s' sₘ : Phys} {R : Set ℕ} {rest : Set (ℕ × ℕ)} {A : PTree}
  {k pa fl l0 scratch : ℕ} {pages : ℕ → ℕ}

theorem Uvm.unsplit (h : Uvm s R rest A) (hown : Owns s' R ∅ (A.tables ∪ A.leaves ∪ rest))
    (hk : Keeps (A.tables ∪ A.leaves ∪ rest) s s') : Unsplit s R rest A s' := by
  obtain ⟨h', hview, -⟩ := h.of_empty hown hk
  exact ⟨h', hk, hview, h.owns.buddy.free_congr h'.owns.buddy⟩

/-- What is held when all the copies are made : what is held in the end, and the two blocks
that are still to be given back. -/
theorem Splitting.held_split (h : Uvm s R rest A) (he : A.ent 1 k = .leaf pa fl)
    (hsp : Splitting s sₘ R (A.tables ∪ A.leaves ∪ rest) pa fl l0 scratch 512 pages) :
    splitTaken l0 scratch pages ∪ (A.tables ∪ A.leaves ∪ rest) =
      (A.split k l0 fl pages).tables ∪ (A.split k l0 fl pages).leaves ∪ rest ∪
        splitReturned pa scratch := by
  have hu := h.huge k pa fl he
  have hown : A.OwnLeaf 1 k pa := ⟨⟨fl, he⟩, hu⟩
  have hpa : (pa, 9) ∈ A.leaves := ⟨1, k, hown, rfl⟩
  obtain ⟨p, ht⟩ := h.pt.ok.up 1 k (by rw [he]; exact Entry.noConfusion)
  rw [PTree.leaves_split l0 pages h.pt.ok he hu fun k' hk' => h.inj 1 k' k pa hk' hown,
    PTree.tables_split ht (fun j => hsp.leafOk (h.pt.ok.leaves 1 k pa fl he)) he]
  ext b
  by_cases hb : b = (pa, 9)
  · subst hb
    simp [hpa, splitTaken, splitReturned, hugeOrder]
  · simp only [splitTaken, splitReturned, hugeOrder, Set.mem_union, Set.mem_insert_iff,
      Set.mem_sdiff, Set.mem_singleton_iff, hb]
    tauto

/-- The two blocks to be given back are not held in the end. -/
theorem Splitting.returned_apart (h : Uvm s R rest A) (he : A.ent 1 k = .leaf pa fl)
    (hsp : Splitting s sₘ R (A.tables ∪ A.leaves ∪ rest) pa fl l0 scratch 512 pages) :
    Disjoint ((A.split k l0 fl pages).tables ∪ (A.split k l0 fl pages).leaves ∪ rest)
      (splitReturned pa scratch) := by
  have hu := h.huge k pa fl he
  have hown : A.OwnLeaf 1 k pa := ⟨⟨fl, he⟩, hu⟩
  have hpa : (pa, 9) ∈ A.leaves := ⟨1, k, hown, rfl⟩
  obtain ⟨p, ht⟩ := h.pt.ok.up 1 k (by rw [he]; exact Entry.noConfusion)
  have hsc := Set.disjoint_left.1 hsp.owns.apart (Or.inr (Or.inl rfl))
  simp only [Set.mem_union, not_or] at hsc
  rw [PTree.leaves_split l0 pages h.pt.ok he hu fun k' hk' => h.inj 1 k' k pa hk' hown,
    PTree.tables_split ht (fun j => hsp.leafOk (h.pt.ok.leaves 1 k pa fl he)) he,
    Set.disjoint_right]
  rintro b (rfl | rfl) hb
  · rcases hb with ((hb | hb) | hb | ⟨j, -, hb⟩) | hb
    · cases hb
    · cases hb.1
    · exact hb.2 rfl
    · cases hb
    · exact Set.disjoint_left.1 h.apart hpa hb
  · rcases hb with ((hb | hb) | hb | ⟨j, hj, hb⟩) | hb
    · exact hsp.ne (Prod.mk.inj hb).1.symm
    · exact hsc.1.1 hb
    · exact hsc.1.2 hb.1
    · exact hsp.ne_scratch j hj (Prod.mk.inj hb).1.symm
    · exact hsc.2 hb

theorem Splitting.splitInto (h : Uvm s R rest A) (he : A.ent 1 k = .leaf pa fl)
    (hsp : Splitting s sₘ R (A.tables ∪ A.leaves ∪ rest) pa fl l0 scratch 512 pages)
    (h' : Uvm s' R rest (A.split k l0 fl pages))
    (hview : (A.split k l0 fl pages).view s'.mem = A.view s.mem) (hk : Keeps rest s s')
    (hcopy : ∀ j < 512, ∀ x < 4096, s'.mem (pages j + x) = s.mem (pa + j * 4096 + x)) :
    SplitInto s R rest A k pa fl l0 scratch pages s' := by
  have hmid : Buddy sₘ R (splitTaken l0 scratch pages ∪ (A.tables ∪ A.leaves ∪ rest)) :=
    hsp.owns.buddy
  -- the state with all the copies made has the fewest free blocks
  have hbefore : region s.free = region sₘ.free ∪ region (splitTaken l0 scratch pages) := by
    rw [Set.union_comm] at hmid
    exact hmid.region_free_union h.owns.buddy hsp.owns.apart.symm
  have hafter : region s'.free = region sₘ.free ∪ region (splitReturned pa scratch) := by
    rw [hsp.held_split h he] at hmid
    exact hmid.region_free_union h'.owns.buddy (hsp.returned_apart h he)
  have hapart : Disjoint (region sₘ.free) (region (splitTaken l0 scratch pages)) :=
    hmid.apart.mono_right (region_mono Set.subset_union_left)
  exact {
    uvm := h'
    leaf := fun j hj => by
      rw [PTree.split, PTree.put_kid rfl (by omega), show (512 * k + j) % 512 = j by omega]
    copy := hcopy
    others := fun v hv => by rw [PTree.lookup_split, if_neg hv]
    view := hview
    keeps := hk
    distinct := hsp.ncard_eq
    fresh := by
      rw [hbefore]
      exact Set.subset_union_right
    returned := by
      rw [hafter, hbefore, Set.union_sdiff_cancel_right (Set.disjoint_iff.1 hapart)] }

/-- With fewer than 514 free pages `split_huge_page` fails and has changed nothing. With 514
or more it succeeds. -/
theorem splitHugePage_all_or_nothing {va : ℕ} (h : Uvm s R rest A)
    (he : A.ent 1 (va / hugePgSize) = .leaf pa fl) :
    ∃ r s', (splitHugePage A.root va).run s = .ok (r, s') ∧
      ((s.freeCount < 514 ∧ r = -1 ∧ Unsplit s R rest A s') ∨
        (514 ≤ s.freeCount ∧ r = 0 ∧ ∃ l0 scratch pages,
          SplitInto s R rest A (va / hugePgSize) pa fl l0 scratch pages s')) := by
  obtain ⟨r, s', hrun, hdone⟩ := wp_noPanic_iff.1 (splitHugePage_done h he rfl)
  refine ⟨r, s', hrun, ?_⟩
  rcases hdone with ⟨hr, hfew, hown, hk⟩ | ⟨hr, hmany, l0, scratch, pages, sₘ, hsp, h', hview, hk,
    -, -, hcopy⟩
  · exact Or.inl ⟨hfew, hr, h.unsplit hown hk⟩
  · exact Or.inr ⟨hmany, hr, l0, scratch, pages, hsp.splitInto h he h' hview hk hcopy⟩

/-- A process of one huge page, with most of the memory free : the huge page is split. -/
theorem splitHugePage_sample : ∃ s s' l0 scratch pages,
    (splitHugePage 0x80200000 5000).run s = .ok (0, s') ∧
    SplitInto s sampleEnd.managed {(0x80205000, 0)} (sampleTree true) 0 0x80400000 23 l0 scratch
      pages s' := by
  obtain ⟨s, -, hA⟩ := exists_sample true ∅ nofun
  have hrest : insert (0x80205000, 0) (blocksAt ((∅ : Finset ℕ) : Set ℕ) 0) =
      {(0x80205000, 0)} := by
    ext b
    simp [blocksAt]
  have hc := sample_census hA (Finset.notMem_empty _)
  have ht := sampleTree_ncard_tables_le true
  rw [Finset.card_empty] at hc
  rw [hrest] at hA
  have he : (sampleTree true).ent 1 (5000 / hugePgSize) = .leaf 0x80400000 23 := rfl
  obtain ⟨r, s', hrun, ⟨hfew, -⟩ | ⟨-, rfl, l0, scratch, pages, hs⟩⟩ :=
    splitHugePage_all_or_nothing hA.uvm he
  · omega
  · exact ⟨s, s', l0, scratch, pages, hrun, hs⟩

end Exact

end Xv6Plus
