import Xv6Plus.Census

/-!
# Splitting a huge page

`split_huge_page` copies a huge page into 512 pages and puts a table of them in its place.
While it runs it holds the new table, a scratch page with the addresses of the copies, and
the copies made so far (`Splitting`); everything else is its frame. If the memory runs out
it gives them all back. In either case no process sees a difference (`splitHugePage_spec`).
-/

namespace Xv6Plus

/-- The first `n` of the pages, as blocks. -/
def pageBlocks (pages : ℕ → ℕ) (n : ℕ) : Set (ℕ × ℕ) := {b | ∃ j < n, b = (pages j, 0)}

section PageBlocks

variable {pages : ℕ → ℕ} {n a : ℕ}

theorem mem_pageBlocks {j : ℕ} (h : j < n) : (pages j, 0) ∈ pageBlocks pages n := ⟨j, h, rfl⟩

theorem pageBlocks_zero : pageBlocks pages 0 = ∅ := by
  simp [pageBlocks]

theorem pageBlocks_succ :
    pageBlocks pages (n + 1) = insert (pages n, 0) (pageBlocks pages n) := by
  ext b
  simp only [pageBlocks, Set.mem_insert_iff, Set.mem_ofPred_eq, Nat.lt_succ_iff_lt_or_eq,
    or_and_right, exists_or, exists_eq_left]
  rw [or_comm]

theorem ncard_pageBlocks (hinj : ∀ j < n, ∀ j' < n, pages j = pages j' → j = j') :
    (pageBlocks pages n).ncard = n := by
  have himage : pageBlocks pages n = (fun j => (pages j, 0)) '' Set.Iio n := by
    ext b
    exact exists_congr fun j => and_congr_right fun _ => eq_comm
  have hon : Set.InjOn (fun j => (pages j, 0)) (Set.Iio n) := fun j hj j' hj' he =>
    hinj j hj j' hj' (Prod.mk.inj he).1
  rw [himage, hon.ncard_image, ← Finset.coe_Iio, Set.ncard_coe_finset, Nat.card_Iio]

theorem pageBlocks_update : pageBlocks (Function.update pages n a) (n + 1) =
    insert (a, 0) (pageBlocks pages n) := by
  rw [pageBlocks_succ, Function.update_self]
  congr 1
  ext b
  refine exists_congr fun j => and_congr_right fun hj => ?_
  rw [Function.update_of_ne (by omega)]

/-- The pages from the `i`-th on. -/
def pagesFrom (pages : ℕ → ℕ) (i n : ℕ) : Set (ℕ × ℕ) := {b | ∃ j, i ≤ j ∧ j < n ∧ b = (pages j, 0)}

theorem pagesFrom_zero : pagesFrom pages 0 n = pageBlocks pages n := by
  simp [pagesFrom, pageBlocks]

theorem pagesFrom_self : pagesFrom pages n n = ∅ := by
  ext b
  simp only [pagesFrom, Set.mem_ofPred_eq, Set.mem_empty_iff_false, iff_false]
  rintro ⟨j, h1, h2, _⟩
  omega

theorem pagesFrom_step {i : ℕ} (h : i < n) :
    pagesFrom pages i n = insert (pages i, 0) (pagesFrom pages (i + 1) n) := by
  ext b
  constructor
  · rintro ⟨j, h1, h2, rfl⟩
    rcases Nat.eq_or_lt_of_le h1 with rfl | h1
    · exact Or.inl rfl
    · exact Or.inr ⟨j, h1, h2, rfl⟩
  · rintro (rfl | ⟨j, h1, h2, rfl⟩)
    · exact ⟨i, le_refl i, h, rfl⟩
    · exact ⟨j, by omega, h2, rfl⟩

theorem pagesFrom_erase {B : Set (ℕ × ℕ)} {i : ℕ} (h : i < n) (hB : (pages i, 0) ∉ B)
    (hinj : ∀ j < n, pages i = pages j → i = j) :
    (B ∪ pagesFrom pages i n) \ {(pages i, 0)} = B ∪ pagesFrom pages (i + 1) n := by
  rw [pagesFrom_step h, Set.union_insert, Set.insert_sdiff_self_of_notMem]
  rintro (hb | ⟨j, h1, h2, he⟩)
  · exact hB hb
  · have := hinj j h2 (Prod.mk.inj he).1
    omega

end PageBlocks

/-! ## Freeing the pages of a table -/

/-- The pages are all given back; `table` is in another page, which is kept. -/
theorem freeEach_spec {R : Set ℕ} {B outer : Set (ℕ × ℕ)} {decode : ℕ → ℕ} {table N : ℕ}
    {pages : ℕ → ℕ} (htab : (table, 0) ∈ B ∪ outer) (hN : N ≤ 512)
    (hB : ∀ j < N, (pages j, 0) ∉ B)
    (hinj : ∀ j < N, ∀ j' < N, pages j = pages j' → j = j') : ∀ {n i : ℕ} {s : Phys},
    n + i = N → Owns s R (B ∪ pagesFrom pages i N) outer →
    (∀ j, i ≤ j → j < N → decode (read64 s.mem (table + 8 * j)) = pages j) →
    wp (freeEach decode table n i) (fun _ s' => Owns s' R B outer ∧ Keeps (B ∪ outer) s s')
      noPanic s
  | 0, i, s, hn, hown, _ => by
    obtain rfl : i = N := by omega
    rw [freeEach, wp_pure]
    rw [pagesFrom_self, Set.union_empty] at hown
    exact ⟨hown, .refl _ _⟩
  | n + 1, i, s, hn, hown, hword => by
    have hi : i < N := by omega
    have hmem : (pages i, 0) ∈ B ∪ pagesFrom pages i N := Or.inr ⟨i, le_refl i, hi, rfl⟩
    rw [freeEach, wp_bind, wp_load64, wp_bind, hword i (le_refl i) hi]
    refine wp_post (hown.kfree_spec hmem) ?_
    rintro _ s' ⟨hown', hk⟩
    rw [pagesFrom_erase hi (hB i hi) (hinj i hi)] at hown' hk
    have hkeep : Keeps (B ∪ outer) s s' := hk.mono (by
      rintro b (hb | hb)
      · exact Or.inl (Or.inl hb)
      · exact Or.inr hb)
    refine wp_post (freeEach_spec htab hN hB hinj (by omega) hown' fun j h1 h2 => ?_) ?_
    · rw [hkeep.read64 htab (by omega) (by omega)]
      exact hword j (by omega) h2
    · rintro _ s'' ⟨hown'', hk''⟩
      exact ⟨hown'', hkeep.trans hk''⟩

/-! ## The copies -/

/-- What `split_huge_page` holds after `i` copies of the pages of the huge page at `pa`, taken
from the state `s₀`. -/
structure Splitting (s₀ s : Phys) (R : Set ℕ) (outer : Set (ℕ × ℕ)) (pa fl l0 scratch i : ℕ)
    (pages : ℕ → ℕ) : Prop where
  owns : Owns s R (insert (l0, 0) (insert (scratch, 0) (pageBlocks pages i))) outer
  keeps : Keeps outer s₀ s
  ne : l0 ≠ scratch
  ne_l0 : ∀ j < i, pages j ≠ l0
  ne_scratch : ∀ j < i, pages j ≠ scratch
  inj : ∀ j < i, ∀ j' < i, pages j = pages j' → j = j'
  entry : ∀ j < i, read64 s.mem (l0 + 8 * j) = (Entry.leaf (pages j) fl).bits
  slot : ∀ j < i, read64 s.mem (scratch + 8 * j) = pages j
  copy : ∀ j < i, ∀ x < 4096, s.mem (pages j + x) = s₀.mem (pa + j * 4096 + x)

theorem Keeps.byte {A : Set (ℕ × ℕ)} {s s' : Phys} {a o x : ℕ} (h : Keeps A s s')
    (hb : (a, o) ∈ A) (hx : x < 4096 * 2 ^ o) : s'.mem (a + x) = s.mem (a + x) := by
  refine h.mem ⟨(a, o), hb, ?_⟩
  simp only [mem_span, pgSize]
  omega

namespace Splitting

variable {s₀ s s' : Phys} {R : Set ℕ} {outer : Set (ℕ × ℕ)} {pa fl l0 scratch i : ℕ}
  {pages : ℕ → ℕ}

theorem single_pages {b : ℕ × ℕ}
    (hb : b ∈ insert (l0, 0) (insert (scratch, 0) (pageBlocks pages i))) : b.2 = 0 := by
  rcases hb with rfl | rfl | ⟨j, -, rfl⟩ <;> rfl

theorem ncard_eq (h : Splitting s₀ s R outer pa fl l0 scratch i pages) :
    (insert (l0, 0) (insert (scratch, 0) (pageBlocks pages i))).ncard = i + 2 := by
  have hfin := h.owns.finite_pages fun b => single_pages
  have hsc : (scratch, 0) ∉ pageBlocks pages i := fun ⟨j, hj, he⟩ =>
    h.ne_scratch j hj (Prod.mk.inj he).1.symm
  have hl0 : (l0, 0) ∉ insert (scratch, 0) (pageBlocks pages i) := by
    rintro (he | ⟨j, hj, he⟩)
    · exact h.ne (Prod.mk.inj he).1
    · exact h.ne_l0 j hj (Prod.mk.inj he).1.symm
  rw [Set.ncard_insert_of_notMem hl0 (hfin.subset (Set.subset_insert _ _)),
    Set.ncard_insert_of_notMem hsc
      (hfin.subset ((Set.subset_insert _ _).trans (Set.subset_insert _ _))),
    ncard_pageBlocks h.inj]

theorem census (h : Splitting s₀ s R outer pa fl l0 scratch i pages) (h₀ : Owns s₀ R ∅ outer) :
    s₀.freeCount = s.freeCount + (i + 2) := by
  have hc := h.owns.census
  have hc₀ := h₀.census
  rw [region_empty, pageCount_empty] at hc₀
  rw [h.owns.pageCount_pages fun b => single_pages, h.ncard_eq] at hc
  omega

/-- The page of the scratch page is one of the own pages. -/
theorem page (h : Splitting s₀ s R outer pa fl l0 scratch i pages) {j : ℕ} (hj : j < i) :
    pages j % 4096 = 0 ∧ 2147483648 ≤ pages j ∧ pages j + 4096 ≤ 2281701376 :=
  h.owns.page (Set.mem_insert_of_mem _ (Set.mem_insert_of_mem _ (mem_pageBlocks hj)))

/-- A copy can be mapped as the huge page was. -/
theorem leafOk (h : Splitting s₀ s R outer pa fl l0 scratch i pages) (hl : LeafOk 1 pa fl) {j : ℕ}
    (hj : j < i) : LeafOk 0 (pages j) fl := by
  have hp := h.page hj
  exact ⟨by omega, by omega, hl.flags_lt, hl.valid, hl.rwx⟩

theorem step {r : ℕ} (h : Splitting s₀ s R outer pa fl l0 scratch i pages) (hi : i < 512)
    (hpa : (pa, 9) ∈ outer) (hfl : fl < 1024)
    (hr : (r, 0) ∉ insert (l0, 0) (insert (scratch, 0) (pageBlocks pages i)))
    (hown : Owns s' R (insert (r, 0) (insert (l0, 0) (insert (scratch, 0)
      (pageBlocks pages i)))) outer)
    (hk : Keeps (insert (l0, 0) (insert (scratch, 0) (pageBlocks pages i)) ∪ outer) s s') :
    Splitting s₀ (((s'.setMem (memmove s'.mem r (pa + i * 4096) 4096)).setMem
      (write64 (memmove s'.mem r (pa + i * 4096) 4096) (scratch + 8 * i) r)).setMem
      (write64 (write64 (memmove s'.mem r (pa + i * 4096) 4096) (scratch + 8 * i) r)
        (l0 + 8 * i) (Entry.leaf r fl).bits)) R outer pa fl l0 scratch (i + 1)
      (Function.update pages i r) := by
  have hl0m : (l0, 0) ∈ insert (l0, 0) (insert (scratch, 0) (pageBlocks pages i)) :=
    Set.mem_insert _ _
  have hscm : (scratch, 0) ∈ insert (l0, 0) (insert (scratch, 0) (pageBlocks pages i)) :=
    Set.mem_insert_of_mem _ (Set.mem_insert _ _)
  have hpgm : ∀ j < i, (pages j, 0) ∈
      insert (l0, 0) (insert (scratch, 0) (pageBlocks pages i)) := fun j hj =>
    Set.mem_insert_of_mem _ (Set.mem_insert_of_mem _ (mem_pageBlocks hj))
  have hrl0 : r ≠ l0 := fun h => hr (h ▸ hl0m)
  have hrsc : r ≠ scratch := fun h => hr (h ▸ hscm)
  have hrpg : ∀ j < i, pages j ≠ r := fun j hj h => hr (h ▸ hpgm j hj)
  have hrp := hown.page (Set.mem_insert _ _)
  have hl0p := h.owns.page hl0m
  have hscp := h.owns.page hscm
  have hne := h.ne
  have hup : ∀ j < i, Function.update pages i r j = pages j := fun j hj =>
    Function.update_of_ne (by omega) _ _
  -- the three writes, each into one page of its own
  obtain ⟨o₁, k₁⟩ := hown.store_block (Set.mem_insert _ _)
    (memmove_span (pa + i * 4096) (n := 4096) (le_refl r) (by omega))
  obtain ⟨o₂, k₂⟩ := o₁.store_block (Set.mem_insert_of_mem _ hscm)
    (write64_span (v := r) (Nat.le_add_right scratch (8 * i)) (by omega))
  obtain ⟨o₃, k₃⟩ := o₂.store_block (Set.mem_insert_of_mem _ hl0m)
    (write64_span (v := (Entry.leaf r fl).bits) (Nat.le_add_right l0 (8 * i)) (by omega))
  rw [Phys.setMem_mem] at o₂ k₂
  rw [Phys.setMem_mem, Phys.setMem_mem] at o₃ k₃
  have hold : Keeps (insert (l0, 0) (insert (scratch, 0) (pageBlocks pages i))) s
      (s'.setMem (memmove s'.mem r (pa + i * 4096) 4096)) := by
    refine (hk.mono Set.subset_union_left).trans (k₁.mono fun b hb => Or.inl ⟨Or.inr hb, ?_⟩)
    rintro rfl
    exact hr hb
  have houter : Keeps outer s₀ (s'.setMem (memmove s'.mem r (pa + i * 4096) 4096)) :=
    (h.keeps.trans (hk.mono Set.subset_union_right)).trans (k₁.mono Set.subset_union_right)
  have hbits : (Entry.leaf r fl).bits < 2 ^ 64 := by
    simp only [Entry.bits]
    omega
  refine ⟨?_, ?_, h.ne, ?_, ?_, ?_, ?_, ?_, ?_⟩
  · rw [pageBlocks_update, Set.insert_comm (scratch, 0), Set.insert_comm (l0, 0)]
    exact o₃
  · exact (houter.trans (k₂.mono Set.subset_union_right)).trans (k₃.mono Set.subset_union_right)
  · intro j hj
    rcases Nat.lt_succ_iff_lt_or_eq.1 hj with hj | rfl
    · rw [hup j hj]
      exact h.ne_l0 j hj
    · rw [Function.update_self]
      exact hrl0
  · intro j hj
    rcases Nat.lt_succ_iff_lt_or_eq.1 hj with hj | rfl
    · rw [hup j hj]
      exact h.ne_scratch j hj
    · rw [Function.update_self]
      exact hrsc
  · intro j hj j' hj' heq
    rcases Nat.lt_succ_iff_lt_or_eq.1 hj with hj | rfl <;>
      rcases Nat.lt_succ_iff_lt_or_eq.1 hj' with hj' | rfl
    · rw [hup j hj, hup j' hj'] at heq
      exact h.inj j hj j' hj' heq
    · rw [hup j hj, Function.update_self] at heq
      exact absurd heq (hrpg j hj)
    · rw [hup j' hj', Function.update_self] at heq
      exact absurd heq.symm (hrpg j' hj')
    · rfl
  · intro j hj
    rw [Phys.setMem_mem]
    rcases Nat.lt_succ_iff_lt_or_eq.1 hj with hj | rfl
    · rw [hup j hj, read64_write64_ne (by omega), read64_write64_ne (by omega), ← h.entry j hj]
      exact hold.read64 hl0m (by omega) (by omega)
    · rw [Function.update_self, read64_write64_same _ _ hbits]
  · intro j hj
    rw [Phys.setMem_mem, read64_write64_ne (by omega)]
    rcases Nat.lt_succ_iff_lt_or_eq.1 hj with hj | rfl
    · rw [hup j hj, read64_write64_ne (by omega), ← h.slot j hj]
      exact hold.read64 hscm (by omega) (by omega)
    · rw [Function.update_self, read64_write64_same _ _ (by omega)]
  · intro j hj x hx
    -- the last two writes are not into a copy
    have hlast : ∀ a, (a, 0) ∈ insert (r, 0) (insert (l0, 0) (insert (scratch, 0)
        (pageBlocks pages i))) → a ≠ l0 → a ≠ scratch →
        write64 (write64 (memmove s'.mem r (pa + i * 4096) 4096) (scratch + 8 * i) r) (l0 + 8 * i)
          (Entry.leaf r fl).bits (a + x) = memmove s'.mem r (pa + i * 4096) 4096 (a + x) := by
      intro a ha h0 hs
      have e₃ := k₃.byte (x := x) (Or.inl ⟨ha, fun he => h0 (Prod.mk.inj he).1⟩) (by omega)
      have e₂ := k₂.byte (x := x) (Or.inl ⟨ha, fun he => hs (Prod.mk.inj he).1⟩) (by omega)
      exact e₃.trans e₂
    rw [Phys.setMem_mem]
    rcases Nat.lt_succ_iff_lt_or_eq.1 hj with hj | rfl
    · rw [hup j hj, hlast _ (Set.mem_insert_of_mem _ (hpgm j hj)) (h.ne_l0 j hj)
        (h.ne_scratch j hj), ← h.copy j hj x hx]
      exact hold.byte (hpgm j hj) (by omega)
    · rw [Function.update_self, hlast _ (Set.mem_insert _ _) hrl0 hrsc, memmove_apply hx,
        Nat.add_assoc]
      exact (h.keeps.trans (hk.mono Set.subset_union_right)).byte hpa (by omega)

end Splitting

theorem splitPagesLoop_spec {s₀ : Phys} {R : Set ℕ} {outer : Set (ℕ × ℕ)} {pa fl l0 scratch : ℕ}
    (hpa : (pa, 9) ∈ outer) (hfl : fl < 1024) : ∀ {n i : ℕ} {s : Phys} {pages : ℕ → ℕ},
    n + i = 512 → Splitting s₀ s R outer pa fl l0 scratch i pages →
    wp (splitPagesLoop pa fl l0 scratch n i) (fun r s' => ∃ pages', r.2 ≤ 512 ∧
      (r.1 = true → r.2 = 512) ∧ (r.1 = false → r.2 < 512 ∧ s'.free = ∅) ∧
      Splitting s₀ s' R outer pa fl l0 scratch r.2 pages') noPanic s
  | 0, i, s, pages, hn, h => by
    rw [splitPagesLoop, wp_pure]
    exact ⟨pages, by omega, fun _ => by omega, nofun, h⟩
  | n + 1, i, s, pages, hn, h => by
    rw [splitPagesLoop, wp_bind]
    refine wp_post h.owns.kalloc_spec fun r s' hr => ?_
    rcases hr with ⟨rfl, rfl, hno⟩ | ⟨hne, hnot, hown, hk⟩
    · rw [if_pos rfl, wp_pure]
      exact ⟨pages, by omega, nofun, fun _ => ⟨by omega, free_eq_empty hno⟩, h⟩
    · rw [if_neg hne, wp_bind, wp_moveBytes, wp_bind, wp_store64, wp_bind, wp_store64,
        pa2pte_or hfl]
      exact splitPagesLoop_spec hpa hfl (by omega) (h.step (by omega) hpa hfl hnot hown hk)

/-! ## The tree after a split -/

namespace PTree

variable {A : PTree} {k pa fl l0 v p : ℕ} {pages : ℕ → ℕ}

/-- The huge page `k` becomes a table of pages. -/
def split (A : PTree) (k l0 fl : ℕ) (pages : ℕ → ℕ) : PTree :=
  A.put 1 k (.table l0) fun j => .leaf (pages j) fl

theorem split_puts (ht : A.IsTable 1 (k / 512) p) (hl : ∀ j < 512, LeafOk 0 (pages j) fl) :
    A.Puts 1 k (.table l0) (fun j => .leaf (pages j) fl) p where
  table := ht
  kids_eq _ _ := Entry.noConfusion
  old_kids _ _ h := by omega
  no_kids h := absurd rfl (h l0)
  level _ _ := by omega
  leaf _ _ h := Entry.noConfusion h
  kids_leaf j hj pa' fl' h := by
    obtain ⟨rfl, rfl⟩ := Entry.leaf.inj h
    exact ⟨rfl, hl j hj⟩
  low h := by omega

theorem ownLeaf_split (hok : A.Ok) (he : A.ent 1 k = .leaf pa fl) (hu : User 1 k)
    {L' k' pa' : ℕ} : (A.split k l0 fl pages).OwnLeaf L' k' pa' ↔
      (L' = 0 ∧ k' / 512 = k ∧ pa' = pages (k' % 512)) ∨
      (¬(L' = 1 ∧ k' = k) ∧ A.OwnLeaf L' k' pa') := by
  have hu' := user_one.1 hu
  rw [split, ownLeaf_put]
  constructor
  · rintro (⟨_, _, ⟨_, h⟩, _⟩ | ⟨hL, hk, ⟨_, h⟩, _⟩ | ⟨hn, _, h⟩)
    · cases h
    · exact Or.inl ⟨by omega, hk, (Entry.leaf.inj h).1.symm⟩
    · exact Or.inr ⟨hn, h⟩
  · rintro (⟨rfl, hk, rfl⟩ | ⟨hn, h⟩)
    · refine Or.inr (Or.inl ⟨rfl, hk, ⟨fl, rfl⟩, user_zero.2 ?_⟩)
      simp only [topVpn] at hu' ⊢
      omega
    · refine Or.inr (Or.inr ⟨hn, ?_, h⟩)
      rintro ⟨hL, hk⟩
      obtain rfl : L' = 0 := by omega
      obtain ⟨fl', hfl⟩ := h.1
      rw [hok.absent_below (by omega) (by rw [hk, he]; exact fun _ => Entry.noConfusion)] at hfl
      cases hfl

theorem leaves_split (l0 : ℕ) (pages : ℕ → ℕ) (hok : A.Ok) (he : A.ent 1 k = .leaf pa fl)
    (hu : User 1 k)
    (hinj : ∀ k', A.OwnLeaf 1 k' pa → k' = k) :
    (A.split k l0 fl pages).leaves = A.leaves \ {(pa, 9)} ∪ pageBlocks pages 512 := by
  ext ⟨a, o⟩
  constructor
  · rintro ⟨L', k', h, ho⟩
    rw [ownLeaf_split hok he hu] at h
    rcases h with ⟨rfl, _, ha⟩ | ⟨hn, h⟩
    · exact Or.inr ⟨k' % 512, Nat.mod_lt _ (by omega), Prod.ext ha ho⟩
    · refine Or.inl ⟨⟨L', k', h, ho⟩, fun heq => hn ?_⟩
      obtain ⟨rfl, rfl⟩ := Prod.mk.inj heq
      obtain rfl : L' = 1 := by omega
      exact ⟨rfl, hinj k' h⟩
  · rintro (⟨⟨L', k', h, ho⟩, hne⟩ | ⟨j, hj, heq⟩)
    · refine ⟨L', k', (ownLeaf_split hok he hu).2 (Or.inr ⟨?_, h⟩), ho⟩
      rintro ⟨rfl, rfl⟩
      obtain ⟨fl', hfl⟩ := h.1
      rw [he] at hfl
      exact hne (Prod.ext (Entry.leaf.inj hfl).1.symm ho)
    · obtain ⟨rfl, rfl⟩ := Prod.mk.inj heq
      refine ⟨0, 512 * k + j, (ownLeaf_split hok he hu).2 (Or.inl ⟨rfl, by omega, ?_⟩), rfl⟩
      rw [show (512 * k + j) % 512 = j by omega]

theorem tables_split (ht : A.IsTable 1 (k / 512) p) (hl : ∀ j < 512, LeafOk 0 (pages j) fl)
    (he : A.ent 1 k = .leaf pa fl) :
    (A.split k l0 fl pages).tables = insert (l0, 0) A.tables :=
  tables_put_link (split_puts ht hl) fun q => by rw [he]; exact Entry.noConfusion

theorem lookup_split : (A.split k l0 fl pages).lookup v =
    if v / 512 = k then some (pages (v % 512), fl) else A.lookup v := by
  split_ifs with hv
  · subst hv
    refine lookup_page (fun b f h => ?_) (put_kid rfl rfl)
    rw [split, put_same] at h
    cases h
  · refine lookup_congr (fun b f => ?_) fun b f => ?_
    · rw [split, put_other (by omega) (by omega)]
    · rw [split, put_other (by omega) (by omega)]

/-- The same root, and the same two pages at the top. -/
structure SameTop (A A' : PTree) : Prop where
  root : A'.root = A.root
  top : ∀ k, topVpn ≤ k → A'.ent 0 k = A.ent 0 k

theorem SameTop.refl (A : PTree) : A.SameTop A := ⟨rfl, fun _ _ => rfl⟩

theorem SameTop.trans {A A' A'' : PTree} (h : A.SameTop A') (h' : A'.SameTop A'') :
    A.SameTop A'' :=
  ⟨h'.root.trans h.root, fun k hk => (h'.top k hk).trans (h.top k hk)⟩

theorem split_sameTop (hu : User 1 k) : A.SameTop (A.split k l0 fl pages) := by
  have hu' := user_one.1 hu
  refine ⟨rfl, fun k' hk' => put_other (by omega) ?_⟩
  simp only [topVpn] at hu' hk'
  omega

end PTree

/-! ## `split_huge_page` -/

section Split

variable {s₀ s : Phys} {R : Set ℕ} {rest : Set (ℕ × ℕ)} {A : PTree} {k pa fl l0 scratch p : ℕ}
  {pages : ℕ → ℕ}

/-- The address space with the huge page replaced by the pages. -/
theorem Uvm.split (h : Uvm s₀ R rest A) (he : A.ent 1 k = .leaf pa fl)
    (hnew : ∀ j < 512, (pages j, 0) ∉ A.leaves ∧ (pages j, 0) ∉ rest)
    (hinj : ∀ j < 512, ∀ j' < 512, pages j = pages j' → j = j')
    (hpt : PT s R (A.leaves \ {(pa, 9)} ∪ pageBlocks pages 512 ∪ rest)
      (A.split k l0 fl pages)) : Uvm s R rest (A.split k l0 fl pages) := by
  have hok := h.pt.ok
  have hu := h.huge k pa fl he
  have hleaves := PTree.leaves_split l0 pages hok he hu
    fun k' hk' => h.inj 1 k' k pa hk' ⟨⟨fl, he⟩, hu⟩
  have hlt : ∀ k', k' % 512 < 512 := fun k' => Nat.mod_lt _ (by omega)
  refine ⟨by rw [hleaves]; exact hpt, ?_, ?_, ?_⟩
  · rw [hleaves, Set.disjoint_union_left]
    refine ⟨h.apart.mono_left Set.sdiff_subset, Set.disjoint_left.2 ?_⟩
    rintro b ⟨j, hj, rfl⟩
    exact (hnew j hj).2
  · intro L' k₁ k₂ pa' h₁ h₂
    rw [PTree.ownLeaf_split hok he hu] at h₁ h₂
    have hclash : ∀ k₁ k₂, A.OwnLeaf 0 k₂ (pages (k₁ % 512)) → False := fun k₁ k₂ hk =>
      (hnew _ (hlt k₁)).1 ⟨0, k₂, hk, rfl⟩
    rcases h₁ with ⟨rfl, hk₁, rfl⟩ | ⟨_, h₁⟩ <;> rcases h₂ with ⟨hL, hk₂, hp⟩ | ⟨_, h₂⟩
    · have := hinj _ (hlt k₁) _ (hlt k₂) hp
      omega
    · exact (hclash k₁ k₂ h₂).elim
    · subst hL hp
      exact (hclash k₂ k₁ h₁).elim
    · exact h.inj L' k₁ k₂ pa' h₁ h₂
  · intro k' pa' fl' he'
    by_cases hc : k' = k
    · rw [hc, PTree.split, PTree.put_same] at he'
      cases he'
    · rw [PTree.split, PTree.put_other (by omega) (by omega)] at he'
      exact h.huge k' pa' fl' he'

/-- The bytes were copied, so the view is the same. -/
theorem PTree.view_split {m m' : Mem} (he : A.ent 1 k = .leaf pa fl)
    (hcopy : ∀ j < 512, ∀ x < 4096, m' (pages j + x) = m (pa + j * 4096 + x))
    (hsame : ∀ v pa fl, v < topVpn → A.lookup v = some (pa, fl) →
      ∀ i < 4096, m' (pa + i) = m (pa + i)) :
    (A.split k l0 fl pages).view m' = A.view m := by
  funext v
  by_cases hk : v / 512 = k
  · unfold PTree.view
    split_ifs with hv
    · subst hk
      rw [PTree.lookup_split, if_pos rfl, PTree.lookup_huge he, Option.map_some, Option.map_some]
      congr 2
      funext i
      rw [hcopy _ (Nat.mod_lt _ (by omega)) i i.isLt, Nat.mul_comm]
    · rfl
  · refine PTree.view_congr (fun _ => ?_) (hsame v)
    rw [PTree.lookup_split, if_neg hk]

/-- The copies are complete : the table is linked, and the huge page and the scratch page are
freed. -/
theorem Splitting.finish
    (hsp : Splitting s₀ s R (A.tables ∪ A.leaves ∪ rest) pa fl l0 scratch 512 pages)
    (h : Uvm s₀ R rest A) (he : A.ent 1 k = .leaf pa fl) (ht : A.IsTable 1 (k / 512) p) :
    wp (do
        store64 (p + 8 * (k % 512)) (pa2pte l0 ||| pteV)
        kfreeHuge pa
        kfree scratch
        pure (0 : ℤ))
      (fun r s' => r = 0 ∧ Uvm s' R rest (A.split k l0 fl pages) ∧
        (A.split k l0 fl pages).view s'.mem = A.view s₀.mem ∧ Keeps rest s₀ s' ∧
        A.tables ⊆ (A.split k l0 fl pages).tables ∧
        (A.split k l0 fl pages).tables.ncard = A.tables.ncard + 1 ∧
        ∀ j < 512, ∀ x < 4096, s'.mem (pages j + x) = s₀.mem (pa + j * 4096 + x)) noPanic s := by
  have hok := h.pt.ok
  have hu := h.huge k pa fl he
  have hlo := hok.leaves 1 k pa fl he
  have hown : A.OwnLeaf 1 k pa := ⟨⟨fl, he⟩, hu⟩
  have hinj := fun k' hk' => h.inj 1 k' k pa hk' hown
  have hd := hsp.owns.apart
  simp only [Set.disjoint_insert_left, Set.mem_union, not_or] at hd
  obtain ⟨⟨⟨hl0t, hl0l⟩, hl0r⟩, ⟨⟨hsct, hscl⟩, hscr⟩, hpd⟩ := hd
  have hpag : ∀ j < 512, LeafOk 0 (pages j) fl := fun j => hsp.leafOk hlo
  -- the table and what surrounds it
  have hpt : PT s R (insert (l0, 0)
      (insert (scratch, 0) (pageBlocks pages 512 ∪ (A.leaves ∪ rest)))) A := by
    refine h.pt.of_keeps (hsp.owns.reassoc ?_ ?_) (hsp.keeps.mono fun b hb => Or.inl (Or.inl hb))
    · ext b
      simp only [Set.mem_union, Set.mem_insert_iff]
      tauto
    · rw [Set.disjoint_insert_right, Set.disjoint_insert_right, Set.disjoint_union_right]
      exact ⟨hl0t, hsct, (hpd.mono_right fun b hb => Or.inl (Or.inl hb)).symm, h.pt.owns.apart⟩
  have hfresh : (l0, 0) ∉ insert (scratch, 0) (pageBlocks pages 512 ∪ (A.leaves ∪ rest)) := by
    rintro (hb | ⟨j, hj, hb⟩ | hb | hb)
    · exact hsp.ne (Prod.mk.inj hb).1
    · exact hsp.ne_l0 j hj (Prod.mk.inj hb).1.symm
    · exact hl0l hb
    · exact hl0r hb
  have hold : ∀ q, A.ent 1 k ≠ .table q := by
    rw [he]
    exact fun _ => Entry.noConfusion
  obtain ⟨h₁, hk₁⟩ := hpt.link hfresh (PTree.split_puts ht hpag) hold hsp.entry
  rw [wp_bind, wp_store64, pa2pte_or (by norm_num), wp_bind]
  refine wp_post (h₁.kfreeHuge_spec (Or.inr (Or.inr (Or.inl ⟨1, k, hown, rfl⟩)))) ?_
  rintro _ s₂ ⟨h₂, hk₂⟩
  rw [wp_bind]
  refine wp_post (h₂.kfree_spec ⟨Set.mem_insert _ _, fun hb => ?_⟩) ?_
  · exact absurd (Prod.mk.inj hb).2 (by omega)
  rintro _ s₃ ⟨h₃, hk₃⟩
  rw [wp_pure]
  have hnew : ∀ j < 512, (pages j, 0) ∉ A.leaves ∧ (pages j, 0) ∉ rest := fun j hj =>
    have hb := Set.disjoint_left.1 hpd (mem_pageBlocks hj)
    ⟨fun hc => hb (Or.inl (Or.inr hc)), fun hc => hb (Or.inr hc)⟩
  have hpa9 : (pa, 9) ∉ rest := Set.disjoint_left.1 h.apart ⟨1, k, hown, rfl⟩
  -- what is left of the frame is the new leaves and the rest
  have hleft : (insert (scratch, 0) (pageBlocks pages 512 ∪ (A.leaves ∪ rest)) \ {(pa, 9)}) \
      {(scratch, 0)} = A.leaves \ {(pa, 9)} ∪ pageBlocks pages 512 ∪ rest := by
    have hscp : (scratch, 0) ∉ pageBlocks pages 512 := fun ⟨j, hj, hb⟩ =>
      hsp.ne_scratch j hj (Prod.mk.inj hb).1.symm
    have hp9 : (pa, 9) ∉ pageBlocks pages 512 := fun ⟨j, _, hb⟩ =>
      absurd (Prod.mk.inj hb).2 (by omega)
    rw [Set.sdiff_sdiff_comm, Set.insert_sdiff_self_of_notMem (by simp [hscp, hscl, hscr]),
      Set.union_sdiff_distrib, Set.union_sdiff_distrib, Set.sdiff_singleton_eq_self hp9,
      Set.sdiff_singleton_eq_self hpa9, ← Set.union_assoc, Set.union_comm (pageBlocks pages 512)]
  rw [hleft] at h₃ hk₃
  have huvm := h.split he hnew hsp.inj h₃
  have hleaves := PTree.leaves_split l0 pages hok he hu hinj
  have hkeep : Keeps (A.leaves \ {(pa, 9)} ∪ pageBlocks pages 512 ∪ rest)
      (s.setMem (write64 s.mem (p + 8 * (k % 512)) (Entry.table l0).bits)) s₃ := by
    refine (hk₂.mono ?_).trans (hk₃.mono Set.subset_union_right)
    rw [← hleft]
    exact Set.sdiff_subset.trans Set.subset_union_right
  have hcopy : ∀ j < 512, ∀ x < 4096, (s.setMem (write64 s.mem (p + 8 * (k % 512))
      (Entry.table l0).bits)).mem (pages j + x) = s₀.mem (pa + j * 4096 + x) := by
    intro j hj x hx
    rw [← hsp.copy j hj x hx]
    exact hk₁.byte (Or.inr (Or.inl (mem_pageBlocks hj))) (by omega)
  refine ⟨rfl, huvm, ?_, ?_, ?_, ?_, fun j hj x hx => ?_⟩
  · rw [PTree.view_keeps huvm.huge (hkeep.mono (hleaves ▸ Set.subset_union_left))]
    refine PTree.view_split he hcopy (PTree.lookup_keeps h.huge ?_)
    exact (hsp.keeps.mono fun b hb => Or.inl (Or.inr hb)).trans
      (hk₁.mono fun b hb => Or.inr (Or.inr (Or.inl hb)))
  · exact ((hsp.keeps.mono fun b hb => Or.inr hb).trans
      (hk₁.mono fun b hb => Or.inr (Or.inr (Or.inr hb)))).trans (hkeep.mono Set.subset_union_right)
  · rw [PTree.tables_split ht hpag he]
    exact Set.subset_insert _ _
  · rw [PTree.tables_split ht hpag he]
    exact Set.ncard_insert_of_notMem hl0t (h.pt.owns.finite_pages fun b hb => hb.1)
  · rw [← hcopy j hj x hx]
    exact hkeep.byte (Or.inl (Or.inr (mem_pageBlocks hj))) (by omega)

/-- The memory ran out : everything is given back. -/
theorem Splitting.abort {outer : Set (ℕ × ℕ)} {i : ℕ}
    (hsp : Splitting s₀ s R outer pa fl l0 scratch i pages) (hi : i ≤ 512) :
    wp (do
        freeEach id scratch i 0
        kfree l0
        kfree scratch
        pure (-1 : ℤ))
      (fun r s' => r = -1 ∧ Owns s' R ∅ outer ∧ Keeps outer s₀ s') noPanic s := by
  have hown : Owns s R ({(l0, 0), (scratch, 0)} ∪ pagesFrom pages 0 i) outer := by
    rw [pagesFrom_zero, Set.insert_union, Set.singleton_union]
    exact hsp.owns
  rw [wp_bind]
  refine wp_post (freeEach_spec (Or.inl (Or.inr rfl)) hi ?_ hsp.inj (by omega) hown ?_) ?_
  · rintro j hj (hb | hb)
    · exact hsp.ne_l0 j hj (Prod.mk.inj hb).1
    · exact hsp.ne_scratch j hj (Prod.mk.inj hb).1
  · exact fun j _ hj => hsp.slot j hj
  · rintro _ s₁ ⟨h₁, hk₁⟩
    rw [wp_bind]
    refine wp_post (h₁.kfree_spec (Set.mem_insert _ _)) ?_
    rintro _ s₂ ⟨h₂, hk₂⟩
    have hne : (l0, 0) ∉ ({(scratch, 0)} : Set (ℕ × ℕ)) := fun hb => hsp.ne (Prod.mk.inj hb).1
    rw [Set.insert_sdiff_self_of_notMem hne] at h₂ hk₂
    rw [wp_bind]
    refine wp_post (h₂.kfree_spec rfl) ?_
    rintro _ s₃ ⟨h₃, hk₃⟩
    rw [Set.sdiff_self] at h₃
    rw [wp_pure]
    exact ⟨rfl, h₃, ((hsp.keeps.trans (hk₁.mono Set.subset_union_right)).trans
      (hk₂.mono Set.subset_union_right)).trans (hk₃.mono Set.subset_union_right)⟩

/-- Nothing is in hand, and the tables and leaves were kept. -/
theorem Uvm.of_empty (h : Uvm s₀ R rest A)
    (hown : Owns s R ∅ (A.tables ∪ A.leaves ∪ rest))
    (hk : Keeps (A.tables ∪ A.leaves ∪ rest) s₀ s) :
    Uvm s R rest A ∧ A.view s.mem = A.view s₀.mem ∧ Keeps rest s₀ s := by
  refine ⟨of_owns (hown.reassoc (Set.empty_union _).symm h.owns.apart) h
    (hk.mono fun b hb => Or.inl (Or.inl hb)), ?_, hk.mono Set.subset_union_right⟩
  exact h.view_keeps (hk.mono fun b hb => Or.inl (Or.inr hb))

/-- What `split_huge_page` does to the huge page `k` : no view changes, and if it succeeds the
huge page is gone and there is a table more. It succeeds iff 514 pages are free. -/
def SplitPost (s : Phys) (R : Set ℕ) (rest : Set (ℕ × ℕ)) (A : PTree) (k : ℕ) (r : ℤ)
    (s' : Phys) : Prop :=
  ∃ A', Uvm s' R rest A' ∧ A.SameTop A' ∧ A'.view s'.mem = A.view s.mem ∧ Keeps rest s s' ∧
    ((r = -1 ∧ A' = A ∧ s.freeCount < 514) ∨
      (r = 0 ∧ 514 ≤ s.freeCount ∧ (∀ pa fl, A'.ent 1 k ≠ .leaf pa fl) ∧
        (∀ k' ≠ k, A'.ent 1 k' = A.ent 1 k') ∧
        (∀ v, v / 512 ≠ k → A'.lookup v = A.lookup v) ∧ A.tables ⊆ A'.tables ∧
        A'.tables.ncard = A.tables.ncard + 1))

/-- How `split_huge_page` of the huge page `k` ends. If 514 pages are free, then all copies have
been made in some state on the way. -/
def SplitDone (s : Phys) (R : Set ℕ) (rest : Set (ℕ × ℕ)) (A : PTree) (k pa fl : ℕ) (r : ℤ)
    (s' : Phys) : Prop :=
  (r = -1 ∧ s.freeCount < 514 ∧ Owns s' R ∅ (A.tables ∪ A.leaves ∪ rest) ∧
    Keeps (A.tables ∪ A.leaves ∪ rest) s s') ∨
  (r = 0 ∧ 514 ≤ s.freeCount ∧ ∃ l0 scratch pages sₘ,
    Splitting s sₘ R (A.tables ∪ A.leaves ∪ rest) pa fl l0 scratch 512 pages ∧
    Uvm s' R rest (A.split k l0 fl pages) ∧
    (A.split k l0 fl pages).view s'.mem = A.view s.mem ∧ Keeps rest s s' ∧
    A.tables ⊆ (A.split k l0 fl pages).tables ∧
    (A.split k l0 fl pages).tables.ncard = A.tables.ncard + 1 ∧
    ∀ j < 512, ∀ x < 4096, s'.mem (pages j + x) = s.mem (pa + j * 4096 + x))

theorem splitHugePage_done {va : ℕ} (h : Uvm s R rest A) (he : A.ent 1 k = .leaf pa fl)
    (hva : va / 2097152 = k) :
    wp (splitHugePage A.root va) (SplitDone s R rest A k pa fl) noPanic s := by
  have hok := h.pt.ok
  have hu := h.huge k pa fl he
  have hu' := PTree.user_one.1 hu
  have hlo := hok.leaves 1 k pa fl he
  simp only [topVpn] at hu'
  have hv : (va - va % hugePgSize) / 4096 / 512 = k := by
    simp only [hugePgSize]
    omega
  have hfail : ∀ {s'}, Owns s' R ∅ (A.tables ∪ A.leaves ∪ rest) →
      Keeps (A.tables ∪ A.leaves ∪ rest) s s' → s.freeCount < 514 →
      SplitDone s R rest A k pa fl (-1) s' := fun hown hk hfew => .inl ⟨rfl, hfew, hown, hk⟩
  have hown₀ : Owns s R ∅ (A.tables ∪ A.leaves ∪ rest) :=
    h.owns.reassoc (Set.empty_union _) (Set.empty_disjoint _)
  rw [splitHugePage]
  dsimp only
  rw [wp_bind]
  refine wp_post (walkWithLevel_spec h.pt (by simp only [hugePgSize]; omega)) ?_
  rintro r s' ⟨rfl, hf⟩
  cases hf with
  | missing h1 h0 => exact absurd he (by rw [hv] at h1; exact h1 pa fl)
  | page ht => exact absurd he (by rw [hv] at ht; exact ht.not_leaf pa fl)
  | huge ht he' =>
    rw [hv] at ht he' ⊢
    dsimp only
    rw [wp_bind, wp_load64, h.pt.rep.entry ht, he, if_neg, hlo.bits_pa, hlo.bits_flags, wp_bind]
    swap
    · rintro (hc | hc)
      · exact hc rfl
      · exact hlo.bits_valid hc
    refine wp_post hown₀.kalloc_spec fun l0 s₁ hr₁ => ?_
    rcases hr₁ with ⟨rfl, rfl, hno⟩ | ⟨hne₁, _, h₁, hk₁⟩
    · rw [if_pos rfl, wp_pure]
      refine hfail hown₀ (.refl _ _) ?_
      rw [freeCount_eq_zero (free_eq_empty hno)]
      decide
    rw [if_neg hne₁, wp_bind, wp_zeroPage, wp_bind]
    obtain ⟨hz, hkz⟩ := h₁.store_block (Set.mem_insert _ _)
      (memset_span (c := 0) (n := 4096) (le_refl l0) (by omega))
    refine wp_post hz.kalloc_spec fun scratch s₂ hr₂ => ?_
    rcases hr₂ with ⟨rfl, rfl, hno⟩ | ⟨hne₂, hnot₂, h₂, hk₂⟩
    · rw [if_pos rfl, wp_bind]
      refine wp_post (hz.kfree_spec (Set.mem_insert _ _)) ?_
      rintro _ s₃ ⟨h₃, hk₃⟩
      rw [Set.insert_sdiff_self_of_notMem (Set.notMem_empty _)] at h₃
      rw [wp_pure]
      refine hfail h₃ (((hk₁.mono Set.subset_union_right).trans
        (hkz.mono Set.subset_union_right)).trans (hk₃.mono Set.subset_union_right)) ?_
      have hle := hown₀.freeCount_le hz (free_eq_empty hno) (by rintro b (rfl | hb) <;> trivial)
      have := Set.ncard_insert_le (l0, 0) (∅ : Set (ℕ × ℕ))
      rw [Set.ncard_empty] at this
      omega
    rw [if_neg hne₂, wp_bind]
    have hpa : (pa, 9) ∈ A.tables ∪ A.leaves ∪ rest :=
      Or.inl (Or.inr ⟨1, k, ⟨⟨fl, he⟩, hu⟩, rfl⟩)
    have hinit : Splitting s' s₂ R (A.tables ∪ A.leaves ∪ rest) pa fl l0 scratch 0 id := by
      refine ⟨?_, ?_, ?_, nofun, nofun, nofun, nofun, nofun, nofun⟩
      · rw [pageBlocks_zero, Set.insert_comm]
        exact h₂
      · exact ((hk₁.mono Set.subset_union_right).trans (hkz.mono Set.subset_union_right)).trans
          (hk₂.mono Set.subset_union_right)
      · rintro rfl
        exact hnot₂ (Set.mem_insert _ _)
    refine wp_post (splitPagesLoop_spec hpa hlo.flags_lt (by omega) hinit) ?_
    rintro ⟨done, i⟩ s₃ ⟨pages, hi, hdone, hstop, hsp⟩
    dsimp only at hi hdone hstop hsp ⊢
    rw [wp_ite]
    refine ⟨fun hd => ?_, fun hd => ?_⟩
    · obtain rfl := hdone hd
      refine wp_post (hsp.finish h he ht) ?_
      rintro r s' ⟨rfl, hpost⟩
      refine .inr ⟨rfl, ?_, l0, scratch, pages, s₃, hsp, hpost⟩
      have := hsp.census hown₀
      omega
    · refine wp_post (hsp.abort hi) ?_
      rintro r s' ⟨rfl, hown, hk'⟩
      obtain ⟨hlt, hempty⟩ := hstop (Bool.eq_false_iff.2 hd)
      have hcen := hsp.census hown₀
      rw [freeCount_eq_zero hempty] at hcen
      exact hfail hown hk' (by omega)

theorem splitHugePage_spec {va : ℕ} (h : Uvm s R rest A) (he : A.ent 1 k = .leaf pa fl)
    (hva : va / 2097152 = k) :
    wp (splitHugePage A.root va) (SplitPost s R rest A k) noPanic s := by
  refine wp_post (splitHugePage_done h he hva) ?_
  rintro r s' (⟨rfl, hfew, hown, hk⟩ | ⟨rfl, hmany, l0, scratch, pages, sₘ, -, h', hview, hk, hsub,
    hcard, -⟩)
  · obtain ⟨h', hview, hrest⟩ := h.of_empty hown hk
    exact ⟨A, h', .refl A, hview, hrest, Or.inl ⟨rfl, rfl, hfew⟩⟩
  · refine ⟨_, h', PTree.split_sameTop (h.huge k pa fl he), hview, hk, Or.inr ⟨rfl, hmany,
      fun pa' fl' hc => ?_, fun k' hk => PTree.put_other (by omega) (by omega), fun v hv => ?_,
      hsub, hcard⟩⟩
    · rw [PTree.split, PTree.put_same] at hc
      cases hc
    · rw [PTree.lookup_split, if_neg hv]

end Split

end Xv6Plus
