import Xv6Plus.Dyadic
import Xv6Plus.Linked
import Xv6Plus.Kalloc

/-!
# The invariant of the page allocator

`Buddy s R live` ties the three representations of the free memory together. The free
blocks are those `page_state` records (`Phys.free`). For every order the free list is a
doubly linked list of exactly the free blocks of that order. And the free blocks with the
blocks `live`, which callers hold, tile the managed region `R`, the free ones with no two
buddies among them.

A block in the hands of the allocator itself counts as live, whatever its order, so the
loops of `kalloc.c` are sequences of four moves : take a block off its list
(`Buddy.take`), put one on it (`Buddy.give`), and cut or join blocks that are in hand
(`Buddy.split`, `Buddy.merge`). All four leave the memory of the other live blocks alone.
-/

namespace Xv6Plus

/-- The addresses covered by a set of blocks. -/
def region (A : Set (ℕ × ℕ)) : Set ℕ :=
  {x | ∃ b ∈ A, x ∈ span pgSize b}

/-- The free blocks `page_state` records, as start address and order. -/
def Phys.free (s : Phys) : Set (ℕ × ℕ) :=
  {b | ∃ i < nPages, b.1 = kernBase + pgSize * i ∧ s.pageState i = b.2 ∧ b.2 ≤ maxOrder}

/-- The allocator represents the tiling of `R` by its free blocks and the blocks `live`. -/
structure Buddy (s : Phys) (R : Set ℕ) (live : Set (ℕ × ℕ)) : Prop where
  state : ∀ i < nPages, s.pageState i = pageStateAlloc ∨ ∃ o ≤ maxOrder, s.pageState i = (o : ℤ)
  lists : ∀ o ≤ maxOrder, ∃ l : List ℕ, l.Nodup ∧ DList s.next s.prev 0 (s.freelist o) l ∧
    ∀ a, a ∈ l ↔ (a, o) ∈ s.free
  freeTiles : Tiles pgSize s.free (region s.free)
  liveTiles : Tiles pgSize live (region live)
  apart : Disjoint (region s.free) (region live)
  cover : region s.free ∪ region live = R
  coalesced : Coalesced pgSize maxOrder s.free
  managed : R ⊆ Set.Ico kernBase physTop

section Region

variable {A B : Set (ℕ × ℕ)} {b : ℕ × ℕ} {x : ℕ}

theorem span_subset_region (hb : b ∈ A) : span 4096 b ⊆ region A := fun _ hx => ⟨b, hb, hx⟩

theorem start_mem_region (hb : b ∈ A) : b.1 ∈ region A :=
  span_subset_region hb (start_mem_span (by omega) b)

theorem region_mono (h : A ⊆ B) : region A ⊆ region B := by
  rintro x ⟨b, hb, hx⟩
  exact ⟨b, h hb, hx⟩

theorem region_insert (b : ℕ × ℕ) (A : Set (ℕ × ℕ)) :
    region (insert b A) = span 4096 b ∪ region A := by
  ext x
  simp [region]

theorem region_empty : region ∅ = ∅ := by
  simp [region]

/-- The region of a tiling is the one its blocks cover. -/
theorem Tiles.region_eq {R : Set ℕ} (h : Tiles 4096 A R) : R = region A := by
  ext x
  exact h.cover x

theorem Tiles.toRegion {R : Set ℕ} (h : Tiles 4096 A R) : Tiles 4096 A (region A) :=
  h.congr_region h.region_eq

theorem region_erase (h : Tiles 4096 A (region A)) (hb : b ∈ A) :
    region (A \ {b}) = region A \ span 4096 b :=
  (h.erase hb).region_eq.symm

end Region

namespace Phys

variable {s : Phys} {a i o : ℕ}

theorem mem_free : (a, o) ∈ s.free ↔
    ∃ i < 32768, a = 2147483648 + 4096 * i ∧ s.pageState i = o ∧ o ≤ 15 :=
  Iff.rfl

theorem mem_free_index (hi : i < 32768) :
    (2147483648 + 4096 * i, o) ∈ s.free ↔ s.pageState i = o ∧ o ≤ 15 := by
  rw [mem_free]
  constructor
  · rintro ⟨j, hj, he, h⟩
    obtain rfl : i = j := by omega
    exact h
  · intro h
    exact ⟨i, hi, rfl, h⟩

theorem free_congr {t : Phys} (h : t.pageState = s.pageState) : t.free = s.free := by
  unfold free
  rw [h]

/-- Clearing the entry of a free block removes that block. -/
theorem free_setPageState_alloc (hi : i < 32768) (ho : s.pageState i = o) :
    (s.setPageState i pageStateAlloc).free = s.free \ {(2147483648 + 4096 * i, o)} := by
  ext ⟨a, p⟩
  simp only [Set.mem_sdiff, Set.mem_singleton_iff, Prod.mk.injEq, mem_free, setPageState]
  constructor
  · rintro ⟨j, hj, rfl, hs, hp⟩
    have hji : j ≠ i := by
      rintro rfl
      rw [Function.update_self] at hs
      simp only [pageStateAlloc] at hs
      omega
    rw [Function.update_of_ne hji] at hs
    exact ⟨⟨j, hj, rfl, hs, hp⟩, by omega⟩
  · rintro ⟨⟨j, hj, rfl, hs, hp⟩, hne⟩
    have hji : j ≠ i := by
      rintro rfl
      rw [ho] at hs
      omega
    exact ⟨j, hj, rfl, by rw [Function.update_of_ne hji, hs], hp⟩

/-- Setting the entry of an allocated page adds a free block. -/
theorem free_setPageState_order (hi : i < 32768) (hs : s.pageState i = pageStateAlloc)
    (ho : o ≤ 15) :
    (s.setPageState i o).free = insert (2147483648 + 4096 * i, o) s.free := by
  ext ⟨a, p⟩
  simp only [Set.mem_insert_iff, Prod.mk.injEq, mem_free, setPageState]
  constructor
  · rintro ⟨j, hj, rfl, hst, hp⟩
    by_cases hji : j = i
    · subst hji
      rw [Function.update_self] at hst
      exact Or.inl ⟨rfl, by omega⟩
    · rw [Function.update_of_ne hji] at hst
      exact Or.inr ⟨j, hj, rfl, hst, hp⟩
  · rintro (⟨rfl, rfl⟩ | ⟨j, hj, rfl, hst, hp⟩)
    · exact ⟨i, hi, rfl, by rw [Function.update_self], ho⟩
    · have hji : j ≠ i := by
        rintro rfl
        rw [hs] at hst
        simp only [pageStateAlloc] at hst
        omega
      exact ⟨j, hj, rfl, by rw [Function.update_of_ne hji, hst], hp⟩

end Phys

/-! ## The list operations

The nodes are page aligned, so distinct nodes do not overlap. -/

section Links

variable {s : Phys} {order r a v : ℕ}

theorem next_setNext (ha : a % 4096 = 0) (hr : r % 4096 = 0) (hv : v < 2 ^ 64) :
    (s.setNext r v).next a = if a = r then v else s.next a := by
  unfold Phys.next Phys.setNext
  split_ifs with h
  · rw [h, read64_write64_same _ _ hv]
  · exact read64_write64_ne (by omega)

theorem prev_setNext (ha : a % 4096 = 0) (hr : r % 4096 = 0) :
    (s.setNext r v).prev a = s.prev a :=
  read64_write64_ne (by omega)

theorem prev_setPrev (ha : a % 4096 = 0) (hr : r % 4096 = 0) (hv : v < 2 ^ 64) :
    (s.setPrev r v).prev a = if a = r then v else s.prev a := by
  unfold Phys.prev Phys.setPrev
  split_ifs with h
  · rw [h, read64_write64_same _ _ hv]
  · exact read64_write64_ne (by omega)

theorem next_setPrev (ha : a % 4096 = 0) (hr : r % 4096 = 0) :
    (s.setPrev r v).next a = s.next a :=
  read64_write64_ne (by omega)

theorem next_setOrder (ha : a % 4096 = 0) (hr : r % 4096 = 0) :
    (s.setOrder r v).next a = s.next a :=
  read64_write32_ne (by omega)

theorem prev_setOrder (ha : a % 4096 = 0) (hr : r % 4096 = 0) :
    (s.setOrder r v).prev a = s.prev a :=
  read64_write32_ne (by omega)

theorem next_lt (s : Phys) (r : ℕ) : s.next r < 2 ^ 64 := read64_lt _ _

theorem prev_lt (s : Phys) (r : ℕ) : s.prev r < 2 ^ 64 := read64_lt _ _

@[simp] theorem next_setFreelist : (s.setFreelist order v).next = s.next := rfl

@[simp] theorem prev_setFreelist : (s.setFreelist order v).prev = s.prev := rfl

@[simp] theorem next_setPageState {i : ℕ} {z : ℤ} : (s.setPageState i z).next = s.next := rfl

@[simp] theorem prev_setPageState {i : ℕ} {z : ℤ} : (s.setPageState i z).prev = s.prev := rfl

theorem next_setNextPrev (ha : a % 4096 = 0) (hn : s.next r % 4096 = 0) :
    (setNextPrev r v s).next a = s.next a := by
  unfold setNextPrev
  split_ifs
  · exact next_setPrev ha hn
  · rfl

theorem prev_setNextPrev (ha : a % 4096 = 0) (hn : s.next r % 4096 = 0) (hv : v < 2 ^ 64)
    (ha0 : a ≠ 0) : (setNextPrev r v s).prev a = if a = s.next r then v else s.prev a := by
  unfold setNextPrev
  split_ifs with h1 h2 h2
  · rw [prev_setPrev ha hn hv, if_pos h2]
  · rw [prev_setPrev ha hn hv, if_neg h2]
  · exact absurd (h2.trans (not_not.1 h1)) ha0
  · rfl

theorem next_skipNode (ha : a % 4096 = 0) (hp : s.prev r % 4096 = 0) (ha0 : a ≠ 0) :
    (skipNode order r s).next a = if a = s.prev r then s.next r else s.next a := by
  unfold skipNode
  split_ifs with h1 h2 h2 h3 h3
  · rw [next_setNext ha hp (next_lt s r), if_pos h2]
  · rw [next_setNext ha hp (next_lt s r), if_neg h2]
  · exact absurd (h3.trans (not_not.1 h1)) ha0
  · rfl
  · exact absurd (h3.trans (not_not.1 h1)) ha0
  · rfl

theorem prev_skipNode (ha : a % 4096 = 0) (hp : s.prev r % 4096 = 0) :
    (skipNode order r s).prev a = s.prev a := by
  unfold skipNode
  split_ifs
  · exact prev_setNext ha hp
  · rfl
  · rfl

@[simp] theorem setNextPrev_pageState : (setNextPrev r v s).pageState = s.pageState := by
  unfold setNextPrev
  split_ifs <;> simp only [Phys.setPrev_pageState]

@[simp] theorem setNextPrev_freelist : (setNextPrev r v s).freelist = s.freelist := by
  unfold setNextPrev
  split_ifs <;> simp only [Phys.setPrev_freelist]

@[simp] theorem setNextPrev_kend : (setNextPrev r v s).kend = s.kend := by
  unfold setNextPrev
  split_ifs <;> simp only [Phys.setPrev_kend]

@[simp] theorem skipNode_pageState : (skipNode order r s).pageState = s.pageState := by
  unfold skipNode
  split_ifs <;> simp only [Phys.setNext_pageState, Phys.setFreelist_pageState]

@[simp] theorem skipNode_kend : (skipNode order r s).kend = s.kend := by
  unfold skipNode
  split_ifs <;> simp only [Phys.setNext_kend, Phys.setFreelist_kend]

@[simp] theorem listInsert_pageState : (listInsert order r s).pageState = s.pageState := by
  simp [listInsert]

@[simp] theorem listInsert_kend : (listInsert order r s).kend = s.kend := by
  simp [listInsert]

@[simp] theorem listInsert_freelist :
    (listInsert order r s).freelist = Function.update s.freelist order r := by
  simp [listInsert]

@[simp] theorem listRemove_pageState : (listRemove order r s).pageState = s.pageState := by
  simp [listRemove]

@[simp] theorem listRemove_kend : (listRemove order r s).kend = s.kend := by
  simp [listRemove]

theorem listRemove_freelist : (listRemove order r s).freelist =
    if s.prev r = 0 ∧ s.freelist order = r then Function.update s.freelist order (s.next r)
    else s.freelist := by
  simp only [listRemove, Phys.setNext_freelist, Phys.setPrev_freelist, setNextPrev_freelist]
  unfold skipNode
  by_cases h1 : s.prev r = 0
  · by_cases h2 : s.freelist order = r
    · simp only [h1, h2, ne_eq, not_true_eq_false, if_false, if_true, and_self,
        Phys.setFreelist_freelist]
    · simp only [h1, h2, ne_eq, not_true_eq_false, if_false, and_false]
  · simp only [h1, ne_eq, not_false_eq_true, if_true, false_and, if_false, Phys.setNext_freelist]

theorem next_listRemove (hr : r % 4096 = 0) (hp : s.prev r % 4096 = 0)
    (hn : s.next r % 4096 = 0) (hr0 : r ≠ 0) (hpr : s.prev r ≠ r) (ha : a % 4096 = 0)
    (har : a ≠ r) (ha0 : a ≠ 0) :
    (listRemove order r s).next a = if a = s.prev r then s.next r else s.next a := by
  have hs : (skipNode order r s).next r = s.next r := by
    rw [next_skipNode hr hp hr0, if_neg (Ne.symm hpr)]
  unfold listRemove
  rw [next_setNext ha hr (by norm_num), if_neg har, next_setPrev ha hr,
    next_setNextPrev ha (by rw [hs]; exact hn), next_skipNode ha hp ha0]

theorem prev_listRemove (hr : r % 4096 = 0) (hp : s.prev r % 4096 = 0)
    (hn : s.next r % 4096 = 0) (hr0 : r ≠ 0) (hpr : s.prev r ≠ r) (ha : a % 4096 = 0)
    (har : a ≠ r) (ha0 : a ≠ 0) :
    (listRemove order r s).prev a = if a = s.next r then s.prev r else s.prev a := by
  have hs : (skipNode order r s).next r = s.next r := by
    rw [next_skipNode hr hp hr0, if_neg (Ne.symm hpr)]
  have hq : (skipNode order r s).prev r = s.prev r := prev_skipNode hr hp
  unfold listRemove
  rw [prev_setNext ha hr, prev_setPrev ha hr (by norm_num), if_neg har,
    prev_setNextPrev ha (by rw [hs]; exact hn) (prev_lt _ r) ha0, hs, hq, prev_skipNode ha hp]

theorem next_listInsert (hr : r % 4096 = 0) (hh : s.freelist order % 4096 = 0)
    (hlt : s.freelist order < 2 ^ 64) (ha : a % 4096 = 0) :
    (listInsert order r s).next a = if a = r then s.freelist order else s.next a := by
  set t := (s.setOrder r order).setPrev r 0 with ht
  have hf : t.freelist order = s.freelist order := rfl
  have hn : (t.setNext r (s.freelist order)).next r = s.freelist order := by
    rw [next_setNext hr hr hlt, if_pos rfl]
  simp only [listInsert, next_setFreelist]
  rw [← ht, hf, next_setNextPrev ha (by rw [hn]; exact hh), next_setNext ha hr hlt, ht,
    next_setPrev ha hr, next_setOrder ha hr]

theorem prev_listInsert (hr : r % 4096 = 0) (hh : s.freelist order % 4096 = 0)
    (hlt : s.freelist order < 2 ^ 64) (hrlt : r < 2 ^ 64) (ha : a % 4096 = 0) (ha0 : a ≠ 0) :
    (listInsert order r s).prev a =
      if a = s.freelist order then r else if a = r then 0 else s.prev a := by
  set t := (s.setOrder r order).setPrev r 0 with ht
  have hf : t.freelist order = s.freelist order := rfl
  have hn : (t.setNext r (s.freelist order)).next r = s.freelist order := by
    rw [next_setNext hr hr hlt, if_pos rfl]
  simp only [listInsert, prev_setFreelist]
  rw [← ht, hf, prev_setNextPrev ha (by rw [hn]; exact hh) hrlt ha0, hn, prev_setNext ha hr, ht,
    prev_setPrev ha hr (by norm_num), prev_setOrder ha hr]

/-! The pages the list operations write. -/

theorem setNextPrev_eqOn {S : Set ℕ}
    (hn : s.next r ≠ 0 → ∀ x ∈ S, x < s.next r ∨ s.next r + 4096 ≤ x) :
    Set.EqOn (setNextPrev r v s).mem s.mem S := by
  unfold setNextPrev
  split_ifs with h
  · rw [Phys.setPrev_mem]
    refine write64_eqOn fun x hx => ?_
    have := hn h x hx
    omega
  · exact Set.eqOn_refl _ _

theorem listRemove_eqOn {S : Set ℕ} (hr : r % 4096 = 0) (hp : s.prev r % 4096 = 0)
    (hr0 : r ≠ 0) (hpr : s.prev r ≠ r) (hS : ∀ x ∈ S, x < r ∨ r + 4096 ≤ x)
    (hSp : s.prev r ≠ 0 → ∀ x ∈ S, x < s.prev r ∨ s.prev r + 4096 ≤ x)
    (hSn : s.next r ≠ 0 → ∀ x ∈ S, x < s.next r ∨ s.next r + 4096 ≤ x) :
    Set.EqOn (listRemove order r s).mem s.mem S := by
  have hs : (skipNode order r s).next r = s.next r := by
    rw [next_skipNode hr hp hr0, if_neg (Ne.symm hpr)]
  have h1 : Set.EqOn (skipNode order r s).mem s.mem S := by
    unfold skipNode
    split_ifs with h
    · rw [Phys.setNext_mem]
      refine write64_eqOn fun x hx => ?_
      have := hSp h x hx
      omega
    · rw [Phys.setFreelist_mem]
      exact Set.eqOn_refl _ _
    · exact Set.eqOn_refl _ _
  have hfar : ∀ x ∈ S, x < r ∨ r + 8 ≤ x := fun x hx => by
    have := hS x hx
    omega
  have hfar8 : ∀ x ∈ S, x < r + 8 ∨ r + 8 + 8 ≤ x := fun x hx => by
    have := hS x hx
    omega
  simp only [listRemove, Phys.setNext_mem, Phys.setPrev_mem]
  exact (write64_eqOn hfar).trans ((write64_eqOn hfar8).trans
    ((setNextPrev_eqOn (by rw [hs]; exact hSn)).trans h1))

theorem listInsert_eqOn {S : Set ℕ} (hr : r % 4096 = 0) (hlt : s.freelist order < 2 ^ 64)
    (hS : ∀ x ∈ S, x < r ∨ r + 4096 ≤ x)
    (hSh : s.freelist order ≠ 0 →
      ∀ x ∈ S, x < s.freelist order ∨ s.freelist order + 4096 ≤ x) :
    Set.EqOn (listInsert order r s).mem s.mem S := by
  set t := (s.setOrder r order).setPrev r 0 with ht
  have hf : t.freelist order = s.freelist order := rfl
  have hn : (t.setNext r (s.freelist order)).next r = s.freelist order := by
    rw [next_setNext hr hr hlt, if_pos rfl]
  have hfar : ∀ k n, k + n ≤ 4096 → ∀ x ∈ S, x < r + k ∨ r + k + n ≤ x := fun k n hk x hx => by
    have := hS x hx
    omega
  have h2 : Set.EqOn t.mem s.mem S := by
    rw [ht, Phys.setPrev_mem, Phys.setOrder_mem]
    exact (write64_eqOn (hfar 8 8 (by omega))).trans (write32_eqOn (hfar 16 4 (by omega)))
  have h3 : Set.EqOn (t.setNext r (s.freelist order)).mem t.mem S := by
    rw [Phys.setNext_mem]
    exact write64_eqOn (hfar 0 8 (by omega))
  have h4 : Set.EqOn (setNextPrev r r (t.setNext r (s.freelist order))).mem
      (t.setNext r (s.freelist order)).mem S := setNextPrev_eqOn (by rw [hn]; exact hSh)
  simp only [listInsert, Phys.setFreelist_mem]
  rw [← ht, hf]
  exact h4.trans (h3.trans h2)

end Links

/-! ## The four moves -/

namespace Buddy

variable {s : Phys} {R : Set ℕ} {live : Set (ℕ × ℕ)} {a o i : ℕ}

theorem free_subset (h : Buddy s R live) : region s.free ⊆ R :=
  h.cover ▸ Set.subset_union_left

theorem live_subset (h : Buddy s R live) : region live ⊆ R :=
  h.cover ▸ Set.subset_union_right

theorem bounds {b : ℕ × ℕ} (h : Buddy s R live) (hb : span 4096 b ⊆ R) :
    2147483648 ≤ b.1 ∧ b.1 + 4096 * 2 ^ b.2 ≤ 2281701376 := by
  have hpos := size_pos (u := 4096) (by omega) b.2
  have h1 := h.managed (hb (start_mem_span (by omega) b))
  have h2 := h.managed (hb (show b.1 + 4096 * 2 ^ b.2 - 1 ∈ span 4096 b by rw [mem_span]; omega))
  simp only [kernBase, physTop, Set.mem_Ico] at h1 h2
  omega

/-- A free block starts at a page of the memory. -/
theorem node (h : Buddy s R live) (hb : (a, o) ∈ s.free) :
    a % 4096 = 0 ∧ 2147483648 ≤ a ∧ a + 4096 * 2 ^ o ≤ 2281701376 := by
  have hal := h.freeTiles.aligned _ hb
  have hbd := h.bounds ((span_subset_region hb).trans h.free_subset)
  have hmod : a % 4096 = 0 := Nat.mod_eq_zero_of_dvd ((Dvd.intro _ rfl).trans hal)
  exact ⟨hmod, hbd⟩

theorem order_eq {p : ℕ} (hb : (a, o) ∈ s.free) (hp : (a, p) ∈ s.free) : o = p := by
  obtain ⟨i, hi, hai, hs, -⟩ := Phys.mem_free.1 hb
  obtain ⟨j, hj, haj, hs', -⟩ := Phys.mem_free.1 hp
  obtain rfl : i = j := by omega
  omega

theorem freelist_mem (h : Buddy s R live) (ho : o ≤ 15) (hne : s.freelist o ≠ 0) :
    (s.freelist o, o) ∈ s.free := by
  obtain ⟨l, -, hl, hmem⟩ := h.lists o ho
  exact (hmem _).1 (hl.head_mem hne)

theorem freelist_page (h : Buddy s R live) (ho : o ≤ 15) :
    s.freelist o % 4096 = 0 ∧ s.freelist o < 2 ^ 64 := by
  by_cases hne : s.freelist o = 0
  · simp [hne]
  · have := h.node (h.freelist_mem ho hne)
    have := size_pos (u := 4096) (by omega) o
    exact ⟨by omega, by omega⟩

/-- What lies outside a block is not in the page it starts with. -/
theorem far_of_not_mem {x : ℕ} (hx : x ∉ span 4096 (a, o)) : x < a ∨ a + 4096 ≤ x := by
  have : 4096 * 1 ≤ 4096 * 2 ^ o := Nat.mul_le_mul_left _ Nat.one_le_two_pow
  rw [mem_span] at hx
  dsimp only at hx
  omega

theorem take (h : Buddy s R live) (hi : i < 32768) (ha : a = 2147483648 + 4096 * i)
    (hb : (a, o) ∈ s.free) :
    Buddy ((listRemove o a s).setPageState i pageStateAlloc) R (insert (a, o) live) ∧
      ((listRemove o a s).setPageState i pageStateAlloc).free = s.free \ {(a, o)} ∧
      Set.EqOn (listRemove o a s).mem s.mem (region live) := by
  subst ha
  set a := 2147483648 + 4096 * i with ha
  obtain ⟨hst, ho⟩ := (Phys.mem_free_index hi).1 hb
  obtain ⟨l, hnd, hl, hmem⟩ := h.lists o ho
  have hal : a ∈ l := (hmem a).2 hb
  obtain ⟨hamod, halo, -⟩ := h.node hb
  have ha0 : a ≠ 0 := by omega
  have hpa : s.prev a ≠ a := hl.prev_ne hnd hal
  have hnext : s.next a ≠ 0 → (s.next a, o) ∈ s.free := fun hne =>
    (hmem _).1 (hl.next_mem hal hne)
  have hprev : s.prev a ≠ 0 → (s.prev a, o) ∈ s.free := fun hne =>
    (hmem _).1 ((hl.prev_mem hal).resolve_left hne)
  have hnmod : s.next a % 4096 = 0 := by
    by_cases hne : s.next a = 0
    · simp [hne]
    · exact (h.node (hnext hne)).1
  have hpmod : s.prev a % 4096 = 0 := by
    by_cases hne : s.prev a = 0
    · simp [hne]
    · exact (h.node (hprev hne)).1
  have hfree : ((listRemove o a s).setPageState i pageStateAlloc).free = s.free \ {(a, o)} := by
    rw [Phys.free_setPageState_alloc hi (by rw [listRemove_pageState, hst]),
      Phys.free_congr listRemove_pageState]
  have hdisj : Disjoint (span 4096 (a, o)) (region live) :=
    h.apart.mono_left (span_subset_region hb)
  have hregion : region (insert (a, o) live) = span 4096 (a, o) ∪ region live :=
    region_insert _ _
  refine ⟨?_, hfree, ?_⟩
  · constructor
    · intro j hj
      rw [Phys.setPageState_pageState, listRemove_pageState]
      by_cases hji : j = i
      · exact Or.inl (by rw [hji, Function.update_self])
      · rw [Function.update_of_ne hji]
        exact h.state j hj
    · intro p hp
      simp only [next_setPageState, prev_setPageState, Phys.setPageState_freelist, hfree]
      by_cases hpo : p = o
      · subst hpo
        refine ⟨l.erase a, hnd.erase a, ?_, ?_⟩
        · have hhead : (listRemove p a s).freelist p =
              if s.prev a = 0 then s.next a else s.freelist p := by
            rw [listRemove_freelist]
            by_cases hz : s.prev a = 0
            · rw [if_pos ⟨hz, hl.head_of_prev_eq_zero hal hz⟩, if_pos hz, Function.update_self]
            · rw [if_neg (fun hc => hz hc.1), if_neg hz]
          rw [hhead]
          refine hl.remove hnd hal (fun c hc hca => ?_) fun c hc hca => ?_
          · exact next_listRemove hamod hpmod hnmod ha0 hpa (h.node ((hmem c).1 hc)).1 hca
              (hl.ne_zero hc)
          · exact prev_listRemove hamod hpmod hnmod ha0 hpa (h.node ((hmem c).1 hc)).1 hca
              (hl.ne_zero hc)
        · intro c
          rw [hnd.mem_erase_iff, hmem]
          simp [and_comm]
      · obtain ⟨l', hnd', hl', hmem'⟩ := h.lists p hp
        have hne : ∀ c ∈ l', ∀ d, (d, o) ∈ s.free → c ≠ d := by
          rintro c hc d hd rfl
          exact hpo (order_eq ((hmem' c).1 hc) hd)
        have hcp : ∀ c ∈ l', c ≠ s.prev a := fun c hc he =>
          hne c hc (s.prev a) (hprev (he ▸ hl'.ne_zero hc)) he
        have hcn : ∀ c ∈ l', c ≠ s.next a := fun c hc he =>
          hne c hc (s.next a) (hnext (he ▸ hl'.ne_zero hc)) he
        refine ⟨l', hnd', ?_, ?_⟩
        · have hhead : (listRemove o a s).freelist p = s.freelist p := by
            rw [listRemove_freelist]
            split_ifs
            · exact Function.update_of_ne hpo _ _
            · rfl
          rw [hhead]
          refine hl'.congr (fun c hc => ?_) fun c hc => ?_
          · rw [next_listRemove hamod hpmod hnmod ha0 hpa (h.node ((hmem' c).1 hc)).1
              (hne c hc a hb) (hl'.ne_zero hc), if_neg (hcp c hc)]
          · rw [prev_listRemove hamod hpmod hnmod ha0 hpa (h.node ((hmem' c).1 hc)).1
              (hne c hc a hb) (hl'.ne_zero hc), if_neg (hcn c hc)]
        · intro c
          rw [hmem', Set.mem_sdiff, Set.mem_singleton_iff, Prod.mk.injEq]
          exact ⟨fun hc => ⟨hc, fun he => hpo he.2⟩, fun hc => hc.1⟩
    · rw [hfree]
      exact (h.freeTiles.erase hb).toRegion
    · exact (h.liveTiles.insert (h.freeTiles.aligned _ hb) hdisj).toRegion
    · rw [hfree, region_erase h.freeTiles hb, hregion, Set.disjoint_union_right]
      exact ⟨Set.disjoint_sdiff_left, h.apart.mono_left Set.sdiff_subset⟩
    · rw [hfree, region_erase h.freeTiles hb, hregion, ← Set.union_assoc,
        Set.sdiff_union_of_subset (span_subset_region hb), h.cover]
    · rw [hfree]
      exact fun c p hp hal hc hc' => h.coalesced c p hp hal hc.1 hc'.1
    · exact h.managed
  · have hout : ∀ c, (c, o) ∈ s.free → ∀ x ∈ region live, x < c ∨ c + 4096 ≤ x :=
      fun c hc x hx => far_of_not_mem fun hxc =>
        Set.disjoint_left.1 h.apart (span_subset_region hc hxc) hx
    exact listRemove_eqOn hamod hpmod ha0 hpa (hout a hb) (fun hz => hout _ (hprev hz))
      fun hz => hout _ (hnext hz)

/-- The pages of a live block are not recorded as free. -/
theorem pageState_live (h : Buddy s R live) (hi : i < 32768)
    (hx : 2147483648 + 4096 * i ∈ region live) : s.pageState i = pageStateAlloc := by
  rcases h.state i hi with hs | ⟨o, ho, hs⟩
  · exact hs
  · have hb : (2147483648 + 4096 * i, o) ∈ s.free := (Phys.mem_free_index hi).2 ⟨hs, ho⟩
    exact absurd hx (Set.disjoint_left.1 h.apart (start_mem_region hb))

/-- Put a live block on its free list, where it has no free buddy. -/
theorem give (h : Buddy s R live) (hi : i < 32768) (ha : a = 2147483648 + 4096 * i)
    (ho : o ≤ 15) (hb : (a, o) ∈ live)
    (hco : Coalesced 4096 15 (insert (a, o) s.free)) :
    Buddy ((listInsert o a s).setPageState i o) R (live \ {(a, o)}) ∧
      ((listInsert o a s).setPageState i o).free = insert (a, o) s.free ∧
      Set.EqOn (listInsert o a s).mem s.mem (region (live \ {(a, o)})) := by
  have hst : s.pageState i = pageStateAlloc := h.pageState_live hi (ha ▸ start_mem_region hb)
  have hamod : a % 4096 = 0 := by omega
  have ha0 : a ≠ 0 := by omega
  obtain ⟨l, hnd, hl, hmem⟩ := h.lists o ho
  obtain ⟨hhmod, hhlt⟩ := h.freelist_page ho
  have halive : a ∈ region live := start_mem_region hb
  have hnew : ∀ c p, (c, p) ∈ s.free → c ≠ a := by
    intro c p hc he
    have hcfree : c ∈ region s.free := start_mem_region hc
    exact Set.disjoint_left.1 h.apart hcfree (he ▸ halive)
  have hfree : ((listInsert o a s).setPageState i o).free = insert (a, o) s.free := by
    rw [Phys.free_setPageState_order hi (by rw [listInsert_pageState, hst]) ho,
      Phys.free_congr listInsert_pageState, ha]
  have hdisj : Disjoint (span 4096 (a, o)) (region s.free) :=
    (h.apart.mono_right (span_subset_region hb)).symm
  refine ⟨?_, hfree, ?_⟩
  · constructor
    · intro j hj
      rw [Phys.setPageState_pageState, listInsert_pageState]
      by_cases hji : j = i
      · exact Or.inr ⟨o, ho, by rw [hji, Function.update_self]⟩
      · rw [Function.update_of_ne hji]
        exact h.state j hj
    · intro p hp
      simp only [next_setPageState, prev_setPageState, Phys.setPageState_freelist, hfree,
        listInsert_freelist]
      by_cases hpo : p = o
      · subst hpo
        refine ⟨a :: l, List.nodup_cons.2 ⟨fun hc => hnew a p ((hmem a).1 hc) rfl, hnd⟩, ?_, ?_⟩
        · rw [Function.update_self]
          have hhead : a ≠ s.freelist p := fun he =>
            hnew _ p (h.freelist_mem hp (he ▸ ha0)) he.symm
          refine hl.insert ha0 hnd ?_ ?_ (fun c hc => ?_) fun c hc => ?_
          · rw [next_listInsert hamod hhmod hhlt hamod, if_pos rfl]
          · rw [prev_listInsert hamod hhmod hhlt (by omega) hamod ha0, if_neg hhead, if_pos rfl]
          · have hca := hnew c p ((hmem c).1 hc)
            rw [next_listInsert hamod hhmod hhlt (h.node ((hmem c).1 hc)).1, if_neg hca]
          · have hca := hnew c p ((hmem c).1 hc)
            rw [prev_listInsert hamod hhmod hhlt (by omega) (h.node ((hmem c).1 hc)).1
              (hl.ne_zero hc), if_neg hca]
        · intro c
          simp [hmem]
      · obtain ⟨l', hnd', hl', hmem'⟩ := h.lists p hp
        refine ⟨l', hnd', ?_, ?_⟩
        · rw [Function.update_of_ne hpo]
          refine hl'.congr (fun c hc => ?_) fun c hc => ?_
          · have hca := hnew c p ((hmem' c).1 hc)
            rw [next_listInsert hamod hhmod hhlt (h.node ((hmem' c).1 hc)).1, if_neg hca]
          · have hca := hnew c p ((hmem' c).1 hc)
            have hch : c ≠ s.freelist o := by
              rintro rfl
              exact hpo (order_eq ((hmem' _).1 hc) (h.freelist_mem ho (hl'.ne_zero hc)))
            rw [prev_listInsert hamod hhmod hhlt (by omega) (h.node ((hmem' c).1 hc)).1
              (hl'.ne_zero hc), if_neg hch, if_neg hca]
        · intro c
          rw [hmem', Set.mem_insert_iff, Prod.mk.injEq]
          exact ⟨Or.inr, fun hc => hc.resolve_left fun he => hpo he.2⟩
    · rw [hfree]
      exact (h.freeTiles.insert (h.liveTiles.aligned _ hb) hdisj).toRegion
    · exact (h.liveTiles.erase hb).toRegion
    · rw [hfree, region_insert, region_erase h.liveTiles hb, Set.disjoint_union_left]
      exact ⟨Set.disjoint_sdiff_right, h.apart.mono_right Set.sdiff_subset⟩
    · rw [hfree, region_insert, region_erase h.liveTiles hb, Set.union_comm (span _ _),
        Set.union_assoc, Set.union_sdiff_cancel (span_subset_region hb), h.cover]
    · rw [hfree]
      exact hco
    · exact h.managed
  · refine listInsert_eqOn hamod hhlt (fun x hx => ?_) fun hne x hx => ?_
    · rw [region_erase h.liveTiles hb] at hx
      exact far_of_not_mem hx.2
    · have hfm := h.freelist_mem ho hne
      refine far_of_not_mem fun hxc => Set.disjoint_left.1 h.apart (span_subset_region hfm hxc) ?_
      exact region_mono Set.sdiff_subset hx

/-- Other memory than that of the free blocks may change. -/
theorem setMem {m : Mem} (h : Buddy s R live) (hm : Set.EqOn m s.mem (region s.free)) :
    Buddy (s.setMem m) R live := by
  have hfree : (s.setMem m).free = s.free := Phys.free_congr rfl
  have hword : ∀ c p, (c, p) ∈ s.free → ∀ k, k + 8 ≤ 4096 →
      read64 m (c + k) = read64 s.mem (c + k) := by
    intro c p hc k hk
    refine read64_congr (hm.mono fun x hx => span_subset_region hc ?_)
    have : 4096 * 1 ≤ 4096 * 2 ^ p := Nat.mul_le_mul_left _ Nat.one_le_two_pow
    have h1 := hx.1
    have h2 := hx.2
    rw [mem_span]
    dsimp only
    omega
  constructor
  · exact h.state
  · intro o ho
    obtain ⟨l, hnd, hl, hmem⟩ := h.lists o ho
    refine ⟨l, hnd, ?_, by rw [hfree]; exact hmem⟩
    refine hl.congr (fun c hc => ?_) fun c hc => ?_
    · exact hword c o ((hmem c).1 hc) 0 (by omega)
    · exact hword c o ((hmem c).1 hc) 8 (by omega)
  · rw [hfree]
    exact h.freeTiles
  · exact h.liveTiles
  · rw [hfree]
    exact h.apart
  · rw [hfree]
    exact h.cover
  · rw [hfree]
    exact h.coalesced
  · exact h.managed

/-- The blocks in hand may be cut and joined as long as they cover the same region. -/
theorem recut {live' : Set (ℕ × ℕ)} (h : Buddy s R live) (ht : Tiles 4096 live' (region live)) :
    Buddy s R live' := by
  have he := ht.region_eq
  exact ⟨h.state, h.lists, h.freeTiles, ht.toRegion, he ▸ h.apart, he ▸ h.cover, h.coalesced,
    h.managed⟩

theorem split (h : Buddy s R live) (hb : (a, o + 1) ∈ live) :
    Buddy s R (insert (a, o) (insert (a + 4096 * 2 ^ o, o) (live \ {(a, o + 1)}))) :=
  h.recut (h.liveTiles.split hb)

theorem merge (h : Buddy s R live) (hal : 4096 * 2 ^ (o + 1) ∣ a) (hlo : (a, o) ∈ live)
    (hup : (a + 4096 * 2 ^ o, o) ∈ live) :
    Buddy s R (insert (a, o + 1) ((live \ {(a, o)}) \ {(a + 4096 * 2 ^ o, o)})) :=
  h.recut (h.liveTiles.merge (by omega) hal hlo hup)

end Buddy

end Xv6Plus
