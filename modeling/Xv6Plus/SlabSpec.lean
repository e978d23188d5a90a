import Xv6Plus.Bits
import Xv6Plus.Slab
import Xv6Plus.Owns

/-!
# The invariant of a slab cache

`Slabs` is what a cache stands for : the slabs on each of its lists, the page of objects
of each slab, and the bits of its free objects. `CacheInv s R frame G` says that the
memory represents `G`, and that the pages of the cache and the blocks `frame` of
everybody else are what the page allocator has handed out. Only the pages of the cache
and free memory are ever written, so the other holders are a frame around every
operation.
-/

namespace Xv6Plus

/-! ## Reading and writing headers -/

namespace Phys

variable {s : Phys} {a b v : ℕ}

theorem slab_setSlabNext (ha : a % 4096 = 0) (hb : b % 4096 = 0) (hv : v < 2 ^ 64) :
    (s.setSlabNext a v).slab b = if b = a then { s.slab b with next := v } else s.slab b := by
  split_ifs with h
  · subst h
    simp only [slab, setSlabNext, setMem_mem, read64_write64_same _ _ hv, SlabHeader.mk.injEq,
      true_and]
    refine ⟨read64_write64_ne ?_, read32_write64_ne ?_, read32_write64_ne ?_,
      read64_write64_ne ?_⟩ <;> omega
  · simp only [slab, setSlabNext, setMem_mem, SlabHeader.mk.injEq]
    refine ⟨read64_write64_ne ?_, read64_write64_ne ?_, read32_write64_ne ?_,
      read32_write64_ne ?_, read64_write64_ne ?_⟩ <;> omega

theorem slab_setSlabMem (ha : a % 4096 = 0) (hb : b % 4096 = 0) (hv : v < 2 ^ 64) :
    (s.setSlabMem a v).slab b = if b = a then { s.slab b with mem := v } else s.slab b := by
  split_ifs with h
  · subst h
    simp only [slab, setSlabMem, setMem_mem, read64_write64_same _ _ hv, SlabHeader.mk.injEq,
      true_and]
    refine ⟨read64_write64_ne ?_, read32_write64_ne ?_, read32_write64_ne ?_,
      read64_write64_ne ?_⟩ <;> omega
  · simp only [slab, setSlabMem, setMem_mem, SlabHeader.mk.injEq]
    refine ⟨read64_write64_ne ?_, read64_write64_ne ?_, read32_write64_ne ?_,
      read32_write64_ne ?_, read64_write64_ne ?_⟩ <;> omega

theorem slab_setSlabFreemap (ha : a % 4096 = 0) (hb : b % 4096 = 0) (hv : v < 2 ^ 64) :
    (s.setSlabFreemap a v).slab b =
      if b = a then { s.slab b with freemap := v } else s.slab b := by
  split_ifs with h
  · subst h
    simp only [slab, setSlabFreemap, setMem_mem, read64_write64_same _ _ hv,
      SlabHeader.mk.injEq, and_true]
    refine ⟨read64_write64_ne ?_, read64_write64_ne ?_, read32_write64_ne ?_,
      read32_write64_ne ?_⟩ <;> omega
  · simp only [slab, setSlabFreemap, setMem_mem, SlabHeader.mk.injEq]
    refine ⟨read64_write64_ne ?_, read64_write64_ne ?_, read32_write64_ne ?_,
      read32_write64_ne ?_, read64_write64_ne ?_⟩ <;> omega

theorem slab_setSlabCapacity (ha : a % 4096 = 0) (hb : b % 4096 = 0) (hv : v < 2 ^ 32) :
    (s.setSlabCapacity a v).slab b =
      if b = a then { s.slab b with capacity := v } else s.slab b := by
  split_ifs with h
  · subst h
    simp only [slab, setSlabCapacity, setMem_mem, read32_write32_same _ _ hv,
      SlabHeader.mk.injEq, true_and]
    refine ⟨read64_write32_ne ?_, read64_write32_ne ?_, read32_write32_ne ?_,
      read64_write32_ne ?_⟩ <;> omega
  · simp only [slab, setSlabCapacity, setMem_mem, SlabHeader.mk.injEq]
    refine ⟨read64_write32_ne ?_, read64_write32_ne ?_, read32_write32_ne ?_,
      read32_write32_ne ?_, read64_write32_ne ?_⟩ <;> omega

theorem slab_setSlabNrFree (ha : a % 4096 = 0) (hb : b % 4096 = 0) (hv : v < 2 ^ 32) :
    (s.setSlabNrFree a v).slab b =
      if b = a then { s.slab b with nrFree := v } else s.slab b := by
  split_ifs with h
  · subst h
    simp only [slab, setSlabNrFree, setMem_mem, read32_write32_same _ _ hv,
      SlabHeader.mk.injEq, true_and]
    refine ⟨read64_write32_ne ?_, read64_write32_ne ?_, read32_write32_ne ?_,
      read64_write32_ne ?_⟩ <;> omega
  · simp only [slab, setSlabNrFree, setMem_mem, SlabHeader.mk.injEq]
    refine ⟨read64_write32_ne ?_, read64_write32_ne ?_, read32_write32_ne ?_,
      read32_write32_ne ?_, read64_write32_ne ?_⟩ <;> omega

/-- A header is a fact about the bytes of its page. -/
theorem slab_congr {t : Phys} (h : Set.EqOn t.mem s.mem (span 4096 (b, 0))) :
    t.slab b = s.slab b := by
  have hsub : ∀ {lo hi}, b ≤ lo → hi ≤ b + 4096 → Set.Ico lo hi ⊆ span 4096 (b, 0) := by
    intro lo hi h1 h2 x hx
    rw [mem_span]
    exact ⟨h1.trans hx.1, hx.2.trans_le (by simpa using h2)⟩
  simp only [slab, SlabHeader.mk.injEq]
  refine ⟨read64_congr (h.mono (hsub ?_ ?_)), read64_congr (h.mono (hsub ?_ ?_)),
    read32_congr (h.mono (hsub ?_ ?_)), read32_congr (h.mono (hsub ?_ ?_)),
    read64_congr (h.mono (hsub ?_ ?_))⟩ <;> omega

end Phys

/-! ## What a cache stands for -/

/-- The slabs of a cache : the headers on each list, the page of objects of a slab, and
the bits of its free objects. -/
structure Slabs where
  list : SlabList → List ℕ
  page : ℕ → ℕ
  map : ℕ → ℕ

/-- The number of objects in a slab. -/
def slabCapacity (objSize : ℕ) : ℕ := min 64 (4096 / objSize)

/-- The slabs a list is for, by their free objects and their capacity. -/
def SlabList.Fits (nrFree capacity : ℕ) : SlabList → Prop
  | .partialList => 0 < nrFree ∧ nrFree < capacity
  | .fullList => nrFree = 0
  | .emptyList => nrFree = capacity

namespace Slabs

def all (G : Slabs) : Set ℕ := {a | ∃ l, a ∈ G.list l}

/-- The pages of the cache, as blocks of the page allocator. -/
def blocks (G : Slabs) : Set (ℕ × ℕ) := {b | (b.1 ∈ G.all ∨ ∃ a ∈ G.all, G.page a = b.1) ∧ b.2 = 0}

/-- The live objects. -/
def objs (G : Slabs) (objSize : ℕ) : Set ℕ :=
  {x | ∃ a ∈ G.all, ∃ j < slabCapacity objSize, ¬(G.map a).testBit j ∧ x = G.page a + j * objSize}

/-- No slab is on two lists or twice on one, and no page has two uses. -/
structure Distinct (G : Slabs) : Prop where
  nodup : ∀ l, (G.list l).Nodup
  one : ∀ {l l' a}, a ∈ G.list l → a ∈ G.list l' → l = l'
  page_inj : ∀ a ∈ G.all, ∀ b ∈ G.all, G.page a = G.page b → a = b
  page_ne : ∀ a ∈ G.all, ∀ b ∈ G.all, G.page a ≠ b

/-- Each list has the slabs it is for. -/
def Sorted (G : Slabs) (objSize : ℕ) : Prop :=
  ∀ l, ∀ a ∈ G.list l, l.Fits (popcount (G.map a)) (slabCapacity objSize)

/-- The same slabs on other lists. -/
structure SameSlabs (G' G : Slabs) : Prop where
  all : G'.all = G.all
  page : G'.page = G.page
  map : G'.map = G.map
  distinct : G'.Distinct

theorem SameSlabs.blocks {G' G : Slabs} (h : G'.SameSlabs G) : G'.blocks = G.blocks := by
  unfold Slabs.blocks
  rw [h.all, h.page]

theorem SameSlabs.objs {G' G : Slabs} (h : G'.SameSlabs G) (objSize : ℕ) :
    G'.objs objSize = G.objs objSize := by
  unfold Slabs.objs
  rw [h.all, h.page, h.map]

def setMap (G : Slabs) (a v : ℕ) : Slabs := { G with map := Function.update G.map a v }

theorem setMap_self (G : Slabs) (a v : ℕ) : (G.setMap a v).map a = v := Function.update_self ..

theorem setMap_of_ne (G : Slabs) {a b : ℕ} (h : b ≠ a) (v : ℕ) :
    (G.setMap a v).map b = G.map b := Function.update_of_ne h _ _

/-- Put `a` on the list `l` and on no other. -/
def move (G : Slabs) (l : SlabList) (a : ℕ) : Slabs :=
  { G with list := fun k => if k = l then a :: (G.list k).erase a else (G.list k).erase a }

theorem move_list (G : Slabs) (l k : SlabList) (a : ℕ) : (G.move l a).list k =
    if k = l then a :: (G.list k).erase a else (G.list k).erase a := rfl

/-- A new slab, to begin with on the list of the full ones. -/
def add (G : Slabs) (a page map : ℕ) : Slabs where
  list := Function.update G.list .fullList (a :: G.list .fullList)
  page := Function.update G.page a page
  map := Function.update G.map a map

/-- Forget the slab `a`. -/
def drop (G : Slabs) (a : ℕ) : Slabs := { G with list := fun k => (G.list k).erase a }

theorem Distinct.mem_move {G : Slabs} {l k : SlabList} {a b : ℕ} (h : G.Distinct) :
    b ∈ (G.move l a).list k ↔ (b = a ∧ k = l) ∨ (b ≠ a ∧ b ∈ G.list k) := by
  have he := (h.nodup k).mem_erase_iff (a := b) (b := a)
  by_cases hk : k = l
  · rw [move_list, if_pos hk, List.mem_cons, he]
    tauto
  · rw [move_list, if_neg hk, he]
    tauto

theorem Distinct.move {G : Slabs} {l : SlabList} {a : ℕ} (h : G.Distinct) (ha : a ∈ G.all) :
    (G.move l a).SameSlabs G := by
  have hall : (G.move l a).all = G.all := by
    ext b
    constructor
    · rintro ⟨k, hb⟩
      rcases h.mem_move.1 hb with ⟨rfl, -⟩ | ⟨-, hb⟩
      · exact ha
      · exact ⟨k, hb⟩
    · rintro ⟨k, hb⟩
      by_cases hba : b = a
      · exact ⟨l, h.mem_move.2 (.inl ⟨hba, rfl⟩)⟩
      · exact ⟨k, h.mem_move.2 (.inr ⟨hba, hb⟩)⟩
  refine ⟨hall, rfl, rfl, ⟨fun k => ?_, fun {k k' b} hb hb' => ?_, ?_, ?_⟩⟩
  · by_cases hk : k = l
    · rw [Slabs.move_list, if_pos hk]
      exact List.nodup_cons.2 ⟨(h.nodup k).not_mem_erase, (h.nodup k).erase a⟩
    · rw [Slabs.move_list, if_neg hk]
      exact (h.nodup k).erase a
  · rcases h.mem_move.1 hb with ⟨rfl, rfl⟩ | ⟨hne, hb⟩ <;>
      rcases h.mem_move.1 hb' with ⟨he, rfl⟩ | ⟨hne', hb'⟩
    · rfl
    · exact absurd rfl hne'
    · exact absurd he hne
    · exact h.one hb hb'
  · rw [hall]
    exact h.page_inj
  · rw [hall]
    exact h.page_ne

end Slabs

/-- The link of a slab. -/
def Phys.link (p : Phys) (a : ℕ) : ℕ := (p.slab a).next

/-- The header of a slab says what the slab stands for. -/
structure HeaderOk (h : SlabHeader) (page n map : ℕ) : Prop where
  mem : h.mem = page
  capacity : h.capacity = n
  nrFree : h.nrFree = popcount map
  freemap : h.freemap = map
  low : ∀ i, map.testBit i → i < n

/-- The memory and the heads of the lists represent the slabs `G`. The slab `x` is in
hand : it is off its list for the moment. With `x` null no slab is. -/
structure CacheInv (p : Phys) (R : Set ℕ) (frame : Set (ℕ × ℕ)) (c : KmemCache) (G : Slabs)
    (x : ℕ) : Prop where
  size : ∃ k < 6, c.objSize = 64 * 2 ^ k
  owns : Owns p R G.blocks frame
  distinct : G.Distinct
  links : ∀ l, SList p.link (c.head l) ((G.list l).erase x)
  header : ∀ a ∈ G.all, HeaderOk (p.slab a) (G.page a) (slabCapacity c.objSize) (G.map a)

theorem slabCapacity_bounds {sz : ℕ} (h : ∃ k < 6, sz = 64 * 2 ^ k) :
    2 ≤ slabCapacity sz ∧ slabCapacity sz ≤ 64 ∧ slabCapacity sz * sz = 4096 ∧ 0 < sz := by
  obtain ⟨k, hk, rfl⟩ := h
  revert k
  unfold slabCapacity
  decide

namespace CacheInv

variable {p p' : Phys} {R : Set ℕ} {frame : Set (ℕ × ℕ)} {c : KmemCache} {G : Slabs} {a b j x : ℕ}

theorem all_block (ha : a ∈ G.all) : (a, 0) ∈ G.blocks := ⟨Or.inl ha, rfl⟩

theorem page_block (ha : a ∈ G.all) : (G.page a, 0) ∈ G.blocks := ⟨Or.inr ⟨a, ha, rfl⟩, rfl⟩

theorem mem_all {l : SlabList} (ha : a ∈ G.list l) : a ∈ G.all := ⟨l, ha⟩

theorem aligned (h : CacheInv p R frame c G x) (ha : a ∈ G.all) :
    a % 4096 = 0 ∧ 2147483648 ≤ a ∧ a + 4096 ≤ 2281701376 :=
  h.owns.page (all_block ha)

theorem page_aligned (h : CacheInv p R frame c G x) (ha : a ∈ G.all) :
    G.page a % 4096 = 0 ∧ 2147483648 ≤ G.page a ∧ G.page a + 4096 ≤ 2281701376 :=
  h.owns.page (page_block ha)

theorem object_bounds (h : CacheInv p R frame c G x) (hj : j < slabCapacity c.objSize) :
    j * c.objSize + c.objSize ≤ 4096 := by
  obtain ⟨-, -, hmul, -⟩ := slabCapacity_bounds h.size
  calc j * c.objSize + c.objSize = (j + 1) * c.objSize := by ring
    _ ≤ slabCapacity c.objSize * c.objSize := Nat.mul_le_mul_right _ hj
    _ = 4096 := hmul

/-- An address determines the slab and the index of the object it starts. -/
theorem object_inj {k : ℕ} (h : CacheInv p R frame c G x) (ha : a ∈ G.all) (hb : b ∈ G.all)
    (hj : j < slabCapacity c.objSize) (hk : k < slabCapacity c.objSize)
    (he : G.page a + j * c.objSize = G.page b + k * c.objSize) : a = b ∧ j = k := by
  have h1 := h.page_aligned ha
  have h2 := h.page_aligned hb
  have h3 := h.object_bounds hj
  have h4 := h.object_bounds hk
  obtain ⟨-, -, -, hpos⟩ := slabCapacity_bounds h.size
  have hpage : G.page a = G.page b := by omega
  refine ⟨h.distinct.page_inj a ha b hb hpage, ?_⟩
  have hmul : j * c.objSize = k * c.objSize := by omega
  exact Nat.eq_of_mul_eq_mul_right hpos hmul

/-- Changing headers and objects : the memory is written in pages of the cache only, and
the headers stand for `G'`, which has the same slabs. -/
theorem store {G' : Slabs} (h : CacheInv p R frame c G x) (hw : WritesOwn G.blocks p p')
    (hlist : G'.list = G.list) (hpage : G'.page = G.page)
    (hnext : ∀ a ∈ G.all, p'.link a = p.link a)
    (hheader : ∀ a ∈ G.all, HeaderOk (p'.slab a) (G.page a) (slabCapacity c.objSize) (G'.map a)) :
    CacheInv p' R frame c G' x ∧ Keeps frame p p' := by
  obtain ⟨list', page', map'⟩ := G'
  obtain ⟨rfl, rfl⟩ : list' = G.list ∧ page' = G.page := ⟨hlist, hpage⟩
  obtain ⟨howns, hkeep⟩ := h.owns.store hw
  refine ⟨⟨h.size, howns, ⟨h.distinct.nodup, h.distinct.one, h.distinct.page_inj,
    h.distinct.page_ne⟩, fun l => ?_, hheader⟩, hkeep⟩
  exact (h.links l).congr fun a ha => hnext a (mem_all (List.mem_of_mem_erase ha))

theorem writes_header (h : (a, 0) ∈ G.blocks) {m : Mem}
    (hm : ∀ x, x < a ∨ a + 4096 ≤ x → m x = p.mem x) : WritesOwn G.blocks p (p.setMem m) := by
  refine .of_block h fun x hx => hm x ?_
  rw [Set.mem_compl_iff, mem_span] at hx
  dsimp only at hx
  omega

theorem writes_setSlabNext (h : (a, 0) ∈ G.blocks) (v : ℕ) :
    WritesOwn G.blocks p (p.setSlabNext a v) :=
  writes_header h fun _ hx => write64_eqOn (S := {x | x < a ∨ a + 4096 ≤ x})
    (fun _ hy => by rcases hy with hy | hy <;> omega) hx

theorem writes_setSlabMem (h : (a, 0) ∈ G.blocks) (v : ℕ) :
    WritesOwn G.blocks p (p.setSlabMem a v) :=
  writes_header h fun _ hx => write64_eqOn (S := {x | x < a ∨ a + 4096 ≤ x})
    (fun _ hy => by rcases hy with hy | hy <;> omega) hx

theorem writes_setSlabCapacity (h : (a, 0) ∈ G.blocks) (v : ℕ) :
    WritesOwn G.blocks p (p.setSlabCapacity a v) :=
  writes_header h fun _ hx => write32_eqOn (S := {x | x < a ∨ a + 4096 ≤ x})
    (fun _ hy => by rcases hy with hy | hy <;> omega) hx

theorem writes_setSlabNrFree (h : (a, 0) ∈ G.blocks) (v : ℕ) :
    WritesOwn G.blocks p (p.setSlabNrFree a v) :=
  writes_header h fun _ hx => write32_eqOn (S := {x | x < a ∨ a + 4096 ≤ x})
    (fun _ hy => by rcases hy with hy | hy <;> omega) hx

theorem writes_setSlabFreemap (h : (a, 0) ∈ G.blocks) (v : ℕ) :
    WritesOwn G.blocks p (p.setSlabFreemap a v) :=
  writes_header h fun _ hx => write64_eqOn (S := {x | x < a ∨ a + 4096 ≤ x})
    (fun _ hy => by rcases hy with hy | hy <;> omega) hx

theorem writes_object (h : CacheInv p R frame c G x) (ha : a ∈ G.all)
    (hj : j < slabCapacity c.objSize) (q : Phys) (v : UInt8) :
    WritesOwn G.blocks q (q.setMem (memset q.mem (G.page a + j * c.objSize) v c.objSize)) ∧
      ∀ b ∈ G.all,
        (q.setMem (memset q.mem (G.page a + j * c.objSize) v c.objSize)).slab b = q.slab b := by
  have hb := h.object_bounds hj
  refine ⟨writes_header (page_block ha) fun x hx => memset_eqOn
    (S := {x | x < G.page a ∨ G.page a + 4096 ≤ x})
    (fun y hy => by rcases hy with hy | hy <;> omega) hx, fun b hb' => Phys.slab_congr ?_⟩
  refine memset_eqOn fun x hx => ?_
  have h1 := h.aligned hb'
  have h2 := h.page_aligned ha
  have hne := h.distinct.page_ne a ha b hb'
  rw [mem_span] at hx
  norm_num at hx
  omega

/-- New contents of the counter and the bits of one slab. -/
theorem setMap {v : ℕ} (h : CacheInv p R frame c G x) (ha : a ∈ G.all)
    (hw : WritesOwn G.blocks p p')
    (hslab : ∀ b ∈ G.all, p'.slab b =
      if b = a then { p.slab b with freemap := v, nrFree := popcount v } else p.slab b)
    (hlow : ∀ i, v.testBit i → i < slabCapacity c.objSize) :
    CacheInv p' R frame c (G.setMap a v) x ∧ Keeps frame p p' := by
  refine h.store hw rfl rfl (fun b hb => ?_) fun b hb => ?_
  · rw [Phys.link, hslab b hb]
    split_ifs <;> rfl
  · have hok := h.header b hb
    rw [hslab b hb]
    by_cases hba : b = a
    · subst hba
      rw [if_pos rfl, Slabs.setMap_self]
      exact ⟨hok.mem, hok.capacity, rfl, rfl, hlow⟩
    · rw [if_neg hba, Slabs.setMap_of_ne G hba]
      exact hok

theorem takeObject_spec (h : CacheInv p R frame c G x) (ha : a ∈ G.all)
    (hj : j < slabCapacity c.objSize) (hbit : (G.map a).testBit j) :
    CacheInv (takeObject a c.objSize j p) R frame c
      (G.setMap a (Nat.ldiff (G.map a) (2 ^ j))) x ∧
        Keeps frame p (takeObject a c.objSize j p) := by
  have hok := h.header a ha
  have hcap := slabCapacity_bounds h.size
  set v := Nat.ldiff (G.map a) (2 ^ j) with hv
  have hlow : ∀ i, v.testBit i → i < slabCapacity c.objSize := by
    intro i hi
    rw [hv, testBit_clear, Bool.and_eq_true] at hi
    exact hok.low i hi.1
  have hv64 : v < 2 ^ 64 := lt_of_low hcap.2.1 hlow
  have hpop : popcount v + 1 = popcount (G.map a) := popcount_clear (by omega) hbit
  have hle := popcount_le v
  have hal := (h.aligned ha).1
  set p₁ := p.setSlabFreemap a v with hp₁
  have hs₁ : ∀ b ∈ G.all, p₁.slab b =
      if b = a then { p.slab b with freemap := v } else p.slab b :=
    fun b hb => Phys.slab_setSlabFreemap hal (h.aligned hb).1 hv64
  set p₂ := p₁.setSlabNrFree a (popcount v) with hp₂
  have hs₂ : ∀ b ∈ G.all, p₂.slab b =
      if b = a then { p.slab b with freemap := v, nrFree := popcount v } else p.slab b := by
    intro b hb
    rw [hp₂, Phys.slab_setSlabNrFree hal (h.aligned hb).1 (by omega), hs₁ b hb]
    split_ifs <;> rfl
  have hnr : ((p₁.slab a).nrFree + (2 ^ 32 - 1)) % 2 ^ 32 = popcount v := by
    rw [hs₁ a ha, if_pos rfl]
    dsimp only
    rw [hok.nrFree]
    omega
  have hmem : (p₂.slab a).mem = G.page a := by
    rw [hs₂ a ha, if_pos rfl]
    exact hok.mem
  have htake : takeObject a c.objSize j p =
      p₂.setMem (memset p₂.mem (G.page a + j * c.objSize) 0xAA c.objSize) := by
    rw [takeObject, hok.freemap, ← hv, ← hp₁, hnr, ← hp₂, hmem]
  obtain ⟨hwo, hso⟩ := h.writes_object ha hj p₂ 0xAA
  rw [htake]
  refine h.setMap ha (((writes_setSlabFreemap (all_block ha) v).trans
    (writes_setSlabNrFree (all_block ha) _)).trans hwo) (fun b hb => ?_) hlow
  rw [hso b hb, hs₂ b hb]

theorem slabFree_spec (h : CacheInv p R frame c G x) (ha : a ∈ G.all)
    (hj : j < slabCapacity c.objSize) (hbit : ¬(G.map a).testBit j) :
    CacheInv (slabFree a (G.page a + j * c.objSize) c.objSize p) R frame c
      (G.setMap a (G.map a ||| 2 ^ j)) x ∧
        Keeps frame p (slabFree a (G.page a + j * c.objSize) c.objSize p) := by
  have hok := h.header a ha
  have hcap := slabCapacity_bounds h.size
  set v := G.map a ||| 2 ^ j with hv
  have hlow : ∀ i, v.testBit i → i < slabCapacity c.objSize := by
    intro i hi
    rw [hv, testBit_set, Bool.or_eq_true, decide_eq_true_eq] at hi
    rcases hi with hi | rfl
    · exact hok.low i hi
    · exact hj
  have hv64 : v < 2 ^ 64 := lt_of_low hcap.2.1 hlow
  have hpop : popcount v = popcount (G.map a) + 1 := popcount_set (by omega) hbit
  have hle := popcount_le v
  have hal := (h.aligned ha).1
  obtain ⟨hwo, hso⟩ := h.writes_object ha hj p 0xDD
  set p₁ := p.setMem (memset p.mem (G.page a + j * c.objSize) 0xDD c.objSize) with hp₁
  set p₂ := p₁.setSlabFreemap a v with hp₂
  have hs₂ : ∀ b ∈ G.all, p₂.slab b =
      if b = a then { p.slab b with freemap := v } else p.slab b := by
    intro b hb
    rw [hp₂, Phys.slab_setSlabFreemap hal (h.aligned hb).1 hv64, hso b hb]
  have hidx : (G.page a + j * c.objSize - (p.slab a).mem) / c.objSize = j := by
    rw [hok.mem, Nat.add_sub_cancel_left, Nat.mul_div_cancel _ hcap.2.2.2]
  have hnr : ((p₂.slab a).nrFree + 1) % 2 ^ 32 = popcount v := by
    rw [hs₂ a ha, if_pos rfl]
    dsimp only
    rw [hok.nrFree]
    omega
  have hfree : slabFree a (G.page a + j * c.objSize) c.objSize p =
      p₂.setSlabNrFree a (popcount v) := by
    rw [slabFree, hidx, hok.capacity, hok.freemap]
    dsimp only
    rw [if_neg (by omega), if_neg hbit, ← hp₁, hso a ha, hok.freemap, ← hv, ← hp₂, hnr]
  rw [hfree]
  refine h.setMap ha ((hwo.trans (writes_setSlabFreemap (all_block ha) v)).trans
    (writes_setSlabNrFree (all_block ha) _)) (fun b hb => ?_) hlow
  rw [Phys.slab_setSlabNrFree hal (h.aligned hb).1 (by omega), hs₂ b hb]
  split_ifs <;> rfl

theorem zero_not_mem (h : CacheInv p R frame c G x) (l : SlabList) : 0 ∉ G.list l := fun h0 => by
  have := (h.aligned (mem_all h0)).2.1
  omega

theorem links_zero (h : CacheInv p R frame c G 0) (l : SlabList) :
    SList p.link (c.head l) (G.list l) := by
  have hl := h.links l
  rwa [List.erase_of_not_mem (h.zero_not_mem l)] at hl

theorem link_lt (p : Phys) (a : ℕ) : p.link a < 2 ^ 64 := read64_lt _ _

theorem head_lt (h : CacheInv p R frame c G x) (l : SlabList) : c.head l < 2 ^ 64 := by
  have hl := h.links l
  cases hL : (G.list l).erase x with
  | nil =>
    rw [hL] at hl
    rw [show c.head l = 0 from hl]
    norm_num
  | cons b t =>
    rw [hL] at hl
    have hb : b ∈ G.list l := List.mem_of_mem_erase (hL ▸ List.mem_cons_self)
    have := h.aligned (mem_all hb)
    rw [hl.1]
    omega

/-- Setting one link, with the lists read in a new way. -/
theorem setSlabNext {v : ℕ} {c' : KmemCache} {G' : Slabs} {y : ℕ} (h : CacheInv p R frame c G x)
    (ha : a ∈ G.all) (hv : v < 2 ^ 64) (hsize : c'.objSize = c.objSize) (hG : G'.SameSlabs G)
    (hlinks : ∀ l, SList (Function.update p.link a v) (c'.head l) ((G'.list l).erase y)) :
    CacheInv (p.setSlabNext a v) R frame c' G' y ∧ Keeps frame p (p.setSlabNext a v) := by
  have hslab : ∀ b ∈ G.all, (p.setSlabNext a v).slab b =
      if b = a then { p.slab b with next := v } else p.slab b :=
    fun b hb => Phys.slab_setSlabNext (h.aligned ha).1 (h.aligned hb).1 hv
  obtain ⟨howns, hkeep⟩ := h.owns.store (writes_setSlabNext (all_block ha) v)
  rw [← hG.blocks] at howns
  refine ⟨⟨hsize ▸ h.size, howns, hG.distinct, fun l => ?_, fun b hb => ?_⟩, hkeep⟩
  · refine (hlinks l).congr fun b hb => ?_
    rw [Phys.link, hslab b (hG.all ▸ mem_all (List.mem_of_mem_erase hb))]
    by_cases hba : b = a
    · subst hba
      rw [if_pos rfl, Function.update_self]
    · rw [if_neg hba, Function.update_of_ne hba, Phys.link]
  · rw [hG.all] at hb
    have hok := h.header b hb
    rw [hslab b hb, hsize, hG.page, hG.map]
    split_ifs
    · exact ⟨hok.mem, hok.capacity, hok.nrFree, hok.freemap, hok.low⟩
    · exact hok

theorem detachHead {l : SlabList} {t : List ℕ} (h : CacheInv p R frame c G 0)
    (hl : G.list l = a :: t) :
    CacheInv p R frame (c.setHead l (p.link a)) G a := by
  refine ⟨h.size, h.owns, h.distinct, fun k => ?_, h.header⟩
  by_cases hk : k = l
  · subst hk
    have hlink := h.links_zero k
    rw [hl] at hlink
    rw [hl, List.erase_cons_head, KmemCache.setHead_head, Function.update_self]
    exact hlink.2.2
  · have ha : a ∉ G.list k := fun ha => hk (h.distinct.one ha (hl ▸ List.mem_cons_self))
    rw [List.erase_of_not_mem ha, KmemCache.setHead_head, Function.update_of_ne hk]
    exact h.links_zero k

/-- Take a slab in hand that stands after the slab `b`. -/
theorem detachAfter {l : SlabList} {l₁ l₂ : List ℕ} (h : CacheInv p R frame c G 0)
    (hl : G.list l = l₁ ++ b :: a :: l₂) :
    CacheInv (p.setSlabNext b (p.link a)) R frame c G a ∧
      Keeps frame p (p.setSlabNext b (p.link a)) := by
  have hb : b ∈ G.list l := by simp [hl]
  have hal : a ∈ G.list l := by simp [hl]
  refine h.setSlabNext (mem_all hb) (link_lt _ _) rfl ⟨rfl, rfl, rfl, h.distinct⟩ fun k => ?_
  by_cases hk : k = l
  · subst hk
    have hnd := h.distinct.nodup k
    have hlink := h.links_zero k
    rw [hl] at hnd hlink
    rw [hl, erase_middle hnd]
    exact hlink.unlink hnd
  · have ha : a ∉ G.list k := fun ha => hk (h.distinct.one ha hal)
    rw [List.erase_of_not_mem ha]
    refine (h.links_zero k).congr fun d hd => Function.update_of_ne ?_ _ _
    rintro rfl
    exact hk (h.distinct.one hd hb)

theorem attach {l : SlabList} (h : CacheInv p R frame c G a) (ha : a ∈ G.all) :
    CacheInv (p.setSlabNext a (c.head l)) R frame (c.setHead l a) (G.move l a) 0 ∧
      Keeps frame p (p.setSlabNext a (c.head l)) := by
  have ha0 : a ≠ 0 := by
    have := (h.aligned ha).2.1
    omega
  have hnd : ∀ k, a ∉ (G.list k).erase a := fun k => (h.distinct.nodup k).not_mem_erase
  refine h.setSlabNext ha (h.head_lt l) rfl (h.distinct.move ha) fun k => ?_
  rw [List.erase_of_not_mem ?_]
  · by_cases hk : k = l
    · subst hk
      rw [Slabs.move_list, if_pos rfl, KmemCache.setHead_head, Function.update_self]
      exact (h.links k).push ha0 (hnd k)
    · rw [Slabs.move_list, if_neg hk, KmemCache.setHead_head, Function.update_of_ne hk]
      refine (h.links k).congr fun b hb => Function.update_of_ne ?_ _ _
      exact ne_of_mem_of_not_mem hb (hnd k)
  · rw [h.distinct.mem_move]
    rintro (⟨h0, -⟩ | ⟨-, h0⟩)
    · exact ha0 h0.symm
    · exact h.zero_not_mem k h0

end CacheInv

end Xv6Plus
