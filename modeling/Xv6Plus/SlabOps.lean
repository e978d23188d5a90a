import Xv6Plus.SlabSpec

/-!
# The operations of a slab cache

What `kmem_cache_alloc` and `kmem_cache_free` do to the slabs a cache stands for. An
allocation makes one object live, and a free ends the life of one. Slabs move between
the lists, come from the page allocator and go back to it, with the other holders of
pages as a frame.
-/

namespace Xv6Plus

variable {s : CacheState} {p : Phys} {R : Set ℕ} {frame : Set (ℕ × ℕ)} {c : KmemCache} {G : Slabs}
  {a b j x : ℕ}

theorem wp_onPhys {α : Type} {x : Kern Phys α} {Q : α → CacheState → Prop} {E : String → Prop} :
    wp (onPhys x) Q E s ↔ wp x (fun a p => Q a (s.setPhys p)) E s.phys :=
  wp_zoom ..

/-- A cache between two calls. -/
structure CacheGood (s : CacheState) (R : Set ℕ) (frame : Set (ℕ × ℕ)) (G : Slabs) : Prop where
  inv : CacheInv s.phys R frame s.cache G 0
  sorted : G.Sorted s.cache.objSize

/-! ## Live objects -/

namespace CacheInv

theorem object_not_live (h : CacheInv p R frame c G x) (ha : a ∈ G.all)
    (hj : j < slabCapacity c.objSize) (hbit : (G.map a).testBit j) :
    G.page a + j * c.objSize ∉ G.objs c.objSize := by
  rintro ⟨b, hb, k, hk, hno, he⟩
  obtain ⟨rfl, rfl⟩ := h.object_inj ha hb hj hk he
  exact hno hbit

theorem objs_take (ha : a ∈ G.all) (hj : j < slabCapacity c.objSize) :
    (G.setMap a (Nat.ldiff (G.map a) (2 ^ j))).objs c.objSize =
      insert (G.page a + j * c.objSize) (G.objs c.objSize) := by
  ext y
  constructor
  · rintro ⟨b, hb, k, hk, hno, rfl⟩
    by_cases hba : b = a
    · subst hba
      rw [Slabs.setMap_self, testBit_clear, Bool.and_eq_true, not_and_or] at hno
      rcases hno with hno | hno
      · exact .inr ⟨b, hb, k, hk, hno, rfl⟩
      · obtain rfl : j = k := by simpa using hno
        exact .inl rfl
    · rw [Slabs.setMap_of_ne G hba] at hno
      exact .inr ⟨b, hb, k, hk, hno, rfl⟩
  · rintro (rfl | ⟨b, hb, k, hk, hno, rfl⟩)
    · refine ⟨a, ha, j, hj, ?_, rfl⟩
      simp [Slabs.setMap_self]
    · refine ⟨b, hb, k, hk, ?_, rfl⟩
      by_cases hba : b = a
      · subst hba
        rw [Slabs.setMap_self, testBit_clear]
        simp [hno]
      · rwa [Slabs.setMap_of_ne G hba]

theorem objs_give (h : CacheInv p R frame c G x) (ha : a ∈ G.all)
    (hj : j < slabCapacity c.objSize) :
    (G.setMap a (G.map a ||| 2 ^ j)).objs c.objSize =
      G.objs c.objSize \ {G.page a + j * c.objSize} := by
  ext y
  constructor
  · rintro ⟨b, hb, k, hk, hno, rfl⟩
    by_cases hba : b = a
    · subst hba
      rw [Slabs.setMap_self, testBit_set, Bool.or_eq_true, not_or, decide_eq_true_eq] at hno
      refine ⟨⟨b, hb, k, hk, hno.1, rfl⟩, fun he => hno.2 ?_⟩
      exact (h.object_inj hb hb hk hj he).2.symm
    · rw [Slabs.setMap_of_ne G hba] at hno
      exact ⟨⟨b, hb, k, hk, hno, rfl⟩, fun he => hba (h.object_inj hb ha hk hj he).1⟩
  · rintro ⟨⟨b, hb, k, hk, hno, rfl⟩, hne⟩
    refine ⟨b, hb, k, hk, ?_, rfl⟩
    by_cases hba : b = a
    · subst hba
      rw [Slabs.setMap_self, testBit_set, Bool.or_eq_true, not_or, decide_eq_true_eq]
      refine ⟨hno, ?_⟩
      rintro rfl
      exact hne rfl
    · rwa [Slabs.setMap_of_ne G hba]

end CacheInv

/-! ## Sorting -/

namespace Slabs.Sorted

variable {sz v : ℕ} {l : SlabList}

/-- A slab that changed goes on the list it now belongs to. -/
theorem move (h : G.Sorted sz) (hd : G.Distinct) (hfit : l.Fits (popcount v) (slabCapacity sz)) :
    ((G.setMap a v).move l a).Sorted sz := by
  have hd' : (G.setMap a v).Distinct := ⟨hd.nodup, hd.one, hd.page_inj, hd.page_ne⟩
  intro k b hb
  rcases hd'.mem_move.1 hb with ⟨rfl, rfl⟩ | ⟨hne, hb⟩
  · rw [show ((G.setMap b v).move k b).map b = v from setMap_self G b v]
    exact hfit
  · rw [show ((G.setMap a v).move l a).map b = G.map b from setMap_of_ne G hne v]
    exact h k b hb

/-- A slab that changed may stay on its list if it still belongs there. -/
theorem setMap (h : G.Sorted sz) (hd : G.Distinct) (ha : a ∈ G.list l)
    (hfit : l.Fits (popcount v) (slabCapacity sz)) : (G.setMap a v).Sorted sz := by
  intro k b hb
  by_cases hba : b = a
  · subst hba
    obtain rfl : k = l := hd.one hb ha
    rw [setMap_self]
    exact hfit
  · rw [setMap_of_ne G hba]
    exact h k b hb

end Slabs.Sorted

/-- A list that a slab does not go to does not grow. -/
theorem Slabs.length_move {l k : SlabList} (hk : k ≠ l) :
    ((G.move l a).list k).length ≤ (G.list k).length := by
  rw [move_list, if_neg hk]
  exact List.length_erase_le

/-! ## Allocation -/

theorem slabAllocLoop_spec {sz : ℕ} : ∀ {n i : ℕ},
    (∃ j, i ≤ j ∧ j < i + n ∧ (p.slab a).freemap.testBit j) →
    wp (slabAllocLoop a sz n i) (fun r p' => ∃ j < i + n, (p.slab a).freemap.testBit j ∧
      r = (p.slab a).mem + j * sz ∧ p' = takeObject a sz j p) noPanic p
  | 0, i, ⟨j, h1, h2, _⟩ => by omega
  | n + 1, i, ⟨j, h1, h2, hbit⟩ => by
    rw [slabAllocLoop, wp_bind, wp_get]
    by_cases hi : (p.slab a).freemap.testBit i
    · rw [if_pos hi, wp_bind, wp_modify, wp_pure]
      exact ⟨i, by omega, hi, rfl, rfl⟩
    · rw [if_neg hi]
      have hne : i ≠ j := by
        rintro rfl
        exact hi hbit
      refine wp_post (slabAllocLoop_spec ⟨j, by omega, by omega, hbit⟩) ?_
      rintro r p' ⟨k, hk, hrest⟩
      exact ⟨k, by omega, hrest⟩

theorem CacheInv.slabAlloc_spec (h : CacheInv p R frame c G x) (ha : a ∈ G.all)
    (hne : popcount (G.map a) ≠ 0) :
    wp (slabAlloc a c.objSize) (fun r p' => ∃ j < slabCapacity c.objSize, (G.map a).testBit j ∧
      r = G.page a + j * c.objSize ∧
      CacheInv p' R frame c (G.setMap a (Nat.ldiff (G.map a) (2 ^ j))) x ∧ Keeps frame p p')
      noPanic p := by
  have hok := h.header a ha
  rw [slabAlloc, wp_bind, wp_get, if_neg (by rw [hok.nrFree]; exact hne)]
  obtain ⟨i, hi⟩ := exists_testBit hne
  refine wp_post (slabAllocLoop_spec ⟨i, Nat.zero_le _, ?_, ?_⟩) ?_
  · rw [hok.capacity, Nat.zero_add]
    exact hok.low i hi
  · rw [hok.freemap]
    exact hi
  · rintro r p' ⟨k, hk, hbit, rfl, rfl⟩
    rw [hok.capacity, Nat.zero_add] at hk
    rw [hok.freemap] at hbit
    rw [hok.mem]
    exact ⟨k, hk, hbit, rfl, h.takeObject_spec ha hk hbit⟩

/-- What an allocation has done : the object `r` is live, and was not before. -/
structure Obtained (s : CacheState) (R : Set ℕ) (frame : Set (ℕ × ℕ)) (G : Slabs) (r : ℕ)
    (s' : CacheState) (G' : Slabs) : Prop where
  good : CacheGood s' R frame G'
  objSize : s'.cache.objSize = s.cache.objSize
  keeps : Keeps frame s.phys s'.phys
  ne_zero : r ≠ 0
  fresh : r ∉ G.objs s.cache.objSize
  objs : G'.objs s.cache.objSize = insert r (G.objs s.cache.objSize)
  few : (G'.list .emptyList).length ≤ (G.list .emptyList).length
  grow : ∃ x y, G'.blocks ⊆ {x, y} ∪ G.blocks

theorem moveHead_spec {l : SlabList} {t : List ℕ} (h : CacheInv s.phys R frame s.cache G 0)
    (hl : G.list l = a :: t) (l' : SlabList) :
    CacheInv (s.moveHead l l').phys R frame (s.moveHead l l').cache (G.move l' a) 0 ∧
      Keeps frame s.phys (s.moveHead l l').phys := by
  have hhead : s.cache.head l = a := by
    have hlink := h.links_zero l
    rw [hl] at hlink
    exact hlink.1
  have hd := (h.detachHead hl).attach (l := l') ⟨l, hl ▸ List.mem_cons_self⟩
  rw [CacheState.moveHead, hhead]
  exact hd

/-- The object `slab_alloc` takes from a slab is fresh and becomes live. -/
theorem CacheInv.obtained {r : ℕ} (h : CacheInv s.phys R frame s.cache G x) (ha : a ∈ G.all)
    (hj : j < slabCapacity s.cache.objSize) (hbit : (G.map a).testBit j)
    (hr : r = G.page a + j * s.cache.objSize) :
    r ≠ 0 ∧ r ∉ G.objs s.cache.objSize ∧
      (G.setMap a (Nat.ldiff (G.map a) (2 ^ j))).objs s.cache.objSize =
        insert r (G.objs s.cache.objSize) := by
  have hp := h.page_aligned ha
  subst hr
  exact ⟨by omega, h.object_not_live ha hj hbit, objs_take ha hj⟩

theorem allocPartial_spec (h : CacheGood s R frame G) (hne : s.cache.head .partialList ≠ 0) :
    wp allocPartial (fun r s' => ∃ G', Obtained s R frame G r s' G') noPanic s := by
  obtain ⟨t, hl, -⟩ := (h.inv.links_zero .partialList).exists_cons hne
  set a := s.cache.head .partialList with ha
  have hmem : a ∈ G.list .partialList := hl ▸ List.mem_cons_self
  have hall : a ∈ G.all := ⟨_, hmem⟩
  have hfit : 0 < popcount (G.map a) ∧ popcount (G.map a) < slabCapacity s.cache.objSize :=
    h.sorted _ a hmem
  have hcap := slabCapacity_bounds h.inv.size
  rw [allocPartial, wp_bind, wp_get, wp_bind, wp_onPhys, ← ha]
  refine wp_post (h.inv.slabAlloc_spec hall (by omega)) ?_
  rintro r p ⟨j, hj, hbit, hr, hinv, hkeep⟩
  obtain ⟨hr0, hfresh, hobjs⟩ := h.inv.obtained hall hj hbit hr
  have hpop := popcount_clear (by omega) hbit
  set v := Nat.ldiff (G.map a) (2 ^ j) with hv
  have hnr : (p.slab a).nrFree = popcount v := by
    rw [(hinv.header a hall).nrFree, Slabs.setMap_self]
  rw [wp_bind, wp_get]
  change wp (if (p.slab a).nrFree = 0 then _ else _) _ _ (s.setPhys p)
  by_cases h0 : (p.slab a).nrFree = 0
  · rw [if_pos h0, wp_bind, wp_modify, wp_pure]
    have hm := moveHead_spec (s := s.setPhys p) hinv hl .fullList
    refine ⟨_, ⟨hm.1, ?_⟩, rfl, hkeep.trans hm.2, hr0, hfresh, ?_,
      Slabs.length_move (G := G) (by decide), (a, 0), (a, 0), ?_⟩
    · exact h.sorted.move h.inv.distinct (show popcount v = 0 by omega)
    · rw [(hinv.distinct.move hall).objs, hobjs]
    · rw [(hinv.distinct.move hall).blocks]
      exact Set.subset_union_right
  · rw [if_neg h0, wp_pure]
    refine ⟨_, ⟨hinv, ?_⟩, rfl, hkeep, hr0, hfresh, hobjs, le_refl _, (a, 0), (a, 0),
      Set.subset_union_right⟩
    exact h.sorted.setMap h.inv.distinct hmem (show 0 < popcount v ∧ popcount v < _ by omega)

theorem allocEmpty_spec (h : CacheGood s R frame G) (hne : s.cache.head .emptyList ≠ 0) :
    wp allocEmpty (fun r s' => ∃ G', Obtained s R frame G r s' G') noPanic s := by
  obtain ⟨t, hl, -⟩ := (h.inv.links_zero .emptyList).exists_cons hne
  set a := s.cache.head .emptyList with ha
  have hmem : a ∈ G.list .emptyList := hl ▸ List.mem_cons_self
  have hall : a ∈ G.all := ⟨_, hmem⟩
  have hfit : popcount (G.map a) = slabCapacity s.cache.objSize := h.sorted _ a hmem
  have hcap := slabCapacity_bounds h.inv.size
  rw [allocEmpty, wp_bind, wp_get, wp_bind, wp_onPhys, ← ha]
  refine wp_post (h.inv.slabAlloc_spec hall (by omega)) ?_
  rintro r p ⟨j, hj, hbit, hr, hinv, hkeep⟩
  obtain ⟨hr0, hfresh, hobjs⟩ := h.inv.obtained hall hj hbit hr
  have hpop := popcount_clear (by omega) hbit
  set v := Nat.ldiff (G.map a) (2 ^ j) with hv
  have hnr : (p.slab a).nrFree = popcount v := by
    rw [(hinv.header a hall).nrFree, Slabs.setMap_self]
  rw [wp_bind, wp_get]
  change wp (if (p.slab a).nrFree = 0 then _ else _) _ _ (s.setPhys p)
  rw [if_neg (by omega), wp_bind, wp_modify, wp_pure]
  have hm := moveHead_spec (s := s.setPhys p) hinv hl .partialList
  refine ⟨_, ⟨hm.1, ?_⟩, rfl, hkeep.trans hm.2, hr0, hfresh, ?_,
    Slabs.length_move (G := G) (by decide), (a, 0), (a, 0), ?_⟩
  · exact h.sorted.move h.inv.distinct (show 0 < popcount v ∧ popcount v < _ by omega)
  · rw [(hinv.distinct.move hall).objs, hobjs]
  · rw [(hinv.distinct.move hall).blocks]
    exact Set.subset_union_right

/-! ## A new slab -/

namespace Slabs

variable {m v : ℕ}

theorem add_list_full (G : Slabs) (a m v : ℕ) :
    (G.add a m v).list .fullList = a :: G.list .fullList :=
  Function.update_self SlabList.fullList _ G.list

theorem add_list (G : Slabs) {l : SlabList} (hl : l ≠ .fullList) (a m v : ℕ) :
    (G.add a m v).list l = G.list l := Function.update_of_ne hl _ _

theorem mem_add {l : SlabList} (G : Slabs) (a m v b : ℕ) :
    b ∈ (G.add a m v).list l ↔ (b = a ∧ l = .fullList) ∨ b ∈ G.list l := by
  by_cases hl : l = .fullList
  · subst hl
    rw [add_list_full, List.mem_cons]
    tauto
  · rw [add_list G hl]
    tauto

theorem all_add (G : Slabs) (a m v : ℕ) : (G.add a m v).all = insert a G.all := by
  ext b
  simp only [all, Set.mem_ofPred_eq, mem_add, exists_or, Set.mem_insert_iff]
  exact or_congr_left ⟨fun ⟨_, h, _⟩ => h, fun h => ⟨.fullList, h, rfl⟩⟩

theorem page_add_self (G : Slabs) (a m v : ℕ) : (G.add a m v).page a = m := Function.update_self ..

theorem page_add (G : Slabs) (hb : b ≠ a) (m v : ℕ) : (G.add a m v).page b = G.page b :=
  Function.update_of_ne hb _ _

theorem map_add_self (G : Slabs) (a m v : ℕ) : (G.add a m v).map a = v := Function.update_self ..

theorem map_add (G : Slabs) (hb : b ≠ a) (m v : ℕ) : (G.add a m v).map b = G.map b :=
  Function.update_of_ne hb _ _

theorem ne_of_mem_all (ha : (a, 0) ∉ G.blocks) (hb : b ∈ G.all) : b ≠ a := by
  rintro rfl
  exact ha (CacheInv.all_block hb)

theorem blocks_add (ha : (a, 0) ∉ G.blocks) (m v : ℕ) :
    (G.add a m v).blocks = insert (m, 0) (insert (a, 0) G.blocks) := by
  ext ⟨x, o⟩
  simp only [blocks, all_add, Set.mem_ofPred_eq, Set.mem_insert_iff, Prod.mk.injEq]
  constructor
  · rintro ⟨(rfl | hx) | ⟨b, rfl | hb, rfl⟩, rfl⟩
    · exact .inr (.inl ⟨rfl, rfl⟩)
    · exact .inr (.inr ⟨.inl hx, rfl⟩)
    · exact .inl ⟨page_add_self .., rfl⟩
    · exact .inr (.inr ⟨.inr ⟨b, hb, (page_add G (ne_of_mem_all ha hb) m v).symm⟩, rfl⟩)
  · rintro (⟨rfl, rfl⟩ | ⟨rfl, rfl⟩ | ⟨hx | ⟨b, hb, rfl⟩, rfl⟩)
    · exact ⟨.inr ⟨a, .inl rfl, page_add_self ..⟩, rfl⟩
    · exact ⟨.inl (.inl rfl), rfl⟩
    · exact ⟨.inl (.inr hx), rfl⟩
    · exact ⟨.inr ⟨b, .inr hb, page_add G (ne_of_mem_all ha hb) m v⟩, rfl⟩

theorem Distinct.add (h : G.Distinct) (ha : (a, 0) ∉ G.blocks)
    (hm : (m, 0) ∉ insert (a, 0) G.blocks) (v : ℕ) : (G.add a m v).Distinct := by
  have hma : m ≠ a := fun he => hm (.inl (by rw [he]))
  have hmb : (m, 0) ∉ G.blocks := fun he => hm (.inr he)
  have haG : ∀ l, a ∉ G.list l := fun l hl => ne_of_mem_all ha ⟨l, hl⟩ rfl
  refine ⟨fun l => ?_, fun {l l' b} hb hb' => ?_, fun b hb d hd he => ?_, fun b hb d hd he => ?_⟩
  · by_cases hl : l = .fullList
    · subst hl
      rw [add_list_full]
      exact List.nodup_cons.2 ⟨haG _, h.nodup _⟩
    · rw [add_list G hl]
      exact h.nodup l
  · rcases (mem_add G a m v b).1 hb with ⟨he, rfl⟩ | hb <;>
      rcases (mem_add G a m v b).1 hb' with ⟨he', rfl⟩ | hb'
    · rfl
    · exact absurd (he ▸ hb') (haG _)
    · exact absurd (he' ▸ hb) (haG _)
    · exact h.one hb hb'
  · rw [all_add] at hb hd
    rcases hb with rfl | hb <;> rcases hd with rfl | hd
    · rfl
    · rw [page_add_self, page_add G (ne_of_mem_all ha hd)] at he
      exact absurd (he ▸ CacheInv.page_block hd) hmb
    · rw [page_add_self, page_add G (ne_of_mem_all ha hb)] at he
      exact absurd (he ▸ CacheInv.page_block hb) hmb
    · rw [page_add G (ne_of_mem_all ha hb), page_add G (ne_of_mem_all ha hd)] at he
      exact h.page_inj b hb d hd he
  · rw [all_add] at hb hd
    rcases hb with rfl | hb <;> rcases hd with rfl | hd
    · rw [page_add_self] at he
      exact hma he
    · rw [page_add_self] at he
      exact hmb (he ▸ CacheInv.all_block hd)
    · rw [page_add G (ne_of_mem_all ha hb)] at he
      exact ha (he ▸ CacheInv.page_block hb)
    · rw [page_add G (ne_of_mem_all ha hb)] at he
      exact h.page_ne b hb d hd he

end Slabs

theorem slab_slabInit {m n : ℕ} (ha : a % 4096 = 0) (hb : b % 4096 = 0) (hm : m < 2 ^ 64)
    (hn : n ≤ 64) :
    (slabInit a m n p).slab b =
      if b = a then ⟨0, m, n, n, (2 ^ 64 - 1) >>> (64 - n)⟩ else p.slab b := by
  have hlow : (2 ^ 64 - 1) >>> (64 - n) < 2 ^ 64 :=
    lt_of_low hn fun _ hi => lt_of_testBit_low hn hi
  rw [slabInit, Phys.slab_setSlabFreemap ha hb hlow, Phys.slab_setSlabNrFree ha hb (by omega),
    Phys.slab_setSlabCapacity ha hb (by omega), Phys.slab_setSlabMem ha hb hm,
    Phys.slab_setSlabNext ha hb (by norm_num)]
  split_ifs <;> rfl

namespace CacheInv

theorem slab_of_keeps {p' : Phys} (hk : Keeps G.blocks p p') (hb : b ∈ G.all) :
    p'.slab b = p.slab b :=
  Phys.slab_congr (hk.mem.mono (span_subset_region (all_block hb)))

/-- The invariant moves along if the headers stay and other blocks come and go. -/
theorem transfer {p' : Phys} {frame' : Set (ℕ × ℕ)} (h : CacheInv p R frame c G x)
    (howns : Owns p' R G.blocks frame') (hslab : ∀ b ∈ G.all, p'.slab b = p.slab b) :
    CacheInv p' R frame' c G x := by
  refine ⟨h.size, howns, h.distinct, fun l => (h.links l).congr fun b hb => ?_, fun b hb => ?_⟩
  · rw [Phys.link, Phys.link, hslab b (mem_all (List.mem_of_mem_erase hb))]
  · rw [hslab b hb]
    exact h.header b hb

/-- Two new pages make a slab in hand. -/
theorem slabInit_spec {m : ℕ} {p' : Phys} (h : CacheInv p R frame c G 0)
    (howns : Owns p' R (insert (m, 0) (insert (a, 0) G.blocks)) frame)
    (hk : Keeps G.blocks p p') (ha : (a, 0) ∉ G.blocks) (hm : (m, 0) ∉ insert (a, 0) G.blocks) :
    CacheInv (slabInit a m (slabCapacity c.objSize) p') R frame c
        (G.add a m ((2 ^ 64 - 1) >>> (64 - slabCapacity c.objSize))) a ∧
      Keeps frame p' (slabInit a m (slabCapacity c.objSize) p') := by
  have hcap := slabCapacity_bounds h.size
  set n := slabCapacity c.objSize with hn
  have hma := howns.page (a := m) (.inl rfl)
  have haa := howns.page (a := a) (.inr (.inl rfl))
  have hslab : ∀ b ∈ G.all, (slabInit a m n p').slab b = p.slab b := by
    intro b hb
    rw [slab_slabInit haa.1 (h.aligned hb).1 (by omega) hcap.2.1,
      if_neg (Slabs.ne_of_mem_all ha hb), slab_of_keeps hk hb]
  have hwrites : WritesOwn (G.add a m ((2 ^ 64 - 1) >>> (64 - n))).blocks p'
      (slabInit a m n p') := by
    have hb : (a, 0) ∈ (G.add a m ((2 ^ 64 - 1) >>> (64 - n))).blocks := by
      rw [Slabs.blocks_add ha]
      exact .inr (.inl rfl)
    exact ((((writes_setSlabNext hb _).trans (writes_setSlabMem hb _)).trans
      (writes_setSlabCapacity hb _)).trans (writes_setSlabNrFree hb _)).trans
      (writes_setSlabFreemap hb _)
  rw [← Slabs.blocks_add ha m ((2 ^ 64 - 1) >>> (64 - n))] at howns
  obtain ⟨howns', hkeep⟩ := howns.store hwrites
  refine ⟨⟨h.size, howns', h.distinct.add ha hm _, fun l => ?_, fun b hb => ?_⟩, hkeep⟩
  · have he : ((G.add a m ((2 ^ 64 - 1) >>> (64 - n))).list l).erase a = G.list l := by
      by_cases hl : l = .fullList
      · rw [hl, Slabs.add_list_full, List.erase_cons_head]
      · rw [Slabs.add_list G hl, List.erase_of_not_mem]
        exact fun hal => Slabs.ne_of_mem_all ha ⟨l, hal⟩ rfl
    rw [he]
    refine (h.links_zero l).congr fun b hb => ?_
    rw [Phys.link, Phys.link, hslab b (mem_all hb)]
  · rw [Slabs.all_add] at hb
    rcases hb with rfl | hb
    · rw [slab_slabInit haa.1 haa.1 (by omega) hcap.2.1, if_pos rfl, Slabs.page_add_self,
        Slabs.map_add_self]
      exact ⟨rfl, rfl, (popcount_low hcap.2.1).symm, rfl,
        fun _ hi => lt_of_testBit_low hcap.2.1 hi⟩
    · rw [hslab b hb, Slabs.page_add G (Slabs.ne_of_mem_all ha hb),
        Slabs.map_add G (Slabs.ne_of_mem_all ha hb)]
      exact h.header b hb

end CacheInv

theorem Slabs.objs_add {m sz : ℕ} (ha : (a, 0) ∉ G.blocks) (hn : slabCapacity sz ≤ 64) :
    (G.add a m ((2 ^ 64 - 1) >>> (64 - slabCapacity sz))).objs sz = G.objs sz := by
  ext y
  simp only [objs, all_add, Set.mem_ofPred_eq, Set.mem_insert_iff]
  constructor
  · rintro ⟨b, rfl | hb, k, hk, hno, he⟩
    · rw [map_add_self, testBit_low hn] at hno
      exact absurd (decide_eq_true hk) hno
    · rw [map_add G (ne_of_mem_all ha hb)] at hno
      rw [page_add G (ne_of_mem_all ha hb)] at he
      exact ⟨b, hb, k, hk, hno, he⟩
  · rintro ⟨b, hb, k, hk, hno, he⟩
    refine ⟨b, .inr hb, k, hk, ?_, ?_⟩
    · rwa [map_add G (ne_of_mem_all ha hb)]
    · rwa [page_add G (ne_of_mem_all ha hb)]

/-- A new slab with an object taken out of it goes on the list of the partial ones. -/
theorem Slabs.Sorted.add {m sz v w : ℕ} {l : SlabList} (h : G.Sorted sz) (hd : G.Distinct)
    (ha : (a, 0) ∉ G.blocks) (hm : (m, 0) ∉ insert (a, 0) G.blocks)
    (hfit : l.Fits (popcount w) (slabCapacity sz)) :
    (((G.add a m v).setMap a w).move l a).Sorted sz := by
  have hadd := hd.add ha hm v
  have hd' : ((G.add a m v).setMap a w).Distinct :=
    ⟨hadd.nodup, hadd.one, hadd.page_inj, hadd.page_ne⟩
  intro k b hb
  rcases hd'.mem_move.1 hb with ⟨rfl, rfl⟩ | ⟨hne, hb⟩
  · rw [show (((G.add b m v).setMap b w).move k b).map b = w from setMap_self _ b w]
    exact hfit
  · have hb' : b ∈ (G.add a m v).list k := hb
    rw [mem_add] at hb'
    rw [show (((G.add a m v).setMap a w).move l a).map b = G.map b from
      (setMap_of_ne _ hne w).trans (map_add G hne m v)]
    exact h k b (hb'.resolve_left fun he => hne he.1)

/-- What `kmem_cache_alloc` does : it fails and the cache is as before, or one more object
is live. -/
def CacheAllocPost (s : CacheState) (R : Set ℕ) (frame : Set (ℕ × ℕ)) (G : Slabs) (r : ℕ)
    (s' : CacheState) : Prop :=
  (r = 0 ∧ CacheGood s' R frame G ∧ s'.cache = s.cache ∧
    Keeps (G.blocks ∪ frame) s.phys s'.phys ∧ Exhausted s.phys) ∨
    ∃ G', Obtained s R frame G r s' G'

theorem allocNew_spec (h : CacheGood s R frame G) :
    wp allocNew (CacheAllocPost s R frame G) noPanic s := by
  have hcap := slabCapacity_bounds h.inv.size
  rw [allocNew, wp_bind, wp_get, wp_bind, wp_onPhys]
  refine wp_post h.inv.owns.kalloc_spec ?_
  rintro a p₁ (⟨rfl, rfl, hfree⟩ | ⟨ha0, ha, howns₁, hk₁⟩)
  · rw [if_pos rfl, wp_pure]
    exact .inl ⟨rfl, h, rfl, Keeps.refl _ _, exhausted_of_empty hfree⟩
  rw [if_neg ha0, wp_bind, wp_onPhys]
  refine wp_post howns₁.kalloc_spec ?_
  rintro m p₂ (⟨rfl, hp₂, hfree⟩ | ⟨hm0, hm, howns₂, hk₂⟩)
  · obtain rfl : p₂ = p₁ := hp₂
    rw [if_pos rfl, wp_bind, wp_onPhys]
    refine wp_post (howns₁.kfree_spec (.inl rfl)) ?_
    rintro _ p₃ ⟨howns₃, hk₃⟩
    rw [Set.insert_sdiff_self_of_notMem ha] at howns₃ hk₃
    have hk : Keeps (G.blocks ∪ frame) s.phys p₃ := hk₁.trans hk₃
    rw [wp_pure]
    exact .inl ⟨rfl, ⟨h.inv.transfer howns₃ fun b hb =>
      CacheInv.slab_of_keeps (hk.mono Set.subset_union_left) hb, h.sorted⟩, rfl, hk, a,
      howns₁.free_subset (free_eq_empty hfree) h.inv.owns (Set.insert_union ..).subset⟩
  have hk : Keeps (G.blocks ∪ frame) s.phys p₂ :=
    hk₁.trans (hk₂.mono (Set.union_subset_union_left _ (Set.subset_insert _ _)))
  obtain ⟨hinit, hkinit⟩ :=
    h.inv.slabInit_spec howns₂ (hk.mono Set.subset_union_left) ha hm
  have hpopv := popcount_low hcap.2.1
  have hobjs₀ := Slabs.objs_add (m := m) ha hcap.2.1
  generalize (2 ^ 64 - 1) >>> (64 - slabCapacity s.cache.objSize) = v at hinit hpopv hobjs₀
  have hall : a ∈ (G.add a m v).all := by
    rw [Slabs.all_add]
    exact .inl rfl
  rw [← Slabs.map_add_self G a m v] at hpopv
  rw [if_neg hm0, wp_bind, wp_onPhys, wp_modify, wp_bind, wp_onPhys, ← slabCapacity]
  change wp (slabAlloc a s.cache.objSize) _ _ (slabInit a m (slabCapacity s.cache.objSize) p₂)
  refine wp_post (hinit.slabAlloc_spec hall (by omega)) ?_
  rintro r p₃ ⟨j, hj, hbit, hr, hinv, hk₃⟩
  obtain ⟨hr0, hfresh, hobjs⟩ := CacheInv.obtained (s := s.setPhys _) hinit hall hj hbit hr
  have hpop := popcount_clear (by omega) hbit
  set w := Nat.ldiff ((G.add a m v).map a) (2 ^ j) with hw
  have hnr : (p₃.slab a).nrFree = popcount w := by
    rw [(hinv.header a hall).nrFree, Slabs.setMap_self]
  rw [wp_bind, wp_get]
  change wp (if (p₃.slab a).nrFree = 0 then _ else _) _ _ (s.setPhys p₃)
  rw [if_neg (by omega), wp_bind, wp_modify, wp_pure]
  obtain ⟨hatt, hk₄⟩ := hinv.attach (l := .partialList) hall
  refine .inr ⟨_, ⟨hatt, ?_⟩, rfl,
    (((hk.mono Set.subset_union_right).trans hkinit).trans hk₃).trans hk₄, hr0, ?_, ?_, ?_, (m, 0),
    (a, 0), ?_⟩
  · exact h.sorted.add h.inv.distinct ha hm (show 0 < popcount w ∧ popcount w < _ by omega)
  · rwa [← hobjs₀]
  · rw [(hinv.distinct.move hall).objs, ← hobjs₀]
    exact hobjs
  · refine (Slabs.length_move (by decide)).trans ?_
    rw [Slabs.setMap, Slabs.add_list G (by decide)]
  · have hadd := Slabs.blocks_add ha m v
    rw [(hinv.distinct.move hall).blocks]
    change (G.add a m v).blocks ⊆ _
    rw [hadd, Set.insert_eq, Set.insert_eq (a, 0), ← Set.union_assoc, ← Set.insert_eq]

theorem kmemCacheAlloc_spec (h : CacheGood s R frame G) :
    wp kmemCacheAlloc (CacheAllocPost s R frame G) noPanic s := by
  rw [kmemCacheAlloc, wp_bind, wp_get]
  by_cases hp : s.cache.head .partialList ≠ 0
  · rw [if_pos hp]
    exact wp_post (allocPartial_spec h hp) fun _ _ hs => .inr hs
  · rw [if_neg hp]
    by_cases he : s.cache.head .emptyList ≠ 0
    · rw [if_pos he]
      exact wp_post (allocEmpty_spec h he) fun _ _ hs => .inr hs
    · rw [if_neg he]
      exact allocNew_spec h

/-! ## Searches along a list -/

theorem CacheInv.length_le (h : CacheInv p R frame c G x) (l : SlabList) :
    (G.list l).length ≤ nPages := by
  have hinj : ((G.list l).map fun a => (a - 2147483648) / 4096).Nodup := by
    refine (h.distinct.nodup l).map_on fun a ha b hb he => ?_
    have h1 := h.aligned ⟨l, ha⟩
    have h2 := h.aligned ⟨l, hb⟩
    omega
  have hsub : ((G.list l).map fun a => (a - 2147483648) / 4096) ⊆ List.range nPages := by
    intro i hi
    obtain ⟨a, ha, rfl⟩ := List.mem_map.1 hi
    have h1 := h.aligned ⟨l, ha⟩
    simp only [nPages, List.mem_range]
    omega
  have hlen := (List.subperm_of_subset hinj hsub).length_le
  rwa [List.length_map, List.length_range] at hlen

theorem CacheInv.findSlab_spec {obj : ℕ} (h : CacheInv p R frame c G x) :
    ∀ {L : List ℕ} {n v : ℕ}, SList p.link v L → (∀ b ∈ L, b ∈ G.all) → L.length < n →
    wp (findSlab obj c.objSize n v) (fun r p' => p' = p ∧
      ((r ∈ L ∧ r ≠ 0 ∧ G.page r ≤ obj ∧ obj < G.page r + 4096) ∨
        (r = 0 ∧ ∀ b ∈ L, ¬(G.page b ≤ obj ∧ obj < G.page b + 4096)))) noPanic p
  | _, 0, _, _, _, hn => by omega
  | [], n + 1, v, hl, _, _ => by
    obtain rfl : v = 0 := hl
    rw [findSlab, wp_bind, wp_get, if_pos rfl, wp_pure]
    exact ⟨rfl, .inr ⟨rfl, by simp⟩⟩
  | b :: L, n + 1, v, hl, hall, hn => by
    obtain ⟨rfl, hv0, hl⟩ := hl
    have hok := h.header v (hall v List.mem_cons_self)
    have hcap := slabCapacity_bounds h.size
    rw [findSlab, wp_bind, wp_get, if_neg hv0, hok.mem, hok.capacity, hcap.2.2.1]
    by_cases hin : obj ≥ G.page v ∧ obj < G.page v + 4096
    · rw [if_pos hin, wp_pure]
      exact ⟨rfl, .inl ⟨List.mem_cons_self, hv0, hin⟩⟩
    · rw [if_neg hin]
      refine wp_post (h.findSlab_spec hl (fun d hd => hall d (List.mem_cons_of_mem _ hd))
        (by simpa using hn)) ?_
      rintro r p' ⟨rfl, ⟨hr, hrest⟩ | ⟨rfl, hno⟩⟩
      · exact ⟨rfl, .inl ⟨List.mem_cons_of_mem _ hr, hrest⟩⟩
      · refine ⟨rfl, .inr ⟨rfl, fun d hd => ?_⟩⟩
        rcases List.mem_cons.1 hd with rfl | hd
        · exact hin
        · exact hno d hd

/-- The cell found is the head of the list or the link of the slab before `a`. -/
theorem findCell_spec {l : SlabList} : ∀ {L : List ℕ} {n : ℕ} {pp : Option ℕ},
    SList s.phys.link (s.readCell l pp) L → a ∈ L → L.length ≤ n →
    wp (findCell l a n pp) (fun pp' s' => s' = s ∧ s.readCell l pp' = a ∧
      ((pp' = pp ∧ ∃ t, L = a :: t) ∨ ∃ b l₁ l₂, L = l₁ ++ b :: a :: l₂ ∧ pp' = some b)) noPanic s
  | [], _, _, _, ha, _ => absurd ha List.not_mem_nil
  | b :: L, 0, _, _, _, hn => by simp at hn
  | b :: L, n + 1, pp, ⟨hb, hb0, hl⟩, ha, hn => by
    rw [findCell, wp_bind, wp_get, hb]
    by_cases hba : b = a
    · rw [if_pos (.inr hba), wp_pure]
      exact ⟨rfl, hb.trans hba, .inl ⟨rfl, L, by rw [hba]⟩⟩
    · rw [if_neg (by tauto)]
      have ha' : a ∈ L := (List.mem_cons.1 ha).resolve_left (Ne.symm hba)
      have hl' : SList s.phys.link (s.readCell l (some b)) L := hl
      refine wp_post (findCell_spec hl' ha' (by simpa using hn)) ?_
      rintro pp' s' ⟨rfl, hcell, ⟨rfl, t, rfl⟩ | ⟨d, l₁, l₂, rfl, rfl⟩⟩
      · exact ⟨rfl, hcell, .inr ⟨b, [], t, rfl, rfl⟩⟩
      · exact ⟨rfl, hcell, .inr ⟨d, b :: l₁, l₂, rfl, rfl⟩⟩

theorem relink_spec {l : SlabList} (h : CacheInv s.phys R frame s.cache G 0) (ha : a ∈ G.list l)
    (l' : SlabList) :
    wp (relink l l' a) (fun _ s' => CacheInv s'.phys R frame s'.cache (G.move l' a) 0 ∧
      Keeps frame s.phys s'.phys ∧ s'.cache.objSize = s.cache.objSize) noPanic s := by
  have hlen := h.length_le l
  have hhead : SList s.phys.link (s.readCell l none) (G.list l) := h.links_zero l
  rw [relink, wp_bind]
  refine wp_post (findCell_spec hhead ha (by omega)) ?_
  rintro pp s' ⟨rfl, hcell, hpp⟩
  rw [wp_bind, wp_get, if_pos hcell, wp_modify]
  rcases hpp with ⟨rfl, t, hl⟩ | ⟨b, l₁, l₂, hl, rfl⟩
  · obtain ⟨hinv, hkeep⟩ := (h.detachHead hl).attach (l := l') ⟨l, ha⟩
    exact ⟨hinv, hkeep, rfl⟩
  · obtain ⟨hdet, hkeep⟩ := h.detachAfter hl
    obtain ⟨hinv, hkeep'⟩ := hdet.attach (l := l') ⟨l, ha⟩
    exact ⟨hinv, hkeep.trans hkeep', rfl⟩

/-! ## Freeing -/

/-- The cache stands for the slabs `G'` now. -/
def CachePost (s : CacheState) (R : Set ℕ) (frame : Set (ℕ × ℕ)) (G' : Slabs) (s' : CacheState) :
    Prop :=
  CacheGood s' R frame G' ∧ s'.cache.objSize = s.cache.objSize ∧ Keeps frame s.phys s'.phys

/-- Object `j` of the slab `a` is free again, and the slab goes where it belongs. -/
def Slabs.give (G : Slabs) (objSize a j : ℕ) : Slabs :=
  let G' := G.setMap a (G.map a ||| 2 ^ j)
  if popcount (G'.map a) = slabCapacity objSize then G'.move .emptyList a
  else if popcount (G'.map a) = 1 then G'.move .partialList a
  else G'

theorem Slabs.give_same {sz : ℕ} (hd : (G.setMap a (G.map a ||| 2 ^ j)).Distinct) (ha : a ∈ G.all) :
    (G.give sz a j).SameSlabs (G.setMap a (G.map a ||| 2 ^ j)) := by
  unfold give
  dsimp only
  split_ifs
  · exact hd.move ha
  · exact hd.move ha
  · exact ⟨rfl, rfl, rfl, hd⟩

theorem CacheInv.objs_free (h : CacheInv p R frame c G x) (ha : a ∈ G.all)
    (hj : j < slabCapacity c.objSize) :
    (G.give c.objSize a j).objs c.objSize = G.objs c.objSize \ {G.page a + j * c.objSize} := by
  have hd : (G.setMap a (G.map a ||| 2 ^ j)).Distinct :=
    ⟨h.distinct.nodup, h.distinct.one, h.distinct.page_inj, h.distinct.page_ne⟩
  rw [(Slabs.give_same hd ha).objs, h.objs_give ha hj]

theorem freePartial_spec (h : CacheGood s R frame G) (ha : a ∈ G.list .partialList)
    (hj : j < slabCapacity s.cache.objSize) (hbit : ¬(G.map a).testBit j) :
    wp (freePartial (G.page a + j * s.cache.objSize) a)
      (fun _ s' => CachePost s R frame (G.give s.cache.objSize a j) s') noPanic s := by
  have hall : a ∈ G.all := ⟨_, ha⟩
  have hcap := slabCapacity_bounds h.inv.size
  have hfit : 0 < popcount (G.map a) ∧ popcount (G.map a) < slabCapacity s.cache.objSize :=
    h.sorted _ a ha
  obtain ⟨hinv, hkeep⟩ := h.inv.slabFree_spec hall hj hbit
  have hpop : popcount (G.map a ||| 2 ^ j) = popcount (G.map a) + 1 :=
    popcount_set (by omega) hbit
  have hok := hinv.header a hall
  rw [Slabs.setMap_self] at hok
  rw [freePartial, wp_bind, wp_get, wp_bind, wp_onPhys, wp_modify, wp_bind, wp_get, Slabs.give,
    Slabs.setMap_self]
  set p := slabFree a (G.page a + j * s.cache.objSize) s.cache.objSize s.phys with hp
  change wp (if (p.slab a).nrFree = (p.slab a).capacity then _ else _) _ _ (s.setPhys p)
  rw [hok.nrFree, hok.capacity]
  by_cases he : popcount (G.map a ||| 2 ^ j) = slabCapacity s.cache.objSize
  · rw [if_pos he, if_pos he]
    refine wp_post (relink_spec (s := s.setPhys p) hinv ha .emptyList) ?_
    rintro _ s' ⟨hinv', hkeep', hsize⟩
    refine ⟨⟨hinv', ?_⟩, hsize, hkeep.trans hkeep'⟩
    rw [hsize]
    exact h.sorted.move h.inv.distinct he
  · rw [if_neg he, wp_pure, if_neg he, if_neg (by omega)]
    refine ⟨⟨hinv, ?_⟩, rfl, hkeep⟩
    exact h.sorted.setMap h.inv.distinct ha (show 0 < popcount (G.map a ||| 2 ^ j) ∧ _ < _ by omega)

theorem freeFull_spec (h : CacheGood s R frame G) (ha : a ∈ G.list .fullList)
    (hj : j < slabCapacity s.cache.objSize) (hbit : ¬(G.map a).testBit j) :
    wp (freeFull (G.page a + j * s.cache.objSize) a)
      (fun _ s' => CachePost s R frame (G.give s.cache.objSize a j) s') noPanic s := by
  have hall : a ∈ G.all := ⟨_, ha⟩
  have hcap := slabCapacity_bounds h.inv.size
  have hfit : popcount (G.map a) = 0 := h.sorted _ a ha
  obtain ⟨hinv, hkeep⟩ := h.inv.slabFree_spec hall hj hbit
  have hpop : popcount (G.map a ||| 2 ^ j) = popcount (G.map a) + 1 :=
    popcount_set (by omega) hbit
  have hok := hinv.header a hall
  rw [Slabs.setMap_self] at hok
  rw [freeFull, wp_bind, wp_get, wp_bind, wp_onPhys, wp_modify, wp_bind, wp_get, Slabs.give,
    Slabs.setMap_self]
  set p := slabFree a (G.page a + j * s.cache.objSize) s.cache.objSize s.phys with hp
  change wp (if (p.slab a).nrFree = 1 then _ else _) _ _ (s.setPhys p)
  rw [if_pos (by rw [hok.nrFree]; omega), if_neg (by omega), if_pos (by omega)]
  refine wp_post (relink_spec (s := s.setPhys p) hinv ha .partialList) ?_
  rintro _ s' ⟨hinv', hkeep', hsize⟩
  refine ⟨⟨hinv', ?_⟩, hsize, hkeep.trans hkeep'⟩
  rw [hsize]
  exact h.sorted.move h.inv.distinct
    (show 0 < popcount (G.map a ||| 2 ^ j) ∧ _ < slabCapacity s.cache.objSize by omega)

/-! ## Trimming -/

namespace Slabs

theorem Distinct.mem_drop {l : SlabList} (h : G.Distinct) :
    b ∈ (G.drop a).list l ↔ b ≠ a ∧ b ∈ G.list l :=
  (h.nodup l).mem_erase_iff

theorem Distinct.all_drop (h : G.Distinct) : (G.drop a).all = G.all \ {a} := by
  ext b
  simp only [all, Set.mem_ofPred_eq, h.mem_drop, Set.mem_sdiff, Set.mem_singleton_iff]
  exact ⟨fun ⟨l, hne, hb⟩ => ⟨⟨l, hb⟩, hne⟩, fun ⟨⟨l, hb⟩, hne⟩ => ⟨l, hne, hb⟩⟩

theorem Distinct.drop (h : G.Distinct) : (G.drop a).Distinct := by
  have hsub : (G.drop a).all ⊆ G.all := by
    rw [h.all_drop]
    exact Set.sdiff_subset
  exact ⟨fun l => (h.nodup l).erase a, fun hb hb' => h.one (h.mem_drop.1 hb).2 (h.mem_drop.1 hb').2,
    fun b hb d hd => h.page_inj b (hsub hb) d (hsub hd),
    fun b hb d hd => h.page_ne b (hsub hb) d (hsub hd)⟩

theorem Distinct.blocks_drop (h : G.Distinct) (ha : a ∈ G.all) :
    (G.drop a).blocks = (G.blocks \ {(G.page a, 0)}) \ {(a, 0)} := by
  ext ⟨y, o⟩
  simp only [blocks, h.all_drop, Set.mem_ofPred_eq, Set.mem_sdiff, Set.mem_singleton_iff,
    Prod.mk.injEq]
  constructor
  · rintro ⟨⟨hy, hne⟩ | ⟨b, ⟨hb, hne⟩, rfl⟩, rfl⟩
    · exact ⟨⟨⟨.inl hy, rfl⟩, fun he => h.page_ne a ha y hy he.1.symm⟩, fun he => hne he.1⟩
    · exact ⟨⟨⟨.inr ⟨b, hb, rfl⟩, rfl⟩, fun he => hne (h.page_inj b hb a ha he.1)⟩,
        fun he => h.page_ne b hb a ha he.1⟩
  · rintro ⟨⟨⟨hy | ⟨b, hb, rfl⟩, rfl⟩, hp⟩, hne⟩
    · exact ⟨.inl ⟨hy, fun he => hne ⟨he, rfl⟩⟩, rfl⟩
    · refine ⟨.inr ⟨b, ⟨hb, ?_⟩, rfl⟩, rfl⟩
      rintro rfl
      exact hp ⟨rfl, rfl⟩

/-- The empty slabs `L` are left. -/
def keep (G : Slabs) (L : List ℕ) : Slabs :=
  { G with list := Function.update G.list .emptyList L }

theorem keep_empty (G : Slabs) (L : List ℕ) : (G.keep L).list .emptyList = L := by
  unfold keep
  dsimp only
  rw [Function.update_self]

theorem keep_list (G : Slabs) (L : List ℕ) {l : SlabList} (hl : l ≠ .emptyList) :
    (G.keep L).list l = G.list l := Function.update_of_ne hl _ _

theorem keep_keep (G : Slabs) (L L' : List ℕ) : (G.keep L).keep L' = G.keep L' := by
  rw [keep, keep, keep, Function.update_idem]

theorem keep_self (G : Slabs) : G.keep (G.list .emptyList) = G := by
  rw [keep, Function.update_eq_self]

theorem Distinct.drop_eq (h : G.Distinct) (ha : a ∈ G.list .emptyList) :
    G.drop a = G.keep ((G.list .emptyList).erase a) := by
  rw [Slabs.drop, keep]
  congr 1
  funext l
  by_cases hl : l = .emptyList
  · rw [hl, Function.update_self]
  · rw [Function.update_of_ne hl]
    exact List.erase_of_not_mem fun ha' => hl (h.one ha' ha)

/-- The first two empty slabs are left, which is what the loop of `kmem_cache_free` does. -/
def trim (G : Slabs) : Slabs := G.keep ((G.list .emptyList).take 2)

theorem length_trim (G : Slabs) : (G.trim.list .emptyList).length ≤ 2 := by
  rw [trim, keep_empty]
  exact List.length_take_le _ _

theorem mem_trim {l : SlabList} (hb : b ∈ G.trim.list l) : b ∈ G.list l := by
  by_cases hl : l = .emptyList
  · subst hl
    rw [trim, keep_empty] at hb
    exact List.mem_of_mem_take hb
  · rwa [trim, keep_list G _ hl] at hb

theorem Sorted.trim {sz : ℕ} (hs : G.Sorted sz) : G.trim.Sorted sz :=
  fun l b hb => hs l b (mem_trim hb)

end Slabs

/-- Empty slabs have no live objects, so trimming ends no life. -/
theorem CacheInv.objs_trim (h : CacheInv p R frame c G x) (hs : G.Sorted c.objSize) :
    G.trim.objs c.objSize = G.objs c.objSize := by
  have hcap := slabCapacity_bounds h.size
  ext y
  constructor
  · rintro ⟨b, ⟨l, hb⟩, k, hk, hno, rfl⟩
    exact ⟨b, ⟨l, Slabs.mem_trim hb⟩, k, hk, hno, rfl⟩
  · rintro ⟨b, ⟨l, hb⟩, k, hk, hno, rfl⟩
    have hl : l ≠ .emptyList := by
      rintro rfl
      have hpop : popcount (G.map b) = slabCapacity c.objSize := hs _ b hb
      exact hno ((popcount_eq_iff hcap.2.1 (h.header b ⟨_, hb⟩).low).1 hpop k hk)
    refine ⟨b, ⟨l, ?_⟩, k, hk, hno, rfl⟩
    rwa [Slabs.trim, Slabs.keep_list G _ hl]

/-- The pages of the slab in hand go back to the page allocator. -/
theorem CacheInv.release_spec (h : CacheInv p R frame c G a) (ha : a ∈ G.all) :
    wp (kfree (G.page a)) (fun _ p₁ => wp (kfree a) (fun _ p' =>
      CacheInv p' R frame c (G.drop a) 0 ∧ Keeps frame p p') noPanic p₁) noPanic p := by
  refine wp_post (h.owns.kfree_spec (page_block ha)) fun _ p₁ ⟨howns₁, hk₁⟩ => ?_
  have ha₁ : (a, 0) ∈ G.blocks \ {(G.page a, 0)} := by
    refine ⟨all_block ha, fun he => ?_⟩
    exact h.distinct.page_ne a ha a ha (congrArg Prod.fst he).symm
  refine wp_post (howns₁.kfree_spec ha₁) fun _ p₂ ⟨howns₂, hk₂⟩ => ?_
  rw [← h.distinct.blocks_drop ha] at howns₂ hk₂
  have hsub : (G.drop a).blocks ⊆ G.blocks \ {(G.page a, 0)} := by
    rw [h.distinct.blocks_drop ha]
    exact Set.sdiff_subset
  have hk : Keeps ((G.drop a).blocks ∪ frame) p p₂ :=
    (hk₁.mono (Set.union_subset_union_left _ hsub)).trans hk₂
  have hslab : ∀ b ∈ (G.drop a).all, p₂.slab b = p.slab b :=
    fun b hb => slab_of_keeps (hk.mono Set.subset_union_left) hb
  have h0 : ∀ l, 0 ∉ (G.drop a).list l :=
    fun l h0 => h.zero_not_mem l (h.distinct.mem_drop.1 h0).2
  refine ⟨⟨h.size, howns₂, h.distinct.drop, fun l => ?_, fun b hb => ?_⟩,
    hk.mono Set.subset_union_right⟩
  · rw [List.erase_of_not_mem (h0 l)]
    refine (h.links l).congr fun b hb => ?_
    rw [Phys.link, Phys.link, hslab b ⟨l, hb⟩]
  · rw [hslab b hb]
    rw [h.distinct.all_drop] at hb
    exact h.header b hb.1

/-- The loop leaves the slab it is at, and the one after it if it has not counted one yet. -/
theorem CacheInv.trimLoop_spec {n counter : ℕ} {l₀ L : List ℕ} {v : ℕ}
    (h : CacheInv p R frame c G 0) (hl : G.list .emptyList = l₀ ++ L) (hs : SList p.link v L)
    (hn : L.length < n) :
    wp (trimLoop n counter v) (fun r p' =>
      CacheInv p' R frame c (G.keep (l₀ ++ L.take (if counter ≥ 1 then 1 else 2))) 0 ∧
      Keeps frame p p' ∧ (r ≠ 0 → r ∈ (G.keep (l₀ ++ L.take (if counter ≥ 1 then 1 else 2))).all ∧
        p'.link r = 0)) noPanic p := by
  induction n generalizing counter p G l₀ L v with
  | zero => exact absurd hn (Nat.not_lt_zero _)
  | succ n ih =>
  rcases L with _ | ⟨e, _ | ⟨f, L⟩⟩
  · obtain rfl : v = 0 := hs
    rw [trimLoop, wp_bind, wp_get, if_neg (fun hc => hc.1 rfl), wp_pure, List.take_nil, ← hl,
      Slabs.keep_self]
    exact ⟨h, .refl _ _, fun h0 => absurd rfl h0⟩
  · obtain ⟨rfl, hv0, hnext⟩ := hs
    have hnext' : (p.slab v).next = 0 := hnext
    have htake : [v].take (if counter ≥ 1 then 1 else 2) = [v] :=
      List.take_of_length_le (by split_ifs <;> simp)
    rw [trimLoop, wp_bind, wp_get, if_neg (fun hc => hc.2 hnext'), wp_pure, htake, ← hl,
      Slabs.keep_self]
    exact ⟨h, .refl _ _, fun _ => ⟨⟨.emptyList, by simp [hl]⟩, hnext'⟩⟩
  · obtain ⟨rfl, hv0, hnext, hf0, hsL⟩ := hs
    have hnext' : (p.slab v).next = f := hnext
    have hf : f ∈ G.list .emptyList := by simp [hl]
    simp only [List.length_cons] at hn
    rw [trimLoop, wp_bind, wp_get, hnext', if_pos ⟨hv0, hf0⟩]
    by_cases hc : counter ≥ 1
    · rw [if_pos hc, wp_bind, wp_modify, wp_bind, wp_get, wp_bind]
      obtain ⟨hdet, hk⟩ := h.detachAfter hl
      change wp (kfree ((p.setSlabNext v (p.link f)).slab f).mem) _ _ (p.setSlabNext v (p.link f))
      rw [(hdet.header f ⟨_, hf⟩).mem]
      refine wp_post (hdet.release_spec ⟨_, hf⟩) fun _ p₁ hp₁ => ?_
      rw [wp_bind]
      refine wp_post hp₁ fun _ p₂ ⟨h₂, hk₂⟩ => ?_
      have hnd := h.distinct.nodup .emptyList
      have hdrop : G.drop f = G.keep (l₀ ++ v :: L) := by
        rw [h.distinct.drop_eq hf, hl, erase_middle (hl ▸ hnd)]
      rw [hdrop] at h₂
      have hlink := h₂.links_zero .emptyList
      rw [Slabs.keep_empty] at hlink
      have hv : SList p₂.link v (v :: L) := ⟨rfl, hv0, hlink.suffix⟩
      refine wp_post (ih h₂ (Slabs.keep_empty ..) hv
        (by simp only [List.length_cons]; omega)) ?_
      rintro r p₃ ⟨h₃, hk₃, hr⟩
      rw [if_pos hc, Slabs.keep_keep] at h₃ hr
      rw [if_pos hc]
      exact ⟨h₃, (hk.trans hk₂).trans hk₃, hr⟩
    · rw [if_neg hc, if_neg hc]
      have hl' : G.list .emptyList = (l₀ ++ [v]) ++ f :: L := by simp [hl]
      refine wp_post (ih h hl' ⟨rfl, hf0, hsL⟩
        (by simp only [List.length_cons]; omega)) ?_
      rintro r p' hp'
      rw [if_pos (by omega)] at hp'
      simpa using hp'

theorem trim_spec (h : CacheGood s R frame G) :
    wp trim (fun _ s' => CachePost s R frame G.trim s') noPanic s := by
  have hlen := h.inv.length_le .emptyList
  rw [trim, wp_bind, wp_get, wp_bind, wp_onPhys]
  refine wp_post (h.inv.trimLoop_spec (List.nil_append _).symm
    (h.inv.links_zero _) (by omega)) ?_
  rintro r p ⟨hinv, hk, hr⟩
  rw [if_neg (by decide), List.nil_append] at hinv hr
  change CacheInv p R frame s.cache G.trim 0 at hinv
  by_cases hr0 : r = 0
  · rw [if_neg (by simpa using hr0), wp_pure]
    exact ⟨⟨hinv, h.sorted.trim⟩, rfl, hk⟩
  · obtain ⟨hall, hlink⟩ := hr hr0
    rw [if_pos hr0, wp_onPhys, wp_modify]
    have hsame : Function.update p.link r 0 = p.link := by
      rw [← hlink, Function.update_eq_self]
    obtain ⟨hinv', hk'⟩ := hinv.setSlabNext (v := 0) (y := 0) hall (by norm_num) rfl
      ⟨rfl, rfl, rfl, hinv.distinct⟩ fun l => by rw [hsame]; exact hinv.links l
    exact ⟨⟨hinv', h.sorted.trim⟩, rfl, hk.trans hk'⟩

/-! ## `kmem_cache_free` -/

/-- `kmem_cache_free` before it trims; the result says whether it has found a slab. -/
def freeObject (obj : ℕ) : Kern CacheState Bool := do
  let s ← get
  let a ← onPhys (findSlab obj s.cache.objSize (nPages + 1) (s.cache.head .partialList))
  if a ≠ 0 then do
    freePartial obj a
    pure true
  else do
    let a ← onPhys (findSlab obj s.cache.objSize (nPages + 1) (s.cache.head .fullList))
    if a ≠ 0 then do
      freeFull obj a
      pure true
    else pure false

theorem wp_kmemCacheFree {obj : ℕ} {Q : Unit → CacheState → Prop} {E : String → Prop} :
    wp (kmemCacheFree obj) Q E s ↔
      wp (freeObject obj) (fun found s' => if found then wp trim Q E s' else Q () s') E s := by
  have hpure : ∀ b : Bool, ∀ t, wp (pure b : Kern CacheState Bool)
      (fun found s' => if found then wp trim Q E s' else Q () s') E t ↔
      if b then wp trim Q E t else Q () t := fun b t => wp_pure b
  simp only [kmemCacheFree, freeObject, wp_bind, wp_get, wp_ite, hpure, if_true, wp_pure,
    Bool.false_eq_true, if_false]

theorem CacheGood.freeObject_spec (h : CacheGood s R frame G) (ha : a ∈ G.all)
    (hj : j < slabCapacity s.cache.objSize) (hbit : ¬(G.map a).testBit j) :
    wp (freeObject (G.page a + j * s.cache.objSize)) (fun found s' => found = true ∧
      CachePost s R frame (G.give s.cache.objSize a j) s') noPanic s := by
  obtain ⟨l, hal⟩ := ha
  have hall : a ∈ G.all := ⟨l, hal⟩
  have hcap := slabCapacity_bounds h.inv.size
  have hbd := h.inv.object_bounds hj
  have hlen := fun l => h.inv.length_le l
  have hl : l ≠ .emptyList := by
    rintro rfl
    have hpop : popcount (G.map a) = slabCapacity s.cache.objSize := h.sorted _ a hal
    exact hbit ((popcount_eq_iff hcap.2.1 (h.inv.header a hall).low).1 hpop j hj)
  -- the page of an object determines its slab
  have huniq : ∀ {l' r}, r ∈ G.list l' → G.page r ≤ G.page a + j * s.cache.objSize →
      G.page a + j * s.cache.objSize < G.page r + 4096 → r = a := by
    intro l' r hr h1 h2
    have h3 := h.inv.page_aligned hall
    have h4 := h.inv.page_aligned ⟨l', hr⟩
    exact h.inv.distinct.page_inj r ⟨l', hr⟩ a hall (by omega)
  rw [freeObject, wp_bind, wp_get, wp_bind, wp_onPhys]
  refine wp_post (h.inv.findSlab_spec (h.inv.links_zero .partialList) (fun b hb => ⟨_, hb⟩)
    (Nat.lt_succ_of_le (hlen .partialList))) ?_
  rintro r p ⟨rfl, ⟨hr, hr0, h1, h2⟩ | ⟨rfl, hno⟩⟩
  · obtain rfl := huniq hr h1 h2
    rw [if_pos hr0, wp_bind]
    refine wp_post (freePartial_spec h hr hj hbit) fun _ _ hs => ?_
    rw [wp_pure]
    exact ⟨rfl, hs⟩
  · rw [if_neg (by simp), wp_bind, wp_onPhys]
    refine wp_post (h.inv.findSlab_spec (h.inv.links_zero .fullList) (fun b hb => ⟨_, hb⟩)
      (Nat.lt_succ_of_le (hlen .fullList))) ?_
    rintro r p ⟨rfl, ⟨hr, hr0, h1, h2⟩ | ⟨rfl, hno'⟩⟩
    · obtain rfl := huniq hr h1 h2
      rw [if_pos hr0, wp_bind]
      refine wp_post (freeFull_spec h hr hj hbit) fun _ _ hs => ?_
      rw [wp_pure]
      exact ⟨rfl, hs⟩
    · have hin : G.page a ≤ G.page a + j * s.cache.objSize ∧
          G.page a + j * s.cache.objSize < G.page a + 4096 := by omega
      cases l with
      | partialList => exact absurd hin (hno a hal)
      | fullList => exact absurd hin (hno' a hal)
      | emptyList => exact absurd rfl hl

theorem kmemCacheFree_spec {obj : ℕ} (h : CacheGood s R frame G)
    (hobj : obj ∈ G.objs s.cache.objSize) :
    wp (kmemCacheFree obj) (fun _ s' => ∃ G', CachePost s R frame G' s' ∧
      G'.objs s.cache.objSize = G.objs s.cache.objSize \ {obj} ∧
      ∃ a ∈ G.all, ∃ j, G' = (G.give s.cache.objSize a j).trim) noPanic s := by
  obtain ⟨a, ha, j, hj, hbit, rfl⟩ := hobj
  rw [wp_kmemCacheFree]
  refine wp_post (h.freeObject_spec ha hj hbit) ?_
  rintro _ s₁ ⟨rfl, hg, hsize, hk⟩
  rw [if_pos rfl]
  refine wp_post (trim_spec hg) ?_
  rintro _ s' ⟨hg', hsize', hk'⟩
  refine ⟨_, ⟨hg', hsize'.trans hsize, hk.trans hk'⟩, ?_, a, ha, j, rfl⟩
  have hobjs := hg.inv.objs_trim hg.sorted
  rw [hsize] at hobjs
  rw [hobjs, h.inv.objs_free ha hj]

end Xv6Plus
