import Xv6Plus.SlabOps
import Xv6Plus.KallocRun

/-!
# Runs of the slab allocator

The six caches, each with the other five and all other holders of pages as its frame.
`SlabRun k s live others` : after `kinit` and `init_all_slabs`, any sequence of `kmalloc`
and matching `kmfree` calls, mixed with calls of the page allocator by others and with
writes of all holders into what they hold. `SlabRep` says what holds in every state of
such a run in terms of the lists and headers in memory.
-/

namespace Xv6Plus

/-- The pages of all caches. -/
def slabBlocks (G : ℕ → Slabs) : Set (ℕ × ℕ) := {b | ∃ k < 6, b ∈ (G k).blocks}

/-- The blocks that are not of the cache `i`. -/
def othersOf (G : ℕ → Slabs) (others : Set (ℕ × ℕ)) (i : ℕ) : Set (ℕ × ℕ) :=
  {b | b ∈ others ∨ ∃ k < 6, k ≠ i ∧ b ∈ (G k).blocks}

/-- The live objects of all caches, with their sizes. -/
def liveObjs (G : ℕ → Slabs) : Set (ℕ × ℕ) :=
  {x | ∃ i < 6, x.2 = 64 * 2 ^ i ∧ x.1 ∈ (G i).objs x.2}

/-- The six caches between two calls. -/
structure KmemInv (s : Kmem) (R : Set ℕ) (others : Set (ℕ × ℕ)) (G : ℕ → Slabs) : Prop where
  size : ∀ i < 6, (s.caches i).objSize = 64 * 2 ^ i
  owns : Owns s.phys R others (slabBlocks G)
  apart : ∀ i < 6, ∀ k < 6, i ≠ k → Disjoint (G i).blocks (G k).blocks
  good : ∀ i < 6, CacheGood (s.cacheState i) R (othersOf G others i) (G i)
  /-- Every free trims the empty slabs. -/
  few : ∀ i < 6, ((G i).list .emptyList).length ≤ 2

variable {s : Kmem} {R : Set ℕ} {others others' : Set (ℕ × ℕ)} {G : ℕ → Slabs} {i : ℕ}

theorem Kmem.cacheState_set_self (s : Kmem) (i : ℕ) (c : CacheState) :
    (s.setCacheState i c).cacheState i = c := by
  simp [Kmem.cacheState, Kmem.setCacheState]

theorem Kmem.cacheState_set_of_ne (s : Kmem) {k : ℕ} (h : k ≠ i) (c : CacheState) :
    (s.setCacheState i c).cacheState k = (s.cacheState k).setPhys c.phys := by
  simp [Kmem.cacheState, Kmem.setCacheState, CacheState.setPhys, h]

theorem blocks_subset (hi : i < 6) : (G i).blocks ⊆ slabBlocks G := fun _ hb => ⟨i, hi, hb⟩

/-- A cache and the others around it share out what the page allocator has handed out. -/
theorem union_othersOf (hi : i < 6) :
    (G i).blocks ∪ othersOf G others i = others ∪ slabBlocks G := by
  ext b
  constructor
  · rintro (hb | hb | ⟨k, hk, -, hb⟩)
    · exact .inr ⟨i, hi, hb⟩
    · exact .inl hb
    · exact .inr ⟨k, hk, hb⟩
  · rintro (hb | ⟨k, hk, hb⟩)
    · exact .inr (.inl hb)
    · by_cases hki : k = i
      · subst hki
        exact .inl hb
      · exact .inr (.inr ⟨k, hk, hki, hb⟩)

/-- Each cache owns its pages if the shares are disjoint. -/
theorem owns_cache {p : Phys} (howns : Owns p R others (slabBlocks G))
    (hap : ∀ i < 6, ∀ k < 6, i ≠ k → Disjoint (G i).blocks (G k).blocks) (hi : i < 6) :
    Owns p R (G i).blocks (othersOf G others i) := by
  refine ⟨?_, ?_, howns.above⟩
  · rw [union_othersOf hi]
    exact howns.buddy
  · rw [Set.disjoint_left]
    rintro b hb (hb' | ⟨k, hk, hki, hb'⟩)
    · exact Set.disjoint_left.1 howns.apart hb' (blocks_subset hi hb)
    · exact Set.disjoint_left.1 (hap i hi k hk (Ne.symm hki)) hb hb'

namespace KmemInv

/-- The others take or give back blocks, or anybody writes : the headers stay. -/
theorem setPhys {p : Phys} (h : KmemInv s R others G) (howns : Owns p R others' (slabBlocks G))
    (hslab : ∀ i < 6, ∀ b ∈ (G i).all, p.slab b = s.phys.slab b) :
    KmemInv (s.setPhys p) R others' G :=
  ⟨h.size, howns, h.apart, fun i hi =>
    ⟨(h.good i hi).inv.transfer (owns_cache howns h.apart hi) (hslab i hi), (h.good i hi).sorted⟩,
    h.few⟩

theorem slab_of_keeps {p : Phys} (hk : Keeps (slabBlocks G) s.phys p) :
    ∀ i < 6, ∀ b ∈ (G i).all, p.slab b = s.phys.slab b :=
  fun _ hi _ hb => CacheInv.slab_of_keeps (hk.mono (blocks_subset hi)) hb

/-- One cache has done an operation. -/
theorem setCache {c : CacheState} {G' : Slabs} (h : KmemInv s R others G) (hi : i < 6)
    (hg : CacheGood c R (othersOf G others i) G')
    (hkeep : Keeps (othersOf G others i) s.phys c.phys)
    (hsize : c.cache.objSize = (s.caches i).objSize)
    (hfew : (G'.list .emptyList).length ≤ 2) :
    KmemInv (s.setCacheState i c) R others (Function.update G i G') := by
  have hself : Function.update G i G' i = G' := Function.update_self ..
  have hother : ∀ {k}, k ≠ i → Function.update G i G' k = G k :=
    fun hki => Function.update_of_ne hki _ _
  have hframe : othersOf (Function.update G i G') others i = othersOf G others i := by
    ext b
    refine or_congr_right (exists_congr fun k => and_congr_right fun _ => ?_)
    exact and_congr_right fun hki => by rw [hother hki]
  have hdis : ∀ k < 6, k ≠ i → Disjoint G'.blocks (G k).blocks := fun k hk hki =>
    hg.inv.owns.apart.mono_right fun b hb => .inr ⟨k, hk, hki, hb⟩
  have hap : ∀ j < 6, ∀ k < 6, j ≠ k →
      Disjoint (Function.update G i G' j).blocks (Function.update G i G' k).blocks := by
    intro j hj k hk hjk
    by_cases hji : j = i
    · subst hji
      rw [hself, hother (Ne.symm hjk)]
      exact hdis k hk (Ne.symm hjk)
    · by_cases hki : k = i
      · subst hki
        rw [hself, hother hji]
        exact (hdis j hj hji).symm
      · rw [hother hji, hother hki]
        exact h.apart j hj k hk hjk
  have howns : Owns c.phys R others (slabBlocks (Function.update G i G')) := by
    refine ⟨?_, ?_, hg.inv.owns.above⟩
    · rw [← union_othersOf hi, hframe, hself]
      exact hg.inv.owns.buddy
    · rw [Set.disjoint_left]
      rintro b hb ⟨k, hk, hb'⟩
      by_cases hki : k = i
      · subst hki
        rw [hself] at hb'
        exact Set.disjoint_left.1 hg.inv.owns.apart hb' (.inl hb)
      · rw [hother hki] at hb'
        exact Set.disjoint_left.1 h.owns.apart hb ⟨k, hk, hb'⟩
  refine ⟨fun k hk => ?_, howns, hap, fun k hk6 => ?_, fun k hk => ?_⟩
  · change ((s.setCacheState i c).cacheState k).cache.objSize = _
    by_cases hki : k = i
    · subst hki
      rw [Kmem.cacheState_set_self, hsize, h.size k hk]
    · rw [Kmem.cacheState_set_of_ne s hki]
      exact h.size k hk
  · by_cases hki : k = i
    · subst hki
      rw [hframe, hself, Kmem.cacheState_set_self]
      exact hg
    · have hgood := h.good k hk6
      have hown := owns_cache howns hap hk6
      rw [hother hki] at hown
      rw [hother hki, Kmem.cacheState_set_of_ne s hki]
      refine ⟨hgood.inv.transfer hown fun b hb => ?_, hgood.sorted⟩
      exact CacheInv.slab_of_keeps (hkeep.mono fun b hb => .inr ⟨k, hk6, hki, hb⟩) hb
  · by_cases hki : k = i
    · subst hki
      rw [hself]
      exact hfew
    · rw [hother hki]
      exact h.few k hk

theorem class_inj {k : ℕ} (h : 64 * 2 ^ k = 64 * 2 ^ i) : k = i :=
  Nat.pow_right_injective (le_refl 2) (Nat.eq_of_mul_eq_mul_left (by norm_num) h)

theorem mem_liveObjs (hi : i < 6) (x : ℕ) :
    (x, 64 * 2 ^ i) ∈ liveObjs G ↔ x ∈ (G i).objs (64 * 2 ^ i) := by
  constructor
  · rintro ⟨k, -, he, hx⟩
    obtain rfl := class_inj he
    exact hx
  · intro hx
    exact ⟨i, hi, rfl, hx⟩

/-- What an operation of one cache does to the live objects. -/
theorem liveObjs_update {G' : Slabs} (hi : i < 6) (x : ℕ × ℕ) :
    x ∈ liveObjs (Function.update G i G') ↔
      (x.2 = 64 * 2 ^ i ∧ x.1 ∈ G'.objs (64 * 2 ^ i)) ∨ (x.2 ≠ 64 * 2 ^ i ∧ x ∈ liveObjs G) := by
  constructor
  · rintro ⟨k, hk, hx2, hx⟩
    by_cases hki : k = i
    · subst hki
      rw [Function.update_self, hx2] at hx
      exact .inl ⟨hx2, hx⟩
    · rw [Function.update_of_ne hki] at hx
      exact .inr ⟨fun he => hki (class_inj (hx2.symm.trans he)), k, hk, hx2, hx⟩
  · rintro (⟨hx2, hx⟩ | ⟨hne, k, hk, hx2, hx⟩)
    · refine ⟨i, hi, hx2, ?_⟩
      rw [Function.update_self, hx2]
      exact hx
    · have hki : k ≠ i := by
        rintro rfl
        exact hne hx2
      refine ⟨k, hk, hx2, ?_⟩
      rwa [Function.update_of_ne hki]

end KmemInv

/-! ## The entry points -/

theorem assistSize_spec {size : ℕ} (h : size ≤ 2048) :
    ∃ i < 6, assistSize size = 64 * 2 ^ i ∧ size ≤ assistSize size := by
  unfold assistSize
  split_ifs
  · exact ⟨0, by norm_num, by norm_num, by omega⟩
  · exact ⟨1, by norm_num, by norm_num, by omega⟩
  · exact ⟨2, by norm_num, by norm_num, by omega⟩
  · exact ⟨3, by norm_num, by norm_num, by omega⟩
  · exact ⟨4, by norm_num, by norm_num, by omega⟩
  · exact ⟨5, by norm_num, by norm_num, by omega⟩

theorem KmemInv.findCache_eq (h : KmemInv s R others G) (hi : i < 6) :
    s.findCache (64 * 2 ^ i) = some i := by
  have h0 := h.size 0 (by omega)
  have h1 := h.size 1 (by omega)
  have h2 := h.size 2 (by omega)
  have h3 := h.size 3 (by omega)
  have h4 := h.size 4 (by omega)
  have h5 := h.size 5 (by omega)
  obtain rfl | rfl | rfl | rfl | rfl | rfl : i = 0 ∨ i = 1 ∨ i = 2 ∨ i = 3 ∨ i = 4 ∨ i = 5 := by
    omega
  all_goals simp [Kmem.findCache, List.range_succ_eq_map, h0, h1, h2, h3, h4, h5]

theorem kmalloc_spec {size : ℕ} (h : KmemInv s R others G) (hsize : size ≤ 2048) :
    wp (kmalloc size) (fun r s' => ∃ G', KmemInv s' R others G' ∧ Keeps others s.phys s'.phys ∧
      ((r = 0 ∧ liveObjs G' = liveObjs G ∧ Exhausted s.phys) ∨
        (r ≠ 0 ∧ (r, assistSize size) ∉ liveObjs G ∧
          liveObjs G' = insert (r, assistSize size) (liveObjs G) ∧
          ∃ x y, slabBlocks G' ⊆ {x, y} ∪ slabBlocks G))) noPanic s := by
  obtain ⟨i, hi, hclass, -⟩ := assistSize_spec hsize
  have hne : assistSize size ≠ 0 := by
    have := Nat.two_pow_pos i
    omega
  have hsz := h.size i hi
  rw [kmalloc, if_neg hne, wp_bind, wp_get, hclass, h.findCache_eq hi]
  dsimp only
  rw [wp_zoom]
  refine wp_post (kmemCacheAlloc_spec (h.good i hi)) ?_
  rintro r c (⟨rfl, hg, hc, hk, hex⟩ | ⟨G', ho⟩)
  · have hup : Function.update G i (G i) = G := Function.update_eq_self i G
    have hinv := h.setCache hi hg (hk.mono Set.subset_union_right) (by rw [hc]; rfl) (h.few i hi)
    rw [hup] at hinv
    exact ⟨G, hinv, hk.mono fun b hb => .inr (.inl hb), .inl ⟨rfl, rfl, hex⟩⟩
  · have hfresh : r ∉ (G i).objs (64 * 2 ^ i) := hsz ▸ ho.fresh
    have hobjs : G'.objs (64 * 2 ^ i) = insert r ((G i).objs (64 * 2 ^ i)) := hsz ▸ ho.objs
    refine ⟨_, h.setCache hi ho.good ho.keeps ho.objSize (ho.few.trans (h.few i hi)),
      ho.keeps.mono fun b hb => .inl hb,
      .inr ⟨ho.ne_zero, fun hl => hfresh ((KmemInv.mem_liveObjs hi r).1 hl), ?_, ?_⟩⟩
    · ext ⟨x, n⟩
      rw [KmemInv.liveObjs_update hi, hobjs]
      by_cases hn : n = 64 * 2 ^ i
      · subst hn
        simp [KmemInv.mem_liveObjs hi]
      · simp [hn]
    · obtain ⟨x, y, hgrow⟩ := ho.grow
      refine ⟨x, y, ?_⟩
      rintro b ⟨k, hk, hb⟩
      by_cases hki : k = i
      · subst hki
        rw [Function.update_self] at hb
        exact (hgrow hb).imp_right fun hb => ⟨k, hk, hb⟩
      · rw [Function.update_of_ne hki] at hb
        exact Or.inr ⟨k, hk, hb⟩

theorem kmfree_spec {obj size : ℕ} (h : KmemInv s R others G) (hsize : size ≤ 2048)
    (hobj : (obj, assistSize size) ∈ liveObjs G) :
    wp (kmfree obj size) (fun _ s' => ∃ G', KmemInv s' R others G' ∧ Keeps others s.phys s'.phys ∧
      liveObjs G' = liveObjs G \ {(obj, assistSize size)} ∧
      ∃ i < 6, assistSize size = 64 * 2 ^ i ∧ ∃ a ∈ (G i).all, ∃ j,
        G' = Function.update G i ((G i).give (assistSize size) a j).trim) noPanic s := by
  obtain ⟨i, hi, hclass, -⟩ := assistSize_spec hsize
  have hne : assistSize size ≠ 0 := by
    have := Nat.two_pow_pos i
    omega
  have hsz : (s.cacheState i).cache.objSize = 64 * 2 ^ i := h.size i hi
  rw [hclass, KmemInv.mem_liveObjs hi, ← hsz] at hobj
  rw [kmfree, if_neg hne, wp_bind, wp_get, hclass, h.findCache_eq hi]
  dsimp only
  rw [wp_zoom]
  refine wp_post (kmemCacheFree_spec (h.good i hi) hobj) ?_
  rintro _ c ⟨_, ⟨hg, hs, hk⟩, hobjs, a, ha, j, rfl⟩
  rw [hsz] at hobjs hg
  refine ⟨_, h.setCache hi hg hk hs (Slabs.length_trim _), hk.mono fun b hb => .inl hb, ?_, i, hi,
    rfl, a, ha, j, rfl⟩
  ext ⟨x, n⟩
  rw [KmemInv.liveObjs_update hi, hobjs]
  by_cases hn : n = 64 * 2 ^ i
  · subst hn
    simp [KmemInv.mem_liveObjs hi]
  · simp [hn]

/-! ## Runs -/

/-- Sequences of calls, with the live objects and the blocks that others hold. -/
inductive SlabRun (k : KernelEnd) : Kmem → Set (ℕ × ℕ) → Set (ℕ × ℕ) → Prop
  | init {p : Phys} {caches : ℕ → KmemCache} {others : Set (ℕ × ℕ)} : KallocRun k p others →
      SlabRun k (initAllSlabs ⟨p, caches⟩) ∅ others
  | kmalloc {s s' : Kmem} {live others : Set (ℕ × ℕ)} {size r : ℕ} : SlabRun k s live others →
      size ≤ 2048 → (kmalloc size).run s = .ok (r, s') →
      SlabRun k s' (if r = 0 then live else insert (r, assistSize size) live) others
  | kmfree {s s' : Kmem} {live others : Set (ℕ × ℕ)} {obj size : ℕ} : SlabRun k s live others →
      size ≤ 2048 → (obj, assistSize size) ∈ live → (kmfree obj size).run s = .ok ((), s') →
      SlabRun k s' (live \ {(obj, assistSize size)}) others
  | kalloc {s : Kmem} {p : Phys} {live others : Set (ℕ × ℕ)} {r : ℕ} : SlabRun k s live others →
      kalloc.run s.phys = .ok (r, p) →
      SlabRun k (s.setPhys p) live (if r = 0 then others else insert (r, 0) others)
  | kallocHuge {s : Kmem} {p : Phys} {live others : Set (ℕ × ℕ)} {r : ℕ} :
      SlabRun k s live others → kallocHuge.run s.phys = .ok (r, p) →
      SlabRun k (s.setPhys p) live (if r = 0 then others else insert (r, hugeOrder) others)
  | kfree {s : Kmem} {p : Phys} {live others : Set (ℕ × ℕ)} {pa : ℕ} : SlabRun k s live others →
      (pa, 0) ∈ others → (kfree pa).run s.phys = .ok ((), p) →
      SlabRun k (s.setPhys p) live (others \ {(pa, 0)})
  | kfreeHuge {s : Kmem} {p : Phys} {live others : Set (ℕ × ℕ)} {pa : ℕ} :
      SlabRun k s live others → (pa, hugeOrder) ∈ others → (kfreeHuge pa).run s.phys = .ok ((), p) →
      SlabRun k (s.setPhys p) live (others \ {(pa, hugeOrder)})
  | write {s : Kmem} {m : Mem} {live others : Set (ℕ × ℕ)} : SlabRun k s live others →
      (∀ x, x ∉ region others → (∀ y ∈ live, x ∉ Set.Ico y.1 (y.1 + y.2)) → m x = s.phys.mem x) →
      SlabRun k (s.setPhys (s.phys.setMem m)) live others

/-- A cache without slabs. -/
def Slabs.none : Slabs := ⟨fun _ => [], fun _ => 0, fun _ => 0⟩

theorem Slabs.none_blocks : Slabs.none.blocks = ∅ := by
  ext b
  simp [Slabs.blocks, Slabs.all, Slabs.none]

theorem Slabs.none_objs (sz : ℕ) : Slabs.none.objs sz = ∅ := by
  ext b
  simp [Slabs.objs, Slabs.all, Slabs.none]

theorem initAllSlabs_inv {p : Phys} {caches : ℕ → KmemCache} (hb : Buddy p R others)
    (hR : ∀ x ∈ R, p.kend ≤ x) :
    KmemInv (initAllSlabs ⟨p, caches⟩) R others fun _ => Slabs.none := by
  have hblocks : slabBlocks (fun _ => Slabs.none) = ∅ := by
    ext b
    simp [slabBlocks, Slabs.none_blocks]
  have howns : Owns p R others (slabBlocks fun _ => Slabs.none) := by
    rw [hblocks]
    exact ⟨by rwa [Set.union_empty], Set.disjoint_empty _, hR⟩
  have hap : ∀ i < 6, ∀ k < 6, i ≠ k → Disjoint Slabs.none.blocks Slabs.none.blocks :=
    fun _ _ _ _ _ => by simp [Slabs.none_blocks]
  have hcache : ∀ i < 6, (initAllSlabs ⟨p, caches⟩).caches i = kmemCacheInit (64 * 2 ^ i) := by
    intro i hi
    obtain rfl | rfl | rfl | rfl | rfl | rfl :
        i = 0 ∨ i = 1 ∨ i = 2 ∨ i = 3 ∨ i = 4 ∨ i = 5 := by omega
    all_goals rfl
  have hsize : ∀ i < 6, ((initAllSlabs ⟨p, caches⟩).caches i).objSize = 64 * 2 ^ i :=
    fun i hi => by rw [hcache i hi]; rfl
  refine ⟨hsize, howns, hap, fun i hi => ⟨⟨⟨i, hi, hsize i hi⟩, owns_cache howns hap hi, ?_,
    fun l => ?_, ?_⟩, ?_⟩, fun _ _ => Nat.zero_le 2⟩
  · exact ⟨fun _ => List.nodup_nil, fun h => absurd h List.not_mem_nil,
      fun _ ⟨_, h⟩ => absurd h List.not_mem_nil, fun _ ⟨_, h⟩ => absurd h List.not_mem_nil⟩
  · rw [Kmem.cacheState, hcache i hi]
    rfl
  · rintro a ⟨l, h⟩
    exact absurd h List.not_mem_nil
  · exact fun l a h => absurd h List.not_mem_nil

namespace KmemInv

theorem object (h : KmemInv s R others G) {y : ℕ × ℕ} (hy : y ∈ liveObjs G) :
    ∃ i < 6, ∃ a ∈ (G i).all, ∃ j < slabCapacity y.2, y.2 = 64 * 2 ^ i ∧
      y.1 = (G i).page a + j * y.2 ∧
      Set.Ico y.1 (y.1 + y.2) ⊆ span 4096 ((G i).page a, 0) := by
  obtain ⟨i, hi, hclass, a, ha, j, hj, -, hy1⟩ := hy
  have hsz : (s.cacheState i).cache.objSize = y.2 := (h.size i hi).trans hclass.symm
  have hbd := (h.good i hi).inv.object_bounds (hsz ▸ hj)
  rw [hsz] at hbd
  refine ⟨i, hi, a, ha, j, hj, hclass, hy1, fun x hx => ?_⟩
  have h1 := hx.1
  have h2 := hx.2
  rw [mem_span]
  norm_num
  omega

/-- Pages of the caches with a common byte are one page of one cache. -/
theorem eq_of_mem {k : ℕ} {b d : ℕ × ℕ} {x : ℕ} (h : KmemInv s R others G) (hi : i < 6)
    (hk : k < 6) (hb : b ∈ (G i).blocks) (hd : d ∈ (G k).blocks) (hxb : x ∈ span 4096 b)
    (hxd : x ∈ span 4096 d) : i = k ∧ b = d := by
  have he : b = d := h.owns.buddy.liveTiles.eq_of_mem (.inr (blocks_subset hi hb))
    (.inr (blocks_subset hk hd)) hxb hxd
  refine ⟨?_, he⟩
  by_contra hik
  exact Set.disjoint_left.1 (h.apart i hi k hk hik) hb (he ▸ hd)

theorem live_disjoint (h : KmemInv s R others G) {y z : ℕ × ℕ} (hy : y ∈ liveObjs G)
    (hz : z ∈ liveObjs G) (hne : y ≠ z) :
    Disjoint (Set.Ico y.1 (y.1 + y.2)) (Set.Ico z.1 (z.1 + z.2)) := by
  obtain ⟨i, hi, a, ha, j, hj, hy2, hy1, hysub⟩ := h.object hy
  obtain ⟨k, hk, b, hb, l, hl, hz2, hz1, hzsub⟩ := h.object hz
  rw [Set.disjoint_left]
  intro x hx hx'
  obtain ⟨rfl, hpage⟩ := h.eq_of_mem hi hk (CacheInv.page_block ha) (CacheInv.page_block hb)
    (hysub hx) (hzsub hx')
  have hab := (h.good i hi).inv.distinct.page_inj a ha b hb (congrArg Prod.fst hpage)
  subst hab
  have hsz : y.2 = z.2 := hy2.trans hz2.symm
  have hjl : j = l := by
    have h1 := hx.1
    have h2 := hx.2
    have h3 := hx'.1
    have h4 := hx'.2
    rw [← hsz] at hz1 h4
    by_contra hjl
    rcases Nat.lt_or_gt_of_ne hjl with hlt | hlt
    · have := Nat.mul_le_mul_right y.2 hlt
      rw [Nat.succ_mul] at this
      omega
    · have := Nat.mul_le_mul_right y.2 hlt
      rw [Nat.succ_mul] at this
      omega
  subst hjl
  exact hne (Prod.ext (by rw [hy1, hz1, hsz]) hsz)

theorem header_disjoint {a : ℕ} (h : KmemInv s R others G) (hi : i < 6) (ha : a ∈ (G i).all)
    {y : ℕ × ℕ} (hy : y ∈ liveObjs G) :
    Disjoint (span 4096 (a, 0)) (Set.Ico y.1 (y.1 + y.2)) := by
  obtain ⟨k, hk, b, hb, j, hj, -, -, hsub⟩ := h.object hy
  rw [Set.disjoint_left]
  intro x hx hx'
  obtain ⟨rfl, hpage⟩ := h.eq_of_mem hi hk (CacheInv.all_block ha) (CacheInv.page_block hb) hx
    (hsub hx')
  exact (h.good i hi).inv.distinct.page_ne b hb a ha (congrArg Prod.fst hpage).symm

theorem write {m : Mem} (h : KmemInv s R others G)
    (hm : ∀ x, x ∉ region others → (∀ y ∈ liveObjs G, x ∉ Set.Ico y.1 (y.1 + y.2)) →
      m x = s.phys.mem x) :
    KmemInv (s.setPhys (s.phys.setMem m)) R others G := by
  have hfree : Set.EqOn m s.phys.mem (region s.phys.free) := by
    intro x hx
    refine hm x (fun ho => ?_) fun y hy hxy => ?_
    · exact Set.disjoint_left.1 h.owns.buddy.apart hx (region_mono Set.subset_union_left ho)
    · obtain ⟨k, hk, b, hb, -, -, -, -, hsub⟩ := h.object hy
      refine Set.disjoint_left.1 h.owns.buddy.apart hx ⟨((G k).page b, 0), ?_, hsub hxy⟩
      exact .inr (blocks_subset hk (CacheInv.page_block hb))
  refine h.setPhys ⟨h.owns.buddy.setMem hfree, h.owns.apart, h.owns.above⟩ fun i hi b hb => ?_
  refine Phys.slab_congr fun x hx => hm x (fun ho => ?_) fun y hy => ?_
  · refine Set.disjoint_left.1 h.owns.region_apart ho ?_
    exact ⟨(b, 0), blocks_subset hi (CacheInv.all_block hb), hx⟩
  · exact Set.disjoint_left.1 (h.header_disjoint hi hb hy) hx

theorem alloc {o r : ℕ} {p : Phys} (h : KmemInv s R others G)
    (hr : Owns.AllocPost s.phys R others (slabBlocks G) o r p) :
    KmemInv (s.setPhys p) R (if r = 0 then others else insert (r, o) others) G := by
  rcases hr with ⟨rfl, rfl, -⟩ | ⟨hr0, -, howns, hk⟩
  · rw [if_pos rfl]
    exact h
  · rw [if_neg hr0]
    exact h.setPhys howns (slab_of_keeps (hk.mono Set.subset_union_right))

theorem free {b : ℕ × ℕ} {p : Phys} (h : KmemInv s R others G)
    (hp : Owns p R (others \ {b}) (slabBlocks G) ∧
      Keeps (others \ {b} ∪ slabBlocks G) s.phys p) :
    KmemInv (s.setPhys p) R (others \ {b}) G :=
  h.setPhys hp.1 (slab_of_keeps (hp.2.mono Set.subset_union_right))

end KmemInv

theorem SlabRun.inv {k : KernelEnd} {live : Set (ℕ × ℕ)} (h : SlabRun k s live others) :
    ∃ G, KmemInv s k.managed others G ∧ liveObjs G = live := by
  induction h with
  | init hp =>
    have hinv := hp.inv
    refine ⟨_, initAllSlabs_inv hinv.buddy fun x hx => ?_, ?_⟩
    · rw [hinv.kend]
      exact k.addr_le.trans hx.1
    · ext x
      simp [liveObjs, Slabs.none_objs]
  | kmalloc _ hsize hrun ih =>
    obtain ⟨G, hinv, rfl⟩ := ih
    obtain ⟨G', hinv', -, ⟨rfl, hlive, -⟩ | ⟨hr0, -, hlive, -⟩⟩ :=
      wp_of_run (kmalloc_spec hinv hsize) hrun
    · exact ⟨G', hinv', by rw [if_pos rfl, hlive]⟩
    · exact ⟨G', hinv', by rw [if_neg hr0, hlive]⟩
  | kmfree _ hsize hobj hrun ih =>
    obtain ⟨G, hinv, rfl⟩ := ih
    obtain ⟨G', hinv', -, hlive, -⟩ := wp_of_run (kmfree_spec hinv hsize hobj) hrun
    exact ⟨G', hinv', hlive⟩
  | kalloc _ hrun ih =>
    obtain ⟨G, hinv, rfl⟩ := ih
    exact ⟨G, hinv.alloc (wp_of_run hinv.owns.kalloc_spec hrun), rfl⟩
  | kallocHuge _ hrun ih =>
    obtain ⟨G, hinv, rfl⟩ := ih
    exact ⟨G, hinv.alloc (wp_of_run hinv.owns.kallocHuge_spec hrun), rfl⟩
  | kfree _ hb hrun ih =>
    obtain ⟨G, hinv, rfl⟩ := ih
    exact ⟨G, hinv.free (wp_of_run (hinv.owns.kfree_spec hb) hrun), rfl⟩
  | kfreeHuge _ hb hrun ih =>
    obtain ⟨G, hinv, rfl⟩ := ih
    exact ⟨G, hinv.free (wp_of_run (hinv.owns.kfreeHuge_spec hb) hrun), rfl⟩
  | write _ hm ih =>
    obtain ⟨G, hinv, rfl⟩ := ih
    exact ⟨G, hinv.write hm, rfl⟩

/-! ## What holds in every state of a run -/

/-- The lists, headers and live objects of the six caches. `slabs i l` are the slabs on
the list `l` of the cache `i`, and `others` are the blocks of the page allocator that are
not pages of slabs. -/
structure SlabRep (k : KernelEnd) (s : Kmem) (live others : Set (ℕ × ℕ))
    (slabs : ℕ → SlabList → List ℕ) : Prop where
  links : ∀ i < 6, ∀ l, SList s.phys.link ((s.caches i).head l) (slabs i l) ∧ (slabs i l).Nodup
  one : ∀ i < 6, ∀ j < 6, ∀ l l' a, a ∈ slabs i l → a ∈ slabs j l' → i = j ∧ l = l'
  pages : Buddy s.phys k.managed (others ∪
    {b | b.2 = 0 ∧ ∃ i < 6, ∃ l, ∃ a ∈ slabs i l, b.1 = a ∨ b.1 = (s.phys.slab a).mem})
  capacity : ∀ i < 6, ∀ l, ∀ a ∈ slabs i l,
    (s.phys.slab a).capacity = min 64 (4096 / (s.caches i).objSize)
  nrFree : ∀ i < 6, ∀ l, ∀ a ∈ slabs i l,
    (s.phys.slab a).nrFree = popcount (s.phys.slab a).freemap
  low : ∀ i < 6, ∀ l, ∀ a ∈ slabs i l, ∀ j,
    (s.phys.slab a).freemap.testBit j → j < (s.phys.slab a).capacity
  fits : ∀ i < 6, ∀ l, ∀ a ∈ slabs i l,
    l.Fits (s.phys.slab a).nrFree (s.phys.slab a).capacity
  live_iff : ∀ i < 6, ∀ x, (x, (s.caches i).objSize) ∈ live ↔
    ∃ l, ∃ a ∈ slabs i l, ∃ j < (s.phys.slab a).capacity, ¬(s.phys.slab a).freemap.testBit j ∧
      x = (s.phys.slab a).mem + j * (s.caches i).objSize
  live_class : ∀ x ∈ live, ∃ i < 6, x.2 = (s.caches i).objSize
  live_disjoint : ∀ x ∈ live, ∀ y ∈ live, x ≠ y →
    Disjoint (Set.Ico x.1 (x.1 + x.2)) (Set.Ico y.1 (y.1 + y.2))
  header_disjoint : ∀ i < 6, ∀ l, ∀ a ∈ slabs i l, ∀ x ∈ live,
    Disjoint (Set.Ico a (a + pgSize)) (Set.Ico x.1 (x.1 + x.2))

theorem KmemInv.pages_eq (h : KmemInv s R others G) :
    slabBlocks G = {b | b.2 = 0 ∧ ∃ i < 6, ∃ l, ∃ a ∈ (G i).list l,
      b.1 = a ∨ b.1 = (s.phys.slab a).mem} := by
  have hmem : ∀ i < 6, ∀ a ∈ (G i).all, (s.phys.slab a).mem = (G i).page a :=
    fun i hi a ha => ((h.good i hi).inv.header a ha).mem
  ext ⟨x, o⟩
  constructor
  · rintro ⟨i, hi, ⟨l, ha⟩ | ⟨a, ⟨l, ha⟩, rfl⟩, rfl⟩
    · exact ⟨rfl, i, hi, l, x, ha, .inl rfl⟩
    · exact ⟨rfl, i, hi, l, a, ha, .inr (hmem i hi a ⟨l, ha⟩).symm⟩
  · rintro ⟨rfl, i, hi, l, a, ha, rfl | rfl⟩
    · exact ⟨i, hi, .inl ⟨l, ha⟩, rfl⟩
    · exact ⟨i, hi, .inr ⟨a, ⟨l, ha⟩, (hmem i hi a ⟨l, ha⟩).symm⟩, rfl⟩

theorem KmemInv.rep {k : KernelEnd} (h : KmemInv s k.managed others G) :
    SlabRep k s (liveObjs G) others fun i => (G i).list := by
  have hok : ∀ i < 6, ∀ l, ∀ a ∈ (G i).list l,
      HeaderOk (s.phys.slab a) ((G i).page a) (slabCapacity (s.caches i).objSize) ((G i).map a) :=
    fun i hi l a ha => (h.good i hi).inv.header a ⟨l, ha⟩
  refine
    { links := fun i hi l => ⟨(h.good i hi).inv.links_zero l, (h.good i hi).inv.distinct.nodup l⟩
      one := fun i hi j hj l l' a ha ha' => ?_
      pages := h.pages_eq ▸ h.owns.buddy
      capacity := fun i hi l a ha => (hok i hi l a ha).capacity
      nrFree := fun i hi l a ha => by rw [(hok i hi l a ha).nrFree, (hok i hi l a ha).freemap]
      low := fun i hi l a ha j hj => ?_
      fits := fun i hi l a ha => ?_
      live_iff := fun i hi x => ?_
      live_class := fun x ⟨i, hi, hx, _⟩ => ⟨i, hi, by rw [hx, h.size i hi]⟩
      live_disjoint := fun x hx y hy hne => h.live_disjoint hx hy hne
      header_disjoint := fun i hi l a ha x hx => ?_ }
  · have hb : (a, 0) ∈ (G i).blocks := CacheInv.all_block ⟨l, ha⟩
    have hb' : (a, 0) ∈ (G j).blocks := CacheInv.all_block ⟨l', ha'⟩
    have hmem := start_mem_span (u := 4096) (by omega) (a, 0)
    obtain ⟨rfl, -⟩ := h.eq_of_mem hi hj hb hb' hmem hmem
    exact ⟨rfl, (h.good i hi).inv.distinct.one ha ha'⟩
  · rw [(hok i hi l a ha).freemap] at hj
    rw [(hok i hi l a ha).capacity]
    exact (hok i hi l a ha).low j hj
  · rw [(hok i hi l a ha).nrFree, (hok i hi l a ha).capacity]
    exact (h.good i hi).sorted l a ha
  · rw [h.size i hi, KmemInv.mem_liveObjs hi]
    constructor
    · rintro ⟨a, ⟨l, ha⟩, j, hj, hno, rfl⟩
      refine ⟨l, a, ha, j, ?_, ?_, ?_⟩
      · rwa [(hok i hi l a ha).capacity, h.size i hi]
      · rwa [(hok i hi l a ha).freemap]
      · rw [(hok i hi l a ha).mem]
    · rintro ⟨l, a, ha, j, hj, hno, rfl⟩
      rw [(hok i hi l a ha).capacity, h.size i hi] at hj
      rw [(hok i hi l a ha).freemap] at hno
      rw [(hok i hi l a ha).mem]
      exact ⟨a, ⟨l, ha⟩, j, hj, hno, rfl⟩
  · have hd := h.header_disjoint hi ⟨l, ha⟩ hx
    simpa [span] using hd

/-- In every state of a run the slabs, their headers and the live objects fit together,
the next call returns without a panic, and a new object is not one of the live ones and
at least as large as asked for. -/
theorem slabRun_rep (k : KernelEnd) (s : Kmem) (live others : Set (ℕ × ℕ))
    (h : SlabRun k s live others) :
    (∃ slabs, SlabRep k s live others slabs) ∧
    (∀ size ≤ 2048, size ≤ assistSize size ∧ ∃ r s', (kmalloc size).run s = .ok (r, s') ∧
      (r ≠ 0 → (r, assistSize size) ∉ live)) ∧
    ∀ obj, ∀ size ≤ 2048, (obj, assistSize size) ∈ live →
      ∃ s', (kmfree obj size).run s = .ok ((), s') := by
  obtain ⟨G, hinv, rfl⟩ := h.inv
  refine ⟨⟨_, hinv.rep⟩, fun size hsize => ?_, fun obj size hsize hobj => ?_⟩
  · obtain ⟨-, -, -, hle⟩ := assistSize_spec hsize
    obtain ⟨r, s', hrun, G', -, -, ⟨h0, -⟩ | ⟨-, hfresh, -⟩⟩ :=
      wp_noPanic_iff.1 (kmalloc_spec hinv hsize)
    · exact ⟨hle, r, s', hrun, fun hne => absurd h0 hne⟩
    · exact ⟨hle, r, s', hrun, fun _ => hfresh⟩
  · obtain ⟨_, s', hrun, -⟩ := wp_noPanic_iff.1 (kmfree_spec hinv hsize hobj)
    exact ⟨s', hrun⟩

/-- The state after a boot and one `kmalloc` of 100 bytes. -/
theorem slabRun_rep_sample : ∃ s r slabs,
    SlabRun sampleEnd s (if r = 0 then ∅ else {(r, 128)}) ∅ ∧
    SlabRep sampleEnd s (if r = 0 then ∅ else {(r, 128)}) ∅ slabs := by
  obtain ⟨_, p, hp, -⟩ := wp_noPanic_iff.1 (kinit_spec (s := bootPhys) (by decide))
  have h₀ := @SlabRun.init _ _ (fun _ => kmemCacheInit 0) _
    (KallocRun.init (k := sampleEnd) rfl hp)
  obtain ⟨-, hrun, -⟩ := slabRun_rep sampleEnd _ _ _ h₀
  obtain ⟨-, r, s, hs, -⟩ := hrun 100 (by norm_num)
  have h₁ := h₀.kmalloc (by norm_num) hs
  rw [insert_empty_eq] at h₁
  obtain ⟨⟨slabs, hrep⟩, -⟩ := slabRun_rep sampleEnd _ _ _ h₁
  exact ⟨s, r, slabs, h₁, hrep⟩

end Xv6Plus
