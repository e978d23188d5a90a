import Xv6Plus.PageTable

/-!
# Walking and mapping

`walk_to_level` returns the entry of the page at the level it stops at (`Walked`), or
nothing if a table on the way is missing. With `alloc` it adds the missing tables, which
changes no mapping (`Grows`). `mappages` puts one leaf into a page table in which the page
is not mapped.
-/

namespace Xv6Plus

/-! ## Reading entries -/

section Bits

variable {L pa fl p : ℕ}

theorem table_valid (p : ℕ) : (Entry.table p).bits &&& pteV ≠ 0 := by
  rw [Entry.bits, bits_and (by omega) (by norm_num)]
  decide

theorem table_rwx (p : ℕ) : (Entry.table p).bits &&& (pteR ||| pteW ||| pteX) = 0 := by
  rw [Entry.bits, bits_and (by omega) (by decide)]
  decide

theorem table_pa (h : p % 4096 = 0) : pte2pa (Entry.table p).bits = p :=
  pte2pa_bits h (by omega)

theorem LeafOk.and_bits {mask : ℕ} (h : LeafOk L pa fl) (hm : mask < 1024) :
    (Entry.leaf pa fl).bits &&& mask = fl &&& mask :=
  bits_and h.flags_lt hm

theorem LeafOk.bits_valid (h : LeafOk L pa fl) : (Entry.leaf pa fl).bits &&& pteV ≠ 0 := by
  rw [h.and_bits (by norm_num)]
  exact h.valid

theorem LeafOk.bits_rwx (h : LeafOk L pa fl) :
    (Entry.leaf pa fl).bits &&& (pteR ||| pteW ||| pteX) ≠ 0 := by
  rw [h.and_bits (by decide)]
  exact h.rwx

theorem LeafOk.page (h : LeafOk L pa fl) : pa % 4096 = 0 :=
  Nat.mod_eq_zero_of_dvd (dvd_trans (Nat.dvd_mul_right _ _) (Nat.dvd_of_mod_eq_zero h.aligned))

theorem LeafOk.bits_pa (h : LeafOk L pa fl) : pte2pa (Entry.leaf pa fl).bits = pa :=
  pte2pa_bits h.page h.flags_lt

theorem LeafOk.bits_flags (h : LeafOk L pa fl) : pteFlags (Entry.leaf pa fl).bits = fl :=
  pteFlags_bits h.flags_lt

theorem absent_valid : ¬Entry.absent.bits &&& pteV ≠ 0 := by decide

end Bits

theorem wp_load64 {a : ℕ} {Q : ℕ → Phys → Prop} {E : String → Prop} {s : Phys} :
    wp (load64 a) Q E s ↔ Q (read64 s.mem a) s := by
  rw [load64, wp_bind, wp_get, wp_pure]

theorem wp_store64 {a v : ℕ} {Q : Unit → Phys → Prop} {E : String → Prop} {s : Phys} :
    wp (store64 a v) Q E s ↔ Q () (s.setMem (write64 s.mem a v)) :=
  wp_modify _

theorem wp_zeroPage {a : ℕ} {Q : Unit → Phys → Prop} {E : String → Prop} {s : Phys} :
    wp (zeroPage a) Q E s ↔ Q () (s.setMem (memset s.mem a 0 4096)) :=
  wp_modify _

theorem wp_moveBytes {dst src n : ℕ} {Q : Unit → Phys → Prop} {E : String → Prop} {s : Phys} :
    wp (moveBytes dst src n) Q E s ↔ Q () (s.setMem (memmove s.mem dst src n)) :=
  wp_modify _

/-! ## Walking -/

/-- What `walk_to_level` finds for the page `v` : the entry at the level it stops at, or at
the level of a leaf above, or nothing, if an entry above is missing. -/
def PTree.Walked (A : PTree) (stop v : ℕ) : Option (ℕ × ℕ) → Prop
  | none => ∃ L, stop < L ∧ L ≤ 2 ∧ A.ent L (v / 512 ^ L) = .absent
  | some (pte, L) => stop ≤ L ∧ (L ≠ stop → ∃ pa fl, A.ent L (v / 512 ^ L) = .leaf pa fl) ∧
    ∃ p, A.IsTable L (v / 512 ^ L / 512) p ∧ pte = p + 8 * (v / 512 ^ L % 512)

section Walk

variable {s : Phys} {R : Set ℕ} {frame : Set (ℕ × ℕ)} {A : PTree} {va stop : ℕ}
  {E : String → Prop}

theorem PTree.Rep.entry {m : Mem} {L k p : ℕ} (h : A.Rep m) (ht : A.IsTable L (k / 512) p) :
    read64 m (p + 8 * (k % 512)) = (A.ent L k).bits := by
  rw [h L _ p ht _ (Nat.mod_lt _ (by omega)), show 512 * (k / 512) + k % 512 = k by omega]

theorem div_pow_succ (v L : ℕ) : v / 512 ^ (L + 1) = v / 512 ^ L / 512 := by
  rw [Nat.div_div_eq_div_mul, pow_succ]

/-- A walk that does not have to make tables changes nothing. -/
theorem walkLoop_spec {alloc : Bool} (hok : A.Ok) (hrep : A.Rep s.mem)
    (hpage : ∀ L q p, A.IsTable L q p → p % 4096 = 0)
    (halloc : alloc = true → ∀ L ≤ 2, stop < L → A.ent L (va / 4096 / 512 ^ L) ≠ .absent) :
    ∀ {L p : ℕ}, A.IsTable L (va / 4096 / 512 ^ L / 512) p → stop ≤ L →
    wp (walkLoop va alloc stop L p) (fun r s' => s' = s ∧ A.Walked stop (va / 4096) r) E s
  | 0, p, ht, hs => by
    rw [walkLoop, wp_pure, px_eq]
    exact ⟨rfl, hs, fun hne => absurd (Nat.le_zero.1 hs).symm hne, p, ht, rfl⟩
  | L + 1, p, ht, hs => by
    have hread := hrep.entry ht
    rw [walkLoop, px_eq, wp_ite]
    refine ⟨fun h => ?_, fun h => ?_⟩
    · rw [wp_pure]
      exact ⟨rfl, hs, fun hne => absurd h hne, p, ht, rfl⟩
    · rw [wp_bind, wp_load64, hread]
      cases he : A.ent (L + 1) (va / 4096 / 512 ^ (L + 1)) with
      | absent =>
        have hno : alloc = false := Bool.eq_false_iff.2 fun ha =>
          halloc ha (L + 1) ht.level_le (by omega) he
        rw [if_neg absent_valid, if_pos hno, wp_pure]
        exact ⟨rfl, L + 1, by omega, ht.level_le, he⟩
      | table t =>
        have hL := ht.level_le
        have hchild := PTree.isTable_of_ent (by omega) he
        rw [if_pos (table_valid t), if_neg (not_not.2 (table_rwx t)), table_pa (hpage _ _ _ hchild)]
        rw [div_pow_succ] at hchild
        exact walkLoop_spec hok hrep hpage halloc hchild (by omega)
      | leaf pa fl =>
        have hl := hok.leaves _ _ _ _ he
        rw [if_pos hl.bits_valid, if_pos hl.bits_rwx, wp_pure]
        exact ⟨rfl, hs, fun _ => ⟨pa, fl, he⟩, p, ht, rfl⟩

theorem walkToLevel_hit {alloc : Bool} (h : PT s R frame A) (hva : va < 2 ^ 38) (hs : stop ≤ 2)
    (halloc : alloc = true → ∀ L ≤ 2, stop < L → A.ent L (va / 4096 / 512 ^ L) ≠ .absent) :
    wp (walkToLevel A.root va alloc stop) (fun r s' => s' = s ∧ A.Walked stop (va / 4096) r)
      E s := by
  rw [walkToLevel, if_neg (not_le.2 hva), if_neg (by omega)]
  refine walkLoop_spec h.ok h.rep (fun L q p ht => (h.table_page ht).1) halloc ?_ hs
  rw [show va / 4096 / 512 ^ 2 / 512 = 0 by omega]
  exact A.root_isTable

theorem walkToLevel_spec (h : PT s R frame A) (hva : va < 2 ^ 38) (hs : stop ≤ 2) :
    wp (walkToLevel A.root va false stop) (fun r s' => s' = s ∧ A.Walked stop (va / 4096) r)
      E s :=
  walkToLevel_hit h hva hs nofun

end Walk

/-! ## The page table beside the pages of others -/

namespace PT

variable {s s' : Phys} {R : Set ℕ} {frame frame' : Set (ℕ × ℕ)} {A : PTree} {a o : ℕ} {m : Mem}

theorem of_keeps (h : PT s R frame A) (ho : Owns s' R A.tables frame')
    (hk : Keeps A.tables s s') : PT s' R frame' A := by
  refine ⟨ho, h.ok, fun L q p ht j hj => ?_⟩
  rw [hk.read64 (PTree.mem_tables.2 ⟨L, q, ht⟩) (by omega) (by omega)]
  exact h.rep L q p ht j hj

/-- What is there after an allocation of the order `o` : nothing new, or a block more in the
frame. -/
def AllocPost (s : Phys) (R : Set ℕ) (frame : Set (ℕ × ℕ)) (A : PTree) (o r : ℕ) (s' : Phys) :
    Prop :=
  (r = 0 ∧ s' = s ∧ ∀ b ∈ s.free, b.2 < o) ∨
    (r ≠ 0 ∧ (r, o) ∉ frame ∧ PT s' R (insert (r, o) frame) A ∧
      Keeps (A.tables ∪ frame) s s')

theorem allocPost {r : ℕ} (h : PT s R frame A)
    (hr : Owns.AllocPost s R frame A.tables o r s') : AllocPost s R frame A o r s' := by
  rcases hr with hr | ⟨hne, hnot, hown, hk⟩
  · exact Or.inl hr
  · refine Or.inr ⟨hne, hnot, h.of_keeps hown.symm (hk.mono Set.subset_union_right), ?_⟩
    rw [Set.union_comm]
    exact hk

theorem kalloc_spec (h : PT s R frame A) : wp kalloc (AllocPost s R frame A 0) noPanic s :=
  wp_post h.owns.symm.kalloc_spec fun _ _ hr => h.allocPost hr

theorem store_block {b : ℕ × ℕ} (h : PT s R frame A) (hb : b ∈ frame)
    (hm : Set.EqOn m s.mem (span 4096 b)ᶜ) :
    PT (s.setMem m) R frame A ∧ Keeps (A.tables ∪ frame \ {b}) s (s.setMem m) := by
  obtain ⟨hown, hk⟩ := h.owns.symm.store_block hb hm
  rw [Set.union_comm] at hk
  exact ⟨h.of_keeps hown.symm (hk.mono Set.subset_union_left), hk⟩

theorem kfree_spec (h : PT s R frame A) (hb : (a, 0) ∈ frame) :
    wp (kfree a) (fun _ s' => PT s' R (frame \ {(a, 0)}) A ∧
      Keeps (A.tables ∪ frame \ {(a, 0)}) s s') noPanic s := by
  refine wp_post (h.owns.symm.kfree_spec hb) fun _ s' ⟨hown, hk⟩ => ?_
  rw [Set.union_comm] at hk
  exact ⟨h.of_keeps hown.symm (hk.mono Set.subset_union_left), hk⟩

theorem kfreeHuge_spec (h : PT s R frame A) (hb : (a, 9) ∈ frame) :
    wp (kfreeHuge a) (fun _ s' => PT s' R (frame \ {(a, 9)}) A ∧
      Keeps (A.tables ∪ frame \ {(a, 9)}) s s') noPanic s := by
  refine wp_post (h.owns.symm.kfreeHuge_spec hb) fun _ s' ⟨hown, hk⟩ => ?_
  rw [Set.union_comm] at hk
  exact ⟨h.of_keeps hown.symm (hk.mono Set.subset_union_left), hk⟩

theorem zeroPage (h : PT s R frame A) (hb : (a, 0) ∈ frame) :
    PT (s.setMem (memset s.mem a 0 4096)) R frame A ∧
      Keeps (A.tables ∪ frame \ {(a, 0)}) s (s.setMem (memset s.mem a 0 4096)) :=
  h.store_block hb (memset_span (le_refl a) (by omega))

end PT

/-! ## What a walk finds for a page -/

namespace PTree

variable {A A' A'' : PTree} {v L k q p pa fl : ℕ}

/-- What a walk to level 0 finds for the page `v`. -/
inductive Found (A : PTree) (v : ℕ) : Option (ℕ × ℕ) → Prop
  | missing (h1 : ∀ pa fl, A.ent 1 (v / 512) ≠ .leaf pa fl) (h0 : A.ent 0 v = .absent) :
    Found A v none
  | huge {p pa fl : ℕ} (ht : A.IsTable 1 (v / 512 / 512) p)
    (he : A.ent 1 (v / 512) = .leaf pa fl) : Found A v (some (p + 8 * (v / 512 % 512), 1))
  | page {p : ℕ} (ht : A.IsTable 0 (v / 512) p) : Found A v (some (p + 8 * (v % 512), 0))

theorem Walked.found {r : Option (ℕ × ℕ)} (hok : A.Ok) (h : A.Walked 0 v r) : A.Found v r := by
  rcases r with _ | ⟨pte, L⟩
  · obtain ⟨L, h0, h2, habs⟩ := h
    -- the entry at level 1 is missing, itself or with its table
    have habs1 : A.ent 1 (v / 512) = .absent := by
      rcases (by omega : L = 1 ∨ L = 2) with rfl | rfl
      · rw [pow_one] at habs
        exact habs
      · refine hok.absent_below (by omega) fun p hp => ?_
        rw [show v / 512 ^ 2 = v / 512 / 512 by omega, hp] at habs
        cases habs
    refine .missing (fun pa fl hl => ?_) (hok.absent_below (by omega) fun p hp => ?_)
    · rw [habs1] at hl
      cases hl
    · rw [habs1] at hp
      cases hp
  · obtain ⟨-, hleaf, p, ht, rfl⟩ := h
    rcases Nat.eq_zero_or_pos L with rfl | hpos
    · rw [pow_zero, Nat.div_one] at ht ⊢
      exact .page ht
    · obtain ⟨pa, fl, he⟩ := hleaf (by omega)
      rcases (by have := ht.level_le; omega : L = 1 ∨ L = 2) with rfl | rfl
      · rw [pow_one] at ht he ⊢
        exact .huge ht he
      · exact absurd he (hok.top _ _ _)

end PTree

/-- `walk_with_level` without `alloc` changes nothing. -/
theorem walkWithLevel_spec {s : Phys} {R : Set ℕ} {frame : Set (ℕ × ℕ)} {A : PTree} {va : ℕ}
    {E : String → Prop} (h : PT s R frame A) (hva : va < 2 ^ 38) :
    wp (walkWithLevel A.root va false) (fun r s' => s' = s ∧ A.Found (va / 4096) r) E s :=
  wp_post (walkToLevel_spec h hva (by omega)) fun _ _ hr => ⟨hr.1, hr.2.found h.ok⟩

namespace PTree

variable {A A' A'' : PTree} {v L k q p pa fl : ℕ}

theorem lookup_huge (he : A.ent 1 (v / 512) = .leaf pa fl) :
    A.lookup v = some (pa + 4096 * (v % 512), fl) := by
  rw [lookup, he]

theorem lookup_absent (h1 : ∀ pa fl, A.ent 1 (v / 512) ≠ .leaf pa fl)
    (h0 : A.ent 0 v = .absent) : A.lookup v = none := by
  unfold lookup
  split
  · next pa fl he => exact absurd he (h1 pa fl)
  · rw [h0]

theorem IsTable.not_leaf (ht : A.IsTable 0 q p) (pa fl : ℕ) : A.ent 1 q ≠ .leaf pa fl := by
  rcases ht with ⟨h, _⟩ | ⟨_, h⟩
  · omega
  · rw [h]
    exact Entry.noConfusion

theorem lookup_page (h1 : ∀ pa fl, A.ent 1 (v / 512) ≠ .leaf pa fl)
    (he : A.ent 0 v = .leaf pa fl) : A.lookup v = some (pa, fl) := by
  unfold lookup
  split
  · next pa fl he => exact absurd he (h1 pa fl)
  · rw [he]

/-! ## Adding tables -/

/-- `A'` has more tables than `A`, and the same leaves. -/
structure Grows (A A' : PTree) : Prop where
  root : A'.root = A.root
  ent : ∀ L k, A'.ent L k = A.ent L k ∨ (A.ent L k = .absent ∧ ∃ t, A'.ent L k = .table t)

theorem Grows.refl (A : PTree) : A.Grows A := ⟨rfl, fun _ _ => Or.inl rfl⟩

theorem Grows.trans (h : A.Grows A') (h' : A'.Grows A'') : A.Grows A'' := by
  refine ⟨h'.root.trans h.root, fun L k => ?_⟩
  rcases h.ent L k with he | ⟨ha, t, ht⟩ <;> rcases h'.ent L k with he' | ⟨ha', t', ht'⟩
  · exact Or.inl (he'.trans he)
  · exact Or.inr ⟨he.symm.trans ha', t', ht'⟩
  · exact Or.inr ⟨ha, t, he'.trans ht⟩
  · rw [ht] at ha'
    cases ha'

theorem Grows.leaf_iff (h : A.Grows A') : A'.ent L k = .leaf pa fl ↔ A.ent L k = .leaf pa fl := by
  rcases h.ent L k with he | ⟨ha, t, ht⟩
  · rw [he]
  · rw [ha, ht]
    simp

theorem Puts.of_link {t : ℕ} (hok : A.Ok) (hL : 0 < L) (ht : A.IsTable L (k / 512) p)
    (habs : A.ent L k = .absent) (hlow : L = 2 → k < 256) : A.Puts L k (.table t) noKids p where
  table := ht
  kids_eq _ _ := Entry.noConfusion
  old_kids k' q h2 hk' hq := by
    subst h2
    have := hok.absent_below (L := 1) (k := k') (by omega) fun p' hp' => by
      rw [hk', habs] at hp'
      cases hp'
    rw [this] at hq
    cases hq
  no_kids _ _ := rfl
  level _ _ := hL
  leaf _ _ h := Entry.noConfusion h
  kids_leaf _ _ _ _ h := Entry.noConfusion h
  low := hlow

theorem Puts.of_leaf (hL : L < 2) (ht : A.IsTable L (k / 512) p) (hl : LeafOk L pa fl) :
    A.Puts L k (.leaf pa fl) noKids p where
  table := ht
  kids_eq _ _ := Entry.noConfusion
  old_kids _ _ h2 := by omega
  no_kids _ _ := rfl
  level _ h := Entry.noConfusion h
  leaf pa' fl' h := by
    obtain ⟨rfl, rfl⟩ := Entry.leaf.inj h
    exact ⟨hL, hl⟩
  kids_leaf _ _ _ _ h := Entry.noConfusion h
  low := by omega

theorem Puts.of_absent (hL : L < 2) (ht : A.IsTable L (k / 512) p) :
    A.Puts L k .absent noKids p where
  table := ht
  kids_eq _ _ := Entry.noConfusion
  old_kids _ _ h2 := by omega
  no_kids _ _ := rfl
  level _ h := Entry.noConfusion h
  leaf _ _ h := Entry.noConfusion h
  kids_leaf _ _ _ _ h := Entry.noConfusion h
  low := by omega

/-- In the place of an entry that is no table, only that entry changes. -/
theorem put_noKids {L' k' : ℕ} {e : Entry} (hok : A.Ok) (hL : L ≤ 2)
    (hold : ∀ q, A.ent L k ≠ .table q) (hne : ¬(L' = L ∧ k' = k)) :
    (A.put L k e noKids).ent L' k' = A.ent L' k' := by
  by_cases hk : L' + 1 = L ∧ k' / 512 = k
  · obtain ⟨rfl, rfl⟩ := hk
    rw [put_kid rfl rfl]
    exact (hok.absent_below (by omega) hold).symm
  · exact put_other hne hk

/-- A new table where there was nothing. -/
theorem Grows.of_link {t : ℕ} (hok : A.Ok) (hL : L ≤ 2) (habs : A.ent L k = .absent) :
    A.Grows (A.put L k (.table t) noKids) := by
  refine ⟨rfl, fun L' k' => ?_⟩
  by_cases hc : L' = L ∧ k' = k
  · obtain ⟨rfl, rfl⟩ := hc
    exact Or.inr ⟨habs, t, put_same⟩
  · exact Or.inl (put_noKids hok hL (by rw [habs]; exact fun _ => Entry.noConfusion) hc)

end PTree

/-! ## Walking with `alloc` -/

section Alloc

variable {R : Set ℕ} {frame : Set (ℕ × ℕ)} {va stop : ℕ}

/-- After a walk with `alloc` : tables may have been added on the way, above the level `stop`,
and either the entry was reached or the memory is used up. -/
def WalkAlloc (s : Phys) (R : Set ℕ) (frame : Set (ℕ × ℕ)) (A : PTree) (stop v : ℕ)
    (r : Option (ℕ × ℕ)) (s' : Phys) : Prop :=
  ∃ A', PT s' R frame A' ∧ A.Grows A' ∧
    (∀ L k, L ≤ stop ∨ k ≠ v / 512 ^ L → A'.ent L k = A.ent L k) ∧ Keeps frame s s' ∧
    (r = none → s'.free = ∅) ∧ (r ≠ none → A'.Walked stop v r)

theorem walkLoop_alloc_spec (hva : va < 2 ^ 38) : ∀ {L p : ℕ} {s : Phys} {A : PTree},
    PT s R frame A → A.IsTable L (va / 4096 / 512 ^ L / 512) p → stop ≤ L →
    wp (walkLoop va true stop L p) (WalkAlloc s R frame A stop (va / 4096)) noPanic s
  | 0, p, s, A, h, ht, hs => by
    rw [walkLoop, wp_pure, px_eq]
    exact ⟨A, h, .refl A, fun _ _ _ => rfl, .refl _ _, nofun,
      fun _ => ⟨hs, fun hne => absurd (Nat.le_zero.1 hs).symm hne, p, ht, rfl⟩⟩
  | L + 1, p, s, A, h, ht, hs => by
    have hread := h.rep.entry ht
    have hL := ht.level_le
    rw [walkLoop, px_eq, wp_ite]
    refine ⟨fun hstop => ?_, fun hstop => ?_⟩
    · rw [wp_pure]
      exact ⟨A, h, .refl A, fun _ _ _ => rfl, .refl _ _, nofun,
        fun _ => ⟨hs, fun hne => absurd hstop hne, p, ht, rfl⟩⟩
    · rw [wp_bind, wp_load64, hread]
      cases he : A.ent (L + 1) (va / 4096 / 512 ^ (L + 1)) with
      | absent =>
        rw [if_neg absent_valid, if_neg (by decide), wp_bind]
        refine wp_post h.kalloc_spec fun t s₁ ht₁ => ?_
        rcases ht₁ with ⟨rfl, rfl, hfree⟩ | ⟨hne, hfresh, h₁, hk₁⟩
        · rw [if_pos rfl, wp_pure]
          exact ⟨A, h, .refl A, fun _ _ _ => rfl, .refl _ _,
            fun _ => Set.eq_empty_of_forall_notMem fun b hb => absurd (hfree b hb) (by omega),
            fun hn => absurd rfl hn⟩
        · rw [if_neg hne, wp_bind, wp_zeroPage, wp_bind, wp_store64, pa2pte_or (by norm_num)]
          obtain ⟨h₂, hk₂⟩ := h₁.zeroPage (Set.mem_insert _ _)
          rw [Set.insert_sdiff_self_of_notMem hfresh] at hk₂
          have hputs : A.Puts (L + 1) _ (.table t) PTree.noKids p :=
            .of_link h.ok (by omega) ht he fun h2 => by
              rw [h2]
              omega
          have hold : ∀ q, A.ent (L + 1) (va / 4096 / 512 ^ (L + 1)) ≠ .table q := by
            rw [he]
            exact fun _ => Entry.noConfusion
          obtain ⟨h₃, hk₃⟩ := h₂.link hfresh hputs hold
            fun j hj => read64_memset_zero (by omega) (by omega)
          have hchild : (A.put (L + 1) (va / 4096 / 512 ^ (L + 1)) (.table t)
              PTree.noKids).IsTable L (va / 4096 / 512 ^ L / 512) t :=
            (PTree.isTable_put hputs).2 (Or.inl ⟨rfl, (div_pow_succ _ _).symm, rfl⟩)
          refine wp_post (walkLoop_alloc_spec hva h₃ hchild (by omega)) ?_
          rintro r s' ⟨A', h', hg, hsame, hk', hnone, hsome⟩
          have hkeep : Keeps frame s s' :=
            (((hk₁.mono Set.subset_union_right).trans (hk₂.mono Set.subset_union_right)).trans
              hk₃).trans hk'
          refine ⟨A', h', (PTree.Grows.of_link h.ok hL he).trans hg, fun L' k' hL' => ?_, hkeep,
            hnone, hsome⟩
          rw [hsame L' k' hL', PTree.put_noKids h.ok hL hold]
          rintro ⟨rfl, rfl⟩
          rcases hL' with hL' | hL'
          · omega
          · exact hL' rfl
      | table t =>
        have hchild := PTree.isTable_of_ent (by omega) he
        rw [if_pos (table_valid t), if_neg (not_not.2 (table_rwx t)),
          table_pa (h.table_page hchild).1]
        rw [div_pow_succ] at hchild
        exact walkLoop_alloc_spec hva h hchild (by omega)
      | leaf pa fl =>
        have hl := h.ok.leaves _ _ _ _ he
        rw [if_pos hl.bits_valid, if_pos hl.bits_rwx, wp_pure]
        exact ⟨A, h, .refl A, fun _ _ _ => rfl, .refl _ _, nofun,
          fun _ => ⟨hs, fun _ => ⟨pa, fl, he⟩, p, ht, rfl⟩⟩

theorem walkToLevel_alloc_spec {s : Phys} {A : PTree} (h : PT s R frame A) (hva : va < 2 ^ 38)
    (hs : stop ≤ 2) : wp (walkToLevel A.root va true stop)
      (WalkAlloc s R frame A stop (va / 4096)) noPanic s := by
  rw [walkToLevel, if_neg (not_le.2 hva), if_neg (by omega)]
  refine walkLoop_alloc_spec hva h ?_ hs
  rw [show va / 4096 / 512 ^ 2 / 512 = 0 by omega]
  exact A.root_isTable

/-! ## Mapping one page -/

/-- After mapping the page `v` : a new leaf, or the memory is used up and tables may have
been added. -/
def MapPost (s : Phys) (R : Set ℕ) (frame : Set (ℕ × ℕ)) (A : PTree) (L v pa fl : ℕ) (r : ℤ)
    (s' : Phys) : Prop :=
  ∃ A', A'.Ok ∧ A.Grows A' ∧
    (∀ L' k, L' ≤ L ∨ k ≠ v / 512 ^ L' → A'.ent L' k = A.ent L' k) ∧ Keeps frame s s' ∧
    ((r = -1 ∧ s'.free = ∅ ∧ PT s' R frame A') ∨
      (r = 0 ∧ PT s' R frame (A'.put L (v / 512 ^ L) (.leaf pa fl) PTree.noKids)))

theorem mapLoop_one_spec {s : Phys} {A : PTree} {L pa perm : ℕ} (h : PT s R frame A)
    (hva : va < 2 ^ 38) (hL : L < 2) (hl : LeafOk L pa (perm ||| pteV))
    (habs : A.ent L (va / 4096 / 512 ^ L) = .absent)
    (hup : ∀ L' pa fl, L < L' → A.ent L' (va / 4096 / 512 ^ L') ≠ .leaf pa fl) :
    wp (mapLoop A.root perm L 1 va pa) (MapPost s R frame A L (va / 4096) pa (perm ||| pteV))
      noPanic s := by
  rw [mapLoop, wp_bind]
  refine wp_post (walkToLevel_alloc_spec h hva (by omega)) ?_
  rintro r s' ⟨A', h', hg, hsame, hk, hnone, hsome⟩
  rcases r with _ | ⟨pte, L'⟩
  · rw [wp_pure]
    exact ⟨A', h'.ok, hg, hsame, hk, Or.inl ⟨rfl, hnone rfl, h'⟩⟩
  · obtain ⟨hle, hleaf, p, ht, rfl⟩ := hsome (Option.some_ne_none _)
    -- a leaf above would be one of `A`
    have hLL : L' = L := by
      by_contra hne
      obtain ⟨pa', fl', he⟩ := hleaf hne
      exact hup L' pa' fl' (by omega) (hg.leaf_iff.1 he)
    subst hLL
    have habs' : A'.ent L' (va / 4096 / 512 ^ L') = .absent := by
      rw [hsame L' _ (Or.inl le_rfl), habs]
    dsimp only
    rw [wp_bind, wp_load64, h'.rep.entry ht, habs', if_neg absent_valid, wp_bind, wp_store64,
      mapLoop, wp_pure, Nat.or_assoc, pa2pte_or hl.flags_lt]
    have hset := h'.set (.of_leaf hL ht hl)
      (by rw [habs']; exact fun _ => Entry.noConfusion) fun _ => Entry.noConfusion
    exact ⟨A', h'.ok, hg, hsame, hk.trans hset.2, Or.inr ⟨rfl, hset.1⟩⟩

theorem mappages_spec {s : Phys} {A : PTree} {pa perm : ℕ} (h : PT s R frame A)
    (hva : va < 2 ^ 38) (hal : va % 4096 = 0) (hl : LeafOk 0 pa (perm ||| pteV))
    (habs : A.ent 0 (va / 4096) = .absent)
    (hup : ∀ pa fl, A.ent 1 (va / 4096 / 512) ≠ .leaf pa fl) :
    wp (mappages A.root va 4096 pa perm) (MapPost s R frame A 0 (va / 4096) pa (perm ||| pteV))
      noPanic s := by
  have hup' : ∀ L' pa fl, 0 < L' → A.ent L' (va / 4096 / 512 ^ L') ≠ .leaf pa fl := by
    intro L' pa fl hpos he
    have := h.ok.up L' _ (by rw [he]; exact Entry.noConfusion)
    obtain ⟨p, hp⟩ := this
    rcases (by have := hp.level_le; omega : L' = 1 ∨ L' = 2) with rfl | rfl
    · rw [pow_one] at he
      exact hup pa fl he
    · exact h.ok.top _ _ _ he
  rw [mappages, mappagesFlags, if_neg (by omega), if_neg (by decide), if_neg (not_not.2 hal),
    if_neg (by decide)]
  exact mapLoop_one_spec h hva (by omega) hl (by rw [pow_zero, Nat.div_one]; exact habs) hup'

theorem mappagesHuge_spec {s : Phys} {A : PTree} {pa perm : ℕ} (h : PT s R frame A)
    (hva : va < 2 ^ 38) (hal : va % 2097152 = 0) (hl : LeafOk 1 pa (perm ||| pteV))
    (habs : A.ent 1 (va / 4096 / 512) = .absent) :
    wp (mappagesFlags A.root va 2097152 pa perm true)
      (MapPost s R frame A 1 (va / 4096) pa (perm ||| pteV)) noPanic s := by
  have hup : ∀ L' pa fl, 1 < L' → A.ent L' (va / 4096 / 512 ^ L') ≠ .leaf pa fl := by
    intro L' pa fl hpos he
    obtain ⟨p, hp⟩ := h.ok.up L' _ (by rw [he]; exact Entry.noConfusion)
    obtain rfl : L' = 2 := by
      have := hp.level_le
      omega
    exact h.ok.top _ _ _ he
  have hpa : pa % 2097152 = 0 := hl.aligned
  rw [mappagesFlags, if_neg (by omega), if_pos rfl, if_neg (by simp only [hugePgSize]; omega)]
  exact mapLoop_one_spec h hva (by omega) hl (by rw [pow_one]; exact habs) hup

end Alloc

end Xv6Plus
