import Xv6Plus.KallocReach
import Xv6Plus.AddrSpace

/-!
# Every page table is in memory in some state

A well-formed tree can be written into any pages that are its tables (`PTree.exists_rep`), and
any pages can be live (`kallocRun_reaches`), so every tree is the page table of an address
space in some state that a run of the allocator reaches (`exists_uvm`).

`sampleTree` is a process of 512 pages, all mapped by pages or all by one huge page.
-/

namespace Xv6Plus

/-! ## Writing a tree -/

/-- Some memory holds the tree, and differs from `m` in its tables only. -/
theorem PTree.exists_rep {A : PTree} (hok : A.Ok)
    (hpage : ∀ L q p, A.IsTable L q p → p % 4096 = 0 ∧ p < 2 ^ 32) (m : Mem) :
    ∃ m', A.Rep m' ∧ Set.EqOn m' m (region A.tables)ᶜ := by
  classical
  -- a word belongs to one entry of one table
  have hex : ∀ x, ∃ w, ∀ L q p j, A.IsTable L q p → j < 512 → p + 8 * j = 8 * x →
      w = (A.ent L (512 * q + j)).bits := by
    intro x
    by_cases h : ∃ L q p j, A.IsTable L q p ∧ j < 512 ∧ p + 8 * j = 8 * x
    · obtain ⟨L, q, p, j, ht, hj, hx⟩ := h
      refine ⟨(A.ent L (512 * q + j)).bits, fun L' q' p' j' ht' hj' hx' => ?_⟩
      have hp := (hpage L q p ht).1
      have hp' := (hpage L' q' p' ht').1
      obtain rfl : p = p' := by omega
      obtain rfl : j = j' := by omega
      obtain ⟨rfl, rfl⟩ := hok.inj _ _ _ _ _ ht ht'
      rfl
    · exact ⟨0, fun L q p j ht hj hx => absurd ⟨L, q, p, j, ht, hj, hx⟩ h⟩
  choose word hword using hex
  refine ⟨fun x => if x ∈ region A.tables then UInt8.ofNat (word (x / 8) / 256 ^ (x % 8)) else m x,
    fun L q p ht j hj => ?_, fun x hx => if_neg hx⟩
  obtain ⟨hmod, hlt⟩ := hpage L q p ht
  have hbits : (A.ent L (512 * q + j)).bits < 2 ^ 64 := by
    refine Entry.bits_lt (fun pa he => ?_) fun pa fl he => ?_
    · cases L with
      | zero => exact absurd he (hok.bottom _ _)
      | succ L =>
        have hle := ht.level_le
        exact (hpage L _ pa (PTree.isTable_of_ent (by omega) he)).2
    · have hl := hok.leaves _ _ _ _ he
      exact ⟨hl.lt, hl.flags_lt⟩
  rw [read64, readLE_of_digits (v := (A.ent L (512 * q + j)).bits) fun i hi => ?_]
  · exact Nat.mod_eq_of_lt (by norm_num at hbits ⊢; exact hbits)
  · have hin : p + 8 * j + i ∈ region A.tables :=
      ⟨(p, 0), PTree.mem_tables.2 ⟨L, q, ht⟩, mem_span_zero.2 (by omega)⟩
    rw [if_pos hin, hword ((p + 8 * j + i) / 8) L q p j ht hj (by omega),
      show (p + 8 * j + i) % 8 = i by omega]

theorem KallocRun.owns {k : KernelEnd} {s : Phys} (h : KallocRun k s ∅) :
    Owns s k.managed ∅ ∅ := by
  refine ⟨?_, Set.disjoint_empty _, fun x hx => ?_⟩
  · rw [Set.empty_union]
    exact h.inv.buddy
  · rw [h.inv.kend]
    exact k.addr_le.trans hx.1

/-- A tree whose tables and user pages are disjoint blocks of the managed memory is the page
table of an address space in some state. -/
theorem exists_uvm (k : KernelEnd) {A : PTree} {rest : Set (ℕ × ℕ)} (hok : A.Ok)
    (hinj : ∀ L q q' pa, A.OwnLeaf L q pa → A.OwnLeaf L q' pa → q = q')
    (hhuge : ∀ q pa fl, A.ent 1 q = .leaf pa fl → PTree.User 1 q)
    (htl : Disjoint A.tables (A.leaves ∪ rest)) (hlr : Disjoint A.leaves rest)
    {P H : Finset ℕ} (hblocks : A.tables ∪ (A.leaves ∪ rest) = blocksAt P 0 ∪ blocksAt H 9)
    (hP : ∀ a ∈ P, a ∈ k.pages) (hal : ∀ a ∈ H, a % 2097152 = 0)
    (hin : ∀ a ∈ H, span 4096 (a, 9) ⊆ k.managed) (hd : ∀ a ∈ P, ∀ h ∈ H, a ∉ hugePages h) :
    ∃ s, KallocRun k s (A.tables ∪ (A.leaves ∪ rest)) ∧ Uvm s k.managed rest A := by
  obtain ⟨s, hs⟩ := kallocRun_reaches k P H hP hal hin hd
  rw [← hblocks] at hs
  have htable : ∀ L q p, A.IsTable L q p → p % 4096 = 0 ∧ p < 2 ^ 32 := by
    intro L q p ht
    have hp := hs.inv.live_page (Or.inl (PTree.mem_tables.2 ⟨L, q, ht⟩))
    have := k.page_end hp
    exact ⟨hp.1, by omega⟩
  obtain ⟨m, hrep, hm⟩ := PTree.exists_rep hok htable s.mem
  have hrun := hs.write (m := m) (hm.mono (Set.compl_subset_compl.2
    (region_mono Set.subset_union_left)))
  refine ⟨_, hrun, ⟨⟨⟨hrun.inv.buddy, htl, fun x hx => ?_⟩, hok, hrep⟩, hlr, hinj, hhuge⟩⟩
  rw [hrun.inv.kend]
  exact k.addr_le.trans hx.1

/-! ## A process of 512 pages -/

/-- The first 512 pages are mapped to the two megabytes at `0x80400000`, by one huge page or
by pages, and the trapframe and the trampoline at the top. -/
def sampleTree (huge : Bool) : PTree where
  root := 0x80200000
  ent
    | 2, q => if q = 0 then .table 0x80201000 else if q = 255 then .table 0x80203000 else .absent
    | 1, q =>
      if q = 0 then if huge then .leaf 0x80400000 23 else .table 0x80202000
      else if q = 131071 then .table 0x80204000 else .absent
    | 0, v =>
      if v < 512 then if huge then .absent else .leaf (0x80400000 + 4096 * v) 23
      else if v = topVpn then .leaf 0x80205000 7
      else if v = topVpn + 1 then .leaf 0x80001000 11 else .absent
    | _, _ => .absent

/-- The process of `sampleTree`. -/
def sampleProc : Proc := ⟨.live, 2097152, 0x80200000, 0x80205000⟩

section Sample

variable {huge : Bool} {L q p : ℕ}

theorem sampleTree_isTable : (sampleTree huge).IsTable L q p ↔
    (L = 2 ∧ q = 0 ∧ p = 0x80200000) ∨ (L = 1 ∧ q = 0 ∧ p = 0x80201000) ∨
    (L = 1 ∧ q = 255 ∧ p = 0x80203000) ∨ (L = 0 ∧ q = 0 ∧ p = 0x80202000 ∧ huge = false) ∨
    (L = 0 ∧ q = 131071 ∧ p = 0x80204000) := by
  unfold PTree.IsTable
  rcases L with _ | _ | _ | L
  · simp only [sampleTree]
    cases huge <;> split_ifs <;> simp_all [eq_comm]
  · simp only [sampleTree]
    split_ifs <;> simp_all [eq_comm]
  · simp [sampleTree]
  · simp

theorem sampleTree_leaf {pa fl : ℕ} : (sampleTree huge).ent L q = .leaf pa fl ↔
    (L = 1 ∧ q = 0 ∧ pa = 0x80400000 ∧ fl = 23 ∧ huge = true) ∨
    (L = 0 ∧ q < 512 ∧ pa = 0x80400000 + 4096 * q ∧ fl = 23 ∧ huge = false) ∨
    (L = 0 ∧ q = topVpn ∧ pa = 0x80205000 ∧ fl = 7) ∨
    (L = 0 ∧ q = topVpn + 1 ∧ pa = 0x80001000 ∧ fl = 11) := by
  rcases L with _ | _ | _ | L
  · simp only [sampleTree]
    cases huge <;> split_ifs <;> simp_all [eq_comm, topVpn] <;> omega
  · simp only [sampleTree]
    cases huge <;> split_ifs <;> simp_all [eq_comm]
  · simp only [sampleTree]
    split_ifs <;> simp
  · simp [sampleTree]

theorem sampleTree_ok (huge : Bool) : (sampleTree huge).Ok where
  up L q hne := by
    cases he : (sampleTree huge).ent L q with
    | absent => exact absurd he hne
    | table p =>
      rcases L with _ | _ | _ | L
      · exact absurd he (by simp only [sampleTree]; split_ifs <;> simp)
      · simp only [sampleTree] at he
        have hq : q = 0 ∨ q = 131071 := by
          split_ifs at he with h1 h2 h3
          all_goals omega
        rcases hq with rfl | rfl
        · exact ⟨0x80201000, sampleTree_isTable.2 (by simp)⟩
        · exact ⟨0x80203000, sampleTree_isTable.2 (by simp)⟩
      · simp only [sampleTree] at he
        have hq : q / 512 = 0 := by
          split_ifs at he
          all_goals omega
        exact ⟨0x80200000, sampleTree_isTable.2 (by simp [hq])⟩
      · simp [sampleTree] at he
    | leaf pa fl =>
      rcases sampleTree_leaf.1 he with ⟨rfl, rfl, -⟩ | ⟨rfl, hq, -, -, rfl⟩ | ⟨rfl, rfl, -⟩ |
        ⟨rfl, rfl, -⟩
      · exact ⟨0x80201000, sampleTree_isTable.2 (by simp)⟩
      · exact ⟨0x80202000, sampleTree_isTable.2 (by simp; omega)⟩
      · exact ⟨0x80204000, sampleTree_isTable.2 (by simp [topVpn])⟩
      · exact ⟨0x80204000, sampleTree_isTable.2 (by simp [topVpn])⟩
  bottom q p := by
    simp only [sampleTree]
    split_ifs <;> exact Entry.noConfusion
  top q pa fl := by
    simp only [sampleTree]
    split_ifs <;> exact Entry.noConfusion
  leaves L q pa fl he := by
    rcases sampleTree_leaf.1 he with ⟨rfl, -, rfl, rfl, -⟩ | ⟨rfl, hq, rfl, rfl, -⟩ |
      ⟨rfl, -, rfl, rfl⟩ | ⟨rfl, -, rfl, rfl⟩
    · exact ⟨by decide, by decide, by decide, by decide, by decide⟩
    · exact ⟨by omega, by omega, by decide, by decide, by decide⟩
    · exact ⟨by decide, by decide, by decide, by decide, by decide⟩
    · exact ⟨by decide, by decide, by decide, by decide, by decide⟩
  inj L q L' q' p h h' := by
    rw [sampleTree_isTable] at h h'
    omega
  low q hq := by
    simp only [sampleTree]
    rw [if_neg (by omega), if_neg (by omega)]

theorem sampleTree_ownLeaf {pa : ℕ} : (sampleTree huge).OwnLeaf L q pa ↔
    (L = 1 ∧ q = 0 ∧ pa = 0x80400000 ∧ huge = true) ∨
    (L = 0 ∧ q < 512 ∧ pa = 0x80400000 + 4096 * q ∧ huge = false) := by
  unfold PTree.OwnLeaf
  simp only [sampleTree_leaf]
  constructor
  · rintro ⟨⟨fl, ⟨rfl, rfl, rfl, -, hh⟩ | ⟨rfl, hq, rfl, -, hh⟩ | ⟨rfl, rfl, -⟩ | ⟨rfl, rfl, -⟩⟩,
      hu⟩
    · exact Or.inl ⟨rfl, rfl, rfl, hh⟩
    · exact Or.inr ⟨rfl, hq, rfl, hh⟩
    · exact absurd (PTree.user_zero.1 hu) (lt_irrefl _)
    · exact absurd (PTree.user_zero.1 hu) (by simp only [topVpn]; omega)
  · rintro (⟨rfl, rfl, rfl, hh⟩ | ⟨rfl, hq, rfl, hh⟩)
    · exact ⟨⟨23, Or.inl ⟨rfl, rfl, rfl, rfl, hh⟩⟩, PTree.user_one.2 (by simp only [topVpn]; omega)⟩
    · exact ⟨⟨23, Or.inr (Or.inl ⟨rfl, hq, rfl, rfl, hh⟩)⟩,
        PTree.user_zero.2 (by simp only [topVpn]; omega)⟩

theorem sampleTree_tables (huge : Bool) : (sampleTree huge).tables = blocksAt
    ({0x80200000, 0x80201000, 0x80203000, 0x80204000} ∪ if huge then ∅ else {0x80202000}) 0 := by
  ext ⟨a, o⟩
  simp only [PTree.tables, blocksAt, Set.mem_ofPred_eq, sampleTree_isTable, Set.mem_union,
    Set.mem_insert_iff, Set.mem_singleton_iff]
  constructor
  · rintro ⟨ho, L, q, h⟩
    refine ⟨?_, ho⟩
    cases huge <;> simp at h ⊢ <;> omega
  · rintro ⟨(rfl | rfl | rfl | rfl) | h, ho⟩
    · exact ⟨ho, 2, 0, by simp⟩
    · exact ⟨ho, 1, 0, by simp⟩
    · exact ⟨ho, 1, 255, by simp⟩
    · exact ⟨ho, 0, 131071, by simp⟩
    · cases huge with
      | true => simp at h
      | false =>
        obtain rfl : a = 0x80202000 := h
        exact ⟨ho, 0, 0, by simp⟩

theorem sampleTree_leaves (huge : Bool) : (sampleTree huge).leaves =
    if huge then {(0x80400000, 9)} else blocksAt (hugePages 0x80400000) 0 := by
  ext ⟨a, o⟩
  simp only [PTree.leaves, Set.mem_ofPred_eq, sampleTree_ownLeaf]
  cases huge with
  | true => simp
  | false =>
    simp only [blocksAt, Set.mem_ofPred_eq, Finset.mem_coe, mem_hugePages, Bool.false_eq_true,
      and_false, false_or, if_false, and_true]
    constructor
    · rintro ⟨L, q, ⟨rfl, hq, rfl⟩, rfl⟩
      exact ⟨⟨q, hq, rfl⟩, rfl⟩
    · rintro ⟨⟨q, hq, rfl⟩, rfl⟩
      exact ⟨0, q, ⟨rfl, hq, rfl⟩, rfl⟩

theorem sampleTree_leaf_mem {a o : ℕ} (h : (a, o) ∈ (sampleTree huge).leaves) :
    0x80400000 ≤ a ∧ a + 4096 * 2 ^ o ≤ 0x80600000 := by
  rw [sampleTree_leaves] at h
  cases huge with
  | true =>
    obtain ⟨rfl, rfl⟩ := Prod.mk.inj h
    norm_num
  | false =>
    obtain ⟨ha, ho⟩ := h
    obtain ⟨j, hj, hj'⟩ := mem_hugePages.1 ha
    dsimp only at ho hj'
    rw [ho, hj']
    norm_num
    omega

theorem sampleTree_table_mem {a o : ℕ} (h : (a, o) ∈ (sampleTree huge).tables) :
    o = 0 ∧ 0x80200000 ≤ a ∧ a ≤ 0x80204000 := by
  obtain ⟨ho, L, q, ht⟩ := h
  rw [sampleTree_isTable] at ht
  dsimp only at ho ht
  omega

/-- The memory in use. -/
theorem sample_region {Q : Finset ℕ} {x : ℕ} (h : x ∈ region ((sampleTree huge).tables ∪
    ((sampleTree huge).leaves ∪ insert (0x80205000, 0) (blocksAt Q 0)))) :
    (0x80200000 ≤ x ∧ x < 0x80206000) ∨ (0x80400000 ≤ x ∧ x < 0x80600000) ∨
      ∃ a ∈ Q, a ≤ x ∧ x < a + 4096 := by
  obtain ⟨⟨a, o⟩, ht | hl | heq | ⟨hQ, ho⟩, hx⟩ := h
  · obtain ⟨rfl, h1, h2⟩ := sampleTree_table_mem ht
    rw [mem_span_zero] at hx
    omega
  · have hb := sampleTree_leaf_mem hl
    simp only [mem_span, pgSize] at hx
    omega
  · obtain ⟨rfl, rfl⟩ := Prod.mk.inj heq
    rw [mem_span_zero] at hx
    omega
  · dsimp only at ho
    subst ho
    exact Or.inr (Or.inr ⟨a, hQ, mem_span_zero.1 hx⟩)

/-- The process of `sampleTree` exists, with any pages outside of its memory in use by others. -/
theorem exists_sample (huge : Bool) (Q : Finset ℕ) (hQ : ∀ a ∈ Q, a ∈ sampleEnd.pages ∧
    (a < 0x80200000 ∨ 0x80600000 ≤ a)) :
    ∃ s, KallocRun sampleEnd s ((sampleTree huge).tables ∪
        ((sampleTree huge).leaves ∪ insert (0x80205000, 0) (blocksAt Q 0))) ∧
      AddrSpace s sampleEnd.managed (insert (0x80205000, 0) (blocksAt Q 0)) 0x80001000 sampleProc
        (sampleTree huge) := by
  classical
  have hpages : ∀ a, a ∈ sampleEnd.pages ↔ a % 4096 = 0 ∧ 0x80022000 ≤ a ∧ a < 0x88000000 := by
    intro a
    rw [KernelEnd.pages, sampleEnd_managed]
    rfl
  have hrest : ∀ a o, (a, o) ∈ insert (0x80205000, 0) (blocksAt (Q : Set ℕ) 0) → o = 0 ∧
      (a < 0x80200000 ∨ a = 0x80205000 ∨ 0x80600000 ≤ a) := by
    rintro a o (heq | ⟨hb, ho⟩)
    · obtain ⟨rfl, rfl⟩ := Prod.mk.inj heq
      exact ⟨rfl, Or.inr (Or.inl rfl)⟩
    · have := (hQ a hb).2
      exact ⟨ho, by omega⟩
  have hleaf : ∀ a o, (a, o) ∈ (sampleTree huge).leaves → 0x80400000 ≤ a ∧ a < 0x80600000 := by
    intro a o hb
    have := sampleTree_leaf_mem hb
    have := size_pos (u := 4096) (by omega) o
    omega
  let P : Finset ℕ := {0x80200000, 0x80201000, 0x80203000, 0x80204000, 0x80205000} ∪ Q ∪
    if huge then ∅ else insert 0x80202000 (hugePages 0x80400000)
  let H : Finset ℕ := if huge then {0x80400000} else ∅
  have hstate : ∃ s, KallocRun sampleEnd s ((sampleTree huge).tables ∪
        ((sampleTree huge).leaves ∪ insert (0x80205000, 0) (blocksAt Q 0))) ∧
      Uvm s sampleEnd.managed (insert (0x80205000, 0) (blocksAt Q 0)) (sampleTree huge) := by
    refine exists_uvm sampleEnd (P := P) (H := H) (sampleTree_ok huge) (fun L q q' pa h h' => ?_)
      (fun q pa fl he => ?_) ?_ ?_ ?_ (fun a ha => ?_) (fun a ha => ?_) (fun a ha => ?_)
      fun a ha h hh => ?_
    · rw [sampleTree_ownLeaf] at h h'
      omega
    · rcases sampleTree_leaf.1 he with ⟨-, rfl, -⟩ | ⟨h, -⟩ | ⟨h, -⟩ | ⟨h, -⟩
      · exact PTree.user_one.2 (by simp only [topVpn]; omega)
      all_goals omega
    · rw [Set.disjoint_left]
      rintro ⟨a, o⟩ ht (hl | hr)
      · have := sampleTree_table_mem ht
        have := hleaf a o hl
        omega
      · have := sampleTree_table_mem ht
        have := (hrest a o hr).2
        omega
    · rw [Set.disjoint_left]
      rintro ⟨a, o⟩ hl hr
      have := hleaf a o hl
      have := (hrest a o hr).2
      omega
    · rw [sampleTree_tables, sampleTree_leaves]
      ext ⟨a, o⟩
      cases huge with
      | true =>
        simp only [P, H, blocksAt, Set.mem_union, Set.mem_ofPred_eq, Set.mem_insert_iff,
          Set.mem_singleton_iff, Prod.mk.injEq, Finset.coe_union, Finset.mem_coe, if_true,
          Finset.coe_insert, Finset.coe_singleton, Finset.coe_empty, Set.union_empty]
        tauto
      | false =>
        simp only [P, H, blocksAt, Set.mem_union, Set.mem_ofPred_eq, Set.mem_insert_iff,
          Set.mem_singleton_iff, Prod.mk.injEq, Finset.coe_union, Finset.mem_coe, if_false,
          Finset.coe_insert, Finset.coe_singleton, Finset.coe_empty, Bool.false_eq_true,
          Set.mem_empty_iff_false, false_and, or_false]
        rw [← or_and_right, ← or_and_right, ← or_and_right]
        refine and_congr_left fun _ => ?_
        generalize (a ∈ hugePages 0x80400000) = mapped
        tauto
    · rw [hpages]
      simp only [P, Finset.mem_union, Finset.mem_insert, Finset.mem_singleton] at ha
      rcases ha with (ha | ha) | ha
      · omega
      · exact (hpages a).1 (hQ a ha).1
      · cases huge with
        | true => simp at ha
        | false =>
          simp only [Bool.false_eq_true, if_false, Finset.mem_insert, mem_hugePages] at ha
          rcases ha with rfl | ⟨j, hj, rfl⟩ <;> omega
    · cases huge with
      | true =>
        simp only [H, if_true, Finset.mem_singleton] at ha
        omega
      | false => simp [H] at ha
    · cases huge with
      | true =>
        simp only [H, if_true, Finset.mem_singleton] at ha
        subst ha
        rw [sampleEnd_managed]
        intro x hx
        rw [mem_span] at hx
        norm_num at hx ⊢
        omega
      | false => simp [H] at ha
    · cases huge with
      | true =>
        simp only [H, if_true, Finset.mem_singleton] at hh
        subst hh
        simp only [P, if_true, Finset.mem_union, Finset.mem_insert, Finset.mem_singleton,
          Finset.notMem_empty, or_false] at ha
        rw [mem_hugePages]
        rcases ha with ha | ha
        · omega
        · have := (hQ a ha).2
          omega
      | false => simp [H] at hh
  obtain ⟨s, hrun, huvm⟩ := hstate
  refine ⟨s, hrun, huvm, rfl, by decide, fun v hv => ?_, rfl, rfl⟩
  unfold PTree.view
  split_ifs with htop
  · have hl : (sampleTree huge).lookup v = none := by
      refine Option.eq_none_iff_forall_ne_some.2 ?_
      rintro ⟨pa, fl⟩ hl
      have hv' : 512 ≤ v := hv
      simp only [topVpn] at htop
      rcases PTree.lookup_eq_some.1 hl with ⟨b, he, -⟩ | ⟨-, he⟩
      · rw [sampleTree_leaf] at he
        omega
      · rw [sampleTree_leaf] at he
        simp only [topVpn] at he
        omega
    rw [hl, Option.map_none]
  · rfl

/-! ## How many pages are free -/

theorem sampleTree_mapped (huge : Bool) : (sampleTree huge).mapped = Set.Iio 512 := by
  ext v
  constructor
  · rintro ⟨hv, hne⟩
    by_contra hc
    obtain ⟨⟨pa, fl⟩, hl⟩ := Option.ne_none_iff_exists'.1 hne
    simp only [Set.mem_Iio, topVpn] at hc hv
    rcases PTree.lookup_eq_some.1 hl with ⟨b, he, -⟩ | ⟨-, he⟩
    · rw [sampleTree_leaf] at he
      omega
    · rw [sampleTree_leaf] at he
      simp only [topVpn] at he
      omega
  · intro hv
    rw [Set.mem_Iio] at hv
    refine ⟨by simp only [topVpn]; omega, ?_⟩
    cases huge with
    | true =>
      have he : (sampleTree true).ent 1 (v / 512) = .leaf 0x80400000 23 := by
        rw [sampleTree_leaf, Nat.div_eq_of_lt hv]
        simp
      rw [PTree.lookup_huge he]
      exact Option.some_ne_none _
    | false =>
      have he : (sampleTree false).ent 0 v = .leaf (0x80400000 + 4096 * v) 23 := by
        rw [sampleTree_leaf]
        simp [hv]
      have hno : ∀ b f, (sampleTree false).ent 1 (v / 512) ≠ .leaf b f := by
        intro b f hb
        rw [sampleTree_leaf] at hb
        simp at hb
      rw [PTree.lookup_page hno he]
      exact Option.some_ne_none _

/-- The free pages of the state of `exists_sample`. -/
theorem sample_census {s : Phys} {Q : Finset ℕ} (h : AddrSpace s sampleEnd.managed
      (insert (0x80205000, 0) (blocksAt Q 0)) 0x80001000 sampleProc (sampleTree huge))
    (hQ : 0x80205000 ∉ Q) :
    s.freeCount + (sampleTree huge).tables.ncard + 512 + (Q.card + 1) = 32734 := by
  have hc := h.uvm.census
  have hrest : ∀ b ∈ insert (0x80205000, 0) (blocksAt (Q : Set ℕ) 0), b.2 = 0 := by
    rintro b (rfl | hb)
    · rfl
    · exact hb.2
  have hcard : (insert (0x80205000, 0) (blocksAt (Q : Set ℕ) 0)).ncard = Q.card + 1 := by
    have himage : insert (0x80205000, 0) (blocksAt (Q : Set ℕ) 0) =
        (fun a => (a, 0)) '' ((insert 0x80205000 Q : Finset ℕ) : Set ℕ) := by
      ext ⟨a, o⟩
      simp only [blocksAt, Set.mem_insert_iff, Prod.mk.injEq, Set.mem_ofPred_eq, Finset.coe_insert,
        Set.mem_image, Finset.mem_coe]
      constructor
      · rintro (⟨rfl, rfl⟩ | ⟨ha, rfl⟩)
        · exact ⟨_, Or.inl rfl, rfl, rfl⟩
        · exact ⟨a, Or.inr ha, rfl, rfl⟩
      · rintro ⟨a', ha, rfl, rfl⟩
        exact ha.imp (fun h => ⟨h, rfl⟩) fun h => ⟨h, rfl⟩
    rw [himage, Set.InjOn.ncard_image fun a _ a' _ he => (Prod.mk.inj he).1,
      Set.ncard_coe_finset, Finset.card_insert_of_notMem hQ]
  rw [h.uvm.owns.symm.pageCount_pages hrest, hcard, sampleEnd_pageCount, sampleTree_mapped,
    ← Finset.coe_Iio, Set.ncard_coe_finset, Nat.card_Iio] at hc
  exact hc

theorem sampleTree_ncard_tables_le (huge : Bool) : (sampleTree huge).tables.ncard ≤ 5 := by
  have hsub : (sampleTree huge).tables ⊆ (({(0x80200000, 0), (0x80201000, 0), (0x80202000, 0),
      (0x80203000, 0), (0x80204000, 0)} : Finset (ℕ × ℕ)) : Set (ℕ × ℕ)) := by
    rintro ⟨a, o⟩ ⟨ho, L, q, ht⟩
    rw [sampleTree_isTable] at ht
    dsimp only at ho ht
    simp only [Finset.coe_insert, Finset.coe_singleton, Set.mem_insert_iff, Set.mem_singleton_iff,
      Prod.mk.injEq]
    omega
  refine (Set.ncard_le_ncard hsub (Finset.finite_toSet _)).trans ?_
  rw [Set.ncard_coe_finset]
  rfl

end Sample

end Xv6Plus
