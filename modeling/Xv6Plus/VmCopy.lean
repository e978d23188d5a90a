import Xv6Plus.VmAlloc

/-!
# Copying an address space

`uvmcopy` maps a copy of every page of the parent in the child, page by page and huge page by
huge page. Here the parent `B` is part of what everybody else holds, so that nothing the
child does changes it. The child has no user pages before; after a success its view is the
parent's, and after a failure it has none again.
-/

namespace Xv6Plus

section Copy

variable {s s₀ s₁ : Phys} {R : Set ℕ} {rest rest₀ : Set (ℕ × ℕ)} {A A₀ B : PTree}
  {w k pa fl sz mem : ℕ}

/-- Another address space, among what everybody else holds, is unchanged. -/
theorem Uvm.other (hA : Uvm s R rest A) (hB : Uvm s₀ R rest₀ B)
    (hsub : B.tables ∪ B.leaves ⊆ rest) (hk : Keeps (B.tables ∪ B.leaves) s₀ s) :
    Uvm s R (A.tables ∪ A.leaves ∪ rest \ (B.tables ∪ B.leaves)) B := by
  refine of_owns ?_ hB (hk.mono Set.subset_union_left)
  refine hA.owns.reassoc ?_ ?_
  · rw [Set.union_left_comm, Set.union_sdiff_cancel hsub]
  · rw [Set.disjoint_union_right]
    exact ⟨(hA.owns.apart.mono_right hsub).symm, Set.disjoint_sdiff_right⟩

theorem or_pteV {fl : ℕ} (h : fl &&& 1 ≠ 0) : fl ||| pteV = fl := by
  refine Nat.eq_of_testBit_eq fun i => ?_
  rw [Nat.testBit_or]
  by_cases hi : i = 0
  · subst hi
    have : fl.testBit 0 = true := by
      rw [Nat.and_one_is_mod] at h
      rw [Nat.testBit_zero, decide_eq_true_iff]
      omega
    rw [this]
    rfl
  · rw [show pteV = 2 ^ 0 from rfl, Nat.testBit_two_pow_of_ne (Ne.symm hi), Bool.or_false]

theorem LeafOk.permOk {L : ℕ} (h : LeafOk L pa fl) : PermOk fl := ⟨h.flags_lt, h.rwx⟩

/-- The pages of `B` below `w` are copied to `A`, which has no others. -/
structure Copied (R : Set ℕ) (rest : Set (ℕ × ℕ)) (s₀ : Phys) (A₀ B : PTree) (w : ℕ) (s : Phys)
    (A : PTree) : Prop where
  uvm : Uvm s R rest A
  top : A₀.SameTop A
  keeps : Keeps rest s₀ s
  view : ∀ v, A.view s.mem v = if v < w then B.view s₀.mem v else none
  /-- A huge page is copied to a huge page. -/
  level : ∀ k, (∃ b f, A.ent 1 k = .leaf b f) ↔ 512 * k < w ∧ ∃ b f, B.ent 1 k = .leaf b f

/-- The same between two turns of the loop. -/
structure Copying (R : Set ℕ) (rest : Set (ℕ × ℕ)) (s₀ : Phys) (A₀ B : PTree) (w : ℕ) (s : Phys)
    (A : PTree) : Prop extends Copied R rest s₀ A₀ B w s A where
  /-- Nothing is mapped from `w` on, not even a table where a huge page may come. -/
  fresh : ∀ k, PTree.User 1 k → w ≤ 512 * k → A.ent 1 k = .absent
  /-- `w` is not inside a huge page. -/
  align : ∀ k pa fl, B.ent 1 k = .leaf pa fl → w ≤ 512 * k ∨ 512 * k + 512 ≤ w

theorem Copied.undo (h : Copied R rest s₀ A₀ B w s A) (hw : w ≤ topVpn) :
    wp (uvmunmap A.root 0 w true) (fun _ s' => ∃ A', Uvm s' R rest A' ∧ A₀.SameTop A' ∧
      Keeps rest s₀ s' ∧ ∀ v, A'.view s'.mem v = none) noPanic s := by
  have hns : NoStraddle A 0 (0 + w) := by
    intro k b f he
    have hne := h.uvm.huge_view he (j := 511) (by omega)
    rw [h.view] at hne
    split_ifs at hne with hc
    · omega
    · exact absurd rfl hne
  refine wp_post (uvmunmap_spec 0 h.uvm (by omega) (Or.inr (Or.inl hns.straddling_eq))) ?_
  rintro _ s' ⟨A', -, hu, -⟩
  refine ⟨A', hu.uvm, h.top.trans hu.top, h.keeps.trans hu.keeps, fun v => ?_⟩
  rw [hu.view, h.view]
  split_ifs <;> first | rfl | omega

/-- A new block gets the bytes of a block of the parent. -/
theorem Copied.block {o n : ℕ} (h : Copied R rest s₀ A₀ B w s A) (hnot : (mem, o) ∉ rest)
    (h₁ : Uvm s₁ R (insert (mem, o) rest) A)
    (hk₁ : Keeps (A.tables ∪ A.leaves ∪ rest) s s₁) (hpa : (pa, o) ∈ rest)
    (hn : n = 4096 * 2 ^ o) :
    Uvm (s₁.setMem (memmove s₁.mem mem pa n)) R (insert (mem, o) rest) A ∧
      Keeps rest s (s₁.setMem (memmove s₁.mem mem pa n)) ∧
      A.view (memmove s₁.mem mem pa n) = A.view s.mem ∧
      ∀ i < n, memmove s₁.mem mem pa n (mem + i) = s₀.mem (pa + i) := by
  obtain ⟨h₂, hk₂⟩ := h₁.store_block (Set.mem_insert _ _)
    (memmove_span (n := n) pa (le_refl mem) (by omega))
  rw [Set.insert_sdiff_self_of_notMem hnot] at hk₂
  refine ⟨h₂, (hk₁.mono Set.subset_union_right).trans (hk₂.mono Set.subset_union_right), ?_,
    fun i hi => ?_⟩
  · exact h.uvm.view_keeps ((hk₁.mono fun b hb => Or.inl (Or.inr hb)).trans
      (hk₂.mono fun b hb => Or.inl (Or.inr hb)))
  · rw [memmove_apply hi]
    exact (h.keeps.trans (hk₁.mono Set.subset_union_right)).byte hpa (by omega)

namespace Copying

theorem skip (h : Copying R rest s₀ A₀ B w s A) (hv : B.lookup w = none) :
    Copying R rest s₀ A₀ B (w + 1) s A := by
  have hne : ∀ k b f, B.ent 1 k = .leaf b f → 512 * k ≠ w := by
    rintro k b f he rfl
    have he' : B.ent 1 (512 * k / 512) = .leaf b f := by
      rw [Nat.mul_div_cancel_left _ (by omega)]
      exact he
    rw [PTree.lookup_huge he'] at hv
    cases hv
  refine ⟨⟨h.uvm, h.top, h.keeps, fun v => ?_, fun k => ?_⟩,
    fun k hu hk => h.fresh k hu (by omega), fun k b f he => ?_⟩
  · rw [h.view]
    by_cases hvw : v = w
    · subst hvw
      rw [if_neg (by omega), if_pos (by omega)]
      by_cases ht : v < topVpn
      · rw [(PTree.view_eq_none ht).2 hv]
      · rw [PTree.view_of_ge (not_lt.1 ht)]
    · split_ifs <;> first | rfl | omega
  · rw [h.level]
    refine and_congr_left ?_
    rintro ⟨b, f, he⟩
    have := hne k b f he
    omega
  · have := h.align k b f he
    have := hne k b f he
    omega

/-- A block with the bytes of a leaf of the parent has been mapped, `n` pages from `w` on. -/
theorem mapped {n : ℕ} {A₁ : PTree} (h : Copying R rest s₀ A₀ B w s A) (hn : 0 < n)
    (hlast : (w + n - 1) / 512 = w / 512) (htop : A.SameTop A₁) (hk : Keeps rest s s₁)
    (hpath : ∀ L k, 0 < L → k ≠ w / 512 ^ L → A₁.ent L k = A.ent L k) (huvm : Uvm s₁ R rest A₁)
    (hview : ∀ v, A₁.view s₁.mem v =
      if w ≤ v ∧ v < w + n then B.view s₀.mem v else A.view s.mem v)
    (hlevel : (∃ b f, A₁.ent 1 (w / 512) = .leaf b f) ↔ ∃ b f, B.ent 1 (w / 512) = .leaf b f)
    (halign : ∀ b f, B.ent 1 (w / 512) = .leaf b f → w + n = 512 * (w / 512) + 512) :
    Copying R rest s₀ A₀ B (w + n) s₁ A₁ := by
  refine ⟨⟨huvm, h.top.trans htop, h.keeps.trans hk, fun v => ?_, fun k => ?_⟩,
    fun k hu hk => ?_, fun k b f he => ?_⟩
  · rw [hview, h.view]
    split_ifs <;> first | rfl | omega
  · by_cases hkw : k = w / 512
    · rw [hkw, hlevel]
      exact (and_iff_right (by omega)).symm
    · rw [hpath 1 k one_pos (by rw [pow_one]; exact hkw), h.level]
      refine and_congr_left fun _ => ?_
      omega
  · rw [hpath 1 k one_pos (by omega)]
    exact h.fresh k hu (by omega)
  · by_cases hkw : k = w / 512
    · subst hkw
      exact Or.inr (halign b f he).ge
    · have := h.align k b f he
      omega

end Copying

/-- The state after the loop of `uvmcopy`. -/
def UvmcopyLoopPost (R : Set ℕ) (rest : Set (ℕ × ℕ)) (s₀ : Phys) (A₀ B : PTree) (sz : ℕ)
    (r : Bool × ℕ) (s' : Phys) : Prop :=
  ∃ A' w, Copied R rest s₀ A₀ B w s' A' ∧ r.2 = 4096 * w ∧ w ≤ pages sz ∧
    (r.1 = true → w = pages sz)

theorem uvmcopyLoop_spec (hB : Uvm s₀ R rest₀ B) (hsub : B.tables ∪ B.leaves ⊆ rest)
    (hsz : sz ≤ trapframe)
    (hhuge : ∀ k b f, B.ent 1 k = .leaf b f → 512 * k + 512 ≤ pages sz) :
    ∀ {turns w : ℕ} {s : Phys} {A : PTree}, w ≤ pages sz → pages sz - w ≤ turns →
    Copying R rest s₀ A₀ B w s A →
    wp (uvmcopyLoop B.root A₀.root sz turns (4096 * w)) (UvmcopyLoopPost R rest s₀ A₀ B sz)
      noPanic s
  | 0, w, s, A, hw, ht, h => by
    rw [uvmcopyLoop, wp_pure]
    exact ⟨A, w, h.toCopied, rfl, hw, fun _ => by omega⟩
  | turns + 1, w, s, A, hw, ht, h => by
    have hps := pages_le hsz
    have hok := hB.pt.ok
    rw [uvmcopyLoop, wp_ite, wp_pure]
    refine ⟨fun hlt => ?_, fun hge => ?_⟩
    swap
    · refine ⟨A, w, h.toCopied, rfl, hw, fun _ => ?_⟩
      simp only [pages] at hw ⊢
      omega
    have hwlt : w < pages sz := by
      simp only [pages]
      omega
    have hwt : w < topVpn := by omega
    have hva : 4096 * w / 4096 = w := Nat.mul_div_cancel_left _ (by omega)
    have hBs := h.uvm.other hB hsub (h.keeps.mono hsub)
    have hskip : B.lookup w = none → wp (uvmcopyLoop B.root A₀.root sz turns (4096 * w + pgSize))
        (UvmcopyLoopPost R rest s₀ A₀ B sz) noPanic s := by
      intro hl
      rw [show 4096 * w + pgSize = 4096 * (w + 1) by simp only [pgSize]; omega]
      exact uvmcopyLoop_spec hB hsub hsz hhuge (by omega) (by omega) (h.skip hl)
    -- the loop stops here
    have hstop : ∀ {s₁ : Phys} {A₁ : PTree}, Uvm s₁ R rest A₁ → A.SameTop A₁ → Keeps rest s s₁ →
        A₁.view s₁.mem = A.view s.mem →
        (∀ k b f, A₁.ent 1 k = .leaf b f ↔ A.ent 1 k = .leaf b f) →
        UvmcopyLoopPost R rest s₀ A₀ B sz (false, 4096 * w) s₁ := fun {s₁ A₁} hu htop hk hv hl =>
      ⟨A₁, w, ⟨hu, h.top.trans htop, h.keeps.trans hk, fun v => by rw [hv, h.view],
        fun k => by simp only [hl]; exact h.level k⟩, rfl, hw,
        fun hf => absurd hf Bool.false_ne_true⟩
    rw [wp_bind]
    refine wp_post (walkWithLevel_spec hBs.pt (by simp only [topVpn] at hwt; omega)) ?_
    rintro r s' ⟨rfl, hf⟩
    rw [hva] at hf
    cases hf with
    | missing h1 h0 => exact hskip (PTree.lookup_absent h1 h0)
    | @huge p pa fl ht he =>
      have hl := hok.leaves _ _ _ _ he
      have hu := PTree.user_one.1 (hB.huge _ _ _ he)
      -- the huge page starts here
      obtain ⟨k, rfl⟩ : ∃ k, w = 512 * k := by
        refine ⟨w / 512, ?_⟩
        have := h.align _ _ _ he
        omega
      rw [Nat.mul_div_cancel_left _ (by omega)] at he hu ht
      have hend := hhuge _ _ _ he
      have hleaf : (pa, 9) ∈ rest := hsub (Or.inr ⟨1, k, ⟨⟨fl, he⟩, PTree.user_one.2 hu⟩, rfl⟩)
      dsimp only
      rw [wp_bind, wp_load64, hBs.pt.rep.entry (by
        rw [Nat.mul_div_cancel_left _ (by omega)]; exact ht),
        Nat.mul_div_cancel_left _ (by omega), he, if_neg hl.bits_valid, if_pos rfl, hl.bits_pa,
        hl.bits_flags, wp_bind]
      refine wp_post h.uvm.kallocHuge_spec fun mem s₁ hr => ?_
      rcases hr with ⟨rfl, rfl, _⟩ | ⟨hne, hnot, h₁, hk₁⟩
      · rw [if_pos rfl, wp_pure]
        exact hstop h.uvm (.refl A) (.refl _ _) rfl fun _ _ _ => Iff.rfl
      obtain ⟨h₂, hk₂, hv₂, hb₂⟩ := h.block (n := hugePgSize) hnot h₁ hk₁ hleaf (by norm_num)
      have habs := h.fresh k (PTree.user_one.2 hu) le_rfl
      rw [if_neg hne, wp_bind, wp_moveBytes, wp_bind, ← h.top.root,
        show 4096 * (512 * k) = 2097152 * k by omega]
      refine wp_post (h₂.mappagesHuge_spec hnot hu habs hl.permOk) ?_
      rintro r s₃ ⟨A', htop, hk₃, hpath,
        ⟨rfl, -, huvm, hview, -, hsame⟩ | ⟨rfl, huvm, hview, -, -, -, hleaf'⟩⟩
      · rw [if_pos (by decide), wp_bind]
        refine wp_post (huvm.kfreeHuge_spec (Set.mem_insert _ _)) ?_
        rintro _ s₄ ⟨h₄, hk₄⟩
        rw [Set.insert_sdiff_self_of_notMem hnot] at h₄ hk₄
        rw [wp_pure, show 2097152 * k = 4096 * (512 * k) by omega]
        refine hstop h₄ htop ((hk₂.trans (hk₃.mono fun b hb => Or.inr (Or.inr hb))).trans
          (hk₄.mono Set.subset_union_right)) ?_ hsame
        rw [huvm.view_keeps (hk₄.mono fun b hb => Or.inl (Or.inr hb)), hview, Phys.setMem_mem, hv₂]
      · rw [if_neg (by decide), h.top.root,
          show 2097152 * k + hugePgSize = 4096 * (512 * k + 512) by simp only [hugePgSize]; omega]
        refine uvmcopyLoop_spec hB hsub hsz hhuge hend (by omega) (h.mapped (by omega)
          (by omega) htop (hk₂.trans (hk₃.mono fun b hb => Or.inr (Or.inr hb))) hpath huvm
          (fun v => ?_) (iff_of_true ⟨mem, _, by rw [← pow_one 512]; exact hleaf'⟩ ⟨pa, fl, by
            rw [Nat.mul_div_cancel_left _ (by omega)]; exact he⟩) fun _ _ _ => by omega)
        rw [hview, Phys.setMem_mem, hv₂]
        dsimp only
        by_cases hvk : v / 512 = k
        · rw [if_pos hvk, if_pos (by omega), PTree.view_of_lt (by omega),
            PTree.lookup_huge (by rw [hvk]; exact he), Option.map_some, or_pteV hl.valid]
          congr 2
          funext i
          have hi := i.isLt
          rw [Nat.add_assoc, Nat.add_assoc]
          exact hb₂ _ (by simp only [hugePgSize]; omega)
        · rw [if_neg hvk, if_neg (by omega)]
    | @page p ht =>
      dsimp only
      rw [wp_bind, wp_load64, hBs.pt.rep.entry ht]
      cases he : B.ent 0 w with
      | absent =>
        rw [if_pos (not_not.1 absent_valid)]
        exact hskip (PTree.lookup_absent ht.not_leaf he)
      | table t => exact absurd he (hok.bottom _ t)
      | leaf pa fl =>
        have hl := hok.leaves _ _ _ _ he
        have hleaf : (pa, 0) ∈ rest :=
          hsub (Or.inr ⟨0, w, ⟨⟨fl, he⟩, PTree.user_zero.2 hwt⟩, rfl⟩)
        rw [if_neg hl.bits_valid, if_neg (by decide), hl.bits_pa, hl.bits_flags, wp_bind]
        refine wp_post h.uvm.kalloc_spec fun mem s₁ hr => ?_
        rcases hr with ⟨rfl, rfl, _⟩ | ⟨hne, hnot, h₁, hk₁⟩
        · rw [if_pos rfl, wp_pure]
          exact hstop h.uvm (.refl A) (.refl _ _) rfl fun _ _ _ => Iff.rfl
        obtain ⟨h₂, hk₂, hv₂, hb₂⟩ := h.block (n := pgSize) hnot h₁ hk₁ hleaf (by norm_num)
        have hnone : A.lookup w = none := by
          rw [← PTree.view_eq_none (m := s'.mem) hwt, h.view, if_neg (by omega)]
        rw [if_neg hne, wp_bind, wp_moveBytes, wp_bind, ← h.top.root]
        refine wp_post (h₂.mappages_spec hnot hwt hnone hl.permOk) ?_
        rintro r s₃ ⟨A', htop, hk₃, hpath,
          ⟨rfl, -, huvm, hview, -, hsame⟩ | ⟨rfl, huvm, hview, -, -, hsame, -⟩⟩
        · rw [if_pos (by decide), wp_bind]
          refine wp_post (huvm.kfree_spec (Set.mem_insert _ _)) ?_
          rintro _ s₄ ⟨h₄, hk₄⟩
          rw [Set.insert_sdiff_self_of_notMem hnot] at h₄ hk₄
          rw [wp_pure]
          refine hstop h₄ htop ((hk₂.trans (hk₃.mono fun b hb => Or.inr (Or.inr hb))).trans
            (hk₄.mono Set.subset_union_right)) ?_ hsame
          rw [huvm.view_keeps (hk₄.mono fun b hb => Or.inl (Or.inr hb)), hview, Phys.setMem_mem,
            hv₂]
        · rw [if_neg (by decide), h.top.root,
            show 4096 * w + pgSize = 4096 * (w + 1) by simp only [pgSize]; omega]
          refine uvmcopyLoop_spec hB hsub hsz hhuge hwlt (by omega) (h.mapped (by omega)
            (by omega) htop (hk₂.trans (hk₃.mono fun b hb => Or.inr (Or.inr hb))) hpath huvm
            (fun v => ?_) (iff_of_false ?_ ?_) fun b f hb => absurd hb (ht.not_leaf b f))
          rw [hview, Phys.setMem_mem, hv₂]
          by_cases hvw : v = w
          · subst hvw
            rw [Function.update_self, if_pos (by omega), PTree.view_of_lt hwt,
              PTree.lookup_page ht.not_leaf he, Option.map_some, or_pteV hl.valid]
            congr 2
            funext i
            exact hb₂ _ i.isLt
          · rw [Function.update_of_ne hvw, if_neg (by omega)]
          · rintro ⟨b, f, hb⟩
            rw [hsame rfl] at hb
            obtain ⟨-, b', f', hb'⟩ := (h.level _).1 ⟨b, f, hb⟩
            exact ht.not_leaf b' f' hb'
          · rintro ⟨b, f, hb⟩
            exact ht.not_leaf b f hb

/-- After `uvmcopy` : the child has the parent's pages below `sz`, huge where the parent's are, or
none. -/
def UvmcopyPost (R : Set ℕ) (rest : Set (ℕ × ℕ)) (s₀ : Phys) (A₀ B : PTree) (sz : ℕ) (r : ℤ)
    (s' : Phys) : Prop :=
  ∃ A', Uvm s' R rest A' ∧ A₀.SameTop A' ∧ Keeps rest s₀ s' ∧
    ((r = 0 ∧ (∀ v, A'.view s'.mem v = if v < pages sz then B.view s₀.mem v else none) ∧
        ∀ k, (∃ b f, A'.ent 1 k = .leaf b f) ↔ ∃ b f, B.ent 1 k = .leaf b f) ∨
      (r = -1 ∧ ∀ v, A'.view s'.mem v = none))

theorem uvmcopy_spec (hA : Uvm s₀ R rest A₀) (hB : Uvm s₀ R rest₀ B)
    (hsub : B.tables ∪ B.leaves ⊆ rest) (hsz : sz ≤ trapframe)
    (hhuge : ∀ k b f, B.ent 1 k = .leaf b f → 512 * k + 512 ≤ pages sz)
    (hempty : ∀ v, A₀.view s₀.mem v = none) (hfresh : ∀ k, PTree.User 1 k → A₀.ent 1 k = .absent) :
    wp (uvmcopy B.root A₀.root sz) (UvmcopyPost R rest s₀ A₀ B sz) noPanic s₀ := by
  have hps := pages_le hsz
  have hstart : Copying R rest s₀ A₀ B 0 s₀ A₀ := by
    refine ⟨⟨hA, .refl A₀, .refl _ _, fun v => by rw [hempty, if_neg (by omega)], fun k => ?_⟩,
      fun k hu _ => hfresh k hu, fun _ _ _ _ => Or.inl (Nat.zero_le _)⟩
    refine iff_of_false ?_ fun hk => absurd hk.1 (Nat.not_lt_zero _)
    rintro ⟨b, f, he⟩
    exact hA.huge_view he (j := 0) (by omega) (hempty _)
  rw [uvmcopy, wp_bind]
  refine wp_post (uvmcopyLoop_spec (w := 0) hB hsub hsz hhuge (Nat.zero_le _) ?_ hstart) ?_
  · simp only [pages, pgSize]
    omega
  rintro ⟨done, i⟩ s' ⟨A', w, h, rfl, hw, hdone⟩
  dsimp only at hdone ⊢
  rw [wp_ite, wp_pure]
  refine ⟨fun hd => ⟨A', h.uvm, h.top, h.keeps, Or.inl ⟨rfl, fun v => ?_, fun k => ?_⟩⟩,
    fun _ => ?_⟩
  · rw [h.view, hdone hd]
  · rw [h.level, hdone hd]
    refine and_iff_right_of_imp ?_
    rintro ⟨b, f, he⟩
    have := hhuge k b f he
    omega
  · have hround : pgRoundUp (4096 * w) / pgSize = w := by
      simp only [topVpn] at hps
      rw [pgRoundUp_eq (by omega)]
      simp only [pgSize]
      omega
    rw [wp_bind, hround, ← h.top.root]
    refine wp_post (h.undo (hw.trans hps)) ?_
    rintro _ s'' ⟨A'', hu, htop, hk, hnone⟩
    rw [wp_pure]
    exact ⟨A'', hu, htop, hk, Or.inr ⟨rfl, hnone⟩⟩

/-- Huge pages are below the size if all pages are. -/
theorem Uvm.huge_below (hB : Uvm s R rest B) (hbelow : ∀ v, pages sz ≤ v → B.view s.mem v = none) :
    ∀ k b f, B.ent 1 k = .leaf b f → 512 * k + 512 ≤ pages sz := by
  intro k b f he
  by_contra hc
  exact hB.huge_view he (j := 511) (by omega) (hbelow _ (by omega))

end Copy

end Xv6Plus
