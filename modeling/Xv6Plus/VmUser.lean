import Xv6Plus.VmAlloc

/-!
# Reading and writing user memory

What a process reads at an address is `contents` : the byte of the page, and zero where no
page is mapped yet. A page fault maps a cleared page, so it does not change the contents,
and `copyin`, `copyout` and the loads and stores of the process agree on it.
-/

namespace Xv6Plus

/-- The byte at a user address, zero where no page is mapped. -/
def contents (V : View) (va : ℕ) : UInt8 :=
  match V (va / 4096) with
  | some (_, bytes) => bytes ⟨va % 4096, mod_pgSize_lt va⟩
  | none => 0

/-- Only pages below `n` that were not mapped are new, and no flags change. -/
def Faults (n : ℕ) (V V' : View) : Prop :=
  ∀ v, (V' v).map Prod.fst = (V v).map Prod.fst ∨ (V v = none ∧ v < n)

/-- The page `v` is mapped without the permission. -/
def Denied (V : View) (v perm : ℕ) : Prop :=
  ∃ fl b, V v = some (fl, b) ∧ (fl &&& pteU = 0 ∨ fl &&& perm = 0)

/-- Why an access to the page `v` fails : it is not one of the `n` pages of the process, it is
mapped without the permission, or there is no memory for it. -/
def Refused (n : ℕ) (V : View) (s : Phys) (v perm : ℕ) : Prop :=
  n ≤ v ∨ Denied V v perm ∨ Exhausted s

section Views

variable {V V' V'' : View} {n v perm : ℕ}

theorem Faults.refl (n : ℕ) (V : View) : Faults n V V := fun _ => Or.inl rfl

theorem Faults.trans (h : Faults n V V') (h' : Faults n V' V'') : Faults n V V'' := by
  intro v
  rcases h v with e | e
  · rcases h' v with e' | ⟨e', hv⟩
    · exact Or.inl (e'.trans e)
    · rw [e', Option.map_none, eq_comm, Option.map_eq_none_iff] at e
      exact Or.inr ⟨e, hv⟩
  · exact Or.inr e

theorem Faults.below (h : Faults n V V') (hV : ∀ v, n ≤ v → V v = none) (hv : n ≤ v) :
    V' v = none := by
  rcases h v with e | ⟨_, hlt⟩
  · rw [hV v hv, Option.map_none, Option.map_eq_none_iff] at e
    exact e
  · omega

theorem Denied.of_faults (h : Denied V v perm) (hf : Faults n V V') : Denied V' v perm := by
  obtain ⟨fl, b, hv, hd⟩ := h
  rcases hf v with e | ⟨e, _⟩
  · rw [hv, Option.map_some, Option.map_eq_some_iff] at e
    obtain ⟨⟨fl', b'⟩, hv', rfl⟩ := e
    exact ⟨fl', b', hv', hd⟩
  · rw [hv] at e
    cases e

/-- A page that comes into existence cleared does not change the contents. -/
theorem contents_fault {fl : ℕ} (hv : V v = none) :
    contents (Function.update V v (some (fl, fun _ => 0))) = contents V := by
  funext va
  unfold contents
  by_cases hc : va / 4096 = v
  · rw [hc, Function.update_self, hv]
  · rw [Function.update_of_ne hc]

theorem faults_update {fl : ℕ} {b : Fin 4096 → UInt8} (hv : V v = none) (hn : v < n) :
    Faults n V (Function.update V v (some (fl, b))) := by
  intro v'
  by_cases hc : v' = v
  · exact Or.inr (hc ▸ ⟨hv, hn⟩)
  · left
    rw [Function.update_of_ne hc]

end Views

/-! ## Translation -/

section Translate

variable {s : Phys} {R : Set ℕ} {rest : Set (ℕ × ℕ)} {A : PTree} {va v pa fl : ℕ}
  {E : String → Prop}

/-- The address `walkaddr` returns. -/
def PTree.userAddr (A : PTree) (va : ℕ) : ℕ :=
  match A.lookup (va / 4096) with
  | some (pa, fl) => if fl &&& pteU = 0 then 0 else pa + va % 4096
  | none => 0

theorem walkaddr_spec (h : Uvm s R rest A) (hva : va < 2 ^ 38) :
    wp (walkaddr A.root va) (fun r s' => s' = s ∧ r = A.userAddr va) E s := by
  rw [walkaddr, if_neg (not_le.2 hva), wp_bind]
  refine wp_post (walkWithLevel_spec h.pt hva) ?_
  rintro r s' ⟨rfl, hf⟩
  cases hf with
  | missing h1 h0 =>
    rw [wp_pure, PTree.userAddr, PTree.lookup_absent h1 h0]
    exact ⟨rfl, rfl⟩
  | huge ht he =>
    have hl := h.pt.ok.leaves _ _ _ _ he
    dsimp only
    rw [wp_bind, wp_load64, h.pt.rep.entry ht, he, if_neg hl.bits_valid,
      hl.and_bits (by norm_num), hl.bits_pa, levelPageSize_one, PTree.userAddr,
      PTree.lookup_huge he]
    dsimp only
    split_ifs
    · exact (wp_pure _).2 ⟨rfl, rfl⟩
    · exact (wp_pure _).2 ⟨rfl, by omega⟩
  | page ht =>
    dsimp only
    rw [wp_bind, wp_load64, h.pt.rep.entry ht]
    cases he : A.ent 0 (va / 4096) with
    | absent =>
      rw [if_pos (not_not.1 absent_valid), wp_pure, PTree.userAddr,
        PTree.lookup_absent ht.not_leaf he]
      exact ⟨rfl, rfl⟩
    | table t => exact absurd he (h.pt.ok.bottom _ t)
    | leaf pa fl =>
      have hl := h.pt.ok.leaves _ _ _ _ he
      rw [if_neg hl.bits_valid, hl.and_bits (by norm_num), hl.bits_pa, levelPageSize_zero,
        PTree.userAddr, PTree.lookup_page ht.not_leaf he]
      dsimp only
      split_ifs
      · exact (wp_pure _).2 ⟨rfl, rfl⟩
      · exact (wp_pure _).2 ⟨rfl, rfl⟩

/-- The entry `walk` finds, for a page that is mapped. -/
theorem walk_mapped_spec (h : Uvm s R rest A) (hva : va < 2 ^ 38)
    (hl : A.lookup (va / 4096) = some (pa, fl)) :
    wp (walk A.root va false) (fun r s' => s' = s ∧ r ≠ 0 ∧
      ∀ mask < 1024, read64 s.mem r &&& mask = fl &&& mask) E s := by
  rw [walk, wp_bind]
  refine wp_post (walkWithLevel_spec h.pt hva) ?_
  rintro r s' ⟨rfl, hf⟩
  cases hf with
  | missing h1 h0 =>
    rw [PTree.lookup_absent h1 h0] at hl
    cases hl
  | huge ht he =>
    have hlo := h.pt.ok.leaves _ _ _ _ he
    rw [PTree.lookup_huge he] at hl
    obtain ⟨-, rfl⟩ := Prod.mk.inj (Option.some.inj hl)
    have hp := h.pt.table_page ht
    dsimp only
    rw [wp_pure, h.pt.rep.entry ht, he]
    exact ⟨rfl, by omega, fun mask hm => hlo.and_bits hm⟩
  | page ht =>
    have hp := h.pt.table_page ht
    dsimp only
    rw [wp_pure, h.pt.rep.entry ht]
    refine ⟨rfl, by omega, fun mask hm => ?_⟩
    rw [PTree.lookup_eq_some] at hl
    rcases hl with ⟨b, hb, _⟩ | ⟨_, he⟩
    · exact absurd hb (ht.not_leaf _ _)
    · rw [he, (h.pt.ok.leaves _ _ _ _ he).and_bits hm]

theorem ismapped_spec (h : Uvm s R rest A) (hva : va < 2 ^ 38) :
    wp (ismapped A.root va) (fun r s' => s' = s ∧
      (r = true ↔ A.lookup (va / 4096) ≠ none)) E s := by
  rw [ismapped, walk, wp_bind, wp_bind]
  refine wp_post (walkWithLevel_spec h.pt hva) ?_
  rintro r s' ⟨rfl, hf⟩
  cases hf with
  | missing h1 h0 =>
    rw [wp_pure, if_pos rfl, wp_pure, PTree.lookup_absent h1 h0]
    simp
  | huge ht he =>
    have hlo := h.pt.ok.leaves _ _ _ _ he
    have hp := h.pt.table_page ht
    dsimp only
    rw [wp_pure, if_neg (by omega), wp_bind, wp_load64, wp_pure, h.pt.rep.entry ht, he,
      PTree.lookup_huge he]
    simp only [bne_iff_ne, ne_eq, reduceCtorEq, not_false_eq_true, iff_true, true_and]
    exact hlo.bits_valid
  | page ht =>
    have hp := h.pt.table_page ht
    dsimp only
    rw [wp_pure, if_neg (by omega), wp_bind, wp_load64, wp_pure, h.pt.rep.entry ht]
    refine ⟨rfl, ?_⟩
    cases he : A.ent 0 (va / 4096) with
    | absent =>
      rw [PTree.lookup_absent ht.not_leaf he]
      simp [Entry.bits]
    | table t => exact absurd he (h.pt.ok.bottom _ t)
    | leaf pa fl =>
      have hlo := h.pt.ok.leaves _ _ _ _ he
      rw [PTree.lookup_page ht.not_leaf he]
      simp only [bne_iff_ne, ne_eq, reduceCtorEq, not_false_eq_true, iff_true]
      exact hlo.bits_valid

end Translate

/-! ## Page faults -/

/-- Pages below `n` may have been added, and nothing was unmapped. -/
structure UserStep (R : Set ℕ) (rest : Set (ℕ × ℕ)) (n : ℕ) (s : Phys) (A : PTree) (s' : Phys)
    (A' : PTree) : Prop where
  uvm : Uvm s' R rest A'
  top : A.SameTop A'
  keeps : Keeps rest s s'
  faults : Faults n (A.view s.mem) (A'.view s'.mem)

section Fault

variable {s s' s'' : Phys} {R : Set ℕ} {rest : Set (ℕ × ℕ)} {A A' A'' : PTree} {n va : ℕ}

theorem UserStep.refl (h : Uvm s R rest A) : UserStep R rest n s A s A :=
  ⟨h, .refl A, .refl _ _, .refl _ _⟩

theorem UserStep.trans (h : UserStep R rest n s A s' A') (h' : UserStep R rest n s' A' s'' A'') :
    UserStep R rest n s A s'' A'' :=
  ⟨h'.uvm, h.top.trans h'.top, h.keeps.trans h'.keeps, h.faults.trans h'.faults⟩

theorem vmfault_spec {p : Proc} (va : ℕ) (h : Uvm s R rest A) (hp : p.pagetable = A.root)
    (hsz : p.sz ≤ trapframe) :
    wp (vmfault p A.root va) (fun r s' => ∃ A', UserStep R rest (pages p.sz) s A s' A' ∧
      contents (A'.view s'.mem) = contents (A.view s.mem) ∧
      (r ≠ 0 → va < p.sz ∧ A'.lookup (va / 4096) = some (r, 23)) ∧
      (r = 0 → p.sz ≤ va ∨ A.lookup (va / 4096) ≠ none ∨ Exhausted s') ∧
      ∀ L k, 0 < L → k ≠ va / 4096 / 512 ^ L → A'.ent L k = A.ent L k) noPanic s := by
  rw [vmfault, wp_ite, wp_pure]
  refine ⟨fun hge => ⟨A, .refl h, rfl, fun hr => absurd rfl hr, fun _ => Or.inl hge,
    fun _ _ _ _ => rfl⟩, fun hlt => ?_⟩
  have hsz' := hsz
  simp only [trapframe, trampoline, maxVa, pgSize] at hsz'
  have hva : va < p.sz := by omega
  have hv : va / 4096 < topVpn := by
    simp only [topVpn]
    omega
  have hdown : pgRoundDown va = 4096 * (va / 4096) := Nat.mul_comm _ _
  dsimp only
  rw [hdown, wp_bind]
  refine wp_post (ismapped_spec h (by omega)) ?_
  rintro b s' ⟨rfl, hb⟩
  rw [Nat.mul_div_cancel_left _ (by omega)] at hb
  rw [wp_ite, wp_pure]
  refine ⟨fun hbt => ⟨A, .refl h, rfl, fun hr => absurd rfl hr,
    fun _ => Or.inr (Or.inl (hb.1 hbt)), fun _ _ _ _ => rfl⟩, fun hnb => ?_⟩
  have hnone : A.lookup (va / 4096) = none := by
    by_contra hne
    exact hnb (hb.2 hne)
  rw [wp_bind]
  refine wp_post h.kalloc_spec fun mem s₁ hr => ?_
  rcases hr with ⟨rfl, rfl, hfree⟩ | ⟨hne, hnot, h₁, hk₁⟩
  · rw [if_pos rfl, wp_pure]
    exact ⟨A, .refl h, rfl, fun hr => absurd rfl hr,
      fun _ => Or.inr (Or.inr (exhausted_of_empty hfree)), fun _ _ _ _ => rfl⟩
  obtain ⟨h₂, hk₂⟩ := h₁.store_block (Set.mem_insert _ _)
    (memset_span (c := 0) (n := 4096) (le_refl mem) (by omega))
  rw [Set.insert_sdiff_self_of_notMem hnot] at hk₂
  have hkr := (hk₁.mono Set.subset_union_right).trans (hk₂.mono Set.subset_union_right)
  have hkl : Keeps A.leaves s' _ := (hk₁.mono fun b hb => Or.inl (Or.inr hb)).trans
    (hk₂.mono fun b hb => Or.inl (Or.inr hb))
  have hview₂ := h.view_keeps hkl
  rw [if_neg hne, wp_bind, wp_zeroPage, wp_bind, hp]
  refine wp_post (h₂.mappages_spec hnot hv hnone ⟨by decide, by decide⟩) ?_
  rintro r s₃ ⟨A', htop, hk₃, hpath, ⟨rfl, hfree, huvm, hview, _⟩ | ⟨rfl, huvm, hview, hlk, _⟩⟩
  · rw [if_pos (by decide), wp_bind]
    refine wp_post (huvm.kfree_spec (Set.mem_insert _ _)) ?_
    rintro _ s₄ ⟨h₄, hk₄⟩
    rw [Set.insert_sdiff_self_of_notMem hnot] at h₄ hk₄
    have hview₄ : A'.view s₄.mem = A.view s'.mem := by
      rw [huvm.view_keeps (hk₄.mono fun b hb => Or.inl (Or.inr hb)), hview, hview₂]
    rw [wp_pure]
    refine ⟨A', ⟨h₄, htop, (hkr.trans (hk₃.mono fun b hb => Or.inr (Or.inr hb))).trans
      (hk₄.mono Set.subset_union_right), ?_⟩, by rw [hview₄], fun hr => absurd rfl hr,
      fun _ => Or.inr (Or.inr ⟨mem, huvm.owns.free_subset hfree h₄.owns ?_⟩), hpath⟩
    · rw [hview₄]
      exact .refl _ _
    · rw [Set.union_insert]
  · -- the new page is cleared
    have hzero : (fun i : Fin 4096 => (s₁.setMem (memset s₁.mem mem 0 4096)).mem (mem + i)) =
        fun _ => 0 := by
      funext i
      exact memset_apply (by omega) (by have := i.isLt; omega)
    have hvn : A.view s'.mem (va / 4096) = none := (PTree.view_eq_none hv).2 hnone
    rw [hview₂, hzero] at hview
    rw [if_neg (by decide), wp_pure]
    refine ⟨A', ⟨huvm, htop, hkr.trans (hk₃.mono fun b hb => Or.inr (Or.inr hb)), ?_⟩, ?_,
      fun _ => ⟨hva, hlk⟩, fun hr => absurd hr hne, hpath⟩
    · rw [hview]
      exact faults_update hvn (by simp only [pages]; omega)
    · rw [hview]
      exact contents_fault hvn

/-- The pages at the top are not for the user. -/
def TopHidden (A : PTree) : Prop :=
  ∀ k pa fl, topVpn ≤ k → A.ent 0 k = .leaf pa fl → fl &&& pteU = 0

theorem TopHidden.of_sameTop (h : TopHidden A) (ht : A.SameTop A') : TopHidden A' := by
  intro k pa fl hk he
  rw [ht.top k hk] at he
  exact h k pa fl hk he

/-- A user address is that of a user page. -/
theorem Uvm.userAddr_ne_zero (h : Uvm s R rest A) (hh : TopHidden A) {v : ℕ}
    (hr : A.userAddr (4096 * v) ≠ 0) :
    v < topVpn ∧ ∃ fl, A.lookup v = some (A.userAddr (4096 * v), fl) ∧ fl &&& pteU ≠ 0 := by
  unfold PTree.userAddr at hr ⊢
  rw [Nat.mul_div_cancel_left _ (by omega), Nat.mul_mod_right] at hr ⊢
  cases hl : A.lookup v with
  | none =>
    rw [hl] at hr
    exact absurd rfl hr
  | some x =>
    obtain ⟨pa, fl⟩ := x
    rw [hl] at hr
    dsimp only at hr ⊢
    have hfl : ¬fl &&& pteU = 0 := fun hc => hr (if_pos hc)
    rw [if_neg hfl, Nat.add_zero]
    refine ⟨?_, fl, rfl, hfl⟩
    by_contra hv
    rw [PTree.lookup_eq_some] at hl
    rcases hl with ⟨b, he, _⟩ | ⟨_, he⟩
    · have := PTree.user_one.1 (h.huge _ _ _ he)
      omega
    · exact hfl (hh v pa fl (by omega) he)

/-- `walkaddr` finds nothing for a page that is mapped : it is not for the user. -/
theorem Uvm.denied_of_userAddr (h : Uvm s R rest A) {v perm : ℕ} (hv : v < topVpn)
    (hne : A.lookup v ≠ none) (hr : A.userAddr (4096 * v) = 0) :
    Denied (A.view s.mem) v perm := by
  obtain ⟨⟨pa, fl⟩, hl⟩ := Option.ne_none_iff_exists'.1 hne
  obtain ⟨L, b, hb, h1, _⟩ := PTree.lookup_block hl hv h.huge
  have hpos := (h.owns.mem_own (Or.inr hb)).2.1
  refine ⟨fl, _, by rw [PTree.view_of_lt hv, hl, Option.map_some], Or.inl ?_⟩
  unfold PTree.userAddr at hr
  rw [Nat.mul_div_cancel_left _ (by omega), hl] at hr
  dsimp only at hr
  by_contra hfl
  rw [if_neg hfl] at hr
  omega

theorem useraddr_spec {p : Proc} {v : ℕ} (perm : ℕ) (h : Uvm s R rest A) (hp : p.pagetable = A.root)
    (hsz : p.sz ≤ trapframe) (hh : TopHidden A) :
    wp (useraddr p A.root (4096 * v)) (fun r s' => ∃ A',
      UserStep R rest (pages p.sz) s A s' A' ∧
      contents (A'.view s'.mem) = contents (A.view s.mem) ∧
      (r ≠ 0 → v < topVpn ∧ ∃ fl, A'.lookup v = some (r, fl)) ∧
      (r = 0 → Refused (pages p.sz) (A'.view s'.mem) s' v perm)) noPanic s := by
  have hpages := pages_le hsz
  have hwalk : wp (walkaddr A.root (4096 * v)) (fun r s' => s' = s ∧
      (r ≠ 0 → v < topVpn ∧ ∃ fl, A.lookup v = some (r, fl)) ∧
      (r = 0 → v < topVpn → A.lookup v ≠ none → Denied (A.view s.mem) v perm)) noPanic s := by
    by_cases hva : 4096 * v < 2 ^ 38
    · refine wp_post (walkaddr_spec h hva) ?_
      rintro r s' ⟨rfl, rfl⟩
      refine ⟨rfl, fun hr => ?_, fun hr hv hne => ?_⟩
      · obtain ⟨hv, fl, hl, _⟩ := h.userAddr_ne_zero hh hr
        exact ⟨hv, fl, hl⟩
      · exact h.denied_of_userAddr hv hne hr
    · rw [walkaddr, if_pos (not_lt.1 hva), wp_pure]
      refine ⟨rfl, fun hr => absurd rfl hr, fun _ hv => ?_⟩
      simp only [topVpn] at hv
      omega
  rw [useraddr, wp_bind]
  refine wp_post hwalk ?_
  rintro r s' ⟨rfl, hr, hdeny⟩
  rw [wp_ite, wp_pure]
  refine ⟨fun hr0 => ?_, fun hne => ⟨A, .refl h, rfl, hr, fun h0 => absurd h0 hne⟩⟩
  refine wp_post (vmfault_spec _ h hp hsz) ?_
  rintro r' s'' ⟨A', hstep, hc, hr', hr0', -⟩
  rw [Nat.mul_div_cancel_left _ (by omega)] at hr' hr0'
  refine ⟨A', hstep, hc, fun hne => ?_, fun h0 => ?_⟩
  · obtain ⟨hlt, hl⟩ := hr' hne
    simp only [trapframe, trampoline, maxVa, pgSize] at hsz
    exact ⟨by simp only [topVpn]; omega, 23, hl⟩
  · rcases hr0' h0 with hle | hl | hex
    · left
      simp only [pages]
      omega
    · by_cases hv : pages p.sz ≤ v
      · exact Or.inl hv
      · exact Or.inr (Or.inl ((hdeny hr0 (by omega) hl).of_faults hstep.faults))
    · exact Or.inr (Or.inr hex)

/-! ## Writing a page -/

/-- A write into the frame of a user page changes the view of that page only. -/
theorem Owns.store_user {own frame : Set (ℕ × ℕ)} (hown : Owns s R own frame)
    (hsub : A.leaves ⊆ own)
    (hinj : ∀ L k k' pa, A.OwnLeaf L k pa → A.OwnLeaf L k' pa → k = k')
    (hhuge : ∀ k pa fl, A.ent 1 k = .leaf pa fl → PTree.User 1 k) {v pa fl : ℕ} {m : Mem}
    (hv : v < topVpn) (hl : A.lookup v = some (pa, fl))
    (hm : ∀ x, x < pa ∨ pa + 4096 ≤ x → m x = s.mem x) :
    Owns (s.setMem m) R own frame ∧ Keeps (own \ A.leaves ∪ frame) s (s.setMem m) ∧
      A.view m = Function.update (A.view s.mem) v (some (fl, fun i => m (pa + i))) := by
  obtain ⟨L, b, hb, h1, h2⟩ := PTree.lookup_block hl hv hhuge
  have hmb : Set.EqOn m s.mem (span 4096 (b, 9 * L))ᶜ := by
    intro x hx
    simp only [Set.mem_compl_iff, mem_span, not_and, not_lt] at hx
    exact hm x (by omega)
  obtain ⟨hown', hk⟩ := hown.store_block (hsub hb) hmb
  refine ⟨hown', hk.mono (Set.union_subset_union_left _ fun c hc => ⟨hc.1, ?_⟩), ?_⟩
  · rintro rfl
    exact hc.2 hb
  funext v'
  by_cases hvv : v' = v
  · subst hvv
    rw [Function.update_self, PTree.view_of_lt hv, hl, Option.map_some]
  · rw [Function.update_of_ne hvv]
    refine PTree.view_congr (fun _ => rfl) fun pa' fl' hv' hl' i hi => hm _ ?_
    have := PTree.lookup_apart hown hsub hinj hhuge hv hv' (Ne.symm hvv) hl hl'
    omega

theorem Uvm.store_user (h : Uvm s R rest A) {v pa fl : ℕ} {m : Mem} (hv : v < topVpn)
    (hl : A.lookup v = some (pa, fl)) (hm : ∀ x, x < pa ∨ pa + 4096 ≤ x → m x = s.mem x) :
    Uvm (s.setMem m) R rest A ∧ Keeps rest s (s.setMem m) ∧
      A.view m = Function.update (A.view s.mem) v (some (fl, fun i => m (pa + i))) := by
  obtain ⟨hown, hk, hview⟩ := h.owns.store_user Set.subset_union_right h.inj h.huge hv hl hm
  have htab : Keeps A.tables s (s.setMem m) := hk.mono fun c hc => Or.inl ⟨Or.inl hc, fun hcl =>
    Set.disjoint_left.1 h.pt.owns.apart hc (Or.inl hcl)⟩
  exact ⟨of_owns hown h htab, hk.mono Set.subset_union_right, hview⟩

theorem UserStep.of_store {v pa fl : ℕ} {m : Mem} (h : Uvm (s.setMem m) R rest A)
    (hk : Keeps rest s (s.setMem m))
    (hv : A.view s.mem v = some (fl, fun i : Fin 4096 => s.mem (pa + i)))
    (hview : A.view m = Function.update (A.view s.mem) v (some (fl, fun i => m (pa + i)))) :
    UserStep R rest n s A (s.setMem m) A := by
  refine ⟨h, .refl _, hk, fun v' => Or.inl ?_⟩
  rw [Phys.setMem_mem, hview]
  by_cases hvv : v' = v
  · rw [hvv, Function.update_self, hv, Option.map_some, Option.map_some]
  · rw [Function.update_of_ne hvv]

/-! ## `copyin` and `copyout` -/

theorem storeBytes_nil (C : Mem) (a : ℕ) : storeBytes C a [] = C := by
  funext x
  exact if_neg (by simp)

theorem storeBytes_append (C : Mem) (a : ℕ) (l l' : List UInt8) :
    storeBytes (storeBytes C a l) (a + l.length) l' = storeBytes C a (l ++ l') := by
  funext x
  simp only [storeBytes, List.length_append]
  by_cases h1 : a + l.length ≤ x ∧ x < a + l.length + l'.length
  · rw [if_pos h1, if_pos (by omega), List.getD_append_right _ _ _ _ (by omega)]
    congr 1
    omega
  · rw [if_neg h1]
    by_cases h2 : a ≤ x ∧ x < a + l.length
    · rw [if_pos h2, if_pos (by omega), List.getD_append _ _ _ _ (by omega)]
    · rw [if_neg h2, if_neg (by omega)]

theorem loadBytes_append (C : Mem) (a n k : ℕ) :
    loadBytes C a n ++ loadBytes C (a + n) k = loadBytes C a (n + k) := by
  simp only [loadBytes, List.range_add, List.map_append, List.map_map]
  congr 1
  refine List.map_congr_left fun i _ => ?_
  simp [Nat.add_assoc]

theorem loadBytes_length (C : Mem) (a n : ℕ) : (loadBytes C a n).length = n := by
  simp [loadBytes]

theorem loadBytes_getElem? {m : Mem} {p j n : ℕ} (hj : j < n) :
    (loadBytes m p n)[j]? = some (m (p + j)) := by
  rw [loadBytes, List.getElem?_map, List.getElem?_range hj, Option.map_some]

theorem loadBytes_congr {m m' : Mem} {p k n : ℕ} (h : ∀ j < n, m (p + j) = m' (k + j)) :
    loadBytes m p n = loadBytes m' k n :=
  List.map_congr_left fun j hj => h j (List.mem_range.1 hj)

/-- What a write into the frame of a page does to the contents. -/
theorem contents_store {V : View} {m : Mem} {v pa fl off : ℕ} {data : List UInt8}
    (hV : V v = some (fl, fun i : Fin 4096 => m (pa + i))) (hoff : off + data.length ≤ 4096) :
    contents (Function.update V v (some (fl, fun i =>
      storeBytes m (pa + off) data (pa + i)))) = storeBytes (contents V) (4096 * v + off) data := by
  funext va
  by_cases hc : va / 4096 = v
  · simp only [contents, storeBytes, hc, Function.update_self, hV]
    by_cases hin : 4096 * v + off ≤ va ∧ va < 4096 * v + off + data.length
    · rw [if_pos hin, if_pos (by omega)]
      congr 1
      omega
    · rw [if_neg hin, if_neg (by omega)]
  · have hV' : contents (Function.update V v (some (fl, fun i =>
        storeBytes m (pa + off) data (pa + i)))) va = contents V va := by
      simp only [contents, Function.update_of_ne hc]
    rw [hV']
    exact (if_neg (by omega)).symm

theorem contents_page {V : View} {m : Mem} {v pa fl off : ℕ}
    (hV : V v = some (fl, fun i : Fin 4096 => m (pa + i))) (hoff : off < 4096) :
    contents V (4096 * v + off) = m (pa + off) := by
  simp only [contents, show (4096 * v + off) / 4096 = v by omega, hV,
    show (4096 * v + off) % 4096 = off by omega]

theorem copyoutLoop_spec {p : Proc} (hp : p.pagetable = A.root) (hsz : p.sz ≤ trapframe) :
    ∀ {turns dstva : ℕ} {src : List UInt8} {s : Phys} {A' : PTree}, A'.root = A.root →
    Uvm s R rest A' → TopHidden A' → src.length ≤ turns →
    (∀ v, pages p.sz ≤ v → A'.view s.mem v = none) →
    wp (copyoutLoop p A.root turns dstva src) (fun r s' => ∃ A'' k,
      UserStep R rest (pages p.sz) s A' s' A'' ∧ k ≤ src.length ∧
      ((r = 0 ∧ k = src.length) ∨ (r = -1 ∧ k < src.length ∧
        Refused (pages p.sz) (A''.view s'.mem) s' ((dstva + k) / 4096) pteW)) ∧
      (0 < k → dstva + k ≤ 4096 * pages p.sz) ∧
      contents (A''.view s'.mem) = storeBytes (contents (A'.view s.mem)) dstva (src.take k))
      noPanic s
  | 0, dstva, src, s, A', hroot, h, hh, hlen, hbelow => by
    obtain rfl : src = [] := List.length_eq_zero_iff.1 (by omega)
    rw [copyoutLoop, wp_pure]
    exact ⟨A', 0, .refl h, le_rfl, Or.inl ⟨rfl, rfl⟩, by omega, by
      rw [List.take_nil, storeBytes_nil]⟩
  | turns + 1, dstva, src, s, A', hroot, h, hh, hlen, hbelow => by
    -- a failure before this page is written
    have hfail : ∀ {s₁ A₁}, 0 < src.length → UserStep R rest (pages p.sz) s A' s₁ A₁ →
        contents (A₁.view s₁.mem) = contents (A'.view s.mem) →
        Refused (pages p.sz) (A₁.view s₁.mem) s₁ (dstva / 4096) pteW →
        ∃ A'' k, UserStep R rest (pages p.sz) s A' s₁ A'' ∧ k ≤ src.length ∧
          (((-1 : ℤ) = 0 ∧ k = src.length) ∨ ((-1 : ℤ) = -1 ∧ k < src.length ∧
            Refused (pages p.sz) (A''.view s₁.mem) s₁ ((dstva + k) / 4096) pteW)) ∧
          (0 < k → dstva + k ≤ 4096 * pages p.sz) ∧
          contents (A''.view s₁.mem) = storeBytes (contents (A'.view s.mem)) dstva
            (src.take k) := fun {s₁ A₁} hpos hs hc href =>
      ⟨A₁, 0, hs, by omega, Or.inr ⟨rfl, hpos, href⟩, by omega, by
        rw [List.take_zero, storeBytes_nil, hc]⟩
    rw [copyoutLoop, wp_ite, wp_pure]
    refine ⟨fun hpos => ?_, fun hz => ?_⟩
    swap
    · obtain rfl : src = [] := List.length_eq_zero_iff.1 (by omega)
      exact ⟨A', 0, .refl h, le_rfl, Or.inl ⟨rfl, rfl⟩, by omega, by
        rw [List.take_nil, storeBytes_nil]⟩
    have hdown : pgRoundDown dstva = 4096 * (dstva / 4096) := Nat.mul_comm _ _
    dsimp only
    rw [hdown, wp_ite, wp_pure]
    refine ⟨fun hge => hfail hpos (.refl h) rfl (Or.inl ?_), fun hva => ?_⟩
    · have := pages_le hsz
      simp only [topVpn] at this
      simp only [maxVa] at hge
      omega
    rw [wp_bind, ← hroot]
    refine wp_post (useraddr_spec pteW h (hp.trans hroot.symm) hsz hh) ?_
    rintro pa s₁ ⟨A₁, hstep, hcont, hpa, hpa0⟩
    rw [wp_ite, wp_pure]
    refine ⟨fun h0 => hfail hpos hstep hcont (hpa0 h0), fun hne => ?_⟩
    obtain ⟨hv, fl, hl⟩ := hpa hne
    have hv' := hv
    simp only [topVpn] at hv'
    rw [wp_bind, ← hstep.top.root]
    have hva1 : 4096 * (dstva / 4096) / 4096 = dstva / 4096 := Nat.mul_div_cancel_left _ (by omega)
    refine wp_post (walk_mapped_spec hstep.uvm (by omega) (by rw [hva1]; exact hl)) ?_
    rintro pte s₂ ⟨rfl, hpte, hmask⟩
    rw [if_neg hpte, wp_bind, wp_load64, wp_ite, wp_pure]
    have hview₁ : A₁.view s₂.mem (dstva / 4096) =
        some (fl, fun i : Fin 4096 => s₂.mem (pa + i)) := by
      rw [PTree.view_of_lt hv, hl, Option.map_some]
    refine ⟨fun hw => hfail hpos hstep hcont (Or.inr (Or.inl ⟨fl, _, hview₁, Or.inr ?_⟩)),
      fun _ => ?_⟩
    · rw [← hmask pteW (by decide)]
      exact hw
    have hoff : dstva - 4096 * (dstva / 4096) = dstva % 4096 := by omega
    rw [hoff, wp_bind, wp_modify]
    obtain ⟨n, hn⟩ : ∃ n, n = min (pgSize - dstva % 4096) src.length := ⟨_, rfl⟩
    simp only [pgSize] at hn
    have hnlen : (src.take n).length = n := by
      rw [List.length_take]
      omega
    rw [← hn]
    -- the bytes of this page
    obtain ⟨h₃, hk₃, hview₃⟩ := hstep.uvm.store_user
      (m := storeBytes s₂.mem (pa + dstva % 4096) (src.take n)) hv hl
      fun x hx => if_neg (by omega)
    have hstep₃ : UserStep R rest (pages p.sz) s₂ A₁ _ A₁ := .of_store h₃ hk₃ hview₁ hview₃
    have hcont₃ : contents (A₁.view (storeBytes s₂.mem (pa + dstva % 4096) (src.take n))) =
        storeBytes (contents (A'.view s.mem)) dstva (src.take n) := by
      rw [hview₃, contents_store hview₁ (by omega), hcont]
      congr 1
      omega
    have hvp : dstva / 4096 < pages p.sz := by
      by_contra hc
      rw [hstep.faults.below hbelow (not_lt.1 hc)] at hview₁
      cases hview₁
    have htot := hstep.trans hstep₃
    rw [hstep.top.root, hroot, wrap64, Nat.mod_eq_of_lt (by simp only [pgSize]; omega)]
    refine wp_post (copyoutLoop_spec hp hsz (hstep.top.root.trans hroot) h₃
      (hh.of_sameTop hstep.top) (by rw [List.length_drop]; omega)
      fun v hv => htot.faults.below hbelow hv) ?_
    rintro r s₄ ⟨A₄, k, hstep₄, hk, hr, hend, hcont₄⟩
    rw [List.length_drop] at hk hr
    refine ⟨A₄, n + k, htot.trans hstep₄, by omega, ?_, ?_, ?_⟩
    · rcases hr with ⟨rfl, hkk⟩ | ⟨rfl, hkk, href⟩
      · exact Or.inl ⟨rfl, by omega⟩
      · refine Or.inr ⟨rfl, by omega, ?_⟩
        -- the rest starts at the next page
        rw [show dstva + (n + k) = 4096 * (dstva / 4096) + pgSize + k by
          simp only [pgSize]; omega]
        exact href
    · intro _
      simp only [pgSize] at hend
      omega
    · rw [hcont₄, Phys.setMem_mem, hcont₃]
      rcases Nat.eq_zero_or_pos k with rfl | hkpos
      · rw [List.take_zero, storeBytes_nil, Nat.add_zero]
      · rw [List.take_add, ← storeBytes_append, hnlen]
        congr 1
        simp only [pgSize]
        omega

theorem copyout_spec {p : Proc} {dstva : ℕ} {src : List UInt8} (h : Uvm s R rest A)
    (hp : p.pagetable = A.root) (hsz : p.sz ≤ trapframe) (hh : TopHidden A)
    (hbelow : ∀ v, pages p.sz ≤ v → A.view s.mem v = none) :
    wp (copyout p A.root dstva src) (fun r s' => ∃ A' k,
      UserStep R rest (pages p.sz) s A s' A' ∧ k ≤ src.length ∧
      ((r = 0 ∧ k = src.length) ∨ (r = -1 ∧ k < src.length ∧
        Refused (pages p.sz) (A'.view s'.mem) s' ((dstva + k) / 4096) pteW)) ∧
      (0 < k → dstva + k ≤ 4096 * pages p.sz) ∧
      contents (A'.view s'.mem) = storeBytes (contents (A.view s.mem)) dstva (src.take k))
      noPanic s :=
  copyoutLoop_spec hp hsz rfl h hh le_rfl hbelow

theorem copyinLoop_spec {p : Proc} (hp : p.pagetable = A.root) (hsz : p.sz ≤ trapframe) :
    ∀ {turns srcva len : ℕ} {s : Phys} {A' : PTree}, A'.root = A.root →
    Uvm s R rest A' → TopHidden A' → len ≤ turns →
    (∀ v, pages p.sz ≤ v → A'.view s.mem v = none) →
    wp (copyinLoop p A.root turns srcva len) (fun r s' => ∃ A'',
      UserStep R rest (pages p.sz) s A' s' A'' ∧
      contents (A''.view s'.mem) = contents (A'.view s.mem) ∧ r.2.length ≤ len ∧
      ((r.1 = 0 ∧ r.2.length = len) ∨ (r.1 = -1 ∧ r.2.length < len ∧
        Refused (pages p.sz) (A''.view s'.mem) s' ((srcva + r.2.length) / 4096) pteU)) ∧
      (0 < r.2.length → srcva + r.2.length ≤ 4096 * pages p.sz) ∧
      r.2 = loadBytes (contents (A'.view s.mem)) srcva r.2.length) noPanic s
  | 0, srcva, len, s, A', hroot, h, hh, hlen, hbelow => by
    obtain rfl : len = 0 := by omega
    rw [copyinLoop, wp_pure]
    exact ⟨A', .refl h, rfl, le_rfl, Or.inl ⟨rfl, rfl⟩, by simp, rfl⟩
  | turns + 1, srcva, len, s, A', hroot, h, hh, hlen, hbelow => by
    rw [copyinLoop, wp_ite, wp_pure]
    refine ⟨fun hpos => ?_, fun hz => ?_⟩
    swap
    · obtain rfl : len = 0 := by omega
      exact ⟨A', .refl h, rfl, le_rfl, Or.inl ⟨rfl, rfl⟩, by simp, rfl⟩
    have hdown : pgRoundDown srcva = 4096 * (srcva / 4096) := Nat.mul_comm _ _
    dsimp only
    rw [hdown, wp_bind, ← hroot]
    refine wp_post (useraddr_spec pteU h (hp.trans hroot.symm) hsz hh) ?_
    rintro pa s₁ ⟨A₁, hstep, hcont, hpa, hpa0⟩
    rw [wp_ite, wp_pure]
    refine ⟨fun h0 => ⟨A₁, hstep, hcont, by simp, Or.inr ⟨rfl, hpos, hpa0 h0⟩, by simp, rfl⟩,
      fun hne => ?_⟩
    obtain ⟨hv, fl, hl⟩ := hpa hne
    have hv' := hv
    simp only [topVpn] at hv'
    have hview₁ : A₁.view s₁.mem (srcva / 4096) =
        some (fl, fun i : Fin 4096 => s₁.mem (pa + i)) := by
      rw [PTree.view_of_lt hv, hl, Option.map_some]
    have hvp : srcva / 4096 < pages p.sz := by
      by_contra hc
      rw [hstep.faults.below hbelow (not_lt.1 hc)] at hview₁
      cases hview₁
    have hoff : srcva - 4096 * (srcva / 4096) = srcva % 4096 := by omega
    obtain ⟨n, hn⟩ : ∃ n, n = min (pgSize - srcva % 4096) len := ⟨_, rfl⟩
    simp only [pgSize] at hn
    -- the bytes of this page
    have hbytes : loadBytes s₁.mem (pa + srcva % 4096) n =
        loadBytes (contents (A'.view s.mem)) srcva n := by
      refine List.map_congr_left fun i hi => ?_
      have hi' := List.mem_range.1 hi
      rw [← hcont, Nat.add_assoc, ← contents_page hview₁ (by omega)]
      congr 1
      omega
    rw [hoff, wp_bind, wp_get, wp_bind, ← hn, hbytes, hroot, wrap64,
      Nat.mod_eq_of_lt (by simp only [pgSize]; omega)]
    refine wp_post (copyinLoop_spec hp hsz (hstep.top.root.trans hroot) hstep.uvm
      (hh.of_sameTop hstep.top) (by omega) fun v hv => hstep.faults.below hbelow hv) ?_
    rintro ⟨r, tail⟩ s₂ ⟨A₂, hstep₂, hcont₂, hlen₂, hr, hend, htail⟩
    dsimp only at hlen₂ hr hend htail ⊢
    rw [wp_pure]
    refine ⟨A₂, hstep.trans hstep₂, hcont₂.trans hcont, ?_, ?_, ?_, ?_⟩ <;>
      dsimp only <;> rw [List.length_append, loadBytes_length]
    · omega
    · rcases hr with ⟨rfl, hk⟩ | ⟨rfl, hk, href⟩
      · exact Or.inl ⟨rfl, by omega⟩
      · refine Or.inr ⟨rfl, by omega, ?_⟩
        rw [show srcva + (n + tail.length) = 4096 * (srcva / 4096) + pgSize + tail.length by
          simp only [pgSize]; omega]
        exact href
    · intro _
      simp only [pgSize] at hend
      omega
    · rw [← loadBytes_append]
      rcases Nat.eq_zero_or_pos tail.length with hz | hkpos
      · rw [List.length_eq_zero_iff.1 hz]
        rfl
      · rw [← hcont, show srcva + n = 4096 * (srcva / 4096) + pgSize by simp only [pgSize]; omega,
          ← htail]

theorem copyin_spec {p : Proc} {srcva len : ℕ} (h : Uvm s R rest A)
    (hp : p.pagetable = A.root) (hsz : p.sz ≤ trapframe) (hh : TopHidden A)
    (hbelow : ∀ v, pages p.sz ≤ v → A.view s.mem v = none) :
    wp (copyin p A.root srcva len) (fun r s' => ∃ A',
      UserStep R rest (pages p.sz) s A s' A' ∧
      contents (A'.view s'.mem) = contents (A.view s.mem) ∧ r.2.length ≤ len ∧
      ((r.1 = 0 ∧ r.2.length = len) ∨ (r.1 = -1 ∧ r.2.length < len ∧
        Refused (pages p.sz) (A'.view s'.mem) s' ((srcva + r.2.length) / 4096) pteU)) ∧
      (0 < r.2.length → srcva + r.2.length ≤ 4096 * pages p.sz) ∧
      r.2 = loadBytes (contents (A.view s.mem)) srcva r.2.length) noPanic s :=
  copyinLoop_spec hp hsz rfl h hh le_rfl hbelow

end Fault

end Xv6Plus
