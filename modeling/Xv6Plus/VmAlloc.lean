import Xv6Plus.VmUnmap

/-!
# Growing user memory

`mappages` adds a page to the view, with the bytes its frame holds. On top of it `uvmalloc`
adds a range of cleared pages, and if the memory runs out takes back what it added, so that
the view is the old one again.
-/

namespace Xv6Plus

/-- Permissions that make an entry a leaf. -/
structure PermOk (perm : ℕ) : Prop where
  lt : perm < 1024
  rwx : perm &&& 14 ≠ 0

theorem PermOk.leafOk {perm L pa : ℕ} (h : PermOk perm) (hal : pa % (4096 * 512 ^ L) = 0)
    (hlt : pa < 2 ^ 64) : LeafOk L pa (perm ||| pteV) where
  aligned := hal
  lt := hlt
  flags_lt := Nat.or_lt_two_pow (n := 10) h.lt (by norm_num)
  valid := by
    intro h0
    have := congrArg (Nat.testBit · 0) h0
    simp at this
  rwx := by
    intro h0
    refine h.rwx (Nat.eq_of_testBit_eq fun i => ?_)
    have hi := congrArg (Nat.testBit · i) h0
    simp only [Nat.testBit_and, Nat.testBit_or, Nat.zero_testBit, Bool.and_eq_false_imp,
      Bool.or_eq_true] at hi ⊢
    exact fun hb => hi (Or.inl hb)

section Map

variable {s : Phys} {R : Set ℕ} {rest : Set (ℕ × ℕ)} {A : PTree} {w k pa perm : ℕ}

/-- After mapping the block `(pa, 9 * L)` from the page `v` on : a page or a huge page more,
with `view'` as the view, or tables more. -/
def UvmMapPost (s : Phys) (R : Set ℕ) (rest : Set (ℕ × ℕ)) (A : PTree) (L v pa fl : ℕ)
    (view' : ℕ → Option (ℕ × (Fin 4096 → UInt8))) (r : ℤ) (s' : Phys) : Prop :=
  ∃ A', A.SameTop A' ∧ Keeps (A.leaves ∪ insert (pa, 9 * L) rest) s s' ∧
    (∀ L k, 0 < L → k ≠ v / 512 ^ L → A'.ent L k = A.ent L k) ∧
    ((r = -1 ∧ s'.free = ∅ ∧ Uvm s' R (insert (pa, 9 * L) rest) A' ∧
        A'.view s'.mem = A.view s.mem ∧ (∀ u, A'.lookup u = A.lookup u) ∧
        ∀ k b f, A'.ent 1 k = .leaf b f ↔ A.ent 1 k = .leaf b f) ∨
      (r = 0 ∧ Uvm s' R rest A' ∧ A'.view s'.mem = view' ∧ A'.lookup v = some (pa, fl) ∧
        (∀ u, u / 512 ^ L ≠ v / 512 ^ L → A'.lookup u = A.lookup u) ∧
        (L = 0 → ∀ k b f, A'.ent 1 k = .leaf b f ↔ A.ent 1 k = .leaf b f) ∧
        A'.ent L (v / 512 ^ L) = .leaf pa fl))

theorem PTree.Grows.sameTop {A A' : PTree} (h : A.Grows A') (hok : A'.Ok) : A.SameTop A' := by
  refine ⟨h.root, fun k _ => ?_⟩
  rcases h.ent 0 k with he | ⟨_, t, ht⟩
  · exact he
  · exact absurd ht (hok.bottom k t)

theorem PTree.lookup_none (h : A.lookup w = none) (hok : A.Ok) :
    A.ent 0 w = .absent ∧ ∀ b f, A.ent 1 (w / 512) ≠ .leaf b f := by
  have h1 : ∀ b f, A.ent 1 (w / 512) ≠ .leaf b f := by
    intro b f he
    rw [PTree.lookup_huge he] at h
    cases h
  refine ⟨?_, h1⟩
  cases he : A.ent 0 w with
  | absent => rfl
  | table t => exact absurd he (hok.bottom w t)
  | leaf b f =>
    rw [PTree.lookup_page h1 he] at h
    cases h

theorem Uvm.mappages_spec (h : Uvm s R (insert (pa, 0) rest) A) (hnot : (pa, 0) ∉ rest)
    (hw : w < topVpn) (hnone : A.lookup w = none) (hperm : PermOk perm) :
    wp (mappages A.root (4096 * w) 4096 pa perm)
      (UvmMapPost s R rest A 0 w pa (perm ||| pteV) (Function.update (A.view s.mem) w
        (some (perm ||| pteV, fun i => s.mem (pa + i))))) noPanic s := by
  obtain ⟨habs, hup⟩ := PTree.lookup_none hnone h.pt.ok
  have hpg := h.owns.symm.page (Set.mem_insert _ _)
  have hl : LeafOk 0 pa (perm ||| pteV) := hperm.leafOk (by omega) (by omega)
  have hv : 4096 * w / 4096 = w := Nat.mul_div_cancel_left _ (by omega)
  refine wp_post (Xv6Plus.mappages_spec h.pt (by simp only [topVpn] at hw; omega) (by omega) hl
    (by rw [hv]; exact habs) (by rw [hv]; exact hup)) ?_
  rintro r s' ⟨A₁, hok, hg, hsame, hk, hr⟩
  have hpath : ∀ L k, 0 < L → k ≠ w / 512 ^ L → A₁.ent L k = A.ent L k := fun L k _ hk =>
    hsame L k (Or.inr (by rw [hv]; exact hk))
  rcases hr with ⟨rfl, hfree, hpt⟩ | ⟨rfl, hpt⟩
  · have huvm := h.grows hg hpt
    refine ⟨A₁, hg.sameTop hok, hk, hpath, Or.inl ⟨rfl, hfree, huvm, ?_, fun _ => hg.lookup,
      fun _ _ _ => hg.leaf_iff⟩⟩
    funext v
    exact PTree.view_congr (fun _ => hg.lookup)
      (PTree.lookup_keeps h.huge (hk.mono Set.subset_union_left) v)
  · rw [hv, pow_zero, Nat.div_one] at hpt
    have habs₁ : A₁.ent 0 w = .absent := by
      rw [hsame 0 _ (Or.inl le_rfl), habs]
    have huvm := h.add_leaf (L := 0) hnot hg hok habs₁ (by omega) (PTree.user_zero.2 hw) hpt
    have hlk : (A₁.put 0 w (.leaf pa (perm ||| pteV)) PTree.noKids).lookup w =
        some (pa, perm ||| pteV) := by
      refine PTree.lookup_page (fun b f he => ?_) PTree.put_same
      rw [PTree.put_other (by omega) (by omega)] at he
      exact hup b f (hg.leaf_iff.1 he)
    refine ⟨A₁.put 0 w (.leaf pa (perm ||| pteV)) PTree.noKids, ⟨hg.root, fun k hk => ?_⟩, hk,
      fun L k hL hk => ?_, Or.inr ⟨rfl, huvm, ?_, hlk, fun u hu => ?_, fun _ k b f => ?_, ?_⟩⟩
    · rw [PTree.put_other (by omega) (by omega)]
      exact (hg.sameTop hok).top k hk
    · rw [PTree.put_other (by omega) (by omega)]
      exact hpath L k hL hk
    · funext v
      by_cases hvw : v = w
      · subst hvw
        rw [Function.update_self, PTree.view_of_lt hw, hlk, Option.map_some]
        congr 2
        funext i
        exact hk.byte (Or.inr (Set.mem_insert _ _)) (by have := i.isLt; omega)
      · rw [Function.update_of_ne hvw]
        refine PTree.view_congr (fun _ => ?_)
          (PTree.lookup_keeps h.huge (hk.mono Set.subset_union_left) v)
        rw [PTree.lookup_set_page_ne hvw, hg.lookup]
    · rw [pow_zero, Nat.div_one, Nat.div_one] at hu
      rw [PTree.lookup_set_page_ne hu, hg.lookup]
    · rw [PTree.put_other (by omega) (by omega), hg.leaf_iff]
    · rw [pow_zero, Nat.div_one]
      exact PTree.put_same

theorem Uvm.mappagesHuge_spec (h : Uvm s R (insert (pa, 9) rest) A) (hnot : (pa, 9) ∉ rest)
    (hk : 512 * k + 512 ≤ topVpn) (habs : A.ent 1 k = .absent) (hperm : PermOk perm) :
    wp (mappagesFlags A.root (2097152 * k) 2097152 pa perm true)
      (UvmMapPost s R rest A 1 (512 * k) pa (perm ||| pteV) fun v => if v / 512 = k then
        some (perm ||| pteV, fun i => s.mem (pa + 4096 * (v % 512) + i)) else A.view s.mem v)
      noPanic s := by
  have hal := h.owns.symm.mem_own (Set.mem_insert _ _)
  have hl : LeafOk 1 pa (perm ||| pteV) := by
    refine hperm.leafOk (Nat.mod_eq_zero_of_dvd hal.1) ?_
    norm_num at hal
    omega
  have hv : 2097152 * k / 4096 / 512 = k := by omega
  have hu : PTree.User 1 k := PTree.user_one.2 hk
  refine wp_post (Xv6Plus.mappagesHuge_spec h.pt (by simp only [topVpn] at hk; omega) (by omega) hl
    (by rw [hv]; exact habs)) ?_
  rintro r s' ⟨A₁, hok, hg, hsame, hkeep, hr⟩
  have hkv : 512 * k / 512 = k := Nat.mul_div_cancel_left _ (by omega)
  have hdiv : 2097152 * k / 4096 = 512 * k := by omega
  have hpath : ∀ L k', 0 < L → k' ≠ 512 * k / 512 ^ L → A₁.ent L k' = A.ent L k' :=
    fun L k' _ hk' => hsame L k' (Or.inr (by rw [hdiv]; exact hk'))
  rcases hr with ⟨rfl, hfree, hpt⟩ | ⟨rfl, hpt⟩
  · have huvm := h.grows hg hpt
    refine ⟨A₁, hg.sameTop hok, hkeep, hpath, Or.inl ⟨rfl, hfree, huvm, ?_, fun _ => hg.lookup,
      fun _ _ _ => hg.leaf_iff⟩⟩
    funext v
    exact PTree.view_congr (fun _ => hg.lookup)
      (PTree.lookup_keeps h.huge (hkeep.mono Set.subset_union_left) v)
  · rw [pow_one, hv] at hpt
    have habs₁ : A₁.ent 1 k = .absent := by
      rw [hsame 1 _ (Or.inl le_rfl), habs]
    have hold : ∀ q, A₁.ent 1 k ≠ .table q := by
      rw [habs₁]
      exact fun _ => Entry.noConfusion
    have huvm := h.add_leaf (L := 1) hnot hg hok habs₁ (by omega) hu hpt
    refine ⟨A₁.put 1 k (.leaf pa (perm ||| pteV)) PTree.noKids, ⟨hg.root, fun k' hk' => ?_⟩,
      hkeep, fun L k' hL hk' => ?_, Or.inr ⟨rfl, huvm, ?_, ?_, fun u hu => ?_, by omega, ?_⟩⟩
    · rw [PTree.put_noKids hok (by omega) hold (by omega)]
      exact (hg.sameTop hok).top k' hk'
    · rw [PTree.put_noKids hok (by omega) hold fun hc => ?_]
      · exact hpath L k' hL hk'
      · obtain ⟨rfl, rfl⟩ := hc
        exact hk' (by rw [pow_one, hkv])
    · funext v
      split_ifs with hvk
      · subst hvk
        rw [PTree.view_of_lt (by simp only [topVpn] at hk ⊢; omega),
          PTree.lookup_huge PTree.put_same, Option.map_some]
        congr 2
        funext i
        rw [Nat.add_assoc]
        refine hkeep.byte (Or.inr (Set.mem_insert _ _)) ?_
        have := i.isLt
        omega
      · refine PTree.view_congr (fun _ => ?_)
          (PTree.lookup_keeps h.huge (hkeep.mono Set.subset_union_left) v)
        rw [PTree.lookup_set_huge_ne hok hold hvk, hg.lookup]
    · rw [PTree.lookup_huge (by rw [Nat.mul_div_cancel_left _ (by omega)]; exact PTree.put_same),
        Nat.mul_mod_right, Nat.mul_zero, Nat.add_zero]
    · rw [pow_one, hkv] at hu
      rw [PTree.lookup_set_huge_ne hok hold hu, hg.lookup]
    · rw [pow_one, hkv]
      exact PTree.put_same

end Map

/-! ## `uvmalloc` -/

section Alloc

variable {s s₀ : Phys} {R : Set ℕ} {rest : Set (ℕ × ℕ)} {A A₀ : PTree}
  {lo w fl newsz xperm : ℕ}

/-- The links over the pages from `lo` to `w` are among those in `S`. -/
def PathsIn (S : Finset (ℕ × ℕ)) (lo w : ℕ) : Prop :=
  ∀ v, lo ≤ v → v < w → (2, v / 512 ^ 2) ∈ S ∧ (1, v / 512) ∈ S

/-- `A` is `A₀` with cleared pages from `lo` to `w`, where nothing was mapped. -/
structure Grown (R : Set ℕ) (rest : Set (ℕ × ℕ)) (s₀ : Phys) (A₀ : PTree) (lo w fl : ℕ) (s : Phys)
    (A : PTree) : Prop where
  uvm : Uvm s R rest A
  top : A₀.SameTop A
  keeps : Keeps rest s₀ s
  view : ∀ v, A.view s.mem v = if lo ≤ v ∧ v < w then some (fl, fun _ => 0) else A₀.view s₀.mem v
  huge : ∀ k b f, A.ent 1 k = .leaf b f ↔ A₀.ent 1 k = .leaf b f
  /-- The other pages keep their frames. -/
  lookup : ∀ v, v < lo ∨ w ≤ v → A.lookup v = A₀.lookup v

theorem Grown.refl (h : Uvm s R rest A) : Grown R rest s A w w fl s A :=
  ⟨h, .refl A, .refl _ _, fun _ => (if_neg (by omega)).symm, fun _ _ _ => Iff.rfl, fun _ _ => rfl⟩

/-- There are too few free pages for the pages from `lo` to `hi` and for tables over them. -/
def Scarce (s : Phys) (A : PTree) (lo hi : ℕ) : Prop :=
  ∀ S, A.LinksIn S → PathsIn S lo hi → s.freeCount + A.tables.ncard ≤ S.card + 1 + (hi - lo)

/-- No more than one page is left for the tables over `w`. -/
theorem Grown.scarce {hi : ℕ} (h : Grown R rest s₀ A₀ lo w fl s A) (h₀ : Uvm s₀ R rest A₀)
    (hlinks : ∀ S, A₀.LinksIn S → PathsIn S lo (w + 1) → A.LinksIn S) (hw : lo ≤ w) (hhi : w < hi)
    (hfree : s.freeCount ≤ 1) : Scarce s₀ A₀ lo hi := by
  intro S hl hS
  have hmapped : A.mapped ⊆ A₀.mapped ∪ Set.Ico lo w := by
    intro v hv
    rw [PTree.mem_mapped (m := s.mem), h.view] at hv
    by_cases hc : lo ≤ v ∧ v < w
    · exact Or.inr hc
    · rw [if_neg hc] at hv
      exact Or.inl (PTree.mem_mapped.2 hv)
  have hcard : A.mapped.ncard ≤ A₀.mapped.ncard + (w - lo) := by
    refine (Set.ncard_le_ncard hmapped (A₀.mapped_finite.union (Set.finite_Ico lo w))).trans ?_
    refine (Set.ncard_union_le _ _).trans ?_
    rw [← Finset.coe_Ico, Set.ncard_coe_finset, Nat.card_Ico]
  have ht := (hlinks S hl fun v h1 h2 => hS v h1 (by omega)).ncard_tables
  have hc := h.uvm.census
  have hc₀ := h₀.census
  omega

/-- After `uvmalloc` : the pages up to `newsz`, or the view as it was. -/
def UvmallocPost (R : Set ℕ) (rest : Set (ℕ × ℕ)) (s₀ : Phys) (A₀ : PTree) (lo newsz fl r : ℕ)
    (s' : Phys) : Prop :=
  ∃ A', Uvm s' R rest A' ∧ A₀.SameTop A' ∧ Keeps rest s₀ s' ∧
    (∀ k b f, A'.ent 1 k = .leaf b f → A₀.ent 1 k = .leaf b f) ∧
    ((r = newsz ∧ pages newsz ≤ topVpn ∧ ∀ v, A'.view s'.mem v =
        if lo ≤ v ∧ v < pages newsz then some (fl, fun _ => 0) else A₀.view s₀.mem v) ∨
      (r = 0 ∧ 0 < newsz ∧ A'.view s'.mem = A₀.view s₀.mem ∧ (∀ v, A'.lookup v = A₀.lookup v) ∧
        Scarce s₀ A₀ lo (pages newsz)))

theorem Grown.done (h : Grown R rest s₀ A₀ lo (pages newsz) fl s A)
    (hw : pages newsz ≤ topVpn) : UvmallocPost R rest s₀ A₀ lo newsz fl newsz s :=
  ⟨A, h.uvm, h.top, h.keeps, fun k b f => (h.huge k b f).1, Or.inl ⟨rfl, hw, h.view⟩⟩

/-- No more pages than the machine has were added. -/
theorem Grown.le (h : Grown R rest s₀ A₀ lo w fl s A) (hw : w ≤ topVpn) : w ≤ lo + 32768 := by
  have := h.uvm.mapped_le lo hw fun v h1 h2 => by
    rw [h.view, if_pos ⟨h1, h2⟩]
    exact Option.some_ne_none _
  omega

theorem Grown.undo (h : Grown R rest s₀ A₀ lo w fl s A) (h₀ : Uvm s₀ R rest A₀)
    (hbase : ∀ v, lo ≤ v → A₀.view s₀.mem v = none) (hlo : lo ≤ w) (hw : w ≤ topVpn)
    (hpos : 0 < newsz) (hscarce : Scarce s₀ A₀ lo (pages newsz)) :
    wp (do
        let _ ← uvmdealloc A.root (4096 * w) (4096 * lo)
        pure 0) (UvmallocPost R rest s₀ A₀ lo newsz fl) noPanic s := by
  have hpw : pages (4096 * w) = w := by
    simp only [pages]
    omega
  have hpl : pages (4096 * lo) = lo := by
    simp only [pages]
    omega
  have hns : NoStraddle A (pages (4096 * lo)) (pages (4096 * w)) := by
    intro k b f he
    have hne := h₀.huge_view ((h.huge k b f).1 he) (j := 511) (by omega)
    by_contra hc
    rw [hpl] at hc
    exact hne (hbase _ (by omega))
  rw [wp_bind]
  have hle : 4096 * w ≤ trapframe := by
    simp only [topVpn] at hw
    simp only [trapframe, trampoline, maxVa, pgSize]
    omega
  refine wp_post (uvmdealloc_spec _ h.uvm hle fun _ => Or.inr (Or.inl hns.straddling_eq)) ?_
  rintro _ s' ⟨-, A', K, hu, hcuts, hK⟩
  rw [hpw, hpl] at hns hK hu hcuts
  rw [max_eq_right hlo] at hK hu hcuts
  rw [hns.straddling_eq, Finset.coe_eq_empty] at hK
  subst hK
  rw [wp_pure]
  refine ⟨A', hu.uvm, h.top.trans hu.top, h.keeps.trans hu.keeps,
    fun k b f he => (h.huge k b f).1 (hu.sub k b f he),
    Or.inr ⟨rfl, hpos, ?_, fun v => ?_, hscarce⟩⟩
  · funext v
    rw [hu.view, h.view]
    split_ifs with hc
    · exact (hbase v hc.1).symm
    · rfl
  · by_cases hc : lo ≤ v ∧ v < w
    · -- the page was added and taken back
      have hv : v < topVpn := by omega
      rw [(PTree.view_eq_none (m := s'.mem) hv).1 (by rw [hu.view, if_pos hc]),
        (PTree.view_eq_none (m := s₀.mem) hv).1 (hbase v hc.1)]
    · rw [hcuts.lookup v (by omega) (Finset.notMem_empty _), h.lookup v (by omega)]

theorem uvmallocLoop_spec (h₀ : Uvm s₀ R rest A₀)
    (hbase : ∀ v, lo ≤ v → A₀.view s₀.mem v = none)
    (hnew : pages newsz ≤ topVpn ∨ lo + 32768 < topVpn)
    (hperm : PermOk (pteR ||| pteU ||| xperm)) : ∀ {turns w : ℕ} {s : Phys} {A : PTree},
    lo ≤ w → w ≤ pages newsz → w ≤ topVpn → pages newsz - w ≤ turns →
    Grown R rest s₀ A₀ lo w (pteR ||| pteU ||| xperm ||| pteV) s A →
    (∀ S, A₀.LinksIn S → PathsIn S lo w → A.LinksIn S) →
    wp (uvmallocLoop A₀.root (4096 * lo) newsz xperm turns (4096 * w))
      (UvmallocPost R rest s₀ A₀ lo newsz (pteR ||| pteU ||| xperm ||| pteV)) noPanic s
  | 0, w, s, A, _, hw, hwt, ht, h, _ => by
    obtain rfl : w = pages newsz := by omega
    rw [uvmallocLoop, wp_pure]
    exact h.done hwt
  | turns + 1, w, s, A, hlo, hw, hwt, ht, h, hlinks => by
    have hmax := h.le hwt
    rw [uvmallocLoop, wp_ite, wp_pure]
    refine ⟨fun hlt => ?_, fun hge => ?_⟩
    swap
    · obtain rfl : w = pages newsz := by
        simp only [pages] at hw ⊢
        omega
      exact h.done hwt
    have hwlt : w < pages newsz := by
      simp only [pages]
      omega
    have hnone : A.lookup w = none := by
      rw [← PTree.view_eq_none (m := s.mem) (by omega), h.view, if_neg (by omega), hbase w hlo]
    rw [wp_bind]
    refine wp_post h.uvm.kalloc_spec fun mem s₁ hr => ?_
    rcases hr with ⟨rfl, rfl, hfree⟩ | ⟨hne, hnot, h₁, hk₁⟩
    · rw [if_pos rfl, ← h.top.root]
      have hzero := freeCount_eq_zero (s := s₁) (Set.eq_empty_of_forall_notMem fun b hb =>
        absurd (hfree b hb) (by omega))
      exact h.undo h₀ hbase hlo (by omega) (by omega) (h.scarce h₀
        (fun S hl hS => hlinks S hl fun v h1 h2 => hS v h1 (by omega)) hlo hwlt (by omega))
    · obtain ⟨h₂, hk₂⟩ := h₁.store_block (Set.mem_insert _ _)
        (memset_span (c := 0) (n := 4096) (le_refl mem) (by omega))
      rw [Set.insert_sdiff_self_of_notMem hnot] at hk₂
      have hkr := (hk₁.mono Set.subset_union_right).trans (hk₂.mono Set.subset_union_right)
      have hkl : Keeps A.leaves s _ := (hk₁.mono fun b hb => Or.inl (Or.inr hb)).trans
        (hk₂.mono fun b hb => Or.inl (Or.inr hb))
      rw [if_neg hne, wp_bind, wp_zeroPage, wp_bind, ← h.top.root]
      refine wp_post (h₂.mappages_spec hnot (by omega) hnone hperm) ?_
      rintro r s₃ ⟨A', htop', hk₃, hpath, hr⟩
      have hlinks' : A'.Ok → ∀ S, A₀.LinksIn S → PathsIn S lo (w + 1) → A'.LinksIn S :=
        fun hok S hl hS => (hlinks S hl fun v h1 h2 => hS v h1 (by omega)).grow hok hpath
          (hS w hlo (by omega))
      rcases hr with ⟨rfl, hfree, huvm, hview, hlk, hhuge⟩ |
        ⟨rfl, huvm, hview, -, hlk, hhuge, -⟩
      · -- no memory for a table
        rw [if_pos (by decide), wp_bind]
        refine wp_post (huvm.kfree_spec (Set.mem_insert _ _)) ?_
        rintro _ s₄ ⟨h₄, hk₄⟩
        rw [Set.insert_sdiff_self_of_notMem hnot] at h₄ hk₄
        have hg : Grown R rest s₀ A₀ lo w (pteR ||| pteU ||| xperm ||| pteV) s₄ A' := by
          refine ⟨h₄, h.top.trans htop', ((h.keeps.trans hkr).trans (hk₃.mono ?_)).trans
            (hk₄.mono Set.subset_union_right), fun v => ?_, fun k b f => ?_,
            fun v hv => by rw [hlk, h.lookup v hv]⟩
          · exact fun b hb => Or.inr (Or.inr hb)
          · rw [huvm.view_keeps (hk₄.mono fun b hb => Or.inl (Or.inr hb)), hview,
              h.uvm.view_keeps hkl, h.view]
          · rw [hhuge, h.huge]
        have hone := h₄.owns.symm.freeCount_alloc huvm.owns.symm hnot
        rw [freeCount_eq_zero hfree] at hone
        rw [← htop'.root]
        exact hg.undo h₀ hbase hlo (by omega) (by omega)
          (hg.scarce h₀ (hlinks' h₄.pt.ok) hlo hwlt (by omega))
      · rw [if_neg (by decide), h.top.root, show 4096 * w + pgSize = 4096 * (w + 1) by
          simp only [pgSize]; omega]
        refine uvmallocLoop_spec h₀ hbase hnew hperm (by omega) hwlt (by omega) (by omega) ?_
          (hlinks' huvm.pt.ok) (A := A')
        refine ⟨huvm, h.top.trans htop', (h.keeps.trans hkr).trans (hk₃.mono ?_), fun v => ?_,
          fun k b f => ?_, fun v hv => ?_⟩
        · exact fun b hb => Or.inr (Or.inr hb)
        · rw [hview]
          by_cases hvw : v = w
          · subst hvw
            rw [Function.update_self, if_pos (by omega)]
            congr 2
            funext i
            exact memset_apply (by omega) (by have := i.isLt; omega)
          · rw [Function.update_of_ne hvw, h.uvm.view_keeps hkl, h.view]
            split_ifs <;> first | rfl | omega
        · rw [hhuge rfl, h.huge]
        · rw [hlk v (by rw [pow_zero]; omega), h.lookup v (by omega)]

theorem uvmalloc_spec {oldsz : ℕ} (newsz xperm : ℕ) (h : Uvm s R rest A)
    (hbase : ∀ v, pages oldsz ≤ v → A.view s.mem v = none)
    (hnew : newsz ≤ trapframe ∨ pages oldsz + 32768 < topVpn) (hsz : oldsz ≤ trapframe)
    (hold : oldsz ≤ newsz) (hperm : PermOk (pteR ||| pteU ||| xperm)) :
    wp (uvmalloc A.root oldsz newsz xperm)
      (UvmallocPost R rest s A (pages oldsz) newsz (pteR ||| pteU ||| xperm ||| pteV))
      noPanic s := by
  have hle : pages oldsz ≤ pages newsz := by
    simp only [pages]
    omega
  rw [uvmalloc, if_neg (by omega), pgRoundUp_pages hsz]
  refine uvmallocLoop_spec h hbase (hnew.imp pages_le id) hperm le_rfl hle (pages_le hsz) ?_
    (.refl h) fun _ hl _ => hl
  simp only [pages, pgSize]
  omega

end Alloc

end Xv6Plus
