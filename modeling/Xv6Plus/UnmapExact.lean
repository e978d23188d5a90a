import Xv6Plus.VmReach

/-!
# `uvmunmap`, exactly

`uvmunmap_exact` : for every range below `MAXVA`, with 514 free pages or no huge page to split,
`uvmunmap` returns, nothing in the range is mapped then, and everything outside of it is as it
was. The pages given back are those of the range, less one for the table of each huge page
that was split.

The two pages at the top are not user memory, so their frames are among what the others hold;
a range may cover them if they are pages of the allocator.
-/

namespace Xv6Plus

namespace PTree

/-- The pages at the top that are mapped between `lo` and `hi`. -/
def topMapped (A : PTree) (lo hi : ℕ) : Set ℕ :=
  {k | topVpn ≤ k ∧ lo ≤ k ∧ k < hi ∧ ∃ pa fl, A.ent 0 k = .leaf pa fl}

/-- Their frames. -/
def topFrames (A : PTree) (lo hi : ℕ) : Set (ℕ × ℕ) :=
  {b | b.2 = 0 ∧ ∃ k fl, topVpn ≤ k ∧ lo ≤ k ∧ k < hi ∧ A.ent 0 k = .leaf b.1 fl}

/-- The pages from `lo` to `hi` that are mapped. -/
def mappedIn (A : PTree) (lo hi : ℕ) : Set ℕ := {v | lo ≤ v ∧ v < hi ∧ A.lookup v ≠ none}

/-- The physical pages, by index, that the pages from `lo` to `hi` are mapped to. -/
def backing (A : PTree) (lo hi : ℕ) : Set ℕ :=
  (fun v => (A.frameOf v - kernBase) / pgSize) '' A.mappedIn lo hi

end PTree

/-- The frames at the top of the range are pages that somebody holds, each mapped once. -/
structure TopHeld (A : PTree) (rest : Set (ℕ × ℕ)) (lo hi : ℕ) : Prop where
  held : A.topFrames lo hi ⊆ rest
  inj : ∀ k k' pa fl fl', k ∈ A.topMapped lo hi → k' ∈ A.topMapped lo hi →
    A.ent 0 k = .leaf pa fl → A.ent 0 k' = .leaf pa fl' → k = k'

/-- `A'` is `A` with the pages at the top from `lo` to `hi` unmapped, and their frames freed. -/
structure TopUnmapped (R : Set ℕ) (rest : Set (ℕ × ℕ)) (s : Phys) (A : PTree) (lo hi : ℕ)
    (s' : Phys) (A' : PTree) : Prop where
  uvm : Uvm s' R (rest \ A.topFrames lo hi) A'
  root : A'.root = A.root
  absent : ∀ k, topVpn ≤ k → lo ≤ k → k < hi → A'.ent 0 k = .absent
  same : ∀ L k, ¬(L = 0 ∧ topVpn ≤ k ∧ lo ≤ k ∧ k < hi) → A'.ent L k = A.ent L k
  keeps : Keeps (A.leaves ∪ rest \ A.topFrames lo hi) s s'

section Top

variable {s s' s₁ : Phys} {R : Set ℕ} {rest : Set (ℕ × ℕ)} {A A' A₁ : PTree} {lo hi v pa fl : ℕ}
  {split : ℕ → ℕ → Kern Phys ℤ}

theorem PTree.topFrames_empty (h : hi ≤ lo ∨ hi ≤ topVpn) : A.topFrames lo hi = ∅ := by
  refine Set.eq_empty_of_forall_notMem ?_
  rintro b ⟨-, k, fl, h1, h2, h3, -⟩
  omega

/-- The frames at the top depend on the entries there only. -/
theorem PTree.topFrames_congr (h : ∀ k, topVpn ≤ k → lo ≤ k → A'.ent 0 k = A.ent 0 k) :
    A'.topFrames lo hi = A.topFrames lo hi := by
  ext b
  refine and_congr_right fun _ => exists_congr fun k => exists_congr fun fl => ?_
  refine and_congr_right fun h1 => and_congr_right fun h2 => ?_
  rw [h k h1 h2]

theorem TopUnmapped.refl (h : Uvm s R rest A) (hd : hi ≤ lo ∨ hi ≤ topVpn) :
    TopUnmapped R rest s A lo hi s A := by
  have he := PTree.topFrames_empty (A := A) hd
  refine ⟨?_, rfl, fun k h1 h2 h3 => by omega, fun _ _ _ => rfl, .refl _ _⟩
  rw [he, Set.sdiff_empty]
  exact h

theorem TopUnmapped.skip (h : TopUnmapped R rest s A (v + 1) hi s' A')
    (habs : A.ent 0 v = .absent) : TopUnmapped R rest s A v hi s' A' := by
  have hframes : A.topFrames v hi = A.topFrames (v + 1) hi := by
    ext b
    refine and_congr_right fun _ => exists_congr fun k => exists_congr fun fl => ?_
    refine and_congr_right fun _ => ⟨?_, fun hk => ⟨by omega, hk.2⟩⟩
    rintro ⟨h1, h2, he⟩
    refine ⟨?_, h2, he⟩
    by_contra hc
    obtain rfl : k = v := by omega
    rw [habs] at he
    cases he
  refine ⟨hframes ▸ h.uvm, h.root, fun k h1 h2 h3 => ?_, fun L k hk => h.same L k (by omega),
    hframes ▸ h.keeps⟩
  by_cases hkv : k = v
  · rw [h.same 0 k (by omega), hkv, habs]
  · exact h.absent k h1 (by omega) h3

/-- The next page is mapped, and its frame has been freed. -/
theorem TopUnmapped.cons (he : A.ent 0 v = .leaf pa fl) (hv : topVpn ≤ v) (hlt : v < hi)
    (hA : A₁ = A.put 0 v .absent PTree.noKids) (hleaves : A₁.leaves = A.leaves)
    (hk : Keeps (A.leaves ∪ rest \ {(pa, 0)}) s s₁)
    (h : TopUnmapped R (rest \ {(pa, 0)}) s₁ A₁ (v + 1) hi s' A') :
    TopUnmapped R rest s A v hi s' A' := by
  subst hA
  have hother : ∀ L k, ¬(L = 0 ∧ k = v) →
      (A.put 0 v .absent PTree.noKids).ent L k = A.ent L k := fun L k hne =>
    PTree.put_other hne (by omega)
  have hframes : rest \ A.topFrames v hi =
      (rest \ {(pa, 0)}) \ (A.put 0 v .absent PTree.noKids).topFrames (v + 1) hi := by
    rw [PTree.topFrames_congr fun k _ hk => hother 0 k (by omega), Set.sdiff_sdiff]
    congr 1
    ext ⟨a, o⟩
    constructor
    · rintro ⟨ho, k, fl', h1, h2, h3, he'⟩
      dsimp only at ho he'
      by_cases hkv : k = v
      · rw [hkv, he] at he'
        exact Or.inl (by rw [ho, (Entry.leaf.inj he').1]; rfl)
      · exact Or.inr ⟨ho, k, fl', h1, by omega, h3, he'⟩
    · rintro (hb | ⟨ho, k, fl', h1, h2, h3, he'⟩)
      · obtain ⟨rfl, rfl⟩ := Prod.mk.inj hb
        exact ⟨rfl, v, fl, hv, le_rfl, hlt, he⟩
      · exact ⟨ho, k, fl', h1, by omega, h3, he'⟩
  refine ⟨hframes ▸ h.uvm, h.root, fun k h1 h2 h3 => ?_, fun L k hk => ?_, ?_⟩
  · by_cases hkv : k = v
    · rw [h.same 0 k (by omega), hkv, PTree.put_same]
    · exact h.absent k h1 (by omega) h3
  · rw [h.same L k (by omega), hother L k (by omega)]
  · rw [hframes]
    refine (hk.mono ?_).trans (hleaves ▸ h.keeps)
    exact Set.union_subset_union_right _ Set.sdiff_subset

theorem TopHeld.tail (h : TopHeld A rest v hi) (he : A.ent 0 v = .leaf pa fl) (hv : topVpn ≤ v)
    (hlt : v < hi) (hA : ∀ k, v < k → A₁.ent 0 k = A.ent 0 k) :
    TopHeld A₁ (rest \ {(pa, 0)}) (v + 1) hi := by
  have hin : ∀ k, k ∈ A₁.topMapped (v + 1) hi → k ∈ A.topMapped v hi := by
    rintro k ⟨h1, h2, h3, pa', fl', he'⟩
    rw [hA k (by omega)] at he'
    exact ⟨h1, by omega, h3, pa', fl', he'⟩
  refine ⟨?_, fun k k' pa' fl' fl'' hk hk' he' he'' => ?_⟩
  · rintro ⟨a, o⟩ ⟨ho, k, fl', h1, h2, h3, he'⟩
    dsimp only at ho he'
    rw [hA k (by omega)] at he'
    refine ⟨h.held ⟨ho, k, fl', h1, by omega, h3, he'⟩, fun hb => ?_⟩
    obtain ⟨rfl, -⟩ := Prod.mk.inj hb
    have := h.inj k v a fl' fl ⟨h1, by omega, h3, a, fl', he'⟩ ⟨hv, le_rfl, hlt, a, fl, he⟩ he' he
    omega
  · rw [hA k (by have := hk.2.1; omega)] at he'
    rw [hA k' (by have := hk'.2.1; omega)] at he''
    exact h.inj k k' pa' fl' fl'' (hin k hk) (hin k' hk') he' he''

theorem TopHeld.next (h : TopHeld A rest v hi) : TopHeld A rest (v + 1) hi := by
  have hin : ∀ k, k ∈ A.topMapped (v + 1) hi → k ∈ A.topMapped v hi := fun k hk =>
    ⟨hk.1, by have := hk.2.1; omega, hk.2.2⟩
  refine ⟨?_, fun k k' pa' fl' fl'' hk hk' => h.inj k k' pa' fl' fl'' (hin k hk) (hin k' hk')⟩
  rintro b ⟨ho, k, fl', h1, h2, h3, he'⟩
  exact h.held ⟨ho, k, fl', h1, by omega, h3, he'⟩

theorem unmapLoop_top (hhi : hi ≤ 2 ^ 26) : ∀ {turns v : ℕ} {rest : Set (ℕ × ℕ)} {s : Phys}
    {A : PTree}, topVpn ≤ v ∨ hi ≤ v → hi - v ≤ turns → Uvm s R rest A → TopHeld A rest v hi →
    wp (unmapLoopWith split A.root (4096 * hi) true turns (4096 * v))
      (fun _ s' => ∃ A', TopUnmapped R rest s A v hi s' A') noPanic s
  | 0, v, rest, s, A, _, hf, h, _ => by
    rw [unmapLoopWith, wp_pure]
    exact ⟨A, .refl h (Or.inl (by omega))⟩
  | turns + 1, v, rest, s, A, hv, hf, h, ht => by
    by_cases hlt : v < hi
    swap
    · rw [unmapLoopWith_stop (by omega), wp_pure]
      exact ⟨A, .refl h (Or.inl (by omega))⟩
    have hvt : topVpn ≤ v := by omega
    have hok := h.pt.ok
    have hstep : 4096 * v + pgSize = 4096 * (v + 1) := by simp only [pgSize]; omega
    have hskip : A.ent 0 v = .absent →
        wp (unmapLoopWith split A.root (4096 * hi) true turns (4096 * (v + 1)))
          (fun _ s' => ∃ A', TopUnmapped R rest s A v hi s' A') noPanic s := by
      intro habs
      refine wp_post (unmapLoop_top hhi (Or.inl (by omega)) (by omega) h ht.next) ?_
      rintro _ s' ⟨A', hu⟩
      exact ⟨A', hu.skip habs⟩
    rw [unmapLoopWith, if_pos (by omega), wp_bind]
    refine wp_post (walkWithLevel_spec h.pt (by omega)) ?_
    rintro r s' ⟨rfl, hfound⟩
    rw [Nat.mul_div_cancel_left _ (by omega)] at hfound
    cases hfound with
    | missing h1 h0 =>
      dsimp only
      rw [hstep]
      exact hskip h0
    | huge hp he =>
      have := PTree.user_one.1 (h.huge _ _ _ he)
      omega
    | page hp =>
      dsimp only
      rw [wp_bind, wp_load64, h.pt.rep.entry hp]
      cases he : A.ent 0 v with
      | absent =>
        rw [if_pos (not_not.1 absent_valid), hstep]
        exact hskip he
      | table t => exact absurd he (hok.bottom v t)
      | leaf pa fl =>
        have hl := hok.leaves _ _ _ _ he
        have hmem : (pa, 0) ∈ rest := ht.held ⟨rfl, v, fl, hvt, le_rfl, hlt, he⟩
        rw [if_neg hl.bits_valid, if_neg (by omega), hl.bits_pa, if_pos rfl, if_pos rfl, wp_bind]
        refine wp_post (h.kfree_spec hmem) ?_
        rintro _ s₁ ⟨h₁, hk₁⟩
        obtain ⟨h₂, hk₂⟩ := h₁.pt.set (.of_absent (by omega) hp) (hok.bottom v)
          fun _ => Entry.noConfusion
        rw [show Entry.absent.bits = 0 from rfl] at h₂ hk₂
        have huvm := h₁.set_top (.refl A) hok hvt h₂
        rw [wp_bind, wp_store64, if_neg (by omega), hstep]
        refine wp_post (unmapLoop_top hhi (A := A.put 0 v .absent PTree.noKids)
          (Or.inl (by omega)) (by omega) huvm
          (ht.tail he hvt hlt fun k hk => PTree.put_other (by omega) (by omega))) ?_
        rintro _ s' ⟨A', hu⟩
        refine ⟨A', .cons he hvt hlt rfl ?_ ((hk₁.mono ?_).trans hk₂) hu⟩
        · refine PTree.leaves_top hok (by omega) (hok.bottom v) fun hu => ?_
          have := PTree.user_zero.1 hu
          omega
        · exact Set.union_subset_union_left _ Set.subset_union_right

theorem TopUnmapped.lookup (h : TopUnmapped R rest s A lo hi s' A')
    (hv : v < topVpn ∨ v < lo ∨ hi ≤ v) : A'.lookup v = A.lookup v := by
  refine PTree.lookup_congr (fun b f => ?_) fun b f => ?_
  · rw [h.same 1 _ (by omega)]
  · rw [h.same 0 v (by omega)]

theorem TopUnmapped.tables (h : TopUnmapped R rest s A lo hi s' A') : A'.tables = A.tables := by
  ext b
  refine and_congr_right fun _ => exists_congr fun L => exists_congr fun q => ?_
  unfold PTree.IsTable
  rw [h.root, h.same (L + 1) q (by omega)]

theorem TopUnmapped.mapped (h : TopUnmapped R rest s A lo hi s' A') : A'.mapped = A.mapped := by
  ext v
  refine and_congr_right fun hv => ?_
  rw [h.lookup (Or.inl hv)]

/-- At the top there are no huge pages. -/
theorem Uvm.lookup_top (h : Uvm s R rest A) (hv : topVpn ≤ v) :
    A.lookup v = some (pa, fl) ↔ A.ent 0 v = .leaf pa fl := by
  have hno : ∀ b f, A.ent 1 (v / 512) ≠ .leaf b f := by
    intro b f he
    have := PTree.user_one.1 (h.huge _ _ _ he)
    omega
  rw [PTree.lookup_eq_some]
  constructor
  · rintro (⟨b, he, -⟩ | ⟨-, he⟩)
    · exact absurd he (hno b fl)
    · exact he
  · exact fun he => Or.inr ⟨hno, he⟩

theorem Uvm.mem_topMapped (h : Uvm s R rest A) (hv : topVpn ≤ v) :
    v ∈ A.topMapped lo hi ↔ v ∈ A.mappedIn lo hi := by
  refine (and_iff_right hv).trans (and_congr_right fun _ => and_congr_right fun _ => ?_)
  rw [Option.ne_none_iff_exists', Prod.exists]
  simp only [h.lookup_top hv]

end Top

/-! ## The whole range -/

/-- What `uvmunmap` does to the pages from `lo` to `hi` : they are unmapped, and their frames
are given back. The pages outside have the flags and bytes they had, and the frames too unless
they were part of a huge page across an end of the range. -/
structure Emptied (R : Set ℕ) (rest : Set (ℕ × ℕ)) (s : Phys) (A : PTree) (lo hi : ℕ)
    (s' : Phys) (A' : PTree) : Prop where
  root : A'.root = A.root
  uvm : Uvm s' R (rest \ A.topFrames lo hi) A'
  inside : ∀ v, lo ≤ v → v < hi → A'.lookup v = none
  user : ∀ v, v < topVpn → v < lo ∨ hi ≤ v → A'.view s'.mem v = A.view s.mem v
  top : ∀ v, topVpn ≤ v → v < lo ∨ hi ≤ v → A'.lookup v = A.lookup v
  others : Keeps (rest \ A.topFrames lo hi) s s'
  unsplit : ∀ v, v < lo ∨ hi ≤ v → v / 512 ∉ A.straddling lo hi → A'.lookup v = A.lookup v
  count : s'.freeCount + (A.straddling lo hi).ncard = s.freeCount + (A.mappedIn lo hi).ncard
  returned : A.straddling lo hi = ∅ → s'.freePages = s.freePages ∪ A.backing lo hi

/-- The user part of the range is done, and then the part at the top. -/
structure Passed (R : Set ℕ) (rest : Set (ℕ × ℕ)) (s : Phys) (A : PTree) (lo mid hi : ℕ)
    (s₁ : Phys) (A₁ : PTree) (s' : Phys) (A' : PTree) : Prop where
  cut : mid = max lo (min hi topVpn)
  unmapped : Unmapped R rest s A lo mid s₁ A₁
  cuts : ∃ K : Finset ℕ, (K : Set ℕ) = A.straddling lo hi ∧ Cuts A A₁ lo mid K
  rest : TopUnmapped R rest s₁ A₁ mid hi s' A'

namespace Passed

variable {s s₁ s' : Phys} {R : Set ℕ} {rest : Set (ℕ × ℕ)} {A A₁ A' : PTree} {lo mid hi v : ℕ}

theorem topFrames_eq (h : Passed R rest s A lo mid hi s₁ A₁ s' A') :
    A₁.topFrames mid hi = A.topFrames lo hi := by
  have hcut := h.cut
  rw [PTree.topFrames_congr fun k hk _ => h.unmapped.top.top k hk]
  ext b
  refine and_congr_right fun _ => exists_congr fun k => exists_congr fun fl => ?_
  refine and_congr_right fun hk => ?_
  constructor
  · rintro ⟨h1, h2, he⟩
    exact ⟨by omega, h2, he⟩
  · rintro ⟨h1, h2, he⟩
    exact ⟨by omega, h2, he⟩

theorem uvm (h : Passed R rest s A lo mid hi s₁ A₁ s' A') :
    Uvm s' R (rest \ A.topFrames lo hi) A' := by
  rw [← h.topFrames_eq]
  exact h.rest.uvm

theorem mapped_eq (h : Passed R rest s A lo mid hi s₁ A₁ s' A') :
    A'.mapped = A.mapped \ Set.Ico lo hi := by
  have hcut := h.cut
  rw [h.rest.mapped]
  ext v
  rw [PTree.mem_mapped (m := s₁.mem), h.unmapped.view, Set.mem_sdiff, Set.mem_Ico]
  constructor
  · intro hv
    split_ifs at hv with hc
    · exact absurd rfl hv
    · have hm := PTree.mem_mapped.2 hv
      have := hm.1
      exact ⟨hm, by omega⟩
  · rintro ⟨hm, hc⟩
    have := hm.1
    rw [if_neg (by omega)]
    exact PTree.mem_mapped.1 hm

theorem tables_ncard (h : Passed R rest s A lo mid hi s₁ A₁ s' A') :
    A'.tables.ncard = A.tables.ncard + (A.straddling lo hi).ncard := by
  obtain ⟨K, hK, hc⟩ := h.cuts
  rw [h.rest.tables, hc.tables, ← hK, Set.ncard_coe_finset]

/-- A page outside of the range and of the huge pages that were split. -/
theorem lookup_eq (h : Passed R rest s A lo mid hi s₁ A₁ s' A') (hv : v < lo ∨ hi ≤ v)
    (hk : v / 512 ∉ A.straddling lo hi) : A'.lookup v = A.lookup v := by
  obtain ⟨K, hK, hc⟩ := h.cuts
  have hcut := h.cut
  rw [← hK] at hk
  rw [h.rest.lookup (by omega)]
  by_cases hm : v < lo ∨ mid ≤ v
  · exact hc.lookup v hm hk
  · omega

theorem lookup_inside (h : Passed R rest s A lo mid hi s₁ A₁ s' A') (h1 : lo ≤ v) (h2 : v < hi) :
    A'.lookup v = none := by
  have hcut := h.cut
  by_cases hv : v < topVpn
  · by_contra hne
    have hm : v ∈ A'.mapped := ⟨hv, hne⟩
    rw [h.mapped_eq] at hm
    exact hm.2 ⟨h1, h2⟩
  · refine Option.eq_none_iff_forall_ne_some.2 ?_
    rintro ⟨pa, fl⟩ hl
    rw [h.uvm.lookup_top (not_lt.1 hv), h.rest.absent v (not_lt.1 hv) (by omega) h2] at hl
    cases hl

theorem view_eq (h : Passed R rest s A lo mid hi s₁ A₁ s' A') (hv : v < lo ∨ hi ≤ v) :
    A'.view s'.mem v = A.view s.mem v := by
  have hcut := h.cut
  by_cases ht : v < topVpn
  · have hm := h.unmapped.view v
    rw [if_neg (by omega)] at hm
    rw [← hm]
    refine PTree.view_congr (fun _ => h.rest.lookup (Or.inl ht)) fun pa fl _ hl => ?_
    exact PTree.lookup_keeps h.unmapped.uvm.huge (h.rest.keeps.mono Set.subset_union_left) v pa fl
      ht hl
  · rw [PTree.view_of_ge (not_lt.1 ht), PTree.view_of_ge (not_lt.1 ht)]

end Passed

section Count

variable {s s₁ s' : Phys} {R : Set ℕ} {rest : Set (ℕ × ℕ)} {A A₁ A' : PTree} {lo mid hi v : ℕ}

/-- Each page at the top that is mapped has a frame of its own. -/
theorem TopHeld.ncard_eq (h : TopHeld A rest lo hi) :
    (A.topFrames lo hi).ncard = (A.topMapped lo hi).ncard := by
  have hex : ∀ k, ∃ pa, k ∈ A.topMapped lo hi → ∃ fl, A.ent 0 k = .leaf pa fl := by
    intro k
    by_cases hk : k ∈ A.topMapped lo hi
    · obtain ⟨-, -, -, pa, fl, he⟩ := hk
      exact ⟨pa, fun _ => ⟨fl, he⟩⟩
    · exact ⟨0, fun hc => absurd hc hk⟩
  choose pa hpa using hex
  have himage : A.topFrames lo hi = (fun k => (pa k, 0)) '' A.topMapped lo hi := by
    ext ⟨a, o⟩
    constructor
    · rintro ⟨ho, k, fl, h1, h2, h3, he⟩
      have hk : k ∈ A.topMapped lo hi := ⟨h1, h2, h3, a, fl, he⟩
      obtain ⟨fl', he'⟩ := hpa k hk
      rw [he] at he'
      exact ⟨k, hk, Prod.ext (Entry.leaf.inj he').1.symm ho.symm⟩
    · rintro ⟨k, hk, he⟩
      obtain ⟨rfl, rfl⟩ := Prod.mk.inj he
      obtain ⟨fl, he'⟩ := hpa k hk
      exact ⟨rfl, k, fl, hk.1, hk.2.1, hk.2.2.1, he'⟩
  have hon : Set.InjOn (fun k => (pa k, 0)) (A.topMapped lo hi) := by
    intro k hk k' hk' he
    obtain ⟨fl, h1⟩ := hpa k hk
    obtain ⟨fl', h2⟩ := hpa k' hk'
    rw [← (Prod.mk.inj he).1] at h2
    exact h.inj k k' _ fl fl' hk hk' h1 h2
  rw [himage, hon.ncard_image]

/-- The pages of the range are user pages and pages at the top. -/
theorem Uvm.ncard_mappedIn (h : Uvm s R rest A) :
    (A.mappedIn lo hi).ncard =
      (A.mapped ∩ Set.Ico lo hi).ncard + (A.topMapped lo hi).ncard := by
  have hsplit : A.mappedIn lo hi = A.mapped ∩ Set.Ico lo hi ∪ A.topMapped lo hi := by
    ext v
    by_cases hv : v < topVpn
    · refine ⟨fun hm => Or.inl ⟨⟨hv, hm.2.2⟩, hm.1, hm.2.1⟩, ?_⟩
      rintro (hm | hm)
      · exact ⟨hm.2.1, hm.2.2, hm.1.2⟩
      · exact absurd hm.1 (not_le.2 hv)
    · rw [← h.mem_topMapped (not_lt.1 hv)]
      exact ⟨Or.inr, fun hm => hm.resolve_left fun hc => hv hc.1.1⟩
  rw [hsplit]
  refine Set.ncard_union_eq ?_ (A.mapped_finite.subset Set.inter_subset_left)
    ((Set.finite_Iio hi).subset fun k hk => hk.2.2.1)
  exact Set.disjoint_left.2 fun v hm ht => absurd hm.1.1 (not_lt.2 ht.1)

theorem Passed.count (h : Passed R rest s A lo mid hi s₁ A₁ s' A') (h₀ : Uvm s R rest A)
    (htop : TopHeld A rest lo hi) :
    s'.freeCount + (A.straddling lo hi).ncard = s.freeCount + (A.mappedIn lo hi).ncard := by
  have hc₀ := h₀.census
  have hc := h.uvm.census
  have hm := Set.ncard_inter_add_ncard_sdiff_eq_ncard A.mapped (Set.Ico lo hi) A.mapped_finite
  have hframes : pageCount (region rest) =
      pageCount (region (rest \ A.topFrames lo hi)) + (A.topMapped lo hi).ncard := by
    have hown : Owns s R (A.topFrames lo hi) (A.tables ∪ A.leaves ∪ rest \ A.topFrames lo hi) := by
      refine h₀.owns.reassoc ?_ ?_
      · rw [Set.union_left_comm, Set.union_sdiff_cancel htop.held]
      · rw [Set.disjoint_union_right]
        exact ⟨(h₀.owns.apart.mono_right htop.held).symm, Set.disjoint_sdiff_right⟩
    rw [← htop.ncard_eq, ← hown.pageCount_pages fun b hb => hb.1,
      ← hown.buddy.pageCount_union (Set.subset_union_right.trans Set.subset_union_right)
        Set.subset_union_left Set.disjoint_sdiff_left, Set.sdiff_union_of_subset htop.held]
  rw [h.tables_ncard, h.mapped_eq] at hc
  rw [h₀.ncard_mappedIn]
  omega

/-- What is free is what nobody holds. -/
theorem Uvm.mem_free (h : Uvm s R rest A) {x : ℕ} : x ∈ region s.free ↔
    x ∈ R ∧ x ∉ region A.tables ∧ x ∉ region A.leaves ∧ x ∉ region rest := by
  have hcover := h.owns.buddy.cover
  have hap := h.owns.buddy.apart
  rw [region_union, region_union] at hcover hap
  constructor
  · intro hx
    have hn := Set.disjoint_left.1 hap hx
    simp only [Set.mem_union, not_or] at hn
    exact ⟨hcover ▸ Or.inl hx, hn.1.1, hn.1.2, hn.2⟩
  · rintro ⟨hR, ht, hl, hr⟩
    rw [← hcover] at hR
    simp only [Set.mem_union] at hR
    tauto

theorem Uvm.mem_leaves (h : Uvm s R rest A) {x : ℕ} (hx : x % 4096 = 0) :
    x ∈ region A.leaves ↔ ∃ v ∈ A.mapped, A.frameOf v = x := by
  refine ⟨fun hl => h.exists_mapped hl hx, ?_⟩
  rintro ⟨v, hv, rfl⟩
  exact (h.frame_page hv).2.2

/-- The physical pages of the range, by address. -/
theorem Uvm.mem_backing (h : Uvm s R rest A) (htop : TopHeld A rest lo hi) {i : ℕ} :
    i ∈ A.backing lo hi ↔ (∃ v ∈ A.mapped ∩ Set.Ico lo hi, A.frameOf v = kernBase + pgSize * i) ∨
      (kernBase + pgSize * i, 0) ∈ A.topFrames lo hi := by
  have hidx : ∀ {x}, x % 4096 = 0 → 2147483648 ≤ x →
      ((x - kernBase) / pgSize = i ↔ x = kernBase + pgSize * i) := by
    intro x h1 h2
    simp only [kernBase, pgSize]
    omega
  constructor
  · rintro ⟨v, hm, he⟩
    dsimp only at he
    by_cases hv : v < topVpn
    · have hin : v ∈ A.mapped := ⟨hv, hm.2.2⟩
      have hp := h.frame_page hin
      exact Or.inl ⟨v, ⟨hin, hm.1, hm.2.1⟩, (hidx hp.1 hp.2.1).1 he⟩
    · obtain ⟨⟨pa, fl⟩, hl⟩ := Option.ne_none_iff_exists'.1 hm.2.2
      have hent := (h.lookup_top (not_lt.1 hv)).1 hl
      have hb : (pa, 0) ∈ A.topFrames lo hi := ⟨rfl, v, fl, not_lt.1 hv, hm.1, hm.2.1, hent⟩
      have hp := h.owns.symm.page (htop.held hb)
      rw [PTree.frameOf_eq hl] at he
      rw [← (hidx hp.1 hp.2.1).1 he]
      exact Or.inr hb
  · rintro (⟨v, hv, he⟩ | hb)
    · have hp := h.frame_page hv.1
      exact ⟨v, ⟨hv.2.1, hv.2.2, hv.1.2⟩, (hidx hp.1 hp.2.1).2 he⟩
    · have hp := h.owns.symm.page (htop.held hb)
      obtain ⟨-, k, fl, h1, h2, h3, he⟩ := hb
      have hl := (h.lookup_top h1).2 he
      refine ⟨k, ⟨h2, h3, by rw [hl]; exact Option.some_ne_none _⟩, ?_⟩
      dsimp only
      rw [PTree.frameOf_eq hl]
      exact (hidx hp.1 hp.2.1).2 rfl

/-- Without a split, exactly the pages that backed the range are given back. -/
theorem Passed.returned (h : Passed R rest s A lo mid hi s₁ A₁ s' A') (h₀ : Uvm s R rest A)
    (htop : TopHeld A rest lo hi) (hst : A.straddling lo hi = ∅) :
    s'.freePages = s.freePages ∪ A.backing lo hi := by
  have htables : A'.tables = A.tables := by
    obtain ⟨K, hK, hc⟩ := h.cuts
    refine (Set.eq_of_subset_of_ncard_le ?_ ?_ (h.uvm.pt.owns.finite_pages fun b hb => hb.1)).symm
    · rw [h.rest.tables]
      exact hc.grow
    · rw [h.tables_ncard, hst, Set.ncard_empty, Nat.add_zero]
  ext i
  have hal : (kernBase + pgSize * i) % 4096 = 0 := by
    simp only [kernBase, pgSize]
    omega
  have hleaf : kernBase + pgSize * i ∈ region A'.leaves ↔
      ∃ v ∈ A.mapped \ Set.Ico lo hi, A.frameOf v = kernBase + pgSize * i := by
    rw [h.uvm.mem_leaves hal, h.mapped_eq]
    refine exists_congr fun v => and_congr_right fun hv => ?_
    have hout : v < lo ∨ hi ≤ v := by
      have := hv.2
      rw [Set.mem_Ico] at this
      omega
    rw [PTree.frameOf, PTree.frameOf, h.lookup_eq hout (by rw [hst]; exact Set.notMem_empty _)]
  have hrest : kernBase + pgSize * i ∈ region (rest \ A.topFrames lo hi) ↔
      kernBase + pgSize * i ∈ region rest ∧ (kernBase + pgSize * i, 0) ∉ A.topFrames lo hi := by
    constructor
    · rintro ⟨b, hb, hx⟩
      refine ⟨⟨b, hb.1, hx⟩, fun hf => hb.2 ?_⟩
      have := h₀.owns.symm.eq_of_mem hb.1 (htop.held hf) hx (start_mem_span (by decide) _)
      rw [this]
      exact hf
    · rintro ⟨⟨b, hb, hx⟩, hf⟩
      refine ⟨b, ⟨hb, fun hbf => hf ?_⟩, hx⟩
      obtain ⟨a, o⟩ := b
      obtain rfl : o = 0 := hbf.1
      have hp := h₀.owns.symm.page hb
      have hxa : kernBase + pgSize * i = a := by
        rw [mem_span_zero] at hx
        omega
      rw [hxa]
      exact hbf
  rw [Set.mem_union, h₀.mem_backing htop]
  simp only [Phys.freePages, Set.mem_ofPred_eq]
  rw [h.uvm.mem_free, h₀.mem_free, htables, hleaf, hrest, h₀.mem_leaves hal]
  constructor
  · rintro ⟨hR, ht, hl, hr⟩
    by_cases hm : ∃ v ∈ A.mapped, A.frameOf v = kernBase + pgSize * i
    · obtain ⟨v, hv, he⟩ := hm
      exact Or.inr (Or.inl ⟨v, ⟨hv, by_contra fun hc => hl ⟨v, ⟨hv, hc⟩, he⟩⟩, he⟩)
    · by_cases hf : (kernBase + pgSize * i, 0) ∈ A.topFrames lo hi
      · exact Or.inr (Or.inr hf)
      · exact Or.inl ⟨hR, ht, hm, fun hx => hr ⟨hx, hf⟩⟩
  · rintro (⟨hR, ht, hm, hr⟩ | ⟨v, hv, he⟩ | hf)
    · refine ⟨hR, ht, ?_, fun hx => hr hx.1⟩
      rintro ⟨v, hv, he⟩
      exact hm ⟨v, hv.1, he⟩
    · -- a user page of the range
      have hx := (h₀.frame_page hv.1).2.2
      rw [he] at hx
      refine ⟨?_, ?_, ?_, ?_⟩
      · exact h₀.owns.buddy.live_subset (region_mono (Set.subset_union_right.trans
          Set.subset_union_left) hx)
      · exact fun ht => Set.disjoint_left.1 h₀.pt.owns.region_apart ht
          (region_mono Set.subset_union_left hx)
      · rintro ⟨v', hv', he'⟩
        obtain rfl := h₀.frameOf_inj hv.1 hv'.1 (he.trans he'.symm)
        exact hv'.2 hv.2
      · exact fun hr => Set.disjoint_left.1 h₀.owns.region_apart
          (region_mono Set.subset_union_right hx) hr.1
    · -- a page at the top
      have hx : kernBase + pgSize * i ∈ region rest := start_mem_region (htop.held hf)
      refine ⟨?_, ?_, ?_, fun hr => hr.2 hf⟩
      · exact h₀.owns.buddy.live_subset (region_mono Set.subset_union_right hx)
      · exact fun ht => Set.disjoint_left.1 h₀.owns.region_apart
          (region_mono Set.subset_union_left ht) hx
      · rintro ⟨v, hv, he⟩
        have hl := (h₀.frame_page hv.1).2.2
        rw [he] at hl
        exact Set.disjoint_left.1 h₀.owns.region_apart (region_mono Set.subset_union_right hl) hx

end Count

/-! ## The result -/

section Result

variable {s s₁ : Phys} {R : Set ℕ} {rest : Set (ℕ × ℕ)} {A A₁ : PTree} {lo mid hi : ℕ}

/-- Above the user memory there are no huge pages. -/
theorem Uvm.straddling_top (h : Uvm s R rest A) (hlo : topVpn ≤ lo) :
    A.straddling lo hi = ∅ := by
  refine Set.eq_empty_of_forall_notMem ?_
  rintro k ⟨⟨pa, fl, he⟩, ⟨v, h1, h2, rfl⟩, -⟩
  have := PTree.user_one.1 (h.huge _ _ _ he)
  omega

theorem TopHeld.congr (h : TopHeld A rest lo hi) (ht : A.SameTop A₁) (hle : lo ≤ mid) :
    TopHeld A₁ rest mid hi := by
  have hin : ∀ k, k ∈ A₁.topMapped mid hi → k ∈ A.topMapped lo hi := by
    rintro k ⟨h1, h2, h3, pa, fl, he⟩
    exact ⟨h1, by omega, h3, pa, fl, by rw [← ht.top k h1]; exact he⟩
  refine ⟨?_, fun k k' pa fl fl' hk hk' he he' => ?_⟩
  · rintro b ⟨ho, k, fl, h1, h2, h3, he⟩
    exact h.held ⟨ho, k, fl, h1, by omega, h3, by rw [← ht.top k h1]; exact he⟩
  · rw [ht.top k hk.1] at he
    rw [ht.top k' hk'.1] at he'
    exact h.inj k k' pa fl fl' (hin k hk) (hin k' hk') he he'

theorem uvmunmap_passed {n : ℕ} (h : Uvm s R rest A) (hhi : lo + n ≤ 2 ^ 26)
    (htop : TopHeld A rest lo (lo + n)) (hroom : Splittable noPanic s A lo (lo + n)) :
    wp (uvmunmap A.root (4096 * lo) n true) (fun _ s' => ∃ mid s₁ A₁ A',
      Passed R rest s A lo mid (lo + n) s₁ A₁ s' A') noPanic s := by
  rw [uvmunmap_eq, uvmunmapWith, if_neg (by simp only [pgSize]; omega), wrap64,
    Nat.mod_eq_of_lt (by simp only [pgSize]; omega),
    show 4096 * lo + n * pgSize = 4096 * (lo + n) by simp only [pgSize]; omega]
  by_cases hlo : lo ≤ topVpn
  · refine unmapLoop_user h (Or.inl rfl) hroom (rfl : min (lo + n) topVpn = _) ?_ le_rfl (by omega)
      (by omega) (fun _ _ => by omega) (.refl h)
    intro turns K s₁ A₁ hf hu
    rw [← hu.top.root]
    refine wp_post (unmapLoop_top hhi (by omega) (by omega) hu.uvm
      (htop.congr hu.top (by omega))) ?_
    rintro _ s' ⟨A', hu'⟩
    exact ⟨_, s₁, A₁, A', by omega, hu.toUnmapped, ⟨K, hu.straddling_eq rfl, hu.toCuts⟩, hu'⟩
  · refine wp_post (unmapLoop_top hhi (by omega) (by omega) h htop) ?_
    rintro _ s' ⟨A', hu'⟩
    refine ⟨lo, s, A, A', by omega, .refl h, ⟨∅, ?_, .refl A lo⟩, hu'⟩
    rw [Finset.coe_empty, h.straddling_top (by omega)]

end Result

/-- For every page table, every page aligned `va` and every range below `MAXVA` of which the
frames are pages of the allocator, if 514 pages are free or no huge page lies across an end of
the range, `uvmunmap` returns and has emptied the range. -/
theorem uvmunmap_exact {s : Phys} {R : Set ℕ} {rest : Set (ℕ × ℕ)} {A : PTree} {va npages : ℕ}
    (h : Uvm s R rest A) (hal : va % pgSize = 0) (hva : va + npages * pgSize ≤ maxVa)
    (htop : TopHeld A rest (va / pgSize) (va / pgSize + npages))
    (hmem : 514 ≤ s.freeCount ∨ A.straddling (va / pgSize) (va / pgSize + npages) = ∅) :
    ∃ s' A', (uvmunmap A.root va npages true).run s = .ok ((), s') ∧
      Emptied R rest s A (va / pgSize) (va / pgSize + npages) s' A' := by
  have hlo : va = 4096 * (va / pgSize) := by
    simp only [pgSize] at hal ⊢
    omega
  have hhi : va / pgSize + npages ≤ 2 ^ 26 := by
    simp only [pgSize, maxVa] at hva ⊢
    omega
  have hw := uvmunmap_passed h hhi htop (Or.inr hmem.symm)
  rw [← hlo] at hw
  obtain ⟨_, s', hrun, mid, s₁, A₁, A', hp⟩ := wp_noPanic_iff.1 hw
  refine ⟨s', A', hrun, ⟨hp.rest.root.trans hp.unmapped.top.root, hp.uvm,
    fun v h1 h2 => hp.lookup_inside h1 h2, fun v _ hv => hp.view_eq hv, fun v ht hv => ?_, ?_,
    fun v hv hk => hp.lookup_eq hv hk, hp.count h htop, hp.returned h htop⟩⟩
  · refine hp.lookup_eq hv ?_
    rintro ⟨⟨pa, fl, he⟩, -⟩
    have := PTree.user_one.1 (h.huge _ _ _ he)
    omega
  · rw [← hp.topFrames_eq]
    exact (hp.unmapped.keeps.mono Set.sdiff_subset).trans
      (hp.rest.keeps.mono Set.subset_union_right)

/-- The last page of a huge page is unmapped : it is split, and 511 pages stay. -/
theorem uvmunmap_exact_last : ∃ s s' A', (uvmunmap 0x80200000 2093056 1 true).run s = .ok ((), s') ∧
    Emptied sampleEnd.managed {(0x80205000, 0)} s (sampleTree true) 511 512 s' A' := by
  obtain ⟨s, -, hA⟩ := exists_sample true ∅ nofun
  have hrest : insert (0x80205000, 0) (blocksAt ((∅ : Finset ℕ) : Set ℕ) 0) =
      {(0x80205000, 0)} := by
    ext b
    simp [blocksAt]
  have hc := sample_census hA (Finset.notMem_empty _)
  have ht := sampleTree_ncard_tables_le true
  rw [Finset.card_empty] at hc
  rw [hrest] at hA
  have htop : TopHeld (sampleTree true) {(0x80205000, 0)} (2093056 / pgSize)
      (2093056 / pgSize + 1) := by
    have hlow : ∀ k, topVpn ≤ k → ¬k < 2093056 / pgSize + 1 := by
      intro k hk
      simp only [topVpn, pgSize] at hk ⊢
      omega
    refine ⟨?_, fun k k' pa fl fl' hk => absurd hk.2.2.1 (hlow k hk.1)⟩
    rintro b ⟨-, k, fl, hk, -, hlt, -⟩
    exact absurd hlt (hlow k hk)
  obtain ⟨s', A', hrun, he⟩ := uvmunmap_exact hA.uvm (by decide) (by decide) htop
    (Or.inl (by omega))
  rw [show 2093056 / pgSize = 511 from rfl] at he
  exact ⟨s, s', A', hrun, he⟩

end Xv6Plus
