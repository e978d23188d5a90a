import Xv6Plus.Collapse

/-!
# Unmapping

`uvmunmap` removes a range of pages from the view and changes nothing else. A turn of its
loop passes a page that is not mapped, frees a page or a whole huge page, or splits a huge
page of which only a part is in the range; a split changes no view, and after it the turn
is taken again (`unmapLoop_spec`). The only panic is a split that runs out of memory, and
it needs a huge page that lies across an end of the range.
-/

namespace Xv6Plus

/-- `A'` is `A` with the pages from `lo` to `hi` unmapped. -/
structure Unmapped (R : Set ℕ) (rest : Set (ℕ × ℕ)) (s : Phys) (A : PTree) (lo hi : ℕ) (s' : Phys)
    (A' : PTree) : Prop where
  uvm : Uvm s' R rest A'
  top : A.SameTop A'
  keeps : Keeps rest s s'
  view : ∀ v, A'.view s'.mem v = if lo ≤ v ∧ v < hi then none else A.view s.mem v
  /-- No huge page is new. -/
  sub : ∀ k pa fl, A'.ent 1 k = .leaf pa fl → A.ent 1 k = .leaf pa fl

namespace Unmapped

variable {s s' s'' : Phys} {R : Set ℕ} {rest : Set (ℕ × ℕ)} {A A' A'' : PTree} {lo mid hi v : ℕ}

theorem refl (h : Uvm s R rest A) : Unmapped R rest s A v v s A :=
  ⟨h, .refl A, .refl _ _, fun _ => (if_neg (by omega)).symm, fun _ _ _ he => he⟩

theorem trans (h : Unmapped R rest s A lo mid s' A') (h' : Unmapped R rest s' A' mid hi s'' A'')
    (h1 : lo ≤ mid) (h2 : mid ≤ hi) : Unmapped R rest s A lo hi s'' A'' := by
  refine ⟨h'.uvm, h.top.trans h'.top, h.keeps.trans h'.keeps, fun v => ?_,
    fun k pa fl he => h.sub k pa fl (h'.sub k pa fl he)⟩
  rw [h'.view, h.view]
  split_ifs <;> first | rfl | omega

theorem skip (h : Uvm s R rest A) (hv : A.lookup v = none) :
    Unmapped R rest s A v (v + 1) s A := by
  refine ⟨h, .refl A, .refl _ _, fun v' => ?_, fun _ _ _ he => he⟩
  split_ifs with hc
  · obtain rfl : v' = v := by omega
    by_cases ht : v' < topVpn
    · rw [PTree.view_eq_none ht, hv]
    · exact PTree.view_of_ge (by omega)
  · rfl

end Unmapped

/-! ## Splits -/

/-- The huge pages that lie across an end of the range from `lo` to `hi`. -/
def PTree.straddling (A : PTree) (lo hi : ℕ) : Set ℕ :=
  {k | (∃ pa fl, A.ent 1 k = .leaf pa fl) ∧ (∃ v, lo ≤ v ∧ v < hi ∧ v / 512 = k) ∧
    (512 * k < lo ∨ hi < 512 * k + 512)}

/-- No huge page lies across an end of the range. -/
def NoStraddle (A : PTree) (lo hi : ℕ) : Prop :=
  ∀ k pa fl, A.ent 1 k = .leaf pa fl →
    512 * k + 512 ≤ lo ∨ hi ≤ 512 * k ∨ (lo ≤ 512 * k ∧ 512 * k + 512 ≤ hi)

/-- On the way from `A` to `A'` the huge pages `K` were split : there is a table more for each
of them, and nothing else outside of the range from `lo` to `hi` has changed. -/
structure Cuts (A A' : PTree) (lo hi : ℕ) (K : Finset ℕ) : Prop where
  leaf : ∀ k ∈ K, ∃ pa fl, A.ent 1 k = .leaf pa fl
  gone : ∀ k ∈ K, ∀ pa fl, A'.ent 1 k ≠ .leaf pa fl
  kept : ∀ k pa fl, A.ent 1 k = .leaf pa fl → k ∉ K →
    A'.ent 1 k = .leaf pa fl ∨ (lo ≤ 512 * k ∧ 512 * k + 512 ≤ hi)
  lookup : ∀ v, v < lo ∨ hi ≤ v → v / 512 ∉ K → A'.lookup v = A.lookup v
  grow : A.tables ⊆ A'.tables
  tables : A'.tables.ncard = A.tables.ncard + K.card

section Cuts

variable {A A' A'' : PTree} {lo mid hi v : ℕ} {K K' : Finset ℕ}

theorem NoStraddle.straddling_eq (h : NoStraddle A lo hi) : A.straddling lo hi = ∅ := by
  refine Set.eq_empty_of_forall_notMem ?_
  rintro k ⟨⟨pa, fl, he⟩, ⟨v, h1, h2, rfl⟩, hc⟩
  have := h _ pa fl he
  omega

theorem Cuts.refl (A : PTree) (v : ℕ) : Cuts A A v v ∅ where
  leaf := nofun
  gone := nofun
  kept _ _ _ he _ := Or.inl he
  lookup _ _ _ := rfl
  grow := subset_rfl
  tables := rfl

theorem Cuts.skip (h : Cuts A A' lo hi K) (hle : hi ≤ mid) : Cuts A A' lo mid K where
  leaf := h.leaf
  gone := h.gone
  kept k pa fl he hk := (h.kept k pa fl he hk).imp_right fun hc => ⟨hc.1, hc.2.trans hle⟩
  lookup v hv := h.lookup v (by omega)
  grow := h.grow
  tables := h.tables

theorem Cuts.trans (h : Cuts A A' lo mid K) (h' : Cuts A' A'' mid hi K') (h1 : lo ≤ mid)
    (h2 : mid ≤ hi) (hsub : ∀ k pa fl, A'.ent 1 k = .leaf pa fl → A.ent 1 k = .leaf pa fl)
    (hsub' : ∀ k pa fl, A''.ent 1 k = .leaf pa fl → A'.ent 1 k = .leaf pa fl) :
    Cuts A A'' lo hi (K ∪ K') := by
  refine ⟨fun k hk => ?_, fun k hk pa fl he => ?_, fun k pa fl he hk => ?_, fun v hv hk => ?_,
    h.grow.trans h'.grow, ?_⟩
  · rcases Finset.mem_union.1 hk with hk | hk
    · exact h.leaf k hk
    · obtain ⟨pa, fl, he⟩ := h'.leaf k hk
      exact ⟨pa, fl, hsub k pa fl he⟩
  · rcases Finset.mem_union.1 hk with hk | hk
    · exact h.gone k hk pa fl (hsub' k pa fl he)
    · exact h'.gone k hk pa fl he
  · rw [Finset.mem_union, not_or] at hk
    rcases h.kept k pa fl he hk.1 with he' | hc
    · rcases h'.kept k pa fl he' hk.2 with he'' | hc
      · exact Or.inl he''
      · exact Or.inr (by omega)
    · exact Or.inr (by omega)
  · rw [Finset.mem_union, not_or] at hk
    rw [h'.lookup v (by omega) hk.2, h.lookup v (by omega) hk.1]
  · have hd : Disjoint K K' := Finset.disjoint_left.2 fun k hk hk' => by
      obtain ⟨pa, fl, he⟩ := h'.leaf k hk'
      exact h.gone k hk pa fl he
    rw [h'.tables, h.tables, Finset.card_union_of_disjoint hd, Nat.add_assoc]

end Cuts

section Clear

variable {s s₁ : Phys} {R : Set ℕ} {rest : Set (ℕ × ℕ)} {A : PTree} {L k pa fl p v : ℕ}

/-- The block of a leaf has been freed, and its entry is cleared. -/
theorem Uvm.cleared (h : Uvm s R rest A) (he : A.ent L k = .leaf pa fl) (hL : L < 2)
    (hu : PTree.User L k) (ht : A.IsTable L (k / 512) p)
    (h₁ : PT s₁ R ((A.leaves ∪ rest) \ {(pa, 9 * L)}) A)
    (hk₁ : Keeps (A.tables ∪ (A.leaves ∪ rest) \ {(pa, 9 * L)}) s s₁) :
    Unmapped R rest s A (512 ^ L * k) (512 ^ L * (k + 1))
        (s₁.setMem (write64 s₁.mem (p + 8 * (k % 512)) 0)) (A.put L k .absent PTree.noKids) ∧
      Cuts A (A.put L k .absent PTree.noKids) (512 ^ L * k) (512 ^ L * (k + 1)) ∅ := by
  have hok := h.pt.ok
  have hold : ∀ q, A.ent L k ≠ .table q := by
    rw [he]
    exact fun _ => Entry.noConfusion
  obtain ⟨h₂, hk₂⟩ := h₁.set (.of_absent hL ht) hold fun _ => Entry.noConfusion
  rw [show Entry.absent.bits = 0 from rfl] at h₂ hk₂
  have huvm := h.remove_leaf he hL hu h₂
  have hown : A.OwnLeaf L k pa := ⟨⟨fl, he⟩, hu⟩
  have hnot : (pa, 9 * L) ∉ rest := Set.disjoint_left.1 h.apart ⟨L, k, hown, rfl⟩
  have hleaves := PTree.leaves_remove hok (by omega) he hu fun k' hk' => h.inj L k' k pa hk' hown
  have htables := PTree.tables_put_same (.of_absent hL ht) hold fun _ => Entry.noConfusion
  have hkeep : Keeps ((A.leaves ∪ rest) \ {(pa, 9 * L)}) s
      (s₁.setMem (write64 s₁.mem (p + 8 * (k % 512)) 0)) :=
    (hk₁.mono Set.subset_union_right).trans hk₂
  have hkl : Keeps (A.put L k .absent PTree.noKids).leaves s
      (s₁.setMem (write64 s₁.mem (p + 8 * (k % 512)) 0)) := by
    rw [hleaves]
    exact hkeep.mono fun b hb => ⟨Or.inl hb.1, hb.2⟩
  -- the lookups of the new tree
  have hlook : ∀ v, (A.put L k .absent PTree.noKids).lookup v =
      if 512 ^ L * k ≤ v ∧ v < 512 ^ L * (k + 1) then none else A.lookup v := by
    intro v
    rcases (by omega : L = 0 ∨ L = 1) with rfl | rfl
    · split_ifs with hc
      · obtain rfl : v = k := by omega
        refine PTree.lookup_absent (fun b f hb => ?_) PTree.put_same
        rw [PTree.put_other (by omega) (by omega)] at hb
        exact ht.not_leaf b f hb
      · exact PTree.lookup_set_page_ne (by omega)
    · split_ifs with hc
      · have hv : v / 512 = k := by omega
        subst hv
        refine PTree.lookup_absent (fun b f hb => ?_) (PTree.put_kid rfl rfl)
        rw [PTree.put_same] at hb
        cases hb
      · exact PTree.lookup_set_huge_ne hok hold (by omega)
  refine ⟨⟨huvm, ⟨rfl, fun k' hk' => ?_⟩, hkeep.mono fun b hb => ⟨Or.inr hb, ?_⟩, fun v => ?_,
    fun k' pa' fl' he' => ?_⟩, nofun, nofun, fun k' pa' fl' he' _ => ?_, fun v hv _ => ?_,
      htables.ge, ?_⟩
  · refine PTree.put_noKids hok (by omega) hold ?_
    rintro ⟨rfl, rfl⟩
    have := PTree.user_zero.1 hu
    omega
  · rintro rfl
    exact hnot hb
  · split_ifs with hc
    · by_cases hv : v < topVpn
      · rw [PTree.view_eq_none hv, hlook, if_pos hc]
      · exact PTree.view_of_ge (by omega)
    · refine PTree.view_congr (fun _ => ?_) fun pa' fl' hv hl => ?_
      · rw [hlook, if_neg hc]
      · have hl' : (A.put L k .absent PTree.noKids).lookup v = some (pa', fl') := by
          rw [hlook, if_neg hc, hl]
        exact PTree.lookup_keeps huvm.huge hkl v pa' fl' hv hl'
  · by_cases hc : 1 = L ∧ k' = k
    · obtain ⟨rfl, rfl⟩ := hc
      rw [PTree.put_same] at he'
      cases he'
    · rw [PTree.put_noKids hok (by omega) hold hc] at he'
      exact he'
  · by_cases hc : 1 = L ∧ k' = k
    · obtain ⟨rfl, rfl⟩ := hc
      exact Or.inr (by omega)
    · rw [PTree.put_noKids hok (by omega) hold hc]
      exact Or.inl he'
  · rw [hlook, if_neg (by omega)]
  · rw [htables]
    rfl

end Clear

/-! ## The loop -/

section Loop

variable {R : Set ℕ} {rest : Set (ℕ × ℕ)} {E : String → Prop} {lo hi : ℕ}

/-- The loop over the pages from `lo` to `hi` has come to `w`. -/
structure Unmapping (R : Set ℕ) (rest : Set (ℕ × ℕ)) (s₀ : Phys) (A₀ : PTree) (lo w hi : ℕ)
    (K : Finset ℕ) (s : Phys) (A : PTree) : Prop
    extends Unmapped R rest s₀ A₀ lo w s A, Cuts A₀ A lo w K where
  cut : ∀ k ∈ K, k ∈ A₀.straddling lo hi ∧ 512 * k ≤ w

namespace Unmapping

variable {s₀ s s' : Phys} {A₀ A A' : PTree} {v w : ℕ} {K : Finset ℕ}

theorem refl (h : Uvm s R rest A) : Unmapping R rest s A lo lo hi ∅ s A :=
  ⟨.refl h, .refl A lo, nofun⟩

/-- A turn that unmaps the pages from `v` to `w`. -/
theorem next (h : Unmapping R rest s₀ A₀ lo v hi K s A) (hu : Unmapped R rest s A v w s' A')
    (hc : Cuts A A' v w ∅) (h1 : lo ≤ v) (h2 : v ≤ w) :
    Unmapping R rest s₀ A₀ lo w hi K s' A' := by
  have hcuts := h.toCuts.trans hc h1 h2 h.sub hu.sub
  rw [Finset.union_empty] at hcuts
  exact ⟨h.toUnmapped.trans hu h1 h2, hcuts, fun k hk => ⟨(h.cut k hk).1, by
    have := (h.cut k hk).2
    omega⟩⟩

/-- A turn that splits the huge page at `v`. -/
theorem split (h : Unmapping R rest s₀ A₀ lo v hi K s A) (hu : Unmapped R rest s A v v s' A')
    (hc : Cuts A A' v v {v / 512}) (hk : v / 512 ∈ A₀.straddling lo hi) (h1 : lo ≤ v) :
    Unmapping R rest s₀ A₀ lo v hi (K ∪ {v / 512}) s' A' := by
  refine ⟨h.toUnmapped.trans hu h1 le_rfl, h.toCuts.trans hc h1 le_rfl h.sub hu.sub, ?_⟩
  intro k hk'
  rcases Finset.mem_union.1 hk' with hk' | hk'
  · exact h.cut k hk'
  · rw [Finset.mem_singleton.1 hk']
    exact ⟨hk, by omega⟩

/-- A huge page over `v` that is not in the range from `v` on lies across an end. -/
theorem mem_straddling (h : Unmapping R rest s₀ A₀ lo v hi K s A) {pa fl : ℕ}
    (he : A.ent 1 (v / 512) = .leaf pa fl) (h1 : lo ≤ v) (h2 : v < hi)
    (hc : 512 * (v / 512) ≠ v ∨ hi < v + 512) : v / 512 ∈ A₀.straddling lo hi := by
  refine ⟨⟨pa, fl, h.sub _ _ _ he⟩, ⟨v, h1, h2, rfl⟩, ?_⟩
  by_cases hs : 512 * (v / 512) = v
  · omega
  · -- the page at its start would have been unmapped
    by_contra hlo
    have hnone := h.view (512 * (v / 512))
    rw [if_pos (by omega)] at hnone
    exact h.uvm.huge_view he (j := 0) (by omega) hnone

theorem mapped_eq (h : Unmapping R rest s₀ A₀ lo w hi K s A) :
    A.mapped = A₀.mapped \ Set.Ico lo w := by
  ext v
  rw [Set.mem_sdiff, PTree.mem_mapped (m := s.mem), PTree.mem_mapped (m := s₀.mem), h.view,
    Set.mem_Ico]
  split_ifs with hc
  · exact iff_of_false (fun hn => hn rfl) fun hn => hn.2 hc
  · exact (and_iff_left hc).symm

theorem census (h : Unmapping R rest s₀ A₀ lo w hi K s A) (h₀ : Uvm s₀ R rest A₀) :
    s.freeCount + K.card = s₀.freeCount + (A₀.mapped ∩ Set.Ico lo w).ncard := by
  have hc₀ := h₀.census
  have hc := h.uvm.census
  have hm := Set.ncard_inter_add_ncard_sdiff_eq_ncard A₀.mapped (Set.Ico lo w) A₀.mapped_finite
  rw [h.mapped_eq, h.tables] at hc
  omega

/-- A split leaves a page less, but then the loop gives back a page of what was split. -/
theorem room (h : Unmapping R rest s₀ A₀ lo v hi K s A) (h₀ : Uvm s₀ R rest A₀) (h1 : lo ≤ v)
    (h2 : v < hi) (hv : v / 512 ∉ K) : s₀.freeCount ≤ s.freeCount := by
  have hc := h.census h₀
  rcases K.eq_empty_or_nonempty with rfl | ⟨k, hk⟩
  · rw [Finset.card_empty] at hc
    omega
  · -- only the huge page over `lo` can have been split
    have hlow : ∀ k ∈ K, k = lo / 512 ∧ 512 * k + 512 ≤ v := by
      intro k hk
      obtain ⟨⟨-, ⟨x, hx1, hx2, rfl⟩, hend⟩, hle⟩ := h.cut k hk
      have hne : x / 512 ≠ v / 512 := fun he => hv (he ▸ hk)
      omega
    have hcard : K.card ≤ 1 := by
      refine Finset.card_le_one.2 fun a ha b hb => ?_
      rw [(hlow a ha).1, (hlow b hb).1]
    obtain ⟨rfl, hle⟩ := hlow k hk
    obtain ⟨pa, fl, he⟩ := h.leaf _ hk
    have hu := PTree.user_one.1 (h₀.huge _ _ _ he)
    have hmem : lo ∈ A₀.mapped ∩ Set.Ico lo v := by
      refine ⟨⟨by omega, ?_⟩, Set.left_mem_Ico.2 (by omega)⟩
      rw [PTree.lookup_huge he]
      exact Option.some_ne_none _
    have := (Set.ncard_pos (A₀.mapped_finite.subset Set.inter_subset_left)).2 ⟨lo, hmem⟩
    omega

/-- At the end every huge page across an end has been split. -/
theorem straddling_eq (h : Unmapping R rest s₀ A₀ lo w hi K s A) (hw : w = min hi topVpn) :
    (K : Set ℕ) = A₀.straddling lo hi := by
  refine Set.Subset.antisymm (fun k hk => (h.cut k hk).1) ?_
  rintro k ⟨⟨pa, fl, he⟩, ⟨v, h1, h2, rfl⟩, hend⟩
  by_contra hk
  rcases h.kept _ pa fl he hk with he' | hc
  · have hu := PTree.user_one.1 (h.uvm.huge _ _ _ he')
    have hne := h.uvm.huge_view he' (j := v % 512) (Nat.mod_lt _ (by omega))
    rw [Nat.div_add_mod, h.view, if_pos (by omega)] at hne
    exact hne rfl
  · omega

end Unmapping

/-- The loop of `uvmunmap` with `split` in the place of `split_huge_page`. -/
def unmapLoopWith (split : ℕ → ℕ → Kern Phys ℤ) (pagetable stop : ℕ) (doFree : Bool) :
    ℕ → ℕ → Kern Phys Unit
  | 0, _ => pure ()
  | turns + 1, a =>
    if a < stop then do
      match ← walkWithLevel pagetable a false with
      | none => unmapLoopWith split pagetable stop doFree turns (a + pgSize)
      | some (pte, level) =>
        let e ← load64 pte
        if e &&& pteV = 0 then
          unmapLoopWith split pagetable stop doFree turns (a + pgSize)
        else
          let leafSize := levelPageSize level
          let blockStart := a - a % leafSize
          let blockEnd := blockStart + leafSize
          if level > 0 ∧ (blockStart ≠ a ∨ blockEnd > stop) then
            let r ← split pagetable blockStart
            if r ≠ 0 then throw "uvmunmap split"
            else unmapLoopWith split pagetable stop doFree turns a
          else
            if doFree then
              if level = 0 then kfree (pte2pa e)
              else if level = 1 then kfreeHuge (pte2pa e)
              else throw "uvmunmap lvl"
            store64 pte 0
            unmapLoopWith split pagetable stop doFree turns
              (if level > 0 then blockEnd else a + pgSize)
    else pure ()

/-- `uvmunmap` with `split` in the place of `split_huge_page`. -/
def uvmunmapWith (split : ℕ → ℕ → Kern Phys ℤ) (pagetable va npages : ℕ) (doFree : Bool) :
    Kern Phys Unit :=
  if va % pgSize ≠ 0 then throw "uvmunmap: not aligned"
  else unmapLoopWith split pagetable (wrap64 (va + npages * pgSize)) doFree (2 * npages + 1) va

theorem unmapLoop_eq (pagetable stop : ℕ) (doFree : Bool) : ∀ turns a,
    unmapLoop pagetable stop doFree turns a =
      unmapLoopWith splitHugePage pagetable stop doFree turns a
  | 0, _ => rfl
  | turns + 1, a => by
    have hrest : unmapLoop pagetable stop doFree turns =
        unmapLoopWith splitHugePage pagetable stop doFree turns :=
      funext (unmapLoop_eq pagetable stop doFree turns)
    rw [unmapLoop, hrest]
    rfl

theorem unmapLoopWith_stop {split : ℕ → ℕ → Kern Phys ℤ} {pagetable stop a : ℕ} {doFree : Bool}
    (h : stop ≤ a) : ∀ turns, unmapLoopWith split pagetable stop doFree turns a = pure ()
  | 0 => rfl
  | _ + 1 => by rw [unmapLoopWith, if_neg (by omega)]

theorem uvmunmap_eq : uvmunmap = uvmunmapWith splitHugePage := by
  funext pagetable va npages doFree
  rw [uvmunmap, uvmunmapWith, unmapLoop_eq]

/-- A split may fail, or none is needed, or there is memory for it. -/
def Splittable (E : String → Prop) (s : Phys) (A : PTree) (lo hi : ℕ) : Prop :=
  E "uvmunmap split" ∨ A.straddling lo hi = ∅ ∨ 514 ≤ s.freeCount

/-- The loop up to the top of the user memory; `hdone` is what comes after that. -/
theorem unmapLoop_user {split : ℕ → ℕ → Kern Phys ℤ} {s₀ : Phys} {A₀ : PTree} {mid : ℕ}
    {Q : Unit → Phys → Prop} (h₀ : Uvm s₀ R rest A₀)
    (hsplit : split = splitHugePage ∨ A₀.straddling lo hi = ∅) (hroom : Splittable E s₀ A₀ lo hi)
    (hmid : mid = min hi topVpn)
    (hdone : ∀ {turns K s A}, 2 * (hi - mid) ≤ turns → Unmapping R rest s₀ A₀ lo mid hi K s A →
      wp (unmapLoopWith split A₀.root (4096 * hi) true turns (4096 * mid)) Q E s) :
    ∀ {turns v : ℕ} {K : Finset ℕ} {s : Phys} {A : PTree}, lo ≤ v → v ≤ mid →
    2 * (hi - v) ≤ turns →
    ((∃ pa fl, A.ent 1 (v / 512) = .leaf pa fl) → v < hi → 2 * (hi - v) + 1 ≤ turns) →
    Unmapping R rest s₀ A₀ lo v hi K s A →
    wp (unmapLoopWith split A₀.root (4096 * hi) true turns (4096 * v)) Q E s
  | 0, v, K, s, A, hlo, hle, hf, _, h => by
    obtain rfl : v = mid := by omega
    exact hdone hf h
  | turns + 1, v, K, s, A, hlo, hle, hf, hfh, h => by
    by_cases hvm : v = mid
    · subst hvm
      exact hdone hf h
    have hok := h.uvm.pt.ok
    have hv : v < hi := by omega
    have hvt : v < topVpn := by omega
    -- the rest of the loop, after a turn that unmapped the pages up to `w`
    have hnext : ∀ {w s' A'}, v < w → w ≤ mid → Unmapped R rest s A v w s' A' →
        Cuts A A' v w ∅ →
        wp (unmapLoopWith split A₀.root (4096 * hi) true turns (4096 * w)) Q E s' :=
      fun hvw hwm hu hc => unmapLoop_user h₀ hsplit hroom hmid hdone (by omega) hwm (by omega)
        (fun _ _ => by omega) (h.next hu hc hlo hvw.le)
    have hskip : A.lookup v = none →
        wp (unmapLoopWith split A₀.root (4096 * hi) true turns (4096 * (v + 1))) Q E s := fun hl =>
      hnext (Nat.lt_succ_self v) (by omega) (.skip h.uvm hl) ((Cuts.refl A v).skip (by omega))
    rw [unmapLoopWith, if_pos (by omega), wp_bind, ← h.top.root]
    refine wp_post (walkWithLevel_spec h.uvm.pt (by simp only [topVpn] at hvt; omega)) ?_
    rintro r s' ⟨rfl, hfound⟩
    rw [Nat.mul_div_cancel_left _ (by omega)] at hfound
    rw [h.top.root]
    cases hfound with
    | missing h1 h0 => exact hskip (PTree.lookup_absent h1 h0)
    | page ht =>
      dsimp only
      rw [wp_bind, wp_load64, h.uvm.pt.rep.entry ht]
      cases he : A.ent 0 v with
      | absent =>
        rw [if_pos (not_not.1 absent_valid)]
        exact hskip (PTree.lookup_absent ht.not_leaf he)
      | table t => exact absurd he (hok.bottom v t)
      | leaf pa fl =>
        have hl := hok.leaves _ _ _ _ he
        have hu : PTree.User 0 v := PTree.user_zero.2 hvt
        rw [if_neg hl.bits_valid, if_neg (by omega), hl.bits_pa, if_pos rfl, if_pos rfl, wp_bind]
        refine wp_mono (h.uvm.pt.kfree_spec (Or.inl ⟨0, v, ⟨⟨fl, he⟩, hu⟩, rfl⟩)) ?_
          fun _ hf => hf.elim
        rintro _ s₁ ⟨h₁, hk₁⟩
        obtain ⟨hcl, hc⟩ := h.uvm.cleared he (by omega) hu ht h₁ hk₁
        rw [pow_zero, Nat.one_mul, Nat.one_mul] at hcl hc
        rw [wp_bind, wp_store64, if_neg (by omega)]
        exact hnext (Nat.lt_succ_self v) (by omega) hcl hc
    | @huge pg pa fl ht he =>
      have hl := hok.leaves _ _ _ _ he
      have hu : PTree.User 1 (v / 512) := h.uvm.huge _ _ _ he
      have hu' := PTree.user_one.1 hu
      dsimp only
      rw [wp_bind, wp_load64, h.uvm.pt.rep.entry ht, he, if_neg hl.bits_valid, levelPageSize_one,
        wp_ite]
      refine ⟨fun hc => ?_, fun hc => ?_⟩
      · -- a part of the huge page : it is split, and the turn is taken again
        have hst := h.mem_straddling he hlo hv (by omega)
        obtain rfl : split = splitHugePage := hsplit.resolve_right fun he =>
          Set.eq_empty_iff_forall_notMem.1 he _ hst
        rw [wp_bind, ← h.top.root]
        refine wp_mono (splitHugePage_spec h.uvm he (by omega)) ?_ fun _ hf => hf.elim
        rintro r s₁ ⟨A₁, h₁, htop, hview, hk, ⟨rfl, rfl, hfew⟩ |
          ⟨rfl, -, hno, hother, hlook, hgrow, hcard⟩⟩
        · rw [if_pos (by decide), wp_throw]
          rcases hroom with hE | hns | hmem
          · exact hE
          · exact absurd hst (Set.eq_empty_iff_forall_notMem.1 hns _)
          · have := h.room h₀ hlo hv fun hk => h.gone _ hk pa fl he
            omega
        · have hu₁ : Unmapped R rest s' A v v s₁ A₁ := by
            refine ⟨h₁, htop, hk, fun v' => ?_, fun k' pa' fl' he' => ?_⟩
            · rw [hview, if_neg (by omega)]
            · by_cases hk' : k' = v / 512
              · exact absurd he' (hk' ▸ hno pa' fl')
              · rw [← hother k' hk']
                exact he'
          have hc₁ : Cuts A A₁ v v {v / 512} := by
            refine ⟨fun k hk => ?_, fun k hk => ?_, fun k pa' fl' he' hk => ?_, fun v' _ hk => ?_,
              hgrow, ?_⟩
            · rw [Finset.mem_singleton.1 hk]
              exact ⟨pa, fl, he⟩
            · rw [Finset.mem_singleton.1 hk]
              exact hno
            · rw [hother k (Finset.notMem_singleton.1 hk)]
              exact Or.inl he'
            · exact hlook v' (Finset.notMem_singleton.1 hk)
            · rw [hcard, Finset.card_singleton]
          rw [if_neg (by decide), h.top.root]
          refine unmapLoop_user h₀ hsplit hroom hmid hdone hlo hle ?_ ?_ (h.split hu₁ hc₁ hst hlo)
          · have := hfh ⟨pa, fl, he⟩ hv
            omega
          · rintro ⟨pa', fl', he'⟩
            exact absurd he' (hno pa' fl')
      · -- the whole huge page
        rw [if_pos rfl, if_neg (by decide), if_pos rfl, hl.bits_pa, wp_bind]
        refine wp_mono (h.uvm.pt.kfreeHuge_spec (Or.inl ⟨1, _, ⟨⟨fl, he⟩, hu⟩, rfl⟩)) ?_
          fun _ hf => hf.elim
        rintro _ s₁ ⟨h₁, hk₁⟩
        obtain ⟨hcl, hc'⟩ := h.uvm.cleared he (by omega) hu ht h₁ hk₁
        rw [show 512 ^ 1 * (v / 512) = v by omega, show 512 ^ 1 * (v / 512 + 1) = v + 512 by omega]
          at hcl hc'
        rw [wp_bind, wp_store64, if_pos (by omega),
          show 4096 * v - 4096 * v % 2097152 + 2097152 = 4096 * (v + 512) by omega]
        exact hnext (by omega) (by omega) hcl hc'

variable {s : Phys} {A : PTree} {n k : ℕ}

/-- The range is unmapped, and the huge pages across its ends were split. -/
def UnmapPost (R : Set ℕ) (rest : Set (ℕ × ℕ)) (s : Phys) (A : PTree) (lo hi : ℕ) (s' : Phys) :
    Prop :=
  ∃ A' K, Unmapped R rest s A lo hi s' A' ∧ Cuts A A' lo hi K ∧ (K : Set ℕ) = A.straddling lo hi

theorem UnmapPost.refl (h : Uvm s R rest A) : UnmapPost R rest s A n n s :=
  ⟨A, ∅, .refl h, .refl A n, by
    rw [Finset.coe_empty]
    refine (Set.eq_empty_of_forall_notMem ?_).symm
    rintro k ⟨-, ⟨v, h1, h2, -⟩, -⟩
    omega⟩

theorem uvmunmapWith_spec (lo : ℕ) {split : ℕ → ℕ → Kern Phys ℤ} (h : Uvm s R rest A)
    (hn : lo + n ≤ topVpn) (hsplit : split = splitHugePage ∨ A.straddling lo (lo + n) = ∅)
    (hroom : Splittable E s A lo (lo + n)) :
    wp (uvmunmapWith split A.root (4096 * lo) n true)
      (fun _ s' => UnmapPost R rest s A lo (lo + n) s') E s := by
  have hn' := hn
  simp only [topVpn] at hn'
  rw [uvmunmapWith, if_neg (by simp only [pgSize]; omega), wrap64, Nat.mod_eq_of_lt (by
    simp only [pgSize]
    omega), show 4096 * lo + n * pgSize = 4096 * (lo + n) by simp only [pgSize]; omega]
  refine unmapLoop_user h hsplit hroom (min_eq_left hn).symm ?_ le_rfl (by omega) (by omega)
    (fun _ _ => by omega) (.refl h)
  intro turns K s' A' _ hu
  rw [unmapLoopWith_stop le_rfl, wp_pure]
  exact ⟨A', K, hu.toUnmapped, hu.toCuts, hu.straddling_eq (min_eq_left hn).symm⟩

theorem uvmunmap_spec (lo : ℕ) (h : Uvm s R rest A) (hn : lo + n ≤ topVpn)
    (hroom : Splittable E s A lo (lo + n)) :
    wp (uvmunmap A.root (4096 * lo) n true)
      (fun _ s' => UnmapPost R rest s A lo (lo + n) s') E s := by
  rw [uvmunmap_eq]
  exact uvmunmapWith_spec lo h hn (Or.inl rfl) hroom

/-- A page at the top is unmapped, and its frame is not freed. -/
theorem uvmunmap_top_spec (split : ℕ → ℕ → Kern Phys ℤ) (h : Uvm s R rest A) (hk : topVpn ≤ k)
    (hk' : k < 2 ^ 26) :
    wp (uvmunmapWith split A.root (4096 * k) 1 false) (fun _ s' => ∃ A', Uvm s' R rest A' ∧
      A'.root = A.root ∧ A'.ent 0 k = .absent ∧ (∀ k' ≠ k, A'.ent 0 k' = A.ent 0 k') ∧
      A'.view s'.mem = A.view s.mem ∧ Keeps rest s s') noPanic s := by
  have hok := h.pt.ok
  -- the page was not mapped
  have habs : A.ent 0 k = .absent → ∃ A', Uvm s R rest A' ∧
      A'.root = A.root ∧ A'.ent 0 k = .absent ∧ (∀ k' ≠ k, A'.ent 0 k' = A.ent 0 k') ∧
      A'.view s.mem = A.view s.mem ∧ Keeps rest s s := fun he =>
    ⟨A, h, rfl, he, fun _ _ => rfl, rfl, .refl _ _⟩
  rw [uvmunmapWith, if_neg (by simp only [pgSize]; omega), wrap64, Nat.mod_eq_of_lt (by
    simp only [pgSize]
    omega), show 4096 * k + 1 * pgSize = 4096 * (k + 1) by simp only [pgSize]; omega,
    unmapLoopWith, if_pos (by omega), wp_bind]
  refine wp_post (walkWithLevel_spec h.pt (by omega)) ?_
  rintro r s' ⟨rfl, hfound⟩
  rw [Nat.mul_div_cancel_left _ (by omega)] at hfound
  cases hfound with
  | missing h1 h0 =>
    dsimp only
    rw [unmapLoopWith_stop (by simp only [pgSize]; omega), wp_pure]
    exact habs h0
  | huge ht he =>
    have := PTree.user_one.1 (h.huge _ _ _ he)
    omega
  | page ht =>
    dsimp only
    rw [wp_bind, wp_load64, h.pt.rep.entry ht]
    cases he : A.ent 0 k with
    | absent =>
      rw [if_pos (not_not.1 absent_valid), unmapLoopWith_stop (by simp only [pgSize]; omega),
        wp_pure]
      exact habs he
    | table t => exact absurd he (hok.bottom k t)
    | leaf pa fl =>
      have hl := hok.leaves _ _ _ _ he
      obtain ⟨h₁, hk₁⟩ := h.pt.set (.of_absent (by omega) ht) (hok.bottom k)
        fun _ => Entry.noConfusion
      have huvm := h.set_top (.refl A) hok hk h₁
      rw [if_neg hl.bits_valid, if_neg (by omega), if_neg (by decide), wp_bind,
        wp_store64, if_neg (by omega), unmapLoopWith_stop (by simp only [pgSize]; omega), wp_pure]
      refine ⟨_, huvm, rfl, PTree.put_same, fun k' hne => ?_, ?_,
        hk₁.mono Set.subset_union_right⟩
      · exact PTree.put_other (by omega) (by omega)
      · funext v
        refine PTree.view_congr (fun hv => PTree.lookup_set_page_ne (by omega)) ?_
        exact PTree.lookup_keeps h.huge (hk₁.mono Set.subset_union_left) v

/-! ## `uvmdealloc` -/

/-- The number of pages of a memory of the size. -/
def pages (sz : ℕ) : ℕ := (sz + 4095) / 4096

theorem pgRoundUp_pages {sz : ℕ} (h : sz ≤ trapframe) : pgRoundUp sz = 4096 * pages sz := by
  simp only [trapframe, trampoline, maxVa, pgSize] at h
  rw [pgRoundUp_eq (by omega), pages, Nat.mul_comm]

theorem pages_le {sz : ℕ} (h : sz ≤ trapframe) : pages sz ≤ topVpn := by
  simp only [trapframe, trampoline, maxVa, pgSize] at h
  simp only [pages, topVpn]
  omega

theorem uvmdealloc_spec {oldsz : ℕ} (newsz : ℕ) (h : Uvm s R rest A) (hold : oldsz ≤ trapframe)
    (hroom : newsz < oldsz → Splittable E s A (pages newsz) (pages oldsz)) :
    wp (uvmdealloc A.root oldsz newsz) (fun r s' => r = min oldsz newsz ∧
      UnmapPost R rest s A (pages newsz) (max (pages newsz) (pages oldsz)) s') E s := by
  have hpo := pages_le hold
  rw [uvmdealloc, wp_ite, wp_pure]
  refine ⟨fun hge => ⟨(min_eq_left hge).symm, ?_⟩, fun hlt => ?_⟩
  · rw [max_eq_left (by simp only [pages]; omega)]
    exact .refl h
  · rw [pgRoundUp_pages hold, pgRoundUp_pages (by omega)]
    dsimp only
    rw [wp_ite]
    refine ⟨fun hp => ?_, fun hp => ?_⟩
    · have hdiv : (4096 * pages oldsz - 4096 * pages newsz) / pgSize =
          pages oldsz - pages newsz := by
        simp only [pgSize]
        omega
      simp only [topVpn] at hpo
      rw [hdiv, throughInt, Nat.mod_eq_of_lt (by omega), if_pos (by omega), wp_bind]
      have hadd : pages newsz + (pages oldsz - pages newsz) = pages oldsz := by omega
      refine wp_post (uvmunmap_spec _ h (by simp only [topVpn]; omega)
        (by rw [hadd]; exact hroom (by omega))) ?_
      intro _ s' hu
      rw [wp_pure, max_eq_right (by omega)]
      rw [hadd] at hu
      exact ⟨(min_eq_right (by omega)).symm, hu⟩
    · rw [wp_pure, max_eq_left (by omega)]
      exact ⟨(min_eq_right (by omega)).symm, .refl h⟩

end Loop

end Xv6Plus
