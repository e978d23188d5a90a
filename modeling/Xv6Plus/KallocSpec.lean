import Xv6Plus.Buddy

/-!
# What the page allocator does

One specification for each function of `kalloc.c`, over the invariant `Buddy` : freeing a
block in hand returns it to the free memory (`buddyFreeLocked_spec`), allocating hands out
a block that was free, or returns null when no block of the order or above is free
(`buddyAllocLocked_spec`), and `kinit` builds the invariant. None of them panics, and none
touches the memory of the other live blocks.
-/

namespace Xv6Plus

variable {s : Phys} {R : Set ℕ} {live : Set (ℕ × ℕ)} {a o : ℕ}

theorem orderSize_eq (o : ℕ) : orderSize o = 4096 * 2 ^ o :=
  Nat.shiftLeft_eq _ _

/-! ## Buddy addresses -/

theorem xor_size_even (o k : ℕ) :
    (4096 * 2 ^ (o + 1) * k) ^^^ (4096 * 2 ^ o) = 4096 * 2 ^ (o + 1) * k + 4096 * 2 ^ o := by
  have h1 : 4096 * 2 ^ (o + 1) * k = (2 * k) <<< (12 + o) := by
    rw [Nat.shiftLeft_eq, pow_add, pow_add]
    ring
  have h2 : 4096 * 2 ^ o = 1 <<< (12 + o) := by
    rw [Nat.shiftLeft_eq, pow_add]
    ring
  rw [h1, h2, ← Nat.shiftLeft_xor_distrib, Nat.xor_one_of_even (even_two_mul k),
    Nat.shiftLeft_eq, Nat.shiftLeft_eq, Nat.shiftLeft_eq]
  ring

theorem xor_size_odd (o k : ℕ) :
    (4096 * 2 ^ (o + 1) * k + 4096 * 2 ^ o) ^^^ (4096 * 2 ^ o) = 4096 * 2 ^ (o + 1) * k := by
  rw [← xor_size_even, Nat.xor_xor_cancel_right]

theorem exists_offset (ho : o < 15) (ha : 2147483648 ≤ a) (hal : 4096 * 2 ^ (o + 1) ∣ a) :
    ∃ k, a = 2147483648 + 4096 * 2 ^ (o + 1) * k := by
  have hbase : 4096 * 2 ^ (o + 1) ∣ 2147483648 := by
    have : 4096 * 2 ^ (o + 1) ∣ 4096 * 2 ^ 19 :=
      Nat.mul_dvd_mul_left _ (pow_dvd_pow 2 (by omega))
    simpa using this
  obtain ⟨k, hk⟩ := Nat.dvd_sub hal hbase
  exact ⟨k, by omega⟩

theorem buddyPa_lower (ho : o < 15) (ha : 2147483648 ≤ a) (hal : 4096 * 2 ^ (o + 1) ∣ a) :
    buddyPa a o = a + 4096 * 2 ^ o := by
  obtain ⟨k, rfl⟩ := exists_offset ho ha hal
  rw [buddyPa, orderSize_eq, kernBase, Nat.add_sub_cancel_left, xor_size_even, Nat.add_assoc]

theorem buddyPa_upper (ho : o < 15) (ha : 2147483648 ≤ a) (hal : 4096 * 2 ^ (o + 1) ∣ a) :
    buddyPa (a + 4096 * 2 ^ o) o = a := by
  obtain ⟨k, rfl⟩ := exists_offset ho ha hal
  rw [buddyPa, orderSize_eq, kernBase, Nat.add_assoc, Nat.add_sub_cancel_left, xor_size_odd]

theorem wp_paToIndex {Q : ℕ → Phys → Prop} {E : String → Prop} (h1 : 2147483648 ≤ a)
    (h2 : a < 2281701376) :
    wp (paToIndex a) Q E s ↔ Q ((a - 2147483648) / 4096) s := by
  rw [paToIndex, if_neg (by simp only [kernBase, physTop]; omega)]
  exact wp_pure _

/-- The memory is one block of the largest order, so it holds the parent of every smaller
block in it. -/
theorem parent_bounds {x : ℕ} (ho : o < 15) (hal : 4096 * 2 ^ (o + 1) ∣ a)
    (hx : x ∈ span 4096 (a, o + 1)) (h1 : 2147483648 ≤ x) (h2 : x < 2281701376) :
    2147483648 ≤ a ∧ a + 4096 * 2 ^ (o + 1) ≤ 2281701376 := by
  have hsub : span 4096 (a, o + 1) ⊆ span 4096 (2147483648, 15) :=
    span_subset_of_meet hal (by norm_num) (by omega) hx (by rw [mem_span]; norm_num; omega)
  have hpos := size_pos (u := 4096) (by omega) (o + 1)
  have hfst := hsub (start_mem_span (by omega) (a, o + 1))
  have hlast := hsub (show a + 4096 * 2 ^ (o + 1) - 1 ∈ span 4096 (a, o + 1) by
    rw [mem_span]
    dsimp only
    omega)
  rw [mem_span] at hfst hlast
  norm_num at hfst hlast
  omega

theorem parent_bounds_upper (ho : o < 15) (hal : 4096 * 2 ^ (o + 1) ∣ a)
    (h1 : 2147483648 ≤ a + 4096 * 2 ^ o) (h2 : a + 4096 * 2 ^ o < 2281701376) :
    2147483648 ≤ a ∧ a + 4096 * 2 ^ (o + 1) ≤ 2281701376 := by
  refine parent_bounds ho hal ?_ h1 h2
  rw [span_succ]
  exact Or.inr (start_mem_span (by omega) (a + 4096 * 2 ^ o, o))

/-- A block of the memory and its buddy are the halves of an aligned block of the memory. -/
theorem exists_parent (ho : o < 15) (hal : 4096 * 2 ^ o ∣ a) (hlo : 2147483648 ≤ a)
    (hhi : a + 4096 * 2 ^ o ≤ 2281701376) :
    ∃ lo, 4096 * 2 ^ (o + 1) ∣ lo ∧ 2147483648 ≤ lo ∧
      lo + 4096 * 2 ^ o + 4096 * 2 ^ o ≤ 2281701376 ∧
      ((a = lo ∧ buddyPa a o = lo + 4096 * 2 ^ o) ∨
        (buddyPa a o = lo ∧ a = lo + 4096 * 2 ^ o)) := by
  have hpos := size_pos (u := 4096) (by omega) o
  have hsucc := size_succ 4096 o
  rcases lower_or_upper hal with hal' | ⟨a', rfl, hal'⟩
  · have hb := parent_bounds (x := a) ho hal' (start_mem_span (by omega) (a, o + 1)) hlo (by omega)
    exact ⟨a, hal', hb.1, by omega, Or.inl ⟨rfl, buddyPa_lower ho hb.1 hal'⟩⟩
  · have hb := parent_bounds_upper ho hal' hlo (by omega)
    exact ⟨a', hal', hb.1, by omega, Or.inr ⟨buddyPa_upper ho hb.1 hal', rfl⟩⟩

/-! ## Freeing -/

/-- The state between the rounds of the merge loop : the block `(a, o)` is in hand, and
the blocks `live` with their memory are as they were in `s₀`. -/
structure InHand (s₀ : Phys) (R : Set ℕ) (live : Set (ℕ × ℕ)) (a o : ℕ) (s : Phys) : Prop where
  buddy : Buddy s R (insert (a, o) live)
  fresh : (a, o) ∉ live
  order : o ≤ 15
  frame : Set.EqOn s.mem s₀.mem (region live)
  kend : s.kend = s₀.kend

namespace InHand

variable {s₀ : Phys} {b : ℕ}

theorem bounds (h : InHand s₀ R live a o s) :
    2147483648 ≤ a ∧ a + 4096 * 2 ^ o ≤ 2281701376 :=
  h.buddy.bounds ((span_subset_region (Set.mem_insert _ _)).trans h.buddy.live_subset)

theorem aligned (h : InHand s₀ R live a o s) : 4096 * 2 ^ o ∣ a :=
  h.buddy.liveTiles.aligned _ (Set.mem_insert _ _)

theorem not_mem_of_meet {c : ℕ × ℕ} {x : ℕ} (h : InHand s₀ R live a o s) (hc : c ≠ (a, o))
    (hxc : x ∈ span 4096 c) (hxa : x ∈ span 4096 (a, o)) : c ∉ live := fun hmem =>
  hc (h.buddy.liveTiles.eq_of_mem (Set.mem_insert_of_mem _ hmem) (Set.mem_insert _ _) hxc hxa)

/-- One round of the merge loop : the free buddy `b` is taken off its list and joined with
the block in hand to `lo`. -/
theorem step {lo i : ℕ} (h : InHand s₀ R live a o s) (ho : o < 15) (hi : i < 32768)
    (hbi : b = 2147483648 + 4096 * i) (hal : 4096 * 2 ^ (o + 1) ∣ lo)
    (hab : (a = lo ∧ b = lo + 4096 * 2 ^ o) ∨ (b = lo ∧ a = lo + 4096 * 2 ^ o))
    (hb : (b, o) ∈ s.free) :
    InHand s₀ R live lo (o + 1) ((listRemove o b s).setPageState i pageStateAlloc) := by
  obtain ⟨htake, -, hmem⟩ := h.buddy.take hi hbi hb
  have hpos := size_pos (u := 4096) (by omega) o
  have hbl : (b, o) ∉ insert (a, o) live := fun hc =>
    Set.disjoint_left.1 h.buddy.apart (start_mem_region hb) (start_mem_region hc)
  have hset : insert (lo, o + 1)
      ((insert (b, o) (insert (a, o) live) \ {(lo, o)}) \ {(lo + 4096 * 2 ^ o, o)}) =
        insert (lo, o + 1) live := by
    have hafresh := h.fresh
    ext ⟨c, p⟩
    simp only [Set.mem_insert_iff, Set.mem_sdiff, Set.mem_singleton_iff, Prod.mk.injEq,
      not_or] at hbl ⊢
    rcases hab with ⟨rfl, rfl⟩ | ⟨rfl, rfl⟩
    · grind
    · grind
  have hlive : (lo, o) ∈ insert (b, o) (insert (a, o) live) ∧
      (lo + 4096 * 2 ^ o, o) ∈ insert (b, o) (insert (a, o) live) := by
    rcases hab with ⟨rfl, rfl⟩ | ⟨rfl, rfl⟩ <;> simp
  have hmerge := htake.merge hal hlive.1 hlive.2
  rw [hset] at hmerge
  refine ⟨hmerge, ?_, by omega, ?_, ?_⟩
  · refine h.not_mem_of_meet (x := a) (by simp) ?_ (start_mem_span (by omega) (a, o))
    rw [span_succ]
    rcases hab with ⟨rfl, -⟩ | ⟨-, rfl⟩
    · exact Or.inl (start_mem_span (by omega) (a, o))
    · exact Or.inr (start_mem_span (by omega) (lo + 4096 * 2 ^ o, o))
  · rw [Phys.setPageState_mem]
    exact (hmem.mono (region_mono (Set.subset_insert _ _))).trans h.frame
  · rw [Phys.setPageState_kend, listRemove_kend, h.kend]

/-- A block in hand without a free buddy leaves the free blocks coalesced. -/
theorem coalesced (h : InHand s₀ R live a o s) (hb : o < 15 → (buddyPa a o, o) ∉ s.free) :
    Coalesced 4096 15 (insert (a, o) s.free) := by
  refine h.buddy.coalesced.insert (by omega) (fun ho hal => ?_) fun ho a' ha hal => ?_
  · rw [← buddyPa_lower ho h.bounds.1 hal]
    exact hb ho
  · subst ha
    obtain ⟨hlo, hhi⟩ := h.bounds
    have hpos := size_pos (u := 4096) (by omega) o
    rw [← buddyPa_upper ho (parent_bounds_upper ho hal hlo (by omega)).1 hal]
    exact hb ho

end InHand

/-- The merge loop ends with a block in hand that has no free buddy. -/
theorem mergeLoop_spec {s₀ : Phys} : ∀ {n a o : ℕ} {s : Phys}, InHand s₀ R live a o s →
    n + o = 15 →
    wp (mergeLoop n a ((a - 2147483648) / 4096) o)
      (fun p s' => InHand s₀ R live p.1 p.2.2 s' ∧ p.2.1 = (p.1 - 2147483648) / 4096 ∧
        Coalesced 4096 15 (insert (p.1, p.2.2) s'.free)) noPanic s
  | 0, a, o, s, h, hn => by
    rw [mergeLoop, wp_pure]
    exact ⟨h, rfl, h.coalesced fun ho => by omega⟩
  | n + 1, a, o, s, h, hn => by
    have ho : o < 15 := by omega
    obtain ⟨lo, hal, hlo, hhi, hab⟩ := exists_parent ho h.aligned h.bounds.1 h.bounds.2
    have hpos := size_pos (u := 4096) (by omega) o
    have hb : 2147483648 ≤ buddyPa a o ∧ buddyPa a o + 4096 * 2 ^ o ≤ 2281701376 := by omega
    have hbmod : buddyPa a o % 4096 = 0 := by
      have h1 : 4096 ∣ lo := (Dvd.intro _ rfl).trans hal
      have h2 : 4096 ∣ 4096 * 2 ^ o := Dvd.intro _ rfl
      omega
    have hbi : buddyPa a o = 2147483648 + 4096 * ((buddyPa a o - 2147483648) / 4096) := by omega
    have hi : (buddyPa a o - 2147483648) / 4096 < 32768 := by omega
    have hmin : (if buddyPa a o < a then buddyPa a o else a) = lo := by
      rcases hab with ⟨h1, h2⟩ | ⟨h1, h2⟩
      · rw [if_neg (by omega), h1]
      · rw [if_pos (by omega), h1]
    have hstate : s.pageState ((buddyPa a o - 2147483648) / 4096) = o ↔
        (buddyPa a o, o) ∈ s.free := by
      rw [hbi, Phys.mem_free_index hi, ← hbi]
      exact ⟨fun he => ⟨he, by omega⟩, fun he => he.1⟩
    rw [mergeLoop, orderSize_eq, if_neg (by simp only [kernBase, physTop]; omega), wp_bind,
      wp_paToIndex hb.1 (by omega), wp_bind, wp_get]
    by_cases hs : s.pageState ((buddyPa a o - 2147483648) / 4096) = o
    · have hstep := h.step ho hi hbi hal (by omega) (hstate.1 hs)
      rw [if_neg (not_not.2 hs), wp_bind, wp_modify, wp_bind, wp_modify, hmin, wp_bind,
        wp_paToIndex hlo (by omega)]
      exact mergeLoop_spec hstep (by omega)
    · rw [if_pos hs, wp_pure]
      exact ⟨h, rfl, h.coalesced fun _ hc => hs (hstate.2 hc)⟩

/-- What an operation leaves alone : the memory of the blocks `live`, and `end`. -/
structure Keeps (live : Set (ℕ × ℕ)) (s s' : Phys) : Prop where
  mem : Set.EqOn s'.mem s.mem (region live)
  kend : s'.kend = s.kend

/-- Freeing a live block takes it out of the live blocks. -/
theorem buddyFreeLocked_spec (h : Buddy s R live) (hb : (a, o) ∈ live) (ho : o ≤ 15) :
    wp (buddyFreeLocked a o)
      (fun _ s' => Buddy s' R (live \ {(a, o)}) ∧ Keeps (live \ {(a, o)}) s s') noPanic s := by
  have hset : insert (a, o) (live \ {(a, o)}) = live := Set.insert_sdiff_self_of_mem hb
  have hhand : InHand s R (live \ {(a, o)}) a o s :=
    ⟨hset.symm ▸ h, by simp, ho, Set.eqOn_refl _ _, rfl⟩
  obtain ⟨hlo, hhi⟩ := hhand.bounds
  have hpos := size_pos (u := 4096) (by omega) o
  have hmod : a % 4096 = 0 := Nat.mod_eq_zero_of_dvd ((Dvd.intro _ rfl).trans hhand.aligned)
  have hst : s.pageState ((a - 2147483648) / 4096) = pageStateAlloc := by
    refine h.pageState_live (by omega) ?_
    rw [show 2147483648 + 4096 * ((a - 2147483648) / 4096) = a by omega]
    exact start_mem_region hb
  rw [buddyFreeLocked, orderSize_eq, if_neg (by simp only [maxOrder]; omega),
    if_neg (by simp [Nat.mod_eq_zero_of_dvd hhand.aligned]), wp_bind,
    wp_paToIndex hlo (by omega), wp_bind, wp_get, if_neg (not_not.2 hst), wp_bind]
  refine wp_post (mergeLoop_spec hhand (by simp only [maxOrder]; omega)) ?_
  rintro ⟨a', i', o'⟩ s' ⟨hh, hi', hco⟩
  dsimp only at hh hi' hco ⊢
  subst hi'
  obtain ⟨hlo', hhi'⟩ := hh.bounds
  have hpos' := size_pos (u := 4096) (by omega) o'
  have hmod' : a' % 4096 = 0 := Nat.mod_eq_zero_of_dvd ((Dvd.intro _ rfl).trans hh.aligned)
  have hset' : insert (a', o') (live \ {(a, o)}) \ {(a', o')} = live \ {(a, o)} :=
    Set.insert_sdiff_self_of_notMem hh.fresh
  obtain ⟨hgive, -, hmem⟩ := hh.buddy.give (i := (a' - 2147483648) / 4096) (by omega) (by omega)
    hh.order (Set.mem_insert _ _) hco
  rw [hset'] at hgive hmem
  rw [wp_bind, wp_modify, wp_modify]
  refine ⟨hgive, ?_, ?_⟩
  · rw [Phys.setPageState_mem]
    exact hmem.trans hh.frame
  · rw [Phys.setPageState_kend, listInsert_kend, hh.kend]

/-! ## Allocating -/

namespace InHand

variable {s₀ : Phys}

/-- One round of the split loop : the upper half of the block in hand goes to its list. -/
theorem halve {i : ℕ} (h : InHand s₀ R live a (o + 1) s) (hi : i < 32768)
    (hai : a + 4096 * 2 ^ o = 2147483648 + 4096 * i) :
    InHand s₀ R live a o ((listInsert o (a + 4096 * 2 ^ o) s).setPageState i o) := by
  have hpos := size_pos (u := 4096) (by omega) o
  have hsucc := size_succ 4096 o
  have ho := h.order
  have hset : insert (a, o + 1) live \ {(a, o + 1)} = live :=
    Set.insert_sdiff_self_of_notMem h.fresh
  have hsplit := h.buddy.split (Set.mem_insert _ _)
  rw [hset] at hsplit
  have hlow : (a, o) ∉ live := h.not_mem_of_meet (x := a) (by simp)
    (start_mem_span (by omega) (a, o)) (start_mem_span (by omega) (a, o + 1))
  have hup : (a + 4096 * 2 ^ o, o) ∉ insert (a, o) live := by
    rw [Set.mem_insert_iff, not_or]
    refine ⟨by simp, h.not_mem_of_meet (x := a + 4096 * 2 ^ o) (by simp)
      (start_mem_span (by omega) (a + 4096 * 2 ^ o, o)) ?_⟩
    rw [span_succ]
    exact Or.inr (start_mem_span (by omega) (a + 4096 * 2 ^ o, o))
  have hco : Coalesced 4096 15 (insert (a + 4096 * 2 ^ o, o) s.free) := by
    refine h.buddy.coalesced.insert (by omega) (fun _ hal => ?_) fun _ a' ha _ hmem => ?_
    · have hdvd : 4096 * 2 ^ (o + 1) ∣ 4096 * 2 ^ o := (Nat.dvd_add_right h.aligned).1 hal
      have := Nat.le_of_dvd hpos hdvd
      omega
    · obtain rfl : a = a' := by omega
      have hfree : a ∈ region s.free := start_mem_region hmem
      have hlive : a ∈ region (insert (a, o + 1) live) :=
        start_mem_region (Set.mem_insert (a, o + 1) live)
      exact Set.disjoint_left.1 h.buddy.apart hfree hlive
  rw [Set.insert_comm] at hsplit
  obtain ⟨hgive, -, hmem⟩ := hsplit.give hi hai (by omega) (Set.mem_insert _ _) hco
  rw [Set.insert_sdiff_self_of_notMem hup] at hgive hmem
  refine ⟨hgive, hlow, by omega, ?_, ?_⟩
  · rw [Phys.setPageState_mem]
    exact (hmem.mono (region_mono (Set.subset_insert _ _))).trans h.frame
  · rw [Phys.setPageState_kend, listInsert_kend, h.kend]

end InHand

/-- The split loop leaves the first part of the requested order in hand. -/
theorem splitLoop_spec {s₀ : Phys} {r : ℕ} : ∀ {n : ℕ} {s : Phys},
    InHand s₀ R live r (o + n) s →
    wp (splitLoop o r n) (fun _ s' => InHand s₀ R live r o s') noPanic s
  | 0, s, h => by
    rw [splitLoop, wp_pure]
    exact h
  | n + 1, s, h => by
    have h : InHand s₀ R live r (o + n + 1) s := h
    obtain ⟨hlo, hhi⟩ := h.bounds
    have hpos := size_pos (u := 4096) (by omega) (o + n)
    have hsucc := size_succ 4096 (o + n)
    have h4096 : 4096 ∣ 4096 * 2 ^ (o + n) := Dvd.intro _ rfl
    have hmod : r % 4096 = 0 := Nat.mod_eq_zero_of_dvd ((Dvd.intro _ rfl).trans h.aligned)
    have hstep := h.halve (i := (r + 4096 * 2 ^ (o + n) - 2147483648) / 4096) (by omega) (by omega)
    rw [splitLoop, orderSize_eq, wp_bind, wp_modify, wp_bind,
      wp_paToIndex (by omega) (by omega), wp_bind, wp_modify]
    exact splitLoop_spec hstep

/-- A successful allocation : the block `(r, o)` was free and is now live, filled with
the pattern of `memset`. -/
structure Allocated (R : Set ℕ) (live : Set (ℕ × ℕ)) (s : Phys) (r o : ℕ) (s' : Phys) :
    Prop where
  buddy : Buddy s' R (insert (r, o) live)
  fresh : (r, o) ∉ live
  keeps : Keeps live s s'
  fill : ∀ x ∈ span 4096 (r, o), s'.mem x = 5

/-- What `buddy_alloc_locked` returns : null if no block of the order or above is free,
in the same state, or a new block. -/
def AllocResult (R : Set ℕ) (live : Set (ℕ × ℕ)) (s : Phys) (o r : ℕ) (s' : Phys) : Prop :=
  (r = 0 ∧ s' = s ∧ ∀ b ∈ s.free, b.2 < o) ∨ (r ≠ 0 ∧ Allocated R live s r o s')

theorem allocLoop_spec (h : Buddy s R live) : ∀ {n c : ℕ}, n + c = 16 → o ≤ c →
    (∀ b ∈ s.free, b.2 < o ∨ c ≤ b.2) →
    wp (allocLoop o n c) (AllocResult R live s o) noPanic s
  | 0, c, hn, _, hlow => by
    rw [allocLoop, wp_pure]
    refine Or.inl ⟨rfl, rfl, fun b hb => ?_⟩
    have hb15 : b.2 ≤ 15 := by
      obtain ⟨i, -, -, -, hle⟩ := hb
      exact hle
    have := hlow b hb
    omega
  | n + 1, c, hn, hoc, hlow => by
    rw [allocLoop, wp_bind, wp_get]
    by_cases hr : s.freelist c = 0
    · rw [if_pos hr]
      refine allocLoop_spec h (by omega) (by omega) fun b hb => ?_
      have hne : b.2 ≠ c := by
        rintro rfl
        obtain ⟨l, -, hl, hmem⟩ := h.lists b.2 (by simp only [maxOrder]; omega)
        have hnil := hl.eq_nil_iff.2 hr
        have := (hmem b.1).2 hb
        simp [hnil] at this
      have := hlow b hb
      omega
    · have hmem := h.freelist_mem (by omega) hr
      set r := s.freelist c with hrdef
      obtain ⟨hmod, hlo, hhi⟩ := h.node hmem
      have hpos := size_pos (u := 4096) (by omega) c
      obtain ⟨htake, -, hframe⟩ := h.take (i := (r - 2147483648) / 4096) (by omega) (by omega) hmem
      have hfresh : (r, c) ∉ live := fun hc =>
        Set.disjoint_left.1 h.apart (start_mem_region hmem) (start_mem_region hc)
      have hhand : InHand s R live r (o + (c - o))
          ((listRemove c r s).setPageState ((r - 2147483648) / 4096) pageStateAlloc) := by
        rw [Nat.add_sub_cancel' hoc]
        exact ⟨htake, hfresh, by omega, by rw [Phys.setPageState_mem]; exact hframe,
          by rw [Phys.setPageState_kend, listRemove_kend]⟩
      rw [if_neg hr, wp_bind, wp_modify, wp_bind, wp_paToIndex hlo (by omega), wp_bind, wp_modify,
        wp_bind]
      refine wp_post (splitLoop_spec hhand) fun _ s' hs' => ?_
      rw [wp_bind, wp_modify, wp_pure, orderSize_eq]
      have hdisj : Disjoint (span 4096 (r, o)) (region s'.free) :=
        (hs'.buddy.apart.mono_right (span_subset_region (Set.mem_insert _ _))).symm
      have hlive : Disjoint (span 4096 (r, o)) (region live) := by
        rw [Set.disjoint_left]
        rintro x hx ⟨b, hb, hxb⟩
        exact hs'.not_mem_of_meet (fun he => hs'.fresh (he ▸ hb)) hxb hx hb
      have hout : ∀ {S : Set ℕ}, Disjoint (span 4096 (r, o)) S →
          Set.EqOn (memset s'.mem r 5 (4096 * 2 ^ o)) s'.mem S := by
        intro S hS
        refine memset_eqOn fun x hx => ?_
        have := Set.disjoint_right.1 hS hx
        rw [mem_span] at this
        dsimp only at this
        omega
      refine Or.inr ⟨hr, hs'.buddy.setMem (hout hdisj), hs'.fresh, ⟨?_, ?_⟩, fun x hx => ?_⟩
      · exact (hout hlive).trans hs'.frame
      · rw [Phys.setMem_kend, hs'.kend]
      · exact memset_apply hx.1 hx.2

theorem buddyAllocLocked_spec (h : Buddy s R live) (ho : o ≤ 15) :
    wp (buddyAllocLocked o) (AllocResult R live s o) noPanic s := by
  rw [buddyAllocLocked, if_neg (by simp only [maxOrder]; omega)]
  exact allocLoop_spec h (by simp only [maxOrder]; omega) (le_refl _) fun b _ => by omega

/-! ## The entry points -/

theorem kalloc_spec (h : Buddy s R live) :
    wp kalloc (AllocResult R live s 0) noPanic s :=
  buddyAllocLocked_spec h (Nat.zero_le _)

theorem kallocHuge_spec (h : Buddy s R live) :
    wp kallocHuge (AllocResult R live s 9) noPanic s :=
  buddyAllocLocked_spec h (by decide)

/-- Filling a live block before it is freed. -/
theorem Buddy.fill {c : UInt8} (h : Buddy s R live) (hb : (a, o) ∈ live) :
    Buddy (s.setMem (memset s.mem a c (4096 * 2 ^ o))) R live ∧
      Keeps (live \ {(a, o)}) s (s.setMem (memset s.mem a c (4096 * 2 ^ o))) := by
  have hout : ∀ {S : Set ℕ}, Disjoint (span 4096 (a, o)) S →
      Set.EqOn (memset s.mem a c (4096 * 2 ^ o)) s.mem S := by
    intro S hS
    refine memset_eqOn fun x hx => ?_
    have := Set.disjoint_right.1 hS hx
    rw [mem_span] at this
    dsimp only at this
    omega
  refine ⟨h.setMem (hout (h.apart.mono_right (span_subset_region hb)).symm), hout ?_, rfl⟩
  rw [region_erase h.liveTiles hb]
  exact Set.disjoint_sdiff_right

theorem Keeps.trans {s' s'' : Phys} (h : Keeps live s s') (h' : Keeps live s' s'') :
    Keeps live s s'' :=
  ⟨h'.mem.trans h.mem, h'.kend.trans h.kend⟩

theorem kfree_spec (h : Buddy s R live) (hb : (a, 0) ∈ live) (hend : s.kend ≤ a) :
    wp (kfree a)
      (fun _ s' => Buddy s' R (live \ {(a, 0)}) ∧ Keeps (live \ {(a, 0)}) s s') noPanic s := by
  have hal : 4096 * 2 ^ 0 ∣ a := h.liveTiles.aligned _ hb
  have hbd : 2147483648 ≤ a ∧ a + 4096 * 2 ^ 0 ≤ 2281701376 :=
    h.bounds ((span_subset_region hb).trans h.live_subset)
  norm_num at hal hbd
  obtain ⟨hfill, hkeep⟩ := h.fill (c := 1) hb
  rw [kfree, wp_bind, wp_get, if_neg (by simp only [pgSize, physTop]; omega), wp_bind, wp_modify]
  refine wp_post (buddyFreeLocked_spec hfill hb (Nat.zero_le _)) fun _ s' hs' => ?_
  exact ⟨hs'.1, hkeep.trans hs'.2⟩

theorem kfreeHuge_spec (h : Buddy s R live) (hb : (a, 9) ∈ live) :
    wp (kfreeHuge a)
      (fun _ s' => Buddy s' R (live \ {(a, 9)}) ∧ Keeps (live \ {(a, 9)}) s s') noPanic s := by
  have hal : 4096 * 2 ^ 9 ∣ a := h.liveTiles.aligned _ hb
  have hbd : 2147483648 ≤ a ∧ a + 4096 * 2 ^ 9 ≤ 2281701376 :=
    h.bounds ((span_subset_region hb).trans h.live_subset)
  norm_num at hal hbd
  obtain ⟨hfill, hkeep⟩ := h.fill (c := 1) hb
  rw [kfreeHuge, if_neg (by simp only [hugePgSize, kernBase, physTop]; omega), wp_bind, wp_modify]
  refine wp_post (buddyFreeLocked_spec hfill hb (by decide)) fun _ s' hs' => ?_
  exact ⟨hs'.1, hkeep.trans hs'.2⟩

/-! ## Initialisation -/

theorem pickOrder_spec {start stop : ℕ} (hmod : start % 4096 = 0) (hle : start + 4096 ≤ stop) :
    ∀ m : ℕ, pickOrder start stop m ≤ m ∧ 4096 * 2 ^ pickOrder start stop m ∣ start ∧
      start + 4096 * 2 ^ pickOrder start stop m ≤ stop
  | 0 => by
    simp only [pickOrder, minOrder, pow_zero, mul_one, le_refl, true_and]
    exact ⟨Nat.dvd_of_mod_eq_zero hmod, hle⟩
  | m + 1 => by
    rw [pickOrder, orderSize_eq]
    split_ifs with h
    · exact ⟨le_refl _, Nat.dvd_of_mod_eq_zero h.1, h.2⟩
    · have ih := pickOrder_spec hmod hle m
      exact ⟨by omega, ih.2⟩

/-- The managed region may grow by a block that is in hand. -/
theorem Buddy.extend {b : ℕ × ℕ} (h : Buddy s R live) (hal : 4096 * 2 ^ b.2 ∣ b.1)
    (hd : Disjoint (span 4096 b) R) (hm : span 4096 b ⊆ Set.Ico kernBase physTop) :
    Buddy s (span 4096 b ∪ R) (insert b live) where
  state := h.state
  lists := h.lists
  freeTiles := h.freeTiles
  liveTiles := (h.liveTiles.insert hal (hd.mono_right h.live_subset)).toRegion
  apart := by
    rw [region_insert, Set.disjoint_union_right]
    exact ⟨(hd.mono_right h.free_subset).symm, h.apart⟩
  cover := by
    rw [region_insert, Set.union_left_comm, h.cover]
  coalesced := h.coalesced
  managed := Set.union_subset hm h.managed

/-- Before any block is added nothing is managed. -/
theorem buddy_nothing (hf : s.freelist = fun _ => 0) (hp : s.pageState = fun _ => pageStateAlloc) :
    Buddy s ∅ ∅ := by
  have hfree : s.free = ∅ := by
    ext ⟨a, o⟩
    rw [Phys.mem_free, hp]
    simp only [pageStateAlloc, Set.mem_empty_iff_false, iff_false]
    rintro ⟨i, -, -, h, -⟩
    omega
  constructor
  · intro i _
    exact Or.inl (by rw [hp])
  · intro o _
    exact ⟨[], List.nodup_nil, by rw [hf]; rfl, by simp [hfree]⟩
  · rw [hfree, region_empty]
    exact Tiles.empty _
  · rw [region_empty]
    exact Tiles.empty _
  · simp [hfree, region_empty]
  · simp [hfree, region_empty]
  · rw [hfree]
    exact fun _ _ _ _ h => absurd h (Set.notMem_empty _)
  · exact Set.empty_subset _

theorem addRangeLoop_spec {lo stop : ℕ} (hlo : 2147483648 ≤ lo) (hstop : stop ≤ 2281701376)
    (hsmod : stop % 4096 = 0) : ∀ {n start : ℕ} {s : Phys},
    Buddy s (Set.Ico lo start) ∅ → lo ≤ start → start ≤ stop → start % 4096 = 0 →
    stop ≤ start + 4096 * n →
    wp (addRangeLoop stop n start)
      (fun _ s' => Buddy s' (Set.Ico lo stop) ∅ ∧ s'.kend = s.kend) noPanic s
  | 0, start, s, h, _, hhi, _, hn => by
    obtain rfl : start = stop := by omega
    rw [addRangeLoop, wp_pure]
    exact ⟨h, rfl⟩
  | n + 1, start, s, h, hle, hhi, hmod, hn => by
    by_cases hlast : start + 4096 ≤ stop
    · obtain ⟨ho, hal, hfit⟩ := pickOrder_spec hmod hlast 15
      set o := pickOrder start stop 15 with hodef
      have hpos := size_pos (u := 4096) (by omega) o
      have hone : 4096 * 1 ≤ 4096 * 2 ^ o := Nat.mul_le_mul_left _ Nat.one_le_two_pow
      have hspan : span 4096 (start, o) ∪ Set.Ico lo start = Set.Ico lo (start + 4096 * 2 ^ o) := by
        rw [Set.union_comm]
        exact Set.Ico_union_Ico_eq_Ico hle (by dsimp only; omega)
      have hext := h.extend (b := (start, o)) hal
        (by
          rw [Set.disjoint_left]
          intro x hx hx'
          have := hx.1
          have := hx'.2
          dsimp only at *
          omega)
        (by
          intro x hx
          rw [mem_span] at hx
          dsimp only at hx
          simp only [kernBase, physTop, Set.mem_Ico]
          omega)
      rw [hspan] at hext
      rw [addRangeLoop, if_pos hlast]
      simp only [maxOrder]
      rw [← hodef, wp_bind, orderSize_eq]
      refine wp_post (buddyFreeLocked_spec hext (Set.mem_insert _ _) ho) fun _ s' hs' => ?_
      have hempty : insert (start, o) (∅ : Set (ℕ × ℕ)) \ {(start, o)} = ∅ :=
        Set.insert_sdiff_self_of_notMem (Set.notMem_empty _)
      rw [hempty] at hs'
      have h4096 : 4096 ∣ 4096 * 2 ^ o := Dvd.intro _ rfl
      refine wp_post (addRangeLoop_spec hlo hstop hsmod hs'.1 (by omega) hfit (by omega) (by omega))
        fun _ s'' hs'' => ⟨hs''.1, hs''.2.trans hs'.2.kend⟩
    · obtain rfl : start = stop := by omega
      rw [addRangeLoop, if_neg hlast, wp_pure]
      exact ⟨h, rfl⟩

/-- `kinit` puts all memory from the end of the kernel on the free lists. -/
theorem kinit_spec (hlo : 2147483648 ≤ pgRoundUp s.kend) :
    wp kinit (fun _ s' => Buddy s' (Set.Ico (pgRoundUp s.kend) 2281701376) ∅ ∧ s'.kend = s.kend)
      noPanic s := by
  set s₀ : Phys := { s with freelist := fun _ => 0, pageState := fun _ => pageStateAlloc } with hs₀
  have h0 : Buddy s₀ ∅ ∅ := buddy_nothing rfl rfl
  have hmod := pgRoundUp_mod s.kend
  rw [kinit, wp_bind, wp_modify, wp_bind, wp_get, buddyAddRange]
  by_cases hge : pgRoundUp s.kend ≥ physTop
  · rw [if_pos hge, wp_pure, Set.Ico_eq_empty_of_le hge]
    exact ⟨h0, rfl⟩
  · simp only [physTop, ge_iff_le, not_le] at hge
    have hround : pgRoundUp (pgRoundUp s.kend) = pgRoundUp s.kend := by
      rw [@pgRoundUp_eq (pgRoundUp s.kend) (by omega)]
      omega
    rw [if_neg (by simp only [physTop]; omega), hround]
    have htop : pgRoundDown physTop = 2281701376 := by decide
    have hnone : Buddy s₀ (Set.Ico (pgRoundUp s.kend) (pgRoundUp s.kend)) ∅ := by
      rw [Set.Ico_self]
      exact h0
    have hfuel : 2281701376 ≤ pgRoundUp s.kend + 4096 * nPages := by
      simp only [nPages]
      omega
    rw [htop]
    exact addRangeLoop_spec (n := nPages) hlo (le_refl 2281701376) (by decide) hnone (le_refl _)
      hge.le hmod hfuel

end Xv6Plus
