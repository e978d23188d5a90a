import Xv6Plus.UmallocSpec

/-!
# Runs of the user heap

`HeapRun P s live` : the heap of a program that called `malloc` and `free` in some order, freed only
what it had and wrote only into its blocks, where all requests satisfied `P`.

`morecore` passes `nu * sizeof(Header)` to the `int` parameter of `sbrk`. From 2 GB on the kernel
sees a negative number or a much too small one, and the header records the size that was meant.
`Serves` tells the requests that come out right : they are small enough for an `int`, or there
is a free block for them, or the kernel refuses.
-/

namespace Xv6Plus

namespace UHeap

variable {L : Layout} {s s' : UHeap} {N : Finset ℕ} {live : Live} {nbytes b nb r fuel fuel' : ℕ}

/-! ## Turns of the loops -/

theorem free_mono {ap : ℕ} (hle : fuel ≤ fuel') (h : free fuel ap s = some s') :
    free fuel' ap s = some s' := by
  rw [free, freeSearch_eq, Option.bind_eq_bind, Option.bind_eq_some_iff] at h ⊢
  obtain ⟨p, hp, h⟩ := h
  exact ⟨p, seek_mono hle hp, h⟩

theorem morecore_mono {k : Sbrk L} {nu : ℕ} {x : ℕ × UHeap} (hle : fuel ≤ fuel')
    (h : morecore k fuel nu s = some x) : morecore k fuel' nu s = some x := by
  rw [morecore] at h ⊢
  generalize sbrk k (toInt ((if nu < 4096 then 4096 else nu) * headerSize)) s = t at h ⊢
  obtain ⟨_ | p, t⟩ := t
  · exact h
  · dsimp only at h ⊢
    rw [Option.bind_eq_bind, Option.bind_eq_some_iff] at h ⊢
    obtain ⟨u, hu, h⟩ := h
    exact ⟨u, free_mono hle hu, h⟩

theorem mallocLoop_mono {k : Sbrk L} {nu n m prevp p : ℕ} {x : ℕ × UHeap} (hle : fuel ≤ fuel')
    (hnm : n ≤ m) (h : mallocLoop k fuel nu n prevp p s = some x) :
    mallocLoop k fuel' nu m prevp p s = some x := by
  induction n generalizing m prevp p s with
  | zero => cases h
  | succ n ih =>
    obtain ⟨m, rfl⟩ := Nat.exists_eq_add_of_le' (show 1 ≤ m by omega)
    rw [mallocLoop] at h ⊢
    split_ifs at h ⊢ with h1 h2
    · exact h
    · rw [Option.bind_eq_bind, Option.bind_eq_some_iff] at h ⊢
      obtain ⟨t, ht, h⟩ := h
      refine ⟨t, morecore_mono hle ht, ?_⟩
      dsimp only at h ⊢
      split_ifs at h ⊢ with h3
      · exact h
      · exact ih (by omega) h
    · exact ih (by omega) h

theorem malloc_mono {k : Sbrk L} {x : ℕ × UHeap} (hle : fuel ≤ fuel')
    (h : malloc k fuel nbytes s = some x) : malloc k fuel' nbytes s = some x :=
  mallocLoop_mono hle hle h

/-! ## The invariant of a run -/

/-- The program writes into its blocks, behind their headers. -/
structure Scribbles (live : Live) (s s' : UHeap) : Prop where
  freep : s'.freep = s.freep
  brk : s'.brk = s.brk
  fields : ∀ x, (∀ y ∈ live, ¬(y.1 < x ∧ x < y.1 + headerSize * s.size y.1)) →
    s'.ptr x = s.ptr x ∧ s'.size x = s.size x

/-- The blocks in use after `malloc` returned `r`. -/
def Live.add (live : Live) (nbytes r : ℕ) : Live :=
  if r = 0 then live else insert (r - headerSize, nbytes) live

/-- The heaps a program reaches with requests that satisfy `P`. -/
inductive HeapRun (L : Layout) (P : Sbrk L → UHeap → ℕ → Prop) : UHeap → Live → Prop
  | init {s : UHeap} (hf : s.freep = 0) (hb : s.brk = L.start) : HeapRun L P s ∅
  | malloc {s s' : UHeap} {live : Live} {k : Sbrk L} {fuel nbytes r : ℕ} (h : HeapRun L P s live)
      (hn : nbytes < 2 ^ 32) (hP : P k s nbytes) (hrun : malloc k fuel nbytes s = some (r, s')) :
      HeapRun L P s' (live.add nbytes r)
  | free {s s' : UHeap} {live : Live} {fuel b nb : ℕ} (h : HeapRun L P s live)
      (hb : (b, nb) ∈ live) (hrun : free fuel (b + headerSize) s = some s') :
      HeapRun L P s' (live.without b)
  | write {s s' : UHeap} {live : Live} (h : HeapRun L P s live) (hw : Scribbles live s s') :
      HeapRun L P s' live

theorem HeapRun.mono {P Q : Sbrk L → UHeap → ℕ → Prop} (hPQ : ∀ k s n, P k s n → Q k s n)
    (h : HeapRun L P s live) : HeapRun L Q s live := by
  induction h with
  | init hf hb => exact .init hf hb
  | malloc _ hn hP hrun ih => exact .malloc ih hn (hPQ _ _ _ hP) hrun
  | free _ hb hrun ih => exact .free ih hb hrun
  | write _ hw ih => exact .write ih hw

/-- The heap before the first call, or with its list. -/
def RunInv (L : Layout) (s : UHeap) (live : Live) : Prop :=
  (s.freep = 0 ∧ s.brk = L.start ∧ live = ∅) ∨
    ∃ N, HeapInv L s N live s.brk ∧ s.brk ≤ L.start + L.limit

theorem initBase_inv (hf : s.freep = 0) (hb : s.brk = L.start) :
    HeapInv L (initBase L s) {L.base} ∅ (initBase L s).brk := by
  rw [initBase, if_pos hf]
  refine ⟨⟨.singleton ?_, Finset.mem_singleton_self _, ?_, ?_,
    fun x hx => absurd hx (Set.notMem_empty x), fun x hx => absurd hx (Set.notMem_empty x),
    hb.ge, ?_⟩, Finset.mem_singleton_self _, ?_⟩
  · simp
  · simp
  · have hstarts : starts L {L.base} ∅ = ∅ := by simp [starts]
    rw [hstarts]
    dsimp only
    rw [setSize_brk, setPtr_brk, hb]
    exact .empty _ _
  · dsimp only
    rw [setSize_brk, setPtr_brk, hb]
    exact Nat.lt_add_of_pos_right (Nat.two_pow_pos 36)
  · intro a ha hne
    exact absurd (Finset.mem_singleton.1 ha) hne

theorem initBase_initBase : initBase L (initBase L s) = initBase L s := by
  have := L.base_pos
  unfold initBase
  split_ifs with h1 h2
  · dsimp only at h2
    omega
  · rfl
  · rfl

/-- A call of `malloc` starts from a list. -/
theorem RunInv.list (h : RunInv L s live) : ∃ N,
    HeapInv L (initBase L s) N live (initBase L s).brk ∧ (initBase L s).brk = s.brk ∧
      s.brk ≤ L.start + L.limit ∧ ∀ k : Sbrk L, ∀ fuel nbytes,
        malloc k fuel nbytes s = malloc k fuel nbytes (initBase L s) := by
  have hsame : ∀ k : Sbrk L, ∀ fuel nbytes,
      malloc k fuel nbytes s = malloc k fuel nbytes (initBase L s) := fun k fuel nbytes => by
    rw [malloc, malloc, initBase_initBase]
  have hbrk : (initBase L s).brk = s.brk := by
    unfold initBase
    split_ifs <;> rfl
  rcases h with ⟨hf, hb, rfl⟩ | ⟨N, hN, hle⟩
  · exact ⟨_, initBase_inv hf hb, hbrk, by omega, hsame⟩
  · have hf := hN.freep_ne
    have heq : initBase L s = s := by rw [initBase, if_neg hf]
    exact ⟨N, by rw [heq]; exact hN, hbrk, hle, hsame⟩

/-! ## The requests that come out right -/

/-- The request is answered from the list, by the kernel as it was meant, or not at all. -/
def Serves (k : Sbrk L) (s : UHeap) (nbytes : ℕ) : Prop :=
  nunits nbytes * headerSize < 2 ^ 31 ∨
    (s.freep ≠ 0 ∧ ∃ i, nunits nbytes ≤ s.size (s.ptr^[i] s.freep)) ∨
    k.grants s.brk (toInt (nunits nbytes * headerSize)) = false

/-- The new block is inside the process and apart from the other blocks, and the process has not
become smaller. -/
def Honest (s : UHeap) (live : Live) (nbytes r : ℕ) (s' : UHeap) : Prop :=
  s.brk ≤ s'.brk ∧ (r = 0 ∨ (r + nbytes ≤ s'.brk ∧ ∀ x ∈ live,
    Disjoint (Set.Ico r (r + nbytes)) (Set.Ico x.1 (x.1 + headerSize * s'.size x.1))))

theorem toInt_of_lt {n : ℕ} (h : n < 2 ^ 31) : toInt n = n := by
  unfold toInt
  exact Int.bmod_eq_of_le (by omega) (by omega)

/-- From 2 GB on `sbrk` is asked for at most one header. -/
theorem toInt_le {n : ℕ} (h1 : 2 ^ 31 ≤ n) (h2 : n ≤ 2 ^ 32 + 16) : toInt n ≤ 16 := by
  unfold toInt
  rw [Int.bmod_def]
  split_ifs <;> omega

theorem coreUnits_of_le {nu : ℕ} (h : 4096 ≤ nu) : coreUnits nu = nu := if_neg h.not_gt

theorem coreUnits_small {nu : ℕ} (h : nu * headerSize < 2 ^ 31) :
    toInt (coreUnits nu * headerSize) = headerSize * coreUnits nu := by
  have hlt : coreUnits nu * headerSize < 2 ^ 31 := by
    rw [coreUnits]
    split_ifs
    · decide
    · exact h
  rw [toInt_of_lt hlt, Nat.mul_comm, Int.natCast_mul]

/-- A block in use is apart from the others. -/
theorem HeapInv.apart_used {top : ℕ} (h : HeapInv L s N (insert (b, nb) live) top)
    (hnew : ∀ x ∈ live, x.1 ≠ b) (x : ℕ × ℕ) (hx : x ∈ live) :
    Disjoint (Set.Ico (b + headerSize) (b + headerSize + nb))
      (Set.Ico x.1 (x.1 + headerSize * s.size x.1)) := by
  have hb : b ∈ starts L N (insert (b, nb) live) := mem_starts.2 (Or.inr ⟨nb, Or.inl rfl⟩)
  have hxs : x.1 ∈ starts L N (insert (b, nb) live) := mem_starts.2 (Or.inr ⟨x.2, Or.inr hx⟩)
  have hroom := h.room _ (Set.mem_insert (b, nb) live)
  simp only [headerSize] at hroom ⊢
  rw [Set.disjoint_left]
  rintro y ⟨h1, h2⟩ ⟨h3, h4⟩
  rcases Nat.lt_or_gt_of_ne (hnew x hx) with hlt | hgt
  · have := h.pieces.apart _ hxs _ hb hlt
    simp only [headerSize] at this
    omega
  · have := h.pieces.apart _ hb _ hxs hgt
    simp only [headerSize] at this
    omega

theorem HeapInv.end_le {top : ℕ} (h : HeapInv L s N (insert (b, nb) live) top) :
    b + headerSize + nb ≤ top := by
  have hroom := h.room _ (Set.mem_insert (b, nb) live)
  have hused := h.used (Set.mem_insert (b, nb) live)
  simp only [headerSize] at hroom ⊢
  omega

theorem Live.add_ptr : live.add nbytes (b + headerSize) = insert (b, nbytes) live := by
  rw [Live.add, if_neg (by simp only [headerSize]; omega), Nat.add_sub_cancel]

/-- The break of a request that was granted as it was meant. -/
theorem newBrk_small {nu : ℕ} (h : nu * headerSize < 2 ^ 31) :
    newBrk s (toInt (coreUnits nu * headerSize)) = s.brk + headerSize * coreUnits nu := by
  rw [coreUnits_small h, newBrk]
  split_ifs <;> omega

/-- A request that satisfies `Serves` : the block is as it should be, and the invariant holds. -/
theorem Malloced.served {k : Sbrk L} (h : HeapInv L s N live s.brk)
    (hle : s.brk ≤ L.start + L.limit) (hm : Malloced L k s N live nbytes r s')
    (hserves : Serves k s nbytes) :
    Honest s live nbytes r s' ∧ ∃ N', HeapInv L s' N' (live.add nbytes r) s'.brk ∧
      s'.brk ≤ L.start + L.limit := by
  cases hm with
  | @list _ N' b hbig hbrk hinv hnew =>
    refine ⟨⟨hbrk.ge, Or.inr ⟨hbrk ▸ hinv.end_le, hinv.apart_used hnew⟩⟩, N', ?_, hbrk ▸ hle⟩
    rw [Live.add_ptr, hbrk]
    exact hinv
  | refused hsmall hno => exact ⟨⟨le_rfl, Or.inl rfl⟩, N, h, hle⟩
  | @grown _ N' b hsmall hgrant hbrk hinv hb hnew =>
    have hfit : nunits nbytes * headerSize < 2 ^ 31 := by
      rcases hserves with hfit | ⟨-, i, hi⟩ | hno
      · exact hfit
      · exact absurd (hsmall _ (h.ring.iterate_mem h.freep_mem i)) hi.not_gt
      · by_contra hc
        simp only [headerSize] at hc
        rw [coreUnits_of_le (by omega), hno] at hgrant
        cases hgrant
    have hb := k.bounded _ _ hgrant
    rw [newBrk_small hfit] at hbrk
    rw [coreUnits_small hfit] at hb
    refine ⟨⟨by omega, Or.inr ⟨hbrk ▸ hinv.end_le, hinv.apart_used hnew⟩⟩, N', ?_, ?_⟩
    · rw [Live.add_ptr, hbrk]
      exact hinv
    · rw [hbrk]
      exact_mod_cast hb

/-- Another request : the new block begins at the old break, and none of it is there. -/
theorem Malloced.not_honest {k : Sbrk L} (h : HeapInv L s N live s.brk) (hn : nbytes < 2 ^ 32)
    (hm : Malloced L k s N live nbytes r s') (hserves : ¬Serves k s nbytes) :
    ¬Honest s live nbytes r s' := by
  rw [Serves, not_or, not_or] at hserves
  obtain ⟨hlarge, hlist, hgr⟩ := hserves
  obtain ⟨-, -, hmax, hpos⟩ := nunits_spec hn
  simp only [headerSize] at hlarge
  have hcore : coreUnits (nunits nbytes) = nunits nbytes := coreUnits_of_le (by omega)
  cases hm with
  | list hbig hbrk hinv hnew =>
    obtain ⟨c, hc, hle⟩ := hbig
    obtain ⟨i, rfl⟩ := (h.ring.mem_iff h.freep_mem).1 hc
    exact absurd ⟨h.freep_ne, i, hle⟩ hlist
  | refused hsmall hno =>
    rw [hcore] at hno
    exact absurd hno hgr
  | grown hsmall hgrant hbrk hinv hb hnew =>
    rintro ⟨-, hr | ⟨hend, -⟩⟩
    · simp only [headerSize] at hr
      omega
    · have hle := toInt_le (n := nunits nbytes * headerSize) (by simp only [headerSize]; omega)
        (by simp only [headerSize]; omega)
      rw [hbrk, hcore, newBrk] at hend
      rw [hcore] at hb
      have := hpos (by omega)
      simp only [headerSize] at hend hb hle
      split_ifs at hend <;> omega

/-! ## What holds in a run -/

theorem RunInv.serves_iff {k : Sbrk L} (h : RunInv L s live) (hn : nbytes < 2 ^ 32) :
    Serves k (initBase L s) nbytes ↔ Serves k s nbytes := by
  rcases h with ⟨hf, hb, -⟩ | ⟨N, hN, -⟩
  · have hinv := initBase_inv hf hb
    have hpos := (nunits_spec hn).1
    have hno : ¬((initBase L s).freep ≠ 0 ∧ ∃ i,
        nunits nbytes ≤ (initBase L s).size ((initBase L s).ptr^[i] (initBase L s).freep)) := by
      rintro ⟨-, i, hi⟩
      have := hinv.ring.iterate_mem hinv.freep_mem i
      rw [Finset.mem_singleton.1 this, hinv.base_size] at hi
      omega
    have hbrk : (initBase L s).brk = s.brk := by
      rw [initBase, if_pos hf]
      rfl
    rw [Serves, Serves, or_iff_right hno, hbrk, hf]
    simp
  · rw [initBase, if_neg hN.freep_ne]

/-- A call of `malloc` in a run. It returns, and it is honest just when the request is one of
those that come out right; then the invariant holds again. -/
theorem RunInv.malloc_step (k : Sbrk L) (h : RunInv L s live) (hn : nbytes < 2 ^ 32) :
    ∃ F r s', (∀ fuel, F ≤ fuel → malloc k fuel nbytes s = some (r, s')) ∧
      (Honest s live nbytes r s' ↔ Serves k s nbytes) ∧
      (Serves k s nbytes → ∃ N', HeapInv L s' N' (live.add nbytes r) s'.brk ∧
        s'.brk ≤ L.start + L.limit) := by
  obtain ⟨N, hN, hbrk, hle, hsame⟩ := h.list
  have hlimit := L.limit_le
  obtain ⟨r, s', hrun, hm⟩ := hN.malloc_spec k hn (by omega) (le_refl (2 * N.card + 2))
  have hhonest : Honest (initBase L s) live nbytes r s' ↔ Honest s live nbytes r s' := by
    rw [Honest, Honest, hbrk]
  have hserved := fun hs => hm.served hN (by omega) ((h.serves_iff hn).2 hs)
  refine ⟨2 * N.card + 2, r, s', fun fuel hfuel => ?_, ⟨fun hh => ?_, fun hs => ?_⟩,
    fun hs => (hserved hs).2⟩
  · rw [hsame]
    exact malloc_mono hfuel hrun
  · by_contra hs
    exact hm.not_honest hN hn (fun hc => hs ((h.serves_iff hn).1 hc)) (hhonest.2 hh)
  · exact hhonest.1 (hserved hs).1

theorem RunInv.free_step (h : RunInv L s live) (hb : (b, nb) ∈ live) :
    ∃ F s', (∀ fuel, F ≤ fuel → free fuel (b + headerSize) s = some s') ∧
      ∃ N', HeapInv L s' N' (live.without b) s'.brk ∧ s'.brk ≤ L.start + L.limit := by
  rcases h with ⟨-, -, rfl⟩ | ⟨N, hN, hle⟩
  · exact hb.elim
  · obtain ⟨s', N', hrun, hfreed⟩ := hN.free_spec hb le_rfl
    refine ⟨N.card, s', fun fuel hfuel => free_mono hfuel hrun, N', ?_, hfreed.brk ▸ hle⟩
    rw [hfreed.brk]
    exact hfreed.inv

/-- What the program writes does not reach the headers. -/
theorem HeapInv.scribbles {top : ℕ} (h : HeapInv L s N live top) (hw : Scribbles live s s') :
    HeapInv L s' N live top := by
  have hout : ∀ a, a = L.base ∨ a ∈ starts L N live →
      s'.ptr a = s.ptr a ∧ s'.size a = s.size a := by
    refine fun a ha => hw.fields a fun y hy hc => ?_
    have hys : y.1 ∈ starts L N live := mem_starts.2 (Or.inr ⟨y.2, hy⟩)
    rcases ha with rfl | ha
    · have := h.start_mem hys
      omega
    · have := h.pieces.apart _ hys a ha hc.1
      omega
  have hnode : ∀ a ∈ N, a = L.base ∨ a ∈ starts L N live := fun a ha =>
    (eq_or_ne a L.base).imp id fun hne => mem_starts.2 (Or.inl ⟨ha, hne⟩)
  refine ⟨h.toHeapShape.congr (fun a ha => (hout a (hnode a ha)).1) fun a ha => (hout a ha).2,
    hw.freep ▸ h.freep_mem, fun a ha hne => ?_⟩
  rw [(hout a (hnode a ha)).1, (hout a (hnode a ha)).2]
  exact h.coalesced a ha hne

theorem HeapRun.inv (h : HeapRun L Serves s live) : RunInv L s live := by
  induction h with
  | init hf hb => exact Or.inl ⟨hf, hb, rfl⟩
  | @malloc s s' live k fuel nbytes r _ hn hP hrun ih =>
    obtain ⟨F, r', t, hret, -, hinv⟩ := ih.malloc_step k hn
    have h1 := malloc_mono (le_max_left fuel F) hrun
    rw [hret _ (le_max_right fuel F), Option.some.injEq, Prod.mk.injEq] at h1
    obtain ⟨rfl, rfl⟩ := h1
    exact Or.inr (hinv hP)
  | @free s s' live fuel b nb _ hb hrun ih =>
    obtain ⟨F, t, hret, hinv⟩ := ih.free_step hb
    have h1 := free_mono (le_max_left fuel F) hrun
    rw [hret _ (le_max_right fuel F), Option.some.injEq] at h1
    subst h1
    exact Or.inr hinv
  | write _ hw ih =>
    rcases ih with ⟨hf, hb, rfl⟩ | ⟨N, hN, hle⟩
    · exact Or.inl ⟨hw.freep.trans hf, hw.brk.trans hb, rfl⟩
    · exact Or.inr ⟨N, hw.brk ▸ hN.scribbles hw, hw.brk ▸ hle⟩

/-! ## A sample process -/

/-- A program of one page with `base` in it, on a machine of 128 MB. -/
def sampleLayout : Layout where
  base := 4000
  start := 4096
  limit := 2 ^ 27
  base_pos := by decide
  base_le := by decide
  limit_le := by decide

/-- A kernel that grants what fits. -/
def sampleSbrk : Sbrk sampleLayout where
  grants brk n := decide (brk + n ≤ 4096 + 2 ^ 27)
  bounded _ _ h := of_decide_eq_true h

/-- The process before its first call. -/
def sampleHeap : UHeap := ⟨fun _ => 0, fun _ => 0, 0, 4096⟩

theorem sampleHeap_malloc : ∃ s', malloc sampleSbrk 5 100 sampleHeap = some (69520, s') := ⟨_, rfl⟩

theorem sample_add : Live.add ∅ 100 69520 = {(69504, 100)} := by
  rw [show 69520 = 69504 + headerSize from rfl, Live.add_ptr, insert_empty_eq]

/-! ## What `malloc` returns -/

/-- A call of `malloc` in a run returns, and the block is inside the process and apart from the
others just when the request is one of those that come out right. -/
theorem malloc_honest_iff (h : HeapRun L Serves s live) (k : Sbrk L) (hn : nbytes < 2 ^ 32) :
    ∃ F r s', (∀ fuel, F ≤ fuel → malloc k fuel nbytes s = some (r, s')) ∧
      (Honest s live nbytes r s' ↔ Serves k s nbytes) := by
  obtain ⟨F, r, s', hret, hiff, -⟩ := h.inv.malloc_step k hn
  exact ⟨F, r, s', hret, hiff⟩

/-- A second request, of 200 bytes, beside a block of 100 bytes. -/
theorem malloc_honest_second : ∃ s F r s',
    malloc sampleSbrk 5 100 sampleHeap = some (69520, s) ∧
    (∀ fuel, F ≤ fuel → malloc sampleSbrk fuel 200 s = some (r, s')) ∧
    Honest s {(69504, 100)} 200 r s' := by
  obtain ⟨s, hs⟩ := sampleHeap_malloc
  have hrun : HeapRun sampleLayout Serves s (Live.add ∅ 100 69520) :=
    .malloc (.init rfl rfl) (by decide) (Or.inl (by decide)) hs
  obtain ⟨F, r, s', hret, hiff⟩ := malloc_honest_iff hrun sampleSbrk (show 200 < 2 ^ 32 by decide)
  rw [sample_add] at hiff
  exact ⟨s, F, r, s', hs, hret, hiff.2 (Or.inl (by decide))⟩

/-- The largest request : the process gets 16 bytes, for the header, and the block of 4 GB
begins where its memory ends. -/
theorem malloc_max_not_honest : HeapRun sampleLayout Serves sampleHeap ∅ ∧
    ∃ s', malloc sampleSbrk 5 4294967295 sampleHeap = some (4112, s') ∧ s'.brk = 4112 ∧
      ¬Honest sampleHeap ∅ 4294967295 4112 s' := by
  refine ⟨.init rfl rfl, _, rfl, rfl, ?_⟩
  rintro ⟨-, hr | ⟨hend, -⟩⟩
  · cases hr
  · exact absurd hend (by decide)

/-! ## The free list after every call -/

/-- The nodes of the free list. -/
def freeNodes (s : UHeap) : Set ℕ := {a | ∃ i, s.ptr^[i] s.freep = a}

/-- The free list is a ring through `base`, in ascending order but for one step. Its blocks do not
touch, and with the blocks in use they make up the memory the heap has got. -/
structure HeapOk (L : Layout) (s : UHeap) (live : Live) : Prop where
  base_mem : L.base ∈ freeNodes s
  circular : ∀ a ∈ freeNodes s, ∃ i, s.ptr^[i] a = s.freep
  ascending : ∀ a ∈ freeNodes s, (a < s.ptr a ∧ ∀ c ∈ freeNodes s, c ≤ a ∨ s.ptr a ≤ c) ∨
    ((∀ c ∈ freeNodes s, c ≤ a) ∧ s.ptr a = L.base)
  wrap : ∃! a, a ∈ freeNodes s ∧ s.ptr a ≤ a
  coalesced : ∀ a ∈ freeNodes s, ∀ b ∈ freeNodes s, a ≠ L.base →
    a + headerSize * s.size a ≠ b
  pieces : Pieces (freeNodes s \ {L.base} ∪ Prod.fst '' live) (fun a => headerSize * s.size a)
    L.start s.brk
  apart : ∀ x ∈ live, x.1 ∉ freeNodes s
  room : ∀ x ∈ live, headerSize + x.2 ≤ headerSize * s.size x.1

theorem HeapInv.heapOk (h : HeapInv L s N live s.brk) : HeapOk L s live := by
  have hN : freeNodes s = N := Set.ext fun a => (h.ring.mem_iff h.freep_mem).symm
  have hleast : ∀ a ∈ N, (∀ c ∈ N, s.ptr a ≤ c) → s.ptr a = L.base := fun a ha hmin =>
    le_antisymm (hmin _ h.base_mem) (h.base_le (h.ring.mem a ha))
  refine ⟨?_, ?_, ?_, ?_, ?_, ?_, ?_, h.room⟩ <;> rw [hN]
  · exact h.base_mem
  · exact fun a ha => (h.ring.mem_iff ha).1 h.freep_mem
  · intro a ha
    exact (h.ring.step a ha).imp id fun ⟨hmax, hmin⟩ => ⟨hmax, hleast a ha hmin⟩
  · obtain ⟨m, hm, hmax⟩ := Finset.exists_max_image N id ⟨_, h.base_mem⟩
    refine ⟨m, ⟨hm, hmax _ (h.ring.mem m hm)⟩, ?_⟩
    rintro a ⟨ha, hle⟩
    rcases h.ring.step a ha with ⟨hlt, -⟩ | ⟨hmax', -⟩
    · exact absurd hle hlt.not_ge
    · exact le_antisymm (hmax a ha) (hmax' m hm)
  · intro a ha b hb hne hab
    exact h.coalesced a ha hne (by rw [h.ptr_eq ha hb hne hab]; exact hab)
  · exact h.pieces
  · exact h.apart

/-- The requests whose size in bytes is an `int`. -/
def SmallRequest (L : Layout) : Sbrk L → UHeap → ℕ → Prop := fun _ _ nbytes =>
  nunits nbytes * headerSize < 2 ^ 31

/-- In a run of small requests every call returns, and leaves the heap in order. -/
theorem heap_invariant (h : HeapRun L (SmallRequest L) s live) :
    (∀ (k : Sbrk L) (nbytes : ℕ), nbytes < 2 ^ 32 → SmallRequest L k s nbytes →
      ∃ F r s', (∀ fuel, F ≤ fuel → malloc k fuel nbytes s = some (r, s')) ∧
        HeapOk L s' (live.add nbytes r)) ∧
    ∀ b nb, (b, nb) ∈ live →
      ∃ F s', (∀ fuel, F ≤ fuel → free fuel (b + headerSize) s = some s') ∧
        HeapOk L s' (live.without b) := by
  have hrun : HeapRun L Serves s live := h.mono fun _ _ _ hs => Or.inl hs
  refine ⟨fun k nbytes hn hsmall => ?_, fun b nb hb => ?_⟩
  · obtain ⟨F, r, s', hret, -, hinv⟩ := hrun.inv.malloc_step k hn
    obtain ⟨N', hN', -⟩ := hinv (Or.inl hsmall)
    exact ⟨F, r, s', hret, hN'.heapOk⟩
  · obtain ⟨F, s', hret, N', hN', -⟩ := hrun.inv.free_step hb
    exact ⟨F, s', hret, hN'.heapOk⟩

/-- A block of 100 bytes, freed. -/
theorem heap_invariant_freed : ∃ s F s', malloc sampleSbrk 5 100 sampleHeap = some (69520, s) ∧
    (∀ fuel, F ≤ fuel → free fuel 69520 s = some s') ∧ HeapOk sampleLayout s' ∅ := by
  obtain ⟨s, hs⟩ := sampleHeap_malloc
  have hrun : HeapRun sampleLayout (SmallRequest sampleLayout) s (Live.add ∅ 100 69520) := by
    refine .malloc (.init rfl rfl) (by decide) ?_ hs
    rw [SmallRequest]
    decide
  rw [sample_add] at hrun
  obtain ⟨F, s', hret, hok⟩ := (heap_invariant hrun).2 69504 100 rfl
  have hnone : Live.without {(69504, 100)} 69504 = ∅ := by
    ext x
    constructor
    · rintro ⟨rfl, hne⟩
      exact absurd rfl hne
    · exact False.elim
  rw [hnone] at hok
  exact ⟨s, F, s', hs, hret, hok⟩

end UHeap

end Xv6Plus
