import Xv6Plus.Roles
import Xv6Plus.SysFork

/-!
# What `freeproc` gives back

A process is made by `allocproc`, with a trapframe page and a page table, and is freed by
`freeproc`. For a process of a user all its pages go back : the free blocks are those of any state
in which the other blocks are held for the same. `kthread_create` leaves the page table that
`allocproc` has built in the slot, and `freeproc` leaves out the page table of a kernel thread, so
its nodes are held for nothing from then on.
-/

namespace Xv6Plus

section Memory

variable {R : Set ℕ} {m : Machine} {held : Set (ℕ × ℕ)} {A : ℕ → PTree} {i : ℕ}

theorem share_unused (proc : ℕ → Proc) (A : ℕ → PTree) (i : ℕ) :
    share (Function.update proc i unusedProc) A = Function.update (share proc A) i ∅ := by
  have h := share_update proc A i unusedProc (A i)
  rwa [Function.update_eq_self] at h

/-- The slot is emptied, and what the process has held is held by the rest of the kernel. -/
theorem MachineOk.retire (h : MachineOk R m held A) :
    MachineOk R { m with proc := Function.update m.proc i unusedProc }
      (share m.proc A i ∪ held) A := by
  have hshares : Shares m.phys R (share (Function.update m.proc i unusedProc) A)
      (share m.proc A i ∪ held) := by
    rw [share_unused]
    exact h.shares.retire i
  refine ⟨hshares, fun j hj => ?_, fun j hj => ?_, h.tramp⟩
  · dsimp only at hj ⊢
    have hji : j ≠ i := by
      rintro rfl
      rw [Function.update_self] at hj
      exact hj rfl
    rw [Function.update_of_ne hji] at hj ⊢
    have hfocus := hshares.focus j
    have hsp := h.space j hj
    rw [share, Function.update_of_ne hji, Proc.blocks, if_neg hj] at hfocus
    refine hsp.reframe (hfocus.insert_right fun hc => ?_) (.refl _ _)
    exact Set.disjoint_left.1 hsp.uvm.owns.apart hc (Set.mem_insert _ _)
  · dsimp only at hj ⊢
    by_cases hji : j = i
    · rw [hji, Function.update_self]
    · rw [Function.update_of_ne hji] at hj ⊢
      exact h.unused j hj

/-- A kernel thread is freed : the trapframe page goes back, and the nodes of the page table stay
with the rest of the kernel. -/
theorem MachineOk.freeKthread_spec (h : MachineOk R m held A) (hi : (m.proc i).state ≠ .unused) :
    wp (freeproc { m.proc i with pagetable := 0 }) (fun p s' => p = unusedProc ∧
      MachineOk R { m with phys := s', proc := Function.update m.proc i p }
        ((share m.proc A i ∪ held) \ {((m.proc i).trapframe, 0)}) A) noPanic m.phys := by
  have hr := h.retire (i := i)
  have hmem : ((m.proc i).trapframe, 0) ∈ share m.proc A i ∪ held := by
    rw [share_of_ne hi]
    exact Or.inl (Set.mem_insert _ _)
  have htf := hr.shares.owns.symm.page hmem
  rw [freeproc_of_pagetable_zero rfl, if_pos (by dsimp only; omega), wp_bind]
  refine wp_post (hr.shares.owns.symm.kfree_spec hmem) ?_
  rintro _ s' ⟨ho, hk⟩
  rw [wp_pure]
  exact ⟨rfl, hr.others ho (hk.mono Set.subset_union_right)⟩

end Memory

/-! ## Both kinds of processes -/

/-- `freeproc` has given back the pages of the process in slot `i`, and nothing else. What is held
then is held for something, so the free blocks are those of every state of a run in which the same
blocks are held. -/
structure GivenBack (k : KernelEnd) (st : Sys) (i : ℕ) (held : Set (ℕ × ℕ)) (st' : Sys) : Prop where
  pages : st'.machine.phys.freePages = st.machine.phys.freePages ∪
    pagesIn (region ((st.machine.proc i).partBlocks st.machine.phys.mem))
  apart : Disjoint st.machine.phys.freePages
    (pagesIn (region ((st.machine.proc i).partBlocks st.machine.phys.mem)))
  blocks : ∀ m H, MachineRun (fun m op => op.Fits m) k m H →
    roleBlocks m H = roleBlocks st'.machine held → st'.machine.phys.free = m.phys.free

section Both

variable {k : KernelEnd} {st : Sys} {held : Set (ℕ × ℕ)} {i : ℕ}

/-- The process is not there any more, and the other blocks are held for the same as before. -/
structure Freed (st : Sys) (i : ℕ) (held : Set (ℕ × ℕ)) (st' : Sys) : Prop where
  proc : st'.machine.proc = Function.update st.machine.proc i unusedProc
  info : st'.info = Function.update st.info i (st.info i).free
  roles : roleBlocks st'.machine held =
    roleBlocks st.machine held \ (st.machine.proc i).partBlocks st.machine.phys.mem

theorem MachineOk.share_eq {R : Set ℕ} {m : Machine} {A : ℕ → PTree} (h : MachineOk R m held A)
    (hi : (m.proc i).state ≠ .unused) :
    share m.proc A i = (m.proc i).partBlocks m.phys.mem := by
  rw [share_of_ne hi, (h.space i hi).partBlocks_eq]

/-- The blocks of the others. -/
theorem allHeld_unused {R : Set ℕ} {m : Machine} {A : ℕ → PTree} (h : MachineOk R m held A) :
    allHeld (Function.update m.proc i unusedProc) A held =
      allHeld m.proc A held \ share m.proc A i := by
  have hap := (h.shares.focus i).apart
  have hS : {b | ∃ j, b ∈ share m.proc A j} = share m.proc A i ∪ restShares (share m.proc A) i :=
    (share_union ..).symm
  rw [allHeld, allHeld, share_unused, ← share_union (Function.update (share m.proc A) i ∅) i,
    restShares_update, Function.update_self, Set.empty_union, hS, Set.union_assoc,
    Set.union_sdiff_cancel_left (Set.disjoint_iff.1 hap)]

/-- What is held by the rest of the kernel after `freeproc`. -/
def leftBehind (st : Sys) (A : ℕ → PTree) (held : Set (ℕ × ℕ)) (i : ℕ) : Set (ℕ × ℕ) :=
  if (st.info i).isKthread then
    (share st.machine.proc A i ∪ held) \ {((st.machine.proc i).trapframe, 0)}
  else held

theorem Sys.freeproc_spec {R : Set ℕ} {A : ℕ → PTree} (h : MachineOk R st.machine held A)
    (hi : (st.machine.proc i).state ≠ .unused) :
    wp (Sys.freeproc i) (fun _ st' => Freed st i held st' ∧
      MachineOk R st'.machine (leftBehind st A held i) A) noPanic st := by
  -- the roles of the other blocks
  have hfreed : ∀ s' H, MachineOk R { st.machine with
        phys := s', proc := Function.update st.machine.proc i unusedProc } H A →
      roleBlocks { st.machine with
        phys := s', proc := Function.update st.machine.proc i unusedProc } held =
      roleBlocks st.machine held \ (st.machine.proc i).partBlocks st.machine.phys.mem := by
    intro s' H h'
    rw [h'.roleBlocks_eq, h.roleBlocks_eq, ← h.share_eq hi, ← allHeld_unused h]
  rw [freeproc, wp_bind, wp_get]
  dsimp only
  cases hk : (st.info i).isKthread with
  | false =>
    rw [if_neg Bool.false_ne_true, wp_bind, wp_sys_onPhys, leftBehind, hk,
      if_neg Bool.false_ne_true]
    refine wp_post (h.freeproc_spec hi) ?_
    rintro p s' ⟨rfl, h'⟩
    rw [wp_bind, setProc, wp_modify, setInfo, wp_modify]
    exact ⟨⟨rfl, rfl, hfreed s' _ h'⟩, h'⟩
  | true =>
    rw [if_pos rfl, wp_bind, wp_sys_onPhys, leftBehind, hk, if_pos rfl]
    refine wp_post (h.freeKthread_spec hi) ?_
    rintro p s' ⟨rfl, h'⟩
    rw [wp_bind, setProc, wp_modify, setInfo, wp_modify]
    exact ⟨⟨rfl, rfl, hfreed s' _ h'⟩, h'⟩

/-- A process of a user. -/
theorem Freed.givenBack {A : ℕ → PTree} {st' : Sys} (hf : Freed st i held st')
    (h : MachineOk k.managed st.machine held A) (hi : (st.machine.proc i).state ≠ .unused)
    (h' : MachineOk k.managed st'.machine held A) : GivenBack k st i held st' := by
  have hbes : besides st'.machine.proc A held i = besides st.machine.proc A held i := by
    rw [besides, hf.proc, share_unused, restShares_update]
    rfl
  have hown := h'.owns_unused (i := i) (by rw [hf.proc, Function.update_self]; rfl)
  rw [hbes] at hown
  obtain ⟨hpages, hap⟩ := (h.shares.focus i).freePages_release hown
  rw [h.share_eq hi] at hpages hap
  refine ⟨hpages, hap, fun m H hrun hroles => ?_⟩
  obtain ⟨B, hm⟩ := hrun.inv fun _ _ h => h
  have hbuddy := hm.shares.owns.buddy
  change Buddy _ _ (allHeld m.proc B H) at hbuddy
  rw [← hm.roleBlocks_eq, hroles, h'.roleBlocks_eq] at hbuddy
  exact hbuddy.free_congr h'.shares.owns.buddy

/-- The root of the page table of a kernel thread does not go back, and is held for nothing. -/
theorem MachineOk.kthread_lost {A : ℕ → PTree} {st' : Sys}
    (h : MachineOk k.managed st.machine held A) (hi : (st.machine.proc i).state ≠ .unused)
    (hk : (st.info i).isKthread = true)
    (h' : MachineOk k.managed st'.machine (leftBehind st A held i) A) :
    ∃ n, kernBase + pgSize * n ∈ region ((st.machine.proc i).partBlocks st.machine.phys.mem) ∧
      kernBase + pgSize * n ∉ region st'.machine.phys.free ∧
      kernBase + pgSize * n ∉ region (roleBlocks st'.machine held) := by
  have hsp := h.space i hi
  have hfocus := h.shares.focus i
  have hroot : ((A i).root, 0) ∈ (A i).tables := ⟨rfl, 2, _, (A i).root_isTable⟩
  have hmem : ((A i).root, 0) ∈ share st.machine.proc A i := by
    rw [share_of_ne hi]
    exact Or.inr (Or.inl hroot)
  have hleft : ((A i).root, 0) ∈ leftBehind st A held i := by
    rw [leftBehind, hk, if_pos rfl]
    refine ⟨Or.inl hmem, fun heq => ?_⟩
    exact Set.disjoint_left.1 hsp.uvm.owns.apart (Or.inl hroot) (heq ▸ Set.mem_insert _ _)
  obtain ⟨n, hn⟩ : ∃ n, (A i).root = kernBase + pgSize * n := by
    have hp := hfocus.page hmem
    exact ⟨((A i).root - kernBase) / pgSize, by simp only [kernBase, pgSize] at *; omega⟩
  refine ⟨n, ?_, fun hfree => ?_, ?_⟩
  · rw [← h.share_eq hi, ← hn]
    exact start_mem_region hmem
  · rw [← hn] at hfree
    refine Set.disjoint_left.1 h'.shares.owns.buddy.apart hfree ?_
    exact start_mem_region (b := ((A i).root, 0)) (Or.inr hleft)
  · rw [h'.roleBlocks_eq, allHeld, region_union, ← hn]
    rintro (hx | hx)
    · exact Set.disjoint_left.1 h'.shares.owns.region_apart hx (start_mem_region hleft)
    · refine Set.disjoint_left.1 hfocus.region_apart (start_mem_region hmem) ?_
      exact region_mono Set.subset_union_right hx

/-- In every state of every run in which the sizes stay at or below `TRAPFRAME`, `freeproc` gives
back exactly the pages of the process, unless it is a kernel thread. -/
theorem freeproc_gives_back (hrun : MachineRun (fun m op => op.Fits m) k st.machine held)
    (hi : (st.machine.proc i).state ≠ .unused) :
    ∃ st', (Sys.freeproc i).run st = .ok ((), st') ∧ Freed st i held st' ∧
      (GivenBack k st i held st' ↔ (st.info i).isKthread = false) := by
  obtain ⟨A, h⟩ := hrun.inv fun _ _ h => h
  obtain ⟨⟨⟩, st', hs, hf, h'⟩ := wp_noPanic_iff.1 (Sys.freeproc_spec h hi)
  refine ⟨st', hs, hf, fun hb => ?_, fun hu => ?_⟩
  · by_contra hk
    obtain ⟨n, hpart, hfree, -⟩ := h.kthread_lost hi (Bool.not_eq_false _ ▸ hk) h'
    have hn : n ∈ st'.machine.phys.freePages := hb.pages ▸ Or.inr hpart
    exact hfree hn
  · rw [leftBehind, hu, if_neg Bool.false_ne_true] at h'
    exact hf.givenBack h hi h'

/-- The first process. -/
theorem freeproc_gives_back_init : ∃ (st : Sys) (i : ℕ) (st' : Sys),
    (st.machine.proc i).state = .live ∧ (Sys.freeproc i).run st = .ok ((), st') ∧
    GivenBack sampleEnd st i ∅ st' := by
  obtain ⟨m, i, hrun, hi, -⟩ := MachineRun.exists_process
  replace hrun : MachineRun (fun m op => op.Fits m) sampleEnd (bootSys m).machine ∅ :=
    hrun (fun m op => op.Fits m) fun _ => trivial
  have hne : ((bootSys m).machine.proc i).state ≠ .unused := by
    rw [show ((bootSys m).machine.proc i).state = .live from hi]
    exact ProcState.noConfusion
  obtain ⟨st', hs, -, hiff⟩ := freeproc_gives_back hrun hne
  exact ⟨bootSys m, i, st', hi, hs, hiff.2 rfl⟩

/-! ## Kernel threads -/

/-- `kthread_create` has made a thread in slot `j`. A thread is set up like a process, and its
trapframe is cleared. -/
structure Created (k : KernelEnd) (st : Sys) (held : Set (ℕ × ℕ)) (st' : Sys) (j : ℕ) : Prop where
  unused : (st.machine.proc j).state = .unused
  live : (st'.machine.proc j).state = .live
  others : ∀ l ≠ j, st'.machine.proc l = st.machine.proc l
  kthread : (st'.info j).isKthread = true
  run : MachineRun (fun m op => op.Fits m) k st'.machine held
  space : ∀ A, MachineOk k.managed st.machine held A →
    ∃ B, MachineOk k.managed st'.machine held (Function.update A j B)

/-- All that `kthread_create` can do. -/
theorem Sys.kthreadCreate_cases (name : List UInt8)
    (hrun : MachineRun (fun m op => op.Fits m) k st.machine held) :
    ∃ r st', (kthreadCreate name).run st = .ok (r, st') ∧
      ((r = none ∧ NoTrace k st st' ∧ NoRoom st.machine) ∨
        ∃ j, r = some j ∧ Created k st held st' j) := by
  obtain ⟨A, h⟩ := hrun.inv fun _ _ h => h
  obtain ⟨r, m₁, hm, -, hpost⟩ := wp_noPanic_iff.1 (h.allocprocFrom_spec (n := nProc) (i := 0))
  have hsim : wp (Machine.allocprocFrom nProc 0) (fun r' m' => r' = r ∧ m' = m₁) noPanic
      st.machine := (wp_iff_of_ok hm).2 ⟨rfl, rfl⟩
  refine wp_noPanic_iff.1 ?_
  rw [kthreadCreate, wp_bind]
  refine wp_post (allocprocFrom_sim hsim) ?_
  rintro r st₁ ⟨⟨rfl, rfl⟩, hsame, -⟩
  cases r with
  | none =>
    obtain ⟨hproc, hm', hk, hno⟩ := hpost
    rw [wp_pure]
    refine Or.inl ⟨rfl, h.noTrace hm' hproc hk hsame, hno.imp_right fun hno j hj => ?_⟩
    exact hno j (Nat.zero_le j) (by omega)
  | some j =>
    obtain ⟨hfree, hused, hsz, hother, -⟩ := hpost
    -- what `userinit` does to the memory
    have huser : wp Machine.userinit (fun _ m' => m' = { st₁.machine with
        proc := Function.update st₁.machine.proc j { st₁.machine.proc j with state := .live } })
        noPanic st.machine := by
      rw [Machine.userinit, wp_bind]
      refine wp_post hsim ?_
      rintro _ _ ⟨rfl, rfl⟩
      dsimp only
      rw [wp_bind, wp_get, Machine.setProc, wp_modify]
    obtain ⟨⟨⟩, _, hu, rfl⟩ := wp_noPanic_iff.1 huser
    have hlive := MachineRun.step hrun (show MachineOp.userinit.Enabled _ from trivial) trivial hu
    have hslot : ({ st₁.machine.proc j with sz := 0, state := .live } : Proc) =
        { st₁.machine.proc j with state := .live } := by rw [← hsz]
    -- and a write into the trapframe
    have hwrite : Set.EqOn (memset st₁.machine.phys.mem (st₁.machine.proc j).trapframe 0 288)
        st₁.machine.phys.mem (span 4096 ((st₁.machine.proc j).trapframe, 0))ᶜ :=
      memset_eqOn fun x hx => by
        rw [Set.mem_compl_iff, mem_span] at hx
        simp only [pow_zero] at hx
        omega
    have hj : (st₁.machine.proc j).state ≠ .unused := by
      rw [hused]
      exact ProcState.noConfusion
    dsimp only
    rw [wp_bind, wp_get, wp_bind, wp_sys_onPhys, wp_modify, wp_bind, setProc, wp_modify, wp_bind,
      setInfo, wp_modify, wp_pure, hslot]
    refine Or.inr ⟨j, rfl, hfree, ?_, fun l hl => ?_, ?_, ?_, ?_⟩
    · dsimp only
      rw [Function.update_self]
    · dsimp only
      rw [Function.update_of_ne hl, hother l hl]
    · dsimp only
      rw [Function.update_self]
    · refine hlive.trap (i := j) ?_ ?_
      · dsimp only
        rw [Function.update_self]
        exact ProcState.noConfusion
      · dsimp only
        rw [Function.update_self]
        exact hwrite
    · intro A' hA
      obtain ⟨-, -, -, -, -, -, -, B, -, h₁⟩ := wp_of_run hA.allocprocFrom_spec hm
      exact ⟨B, (h₁.trap hj hwrite).setState hj ProcState.noConfusion⟩

/-- Creating and freeing a kernel thread changes the free blocks. -/
theorem kthread_leaks_pagetable : ∃ (st st₁ st₂ : Sys) (j : ℕ),
    MachineRun (fun m op => op.Fits m) sampleEnd st.machine ∅ ∧
    (Sys.kthreadCreate []).run st = .ok (some j, st₁) ∧
    (Sys.freeproc j).run st₁ = .ok ((), st₂) ∧ st₂.machine.proc = st.machine.proc ∧
    roleBlocks st₂.machine ∅ = roleBlocks st.machine ∅ ∧
    st₂.machine.phys.free ≠ st.machine.phys.free := by
  obtain ⟨m, i, hrun, hi, -, -, -, hroom⟩ := MachineRun.exists_process
  replace hrun : MachineRun (fun m op => op.Fits m) sampleEnd (bootSys m).machine ∅ :=
    hrun (fun m op => op.Fits m) fun _ => trivial
  obtain ⟨r, st₁, hs₁, ⟨-, -, hno⟩ | ⟨j, rfl, hc⟩⟩ := Sys.kthreadCreate_cases [] hrun
  · exact absurd hno hroom
  have hj : (st₁.machine.proc j).state ≠ .unused := by
    rw [hc.live]
    exact ProcState.noConfusion
  obtain ⟨A, h⟩ := hrun.inv fun _ _ h => h
  obtain ⟨B, h₁⟩ := hc.space A h
  obtain ⟨⟨⟩, st₂, hs₂, hf, h₂⟩ := wp_noPanic_iff.1 (Sys.freeproc_spec h₁ hj)
  have hproc : st₂.machine.proc = (bootSys m).machine.proc := by
    rw [hf.proc]
    funext l
    by_cases hl : l = j
    · rw [hl, Function.update_self]
      exact (h.unused j hc.unused).symm
    · rw [Function.update_of_ne hl]
      exact hc.others l hl
  have hroles : roleBlocks st₂.machine ∅ = roleBlocks (bootSys m).machine ∅ := by
    have hcongr : MachineOk sampleEnd.managed (bootSys m).machine ∅ (Function.update A j B) :=
      h.congr fun l hl => Function.update_of_ne (by
        rintro rfl
        exact hl hc.unused) _ _
    rw [h₂.roleBlocks_eq, hcongr.roleBlocks_eq, hproc]
  refine ⟨bootSys m, st₁, st₂, j, hrun, hs₁, hs₂, hproc, hroles, fun hfree => ?_⟩
  -- what is held for nothing was free before
  obtain ⟨n, hpart, hn, hrole⟩ := h₁.kthread_lost hj hc.kthread h₂
  have hbuddy := h.shares.owns.buddy
  change Buddy _ _ (allHeld (bootSys m).machine.proc A ∅) at hbuddy
  rw [← h.roleBlocks_eq, ← hroles] at hbuddy
  refine hn ?_
  rw [hfree, hbuddy.region_free]
  refine ⟨?_, hrole⟩
  rw [← h₁.share_eq hj] at hpart
  exact (h₁.shares.focus j).buddy.live_subset (region_mono Set.subset_union_left hpart)

end Both

end Xv6Plus
