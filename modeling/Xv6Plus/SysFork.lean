import Xv6Plus.Sys
import Xv6Plus.Teardown
import Xv6Plus.FileRun

/-!
# A fork that fails leaves no trace

`Sys.kfork` does to the memory what `Machine.kfork` does, so what is known of the memory carries
over. When memory runs out at any point, what was taken is given back : the free blocks are the
same, as they are determined by the pages that are free, and the files, inodes and signals were
not reached.
-/

namespace Xv6Plus

/-- The files, the inodes and the processes that are there are as before. -/
structure SameRest (st st' : Sys) : Prop where
  files : st'.files = st.files
  inodes : st'.inodeRef = st.inodeRef
  info : ∀ j, (st.machine.proc j).state ≠ .unused → st'.info j = st.info j

section Sim

variable {st : Sys} {i : ℕ}

theorem wp_sys_onPhys {α : Type} {x : Kern Phys α} {Q : α → Sys → Prop} {E : String → Prop} :
    wp (Sys.onPhys x) Q E st ↔
      wp x (fun a t => Q a { st with machine := { st.machine with phys := t } }) E
        st.machine.phys :=
  wp_zoom ..

theorem wp_sys_onFiles {α : Type} {x : Kern FileSys α} {Q : α → Sys → Prop} {E : String → Prop} :
    wp (Sys.onFiles x) Q E st ↔ wp x (fun a t => Q a { st with files := t }) E st.files :=
  wp_zoom ..

/-- What `allocproc` leaves beside the memory. -/
def AllocInfo (st : Sys) (r : Option ℕ) (st' : Sys) : Prop :=
  SameRest st st' ∧ ∀ j, r = some j → (st.machine.proc j).state = .unused ∧
    st'.info j = { st.info j with pid := st.nextpid, signals := initSignals }

theorem Sys.allocprocFrom_sim {P : Option ℕ → Machine → Prop} : ∀ {n i : ℕ},
    wp (Machine.allocprocFrom n i) P noPanic st.machine →
    wp (allocprocFrom n i) (fun r st' => P r st'.machine ∧ AllocInfo st r st') noPanic st
  | 0, i, h => by
    rw [Machine.allocprocFrom, wp_pure] at h
    rw [allocprocFrom, wp_pure]
    exact ⟨h, ⟨rfl, rfl, fun _ _ => rfl⟩, fun j hj => absurd hj.symm (Option.some_ne_none j)⟩
  | n + 1, i, h => by
    rw [Machine.allocprocFrom, wp_bind, wp_get, wp_ite] at h
    rw [allocprocFrom, wp_bind, wp_get, wp_ite]
    refine ⟨fun hi => ?_, fun hi => allocprocFrom_sim (h.2 hi)⟩
    have h := h.1 hi
    rw [wp_bind, wp_machine_onPhys] at h
    rw [wp_bind, allocpid, wp_bind, wp_get, wp_bind, wp_modify, wp_pure, wp_bind, wp_sys_onPhys]
    refine wp_post h ?_
    rintro ⟨p, ok⟩ t h
    dsimp only at h ⊢
    rw [wp_bind, Machine.setProc, wp_modify, wp_pure] at h
    rw [wp_bind, setProc, wp_modify]
    have hinfo : ∀ x : ProcInfo, ∀ j, (st.machine.proc j).state ≠ .unused →
        Function.update st.info i x j = st.info j := by
      intro x j hj
      refine Function.update_of_ne ?_ _ _
      rintro rfl
      exact hj hi
    cases ok with
    | true =>
      rw [if_pos rfl] at h ⊢
      rw [wp_bind, setInfo, wp_modify, wp_pure]
      refine ⟨h, ⟨rfl, rfl, hinfo _⟩, ?_⟩
      rintro j hj
      obtain rfl := Option.some.inj hj
      dsimp only
      rw [Function.update_self]
      exact ⟨hi, rfl⟩
    | false =>
      rw [if_neg Bool.false_ne_true] at h ⊢
      rw [wp_bind, setInfo, wp_modify, wp_pure]
      exact ⟨h, ⟨rfl, rfl, hinfo _⟩, fun j hj => absurd hj.symm (Option.some_ne_none j)⟩

/-- The files of a process are open, so that they can be duplicated. -/
theorem forkFiles_returns {p np : ℕ} (hne : p ≠ np) : ∀ {n i : ℕ} {s : FileSys},
    (∀ fd f, s.ofile p fd = some f → 1 ≤ (s.file f).ref) →
    wp (forkFiles p np n i) (fun _ _ => True) noPanic s
  | 0, i, s, h => by
    rw [forkFiles, wp_pure]
    trivial
  | n + 1, i, s, h => by
    rw [forkFiles, wp_bind, wp_get]
    cases hf : s.ofile p i with
    | none => exact forkFiles_returns hne h
    | some f =>
      have hopen := h i f hf
      dsimp only
      rw [wp_bind, filedup, wp_bind, wp_get, if_neg (by omega), wp_modify, wp_bind, wp_modify]
      refine forkFiles_returns hne fun fd g hg => ?_
      simp only [FileSys.setFd, FileSys.setFile, Function.update_of_ne hne] at hg ⊢
      by_cases hgf : g = f
      · rw [hgf, Function.update_self]
        exact Nat.le_add_left _ _
      · rw [Function.update_of_ne hgf]
        exact h fd g hg

/-- A process that can fork : not a kernel thread, with open files and a current directory. -/
structure CanFork (st : Sys) (i : ℕ) : Prop where
  live : (st.machine.proc i).state = .live
  user : (st.info i).isKthread = false
  files : ∀ fd f, st.files.ofile i fd = some f → 1 ≤ (st.files.file f).ref
  cwd : (st.info i).cwd ≠ none
  /-- `freeproc` clears `is_kthread`. -/
  unused : ∀ j, (st.machine.proc j).state = .unused → (st.info j).isKthread = false

/-- The signal fields of a child : the handlers of its parent, and no signal. -/
def Signals.child (x : Signals) : Signals :=
  { initSignals with
    signalHandlers := x.signalHandlers
    signalHandlersValid := x.signalHandlersValid }

/-- To the memory, `kfork` does what `Machine.kfork` does. -/
theorem Sys.kfork_sim {P : ℤ → Machine → Prop} (hc : CanFork st i)
    (h : wp (Machine.kfork i) P noPanic st.machine) :
    wp (kfork i) (fun r st' => (r = -1 ∧ P (-1) st'.machine ∧ SameRest st st') ∨
      (r = st.nextpid ∧ ∃ j : ℕ, P j st'.machine ∧ st'.info i = st.info i ∧
        (st'.info j).signals = (st.info i).signals.child ∧
        (st'.info j).killed = (st.info j).killed)) noPanic st := by
  rw [Machine.kfork, wp_bind] at h
  rw [kfork, wp_bind, wp_get, if_neg (by rw [hc.user]; exact Bool.false_ne_true), wp_bind]
  refine wp_post (allocprocFrom_sim h) ?_
  rintro r st₁ ⟨h, ⟨hsame, hj⟩⟩
  cases r with
  | none =>
    dsimp only at h ⊢
    rw [wp_pure] at h ⊢
    exact Or.inl ⟨rfl, h, hsame⟩
  | some j =>
    obtain ⟨hfree, hslot⟩ := hj j rfl
    have hkt : (st₁.info j).isKthread = (st.info j).isKthread := by rw [hslot]
    have hpid : (st₁.info j).pid = st.nextpid := by rw [hslot]
    have hi : (st.machine.proc i).state ≠ .unused := by
      rw [hc.live]
      exact ProcState.noConfusion
    have hij : i ≠ j := by
      rintro rfl
      exact hi hfree
    have hinfo := hsame.info i hi
    dsimp only at h ⊢
    rw [wp_bind, wp_get, wp_bind, wp_machine_onPhys] at h
    rw [wp_bind, wp_get, wp_bind, wp_sys_onPhys]
    refine wp_post h fun r t h => ?_
    rw [wp_ite] at h ⊢
    refine ⟨fun hr => ?_, fun hr => ?_⟩
    · -- the copy has failed
      have h := h.1 hr
      rw [wp_bind, wp_machine_onPhys] at h
      rw [wp_bind, freeproc, wp_bind, wp_get]
      dsimp only
      rw [hkt, hc.unused j hfree, if_neg Bool.false_ne_true, wp_bind, wp_sys_onPhys]
      refine wp_post h fun p t' h => ?_
      rw [wp_bind, Machine.setProc, wp_modify, wp_pure] at h
      rw [wp_bind, setProc, wp_modify, setInfo, wp_modify, wp_pure]
      refine Or.inl ⟨rfl, h, hsame.files, hsame.inodes, fun k hk => ?_⟩
      dsimp only
      rw [Function.update_of_ne, hsame.info k hk]
      rintro rfl
      exact hk hfree
    · have h := h.2 hr
      rw [wp_bind, wp_machine_onPhys, wp_moveBytes, wp_bind, wp_machine_onPhys, wp_store64,
        wp_bind, Machine.setProc, wp_modify, wp_pure] at h
      rw [wp_bind, wp_sys_onPhys, wp_moveBytes, wp_bind, wp_sys_onPhys, wp_store64, wp_bind,
        wp_sys_onFiles]
      refine wp_post (forkFiles_returns hij ?_) fun _ fs _ => ?_
      · dsimp only
        rw [hsame.files]
        exact hc.files
      · obtain ⟨c, hcwd⟩ := Option.ne_none_iff_exists'.1 hc.cwd
        rw [wp_bind, idup, wp_bind, wp_get, hinfo, hcwd]
        dsimp only [InodeRefs.idup]
        rw [wp_modify, wp_bind, setProc, wp_modify, wp_bind, setInfo, wp_modify, wp_pure]
        refine Or.inr ⟨hpid, j, h, ?_, ?_⟩
        · dsimp only
          rw [Function.update_of_ne hij, hinfo]
        · dsimp only
          rw [Function.update_self, hslot]
          exact ⟨rfl, rfl⟩

end Sim

/-! ## Failure -/

section Failure

variable {k : KernelEnd} {st : Sys} {held : Set (ℕ × ℕ)} {i : ℕ}

/-- What is not free is held. -/
theorem Owns.region_held {s : Phys} {R : Set ℕ} {own rest : Set (ℕ × ℕ)} (h : Owns s R own rest) :
    R \ region s.free = region (own ∪ rest) := by
  rw [h.buddy.region_free, Set.sdiff_sdiff_right_self,
    Set.inter_eq_right.2 h.buddy.live_subset]

/-- No trace : the free blocks, all memory that is not free, the process table, the files, the
inodes and the processes are as before. -/
structure NoTrace (k : KernelEnd) (st st' : Sys) : Prop extends SameRest st st' where
  free : st'.machine.phys.free = st.machine.phys.free
  mem : Set.EqOn st'.machine.phys.mem st.machine.phys.mem
    (k.managed \ region st.machine.phys.free)
  proc : st'.machine.proc = st.machine.proc

/-- The process in slot `j` is a copy of the one in slot `i`. -/
def ForkedTo (k : KernelEnd) (st : Sys) (i : ℕ) (st' : Sys) (j : ℕ) : Prop :=
  (st.machine.proc j).state = .unused ∧ (st'.machine.proc j).state = .live ∧
    (st'.machine.proc j).sz = (st.machine.proc i).sz ∧
    ∃ A B rest rest', AddrSpace st.machine.phys k.managed rest st.machine.trampolinePa
        (st.machine.proc i) A ∧
      AddrSpace st'.machine.phys k.managed rest' st'.machine.trampolinePa (st'.machine.proc j) B ∧
      B.view st'.machine.phys.mem = A.view st.machine.phys.mem

theorem MachineOk.noTrace {A : ℕ → PTree} {st' : Sys} (h : MachineOk k.managed st.machine held A)
    (h' : MachineOk k.managed st'.machine held A) (hproc : st'.machine.proc = st.machine.proc)
    (hk : Keeps (allHeld st.machine.proc A held) st.machine.phys st'.machine.phys)
    (hsame : SameRest st st') : NoTrace k st st' := by
  have howns := h'.shares.owns
  rw [hproc] at howns
  refine ⟨hsame, h.shares.owns.free_congr howns, ?_, hproc⟩
  rw [h.shares.owns.region_held]
  exact hk.mem

/-- Beside the memory of the process, its registers and its signal handlers are in the child, and
the parent's are as before. -/
structure ForkedContext (st : Sys) (i : ℕ) (st' : Sys) (j : ℕ) : Prop where
  slot : st'.machine.proc i = st.machine.proc i
  info : st'.info i = st.info i
  frame : Set.EqOn st'.machine.phys.mem st.machine.phys.mem
    (span 4096 ((st.machine.proc i).trapframe, 0))
  copied : FrameCopied st.machine.phys.mem st'.machine.phys.mem (st.machine.proc i).trapframe
    (st'.machine.proc j).trapframe
  signals : (st'.info j).signals = (st.info i).signals.child
  killed : (st'.info j).killed = (st.info j).killed

/-- All that `kfork` can do. -/
theorem Sys.kfork_cases (hrun : MachineRun (fun m op => op.Fits m) k st.machine held)
    (hc : CanFork st i) : ∃ r st', (kfork i).run st = .ok (r, st') ∧
      ((r = -1 ∧ NoTrace k st st' ∧ (NoRoom st.machine ∨ 0 < (st.machine.proc i).sz)) ∨
        (r = st.nextpid ∧ ∃ j, ForkedTo k st i st' j ∧ ForkedContext st i st' j)) := by
  obtain ⟨A, hm⟩ := hrun.inv fun _ _ h => h
  have hi : (st.machine.proc i).state ≠ .unused := by
    rw [hc.live]
    exact ProcState.noConfusion
  obtain ⟨r, st', hs, hpost⟩ := wp_noPanic_iff.1 (kfork_sim hc (hm.kfork_spec hi))
  refine ⟨r, st', hs, hpost.imp ?_ ?_⟩
  · rintro ⟨rfl, ⟨-, hk, ⟨-, hproc, hm', hwhy⟩ | ⟨j, hj, -⟩⟩, hsame⟩
    · exact ⟨rfl, hm.noTrace hm' hproc hk hsame, hwhy⟩
    · omega
  · rintro ⟨rfl, j, ⟨ht, hk, ⟨hj, -⟩ | ⟨j', hj, hfree, hlive, hsz, hother, B, hm', hview, hcopied⟩⟩,
      hinfo, hsig, hkilled⟩
    · omega
    · obtain rfl : j = j' := by omega
      have hj' : (st'.machine.proc j).state ≠ .unused := by
        rw [hlive]
        exact ProcState.noConfusion
      have hsp := hm'.space j hj'
      rw [Function.update_self] at hsp
      refine ⟨rfl, j, ⟨hfree, hlive, hsz, A i, B, _, _, hm.space i hi, hsp, hview⟩, ?_, hinfo, ?_,
        hcopied, hsig, hkilled⟩
      · refine hother i ?_
        rintro rfl
        exact hi hfree
      · refine fun x hx => hk.mem ⟨_, Or.inl ⟨i, ?_⟩, hx⟩
        rw [share_of_ne hi]
        exact Set.mem_insert _ _

/-- A system without open files, whose processes are in the root directory. -/
def bootSys (m : Machine) : Sys where
  machine := m
  files := (bootFiles ⟨bootPhys, fun _ => kmemCacheInit 0⟩).sys
  info _ := ⟨1, none, false, 0, false, some 0, [], initSignals⟩
  nextpid := 2
  inodeRef _ := 1

end Failure

end Xv6Plus
