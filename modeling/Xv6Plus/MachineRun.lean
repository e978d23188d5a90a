import Xv6Plus.ProcMem
import Xv6Plus.Flat

/-!
# Runs of the machine

From boot on, any number of processes are made, fork, exec, change their size, use their
memory, have it collapsed, exit and are freed, in any order, while the rest of the kernel
takes and gives back pages. `MachineRun ok` are the runs all of whose steps are in `ok`; as
long as every `sbrk` keeps the size at or below `TRAPFRAME`, the memory stays shared out as
`MachineOk` says.
-/

namespace Xv6Plus

/-- `userinit`, for the memory : the first process. Without memory for it `p` is `NULL`. -/
def Machine.userinit : Kern Machine Unit := do
  match ← Machine.allocproc with
  | none => throw "kerneltrap"
  | some i =>
    let m ← get
    Machine.setProc i { m.proc i with state := .live }

/-- What the processes of the machine do. -/
inductive MachineOp where
  | userinit
  | fork (i : ℕ)
  | exec (i : ℕ) (file : ExecFile) (argv : List (List UInt8))
  | vm (i : ℕ) (op : VmOp)
  | exit (i : ℕ)
  | reap (i : ℕ)

namespace MachineOp

/-- The code that runs. -/
def run : MachineOp → Kern Machine Unit
  | userinit => Machine.userinit
  | fork i => do
    let _ ← Machine.kfork i
    pure ()
  | exec i file argv => do
    let m ← get
    let _ ← Machine.procCall i fun p => kexec m.trampolinePa p file argv
    pure ()
  | vm i op => do
    let _ ← Machine.procCall i fun p => op.exec p
    pure ()
  | exit i => Machine.kexit i
  | reap i => Machine.reap i

/-- Who can do it; `sys_exec` fetches every argument into a page of its own. -/
def Enabled (m : Machine) : MachineOp → Prop
  | userinit => True
  | exec i _ argv => (m.proc i).state = .live ∧ ∀ arg ∈ argv, arg.length < 4096
  | fork i | vm i _ | exit i => (m.proc i).state = .live
  | reap i => (m.proc i).state = .zombie

/-- The sizes of the processes stay at or below `TRAPFRAME`. -/
def Fits (m : Machine) : MachineOp → Prop
  | vm i op => op.Fits (m.proc i)
  | _ => True

end MachineOp

/-- The runs from boot whose steps are in `ok`, with what the rest of the kernel holds. -/
inductive MachineRun (ok : Machine → MachineOp → Prop) (k : KernelEnd) :
    Machine → Set (ℕ × ℕ) → Prop
  | boot {s : Phys} {tramp : ℕ} : KallocRun k s ∅ → LeafOk 0 tramp 11 →
    MachineRun ok k ⟨s, fun _ => unusedProc, tramp⟩ ∅
  | step {m m' : Machine} {held : Set (ℕ × ℕ)} {op : MachineOp} : MachineRun ok k m held →
    op.Enabled m → ok m op → op.run.run m = .ok ((), m') → MachineRun ok k m' held
  /-- The process `i` enters the kernel, or the kernel sets its registers. -/
  | trap {m : Machine} {held : Set (ℕ × ℕ)} {i : ℕ} {b : Mem} : MachineRun ok k m held →
    (m.proc i).state ≠ .unused →
    Set.EqOn b m.phys.mem (span 4096 ((m.proc i).trapframe, 0))ᶜ →
    MachineRun ok k { m with phys := m.phys.setMem b } held
  | kalloc {m : Machine} {held : Set (ℕ × ℕ)} {s : Phys} {r : ℕ} : MachineRun ok k m held →
    Xv6Plus.kalloc.run m.phys = .ok (r, s) →
    MachineRun ok k { m with phys := s } (if r = 0 then held else insert (r, 0) held)
  | kallocHuge {m : Machine} {held : Set (ℕ × ℕ)} {s : Phys} {r : ℕ} : MachineRun ok k m held →
    Xv6Plus.kallocHuge.run m.phys = .ok (r, s) →
    MachineRun ok k { m with phys := s } (if r = 0 then held else insert (r, 9) held)
  | kfree {m : Machine} {held : Set (ℕ × ℕ)} {s : Phys} {a : ℕ} : MachineRun ok k m held →
    (a, 0) ∈ held → (Xv6Plus.kfree a).run m.phys = .ok ((), s) →
    MachineRun ok k { m with phys := s } (held \ {(a, 0)})
  | kfreeHuge {m : Machine} {held : Set (ℕ × ℕ)} {s : Phys} {a : ℕ} : MachineRun ok k m held →
    (a, 9) ∈ held → (Xv6Plus.kfreeHuge a).run m.phys = .ok ((), s) →
    MachineRun ok k { m with phys := s } (held \ {(a, 9)})
  /-- The rest of the kernel writes into what it holds. -/
  | write {m : Machine} {held : Set (ℕ × ℕ)} {b : Mem} : MachineRun ok k m held →
    Set.EqOn b m.phys.mem (region held)ᶜ →
    MachineRun ok k { m with phys := m.phys.setMem b } held

/-! ## The steps of the rest of the kernel -/

section Kept

variable {R : Set ℕ} {m m' : Machine} {held held' : Set (ℕ × ℕ)} {A : ℕ → PTree} {s' : Phys}
  {i : ℕ}

/-- The rest of the kernel has done something that leaves the processes alone. -/
theorem MachineOk.others (h : MachineOk R m held A)
    (ho : Owns s' R held' {b | ∃ i, b ∈ share m.proc A i})
    (hk : Keeps {b | ∃ i, b ∈ share m.proc A i} m.phys s') :
    MachineOk R { m with phys := s' } held' A := by
  have hshares : Shares s' R (share m.proc A) held' := ⟨ho.symm, h.shares.apart⟩
  refine ⟨hshares, fun i hi => ?_, h.unused, h.tramp⟩
  have hsp := h.space i hi
  have hmem : (A i).tables ∪ (A i).leaves ⊆ share m.proc A i := by
    rw [share_of_ne hi]
    exact Set.subset_insert _ _
  have hfocus := hshares.focus i
  rw [share_of_ne hi] at hfocus
  refine hsp.reframe (hfocus.insert_right fun hc => ?_) (hk.mono fun b hb => ⟨i, hmem hb⟩)
  exact Set.disjoint_left.1 hsp.uvm.owns.apart hc (Set.mem_insert _ _)

theorem MachineOk.alloc {o r : ℕ} (h : MachineOk R m held A)
    (hr : Owns.AllocPost m.phys R held {b | ∃ i, b ∈ share m.proc A i} o r s') :
    MachineOk R { m with phys := s' } (if r = 0 then held else insert (r, o) held) A := by
  rcases hr with ⟨rfl, rfl, -⟩ | ⟨hne, -, ho, hk⟩
  · rw [if_pos rfl]
    exact h
  · rw [if_neg hne]
    exact h.others ho (hk.mono Set.subset_union_right)

theorem MachineOk.trap {b : Mem} (h : MachineOk R m held A) (hi : (m.proc i).state ≠ .unused)
    (hb : Set.EqOn b m.phys.mem (span 4096 ((m.proc i).trapframe, 0))ᶜ) :
    MachineOk R { m with phys := m.phys.setMem b } held A := by
  obtain ⟨hsp, hk, -⟩ := (h.space i hi).store_trapframe (h.trapframe_notMem hi) hb
  have hst := h.step (A i) (Or.inr ⟨hi, h.trapframe_notMem hi, hsp⟩) hk
  rw [Function.update_eq_self, Function.update_eq_self] at hst
  exact hst

end Kept

/-! ## The steps of the processes -/

section Step

variable {R : Set ℕ} {m m' : Machine} {held : Set (ℕ × ℕ)} {A : ℕ → PTree} {i : ℕ}
  {s : Phys} {rest : Set (ℕ × ℕ)} {tramp : ℕ} {p : Proc} {B : PTree}

/-- Whatever runs first, the rest is enough. -/
theorem wp_bind_any {α β : Type} {x : Kern Phys α} {f : α → Kern Phys β} {Q : β → Phys → Prop}
    (h : ∀ a t, wp (f a) Q (fun _ => True) t) : wp (x >>= f) Q (fun _ => True) s :=
  (wp_bind x f).2 (wp_post (wp_trivial x) fun a t _ => h a t)

/-- The fields of a slot that a step of the process keeps. -/
def SameSlot (p q : Proc) : Prop := q.trapframe = p.trapframe ∧ q.state = p.state

theorem growproc_slot (p : Proc) (n : ℤ) :
    wp (growproc p n) (fun r _ => SameSlot p r.2) (fun _ => True) s := by
  rw [growproc, wp_ite, wp_ite]
  refine ⟨fun _ => wp_bind_any fun sz t => ?_, fun _ => ⟨fun _ => wp_bind_any fun sz t => ?_,
    fun _ => ?_⟩⟩
  · rw [wp_ite, wp_pure, wp_pure]
    exact ⟨fun _ => ⟨rfl, rfl⟩, fun _ => ⟨rfl, rfl⟩⟩
  · rw [wp_pure]
    exact ⟨rfl, rfl⟩
  · rw [wp_pure]
    exact ⟨rfl, rfl⟩

theorem sysSbrk_slot (p : Proc) (n : ℤ) (eager : Bool) :
    wp (sysSbrk p n eager) (fun r _ => SameSlot p r.2) (fun _ => True) s := by
  rw [sysSbrk, wp_ite, wp_ite, wp_pure, wp_pure, wp_bind]
  refine ⟨fun _ => wp_post (growproc_slot p n) ?_, fun _ => ⟨fun _ => ⟨rfl, rfl⟩,
    fun _ => ⟨rfl, rfl⟩⟩⟩
  rintro ⟨r, p'⟩ t hp
  dsimp only
  rw [wp_ite, wp_pure, wp_pure]
  exact ⟨fun _ => hp, fun _ => hp⟩

/-- A step of a process changes only the size in its slot. -/
theorem VmOp.exec_slot (op : VmOp) (p : Proc) :
    wp (op.exec p) (fun r _ => SameSlot p r.2) (fun _ => True) s := by
  have hsame : ∀ {t : Phys} (r : VmResult),
      wp (pure (r, p)) (fun r _ => SameSlot p r.2) (fun _ => True) t := fun r => by
    rw [wp_pure]
    exact ⟨rfl, rfl⟩
  cases op with
  | sbrk n eager =>
    rw [exec, wp_bind]
    refine wp_post (sysSbrk_slot p n eager) fun r t hp => ?_
    rw [wp_pure]
    exact hp
  | load va => exact wp_bind_any fun _ _ => hsame _
  | store va b => exact wp_bind_any fun _ _ => hsame _
  | copyin srcva len => exact wp_bind_any fun _ _ => hsame _
  | copyout dstva src => exact wp_bind_any fun _ _ => hsame _
  | collapse va => exact wp_bind_any fun _ _ => hsame _

/-- A step of a process keeps its address space. -/
theorem VmOp.exec_call (h : AddrSpace s R (insert (p.trapframe, 0) rest) tramp p B) {op : VmOp}
    (hfit : op.Fits p) :
    wp (op.exec p) (fun r s' => CallPost s R rest tramp p r.2 s') (ShrinkPanic op) s := by
  refine wp_post (wp_and (exec_spec h (FlatMem.ofView_holds h.sz_le) hfit) (exec_slot op p)) ?_
  rintro r s' ⟨⟨B', -, hsp, hk, -⟩, hslot⟩
  exact ⟨B', hsp, hk.mono (Set.subset_insert _ _), hslot⟩

/-- A step that does not return has a reason : the first process could not be made, or a huge
page could not be split. -/
def MachineOp.Panics (m : Machine) : MachineOp → String → Prop
  | userinit, e => e = "kerneltrap" ∧ NoRoom m
  | vm _ op, e => ShrinkPanic op e
  | _, _ => False

theorem MachineOk.setState {state : ProcState} (h : MachineOk R m held A)
    (hi : (m.proc i).state ≠ .unused) (hs : state ≠ .unused) :
    MachineOk R { m with proc := Function.update m.proc i { m.proc i with state := state } }
      held A := by
  have hsp := h.space i hi
  have hst := h.step (i := i) (A i) (p := { m.proc i with state := state }) (Or.inr ⟨hs,
    h.trapframe_notMem hi, hsp.uvm, hsp.root, hsp.sz_le, hsp.below, hsp.frame, hsp.tramp⟩)
    (.refl _ _)
  rwa [Function.update_eq_self] at hst

/-- `userinit` makes a process without memory. -/
theorem MachineOk.userinit_spec (h : MachineOk R m held A) :
    wp Machine.userinit (fun _ m' => m'.trampolinePa = m.trampolinePa ∧
      (∃ A', MachineOk R m' held A') ∧ m.phys.freeCount ≤ m'.phys.freeCount + 4 ∧
      ∃ j, (m'.proc j).state = .live ∧ (m'.proc j).sz = 0 ∧ ∀ k ≠ j, m'.proc k = m.proc k)
      (MachineOp.Panics m .userinit) m := by
  rw [Machine.userinit, wp_bind]
  refine wp_mono (h.allocprocFrom_spec (n := nProc) (i := 0)) ?_ fun _ => False.elim
  rintro r m₁ ⟨ht, hr⟩
  cases r with
  | none =>
    dsimp only
    rw [wp_throw]
    exact ⟨rfl, hr.2.2.2.imp_right fun hno j hj => hno j (Nat.zero_le j) (by omega)⟩
  | some j =>
    obtain ⟨-, hused, hsz, hsame, -, hcount, B, -, h₁⟩ := hr
    have hj : (m₁.proc j).state ≠ .unused := by
      rw [hused]
      exact ProcState.noConfusion
    dsimp only
    rw [wp_bind, wp_get, Machine.setProc, wp_modify]
    refine ⟨ht, ⟨_, h₁.setState hj ProcState.noConfusion⟩, hcount, j, ?_, ?_, fun k hk => ?_⟩
    · dsimp only
      rw [Function.update_self]
    · dsimp only
      rw [Function.update_self]
      exact hsz
    · dsimp only
      rw [Function.update_of_ne hk, hsame k hk]

theorem MachineOk.kexit_spec (h : MachineOk R m held A) (hi : (m.proc i).state ≠ .unused) :
    wp (Machine.kexit i) (fun _ m' => m'.trampolinePa = m.trampolinePa ∧
      ∃ A', MachineOk R m' held A') noPanic m := by
  rw [Machine.kexit, wp_bind, wp_get, Machine.setProc, wp_modify]
  exact ⟨rfl, A, h.setState hi ProcState.noConfusion⟩

theorem MachineOk.reap_spec (h : MachineOk R m held A) (hi : (m.proc i).state ≠ .unused) :
    wp (Machine.reap i) (fun _ m' => m'.trampolinePa = m.trampolinePa ∧
      ∃ A', MachineOk R m' held A') noPanic m := by
  rw [Machine.reap, wp_bind, wp_get, wp_bind, wp_machine_onPhys]
  refine wp_post (h.freeproc_spec hi) ?_
  rintro p s' ⟨rfl, h'⟩
  rw [Machine.setProc, wp_modify]
  exact ⟨rfl, A, h'⟩

theorem MachineOp.run_spec {op : MachineOp} (h : MachineOk R m held A) (hen : op.Enabled m)
    (hfit : op.Fits m) :
    wp op.run (fun _ m' => m'.trampolinePa = m.trampolinePa ∧ ∃ A', MachineOk R m' held A')
      (op.Panics m) m := by
  have hne : ∀ {i : ℕ} {st : ProcState}, (m.proc i).state = st → st ≠ .unused →
      (m.proc i).state ≠ .unused := fun h h' => h ▸ h'
  cases op with
  | userinit => exact wp_post h.userinit_spec fun _ m' hm => ⟨hm.1, hm.2.1⟩
  | fork i =>
    rw [run, wp_bind]
    refine wp_mono (h.kfork_spec (hne hen ProcState.noConfusion)) (fun _ m' hm => ?_)
      fun _ => False.elim
    rw [wp_pure]
    obtain ⟨ht, -, ⟨-, -, hm, -⟩ | ⟨j, -, -, -, -, -, B, hm, -⟩⟩ := hm
    · exact ⟨ht, A, hm⟩
    · exact ⟨ht, _, hm⟩
  | exec i file argv =>
    have hi := hne hen.1 ProcState.noConfusion
    have hcall : wp (kexec m.trampolinePa (m.proc i) file argv) (fun r s' => CallPost m.phys R
        (besides m.proc A held i) m.trampolinePa (m.proc i) r.2 s') noPanic m.phys := by
      have hsp := h.space i hi
      refine wp_post (kexec_spec _ hsp (h.trapframe_notMem hi) h.tramp fun arg ha =>
        (hen.2 arg ha).trans (by norm_num)) ?_
      rintro r s' ⟨⟨rfl, ho, hk⟩ | ⟨-, htf, hst, hk, B', -, -, hsp', -⟩, -⟩
      · exact ⟨A i, hsp.reframe ho (hk.mono Set.subset_union_left),
          hk.mono fun b hb => Or.inr (Or.inr hb), rfl, rfl⟩
      · exact ⟨B', hsp', hk, htf, hst⟩
    rw [run, wp_bind, wp_get, wp_bind]
    refine wp_mono (h.procCall_spec (x := fun p => kexec m.trampolinePa p file argv) hi hcall)
      (fun _ m' hm => ?_) fun _ => False.elim
    rw [wp_pure]
    exact hm
  | vm i op =>
    have hi := hne hen ProcState.noConfusion
    rw [run, wp_bind]
    refine wp_post (h.procCall_spec (x := fun p => op.exec p) hi
      (VmOp.exec_call (h.space i hi) hfit)) fun _ m' hm => ?_
    rw [wp_pure]
    exact hm
  | exit i => exact h.kexit_spec (hne hen ProcState.noConfusion)
  | reap i => exact h.reap_spec (hne hen ProcState.noConfusion)

end Step

/-! ## Whole runs -/

theorem MachineRun.inv {ok : Machine → MachineOp → Prop} {k : KernelEnd} {m : Machine}
    {held : Set (ℕ × ℕ)} (hok : ∀ m op, ok m op → op.Fits m) (h : MachineRun ok k m held) :
    ∃ A, MachineOk k.managed m held A := by
  induction h with
  | @boot s tramp hs ht =>
    have hempty : {b | ∃ i, b ∈ share (fun _ => unusedProc) (fun _ => .empty 0) i} = ∅ := by
      refine Set.eq_empty_of_forall_notMem ?_
      rintro b ⟨i, hb⟩
      rw [share, Proc.blocks, if_pos (show unusedProc.state = .unused from rfl)] at hb
      exact hb
    refine ⟨fun _ => .empty 0, ⟨?_, fun i j _ => ?_⟩, fun i hi => absurd rfl hi, fun _ _ => rfl, ht⟩
    · rw [hempty]
      exact hs.owns
    · rw [share, Proc.blocks]
      dsimp only
      rw [if_pos (show unusedProc.state = .unused from rfl)]
      exact Set.empty_disjoint _
  | step _ hen hop hrun ih =>
    obtain ⟨A, h⟩ := ih
    exact (wp_of_run (MachineOp.run_spec h hen (hok _ _ hop)) hrun).2
  | trap _ hi hb ih =>
    obtain ⟨A, h⟩ := ih
    exact ⟨A, h.trap hi hb⟩
  | kalloc _ hrun ih =>
    obtain ⟨A, h⟩ := ih
    exact ⟨A, h.alloc (wp_of_run h.shares.owns.symm.kalloc_spec hrun)⟩
  | kallocHuge _ hrun ih =>
    obtain ⟨A, h⟩ := ih
    exact ⟨A, h.alloc (wp_of_run h.shares.owns.symm.kallocHuge_spec hrun)⟩
  | kfree _ ha hrun ih =>
    obtain ⟨A, h⟩ := ih
    obtain ⟨ho, hk⟩ := wp_of_run (h.shares.owns.symm.kfree_spec ha) hrun
    exact ⟨A, h.others ho (hk.mono Set.subset_union_right)⟩
  | kfreeHuge _ ha hrun ih =>
    obtain ⟨A, h⟩ := ih
    obtain ⟨ho, hk⟩ := wp_of_run (h.shares.owns.symm.kfreeHuge_spec ha) hrun
    exact ⟨A, h.others ho (hk.mono Set.subset_union_right)⟩
  | @write m held b _ hb ih =>
    obtain ⟨A, h⟩ := ih
    have hw : WritesOwn held m.phys (m.phys.setMem b) := ⟨rfl, hb⟩
    obtain ⟨ho, hk⟩ := h.shares.owns.symm.store hw
    exact ⟨A, h.others ho hk⟩

/-- After boot there is memory for the first process, and enough is left. -/
theorem MachineRun.exists_process : ∃ m i,
    (∀ ok : Machine → MachineOp → Prop, (∀ m, ok m .userinit) → MachineRun ok sampleEnd m ∅) ∧
      (m.proc i).state = .live ∧ (m.proc i).sz = 0 ∧ 32730 ≤ m.phys.freeCount ∧
      m.trampolinePa = 0x80001000 ∧ ¬NoRoom m := by
  obtain ⟨s, hs⟩ := (kallocRun_rep sampleEnd).1 bootPhys rfl
  have hrun := KallocRun.init rfl hs
  have htramp : LeafOk 0 0x80001000 11 :=
    ⟨by norm_num, by norm_num, by decide, by decide, by decide⟩
  have hboot : MachineRun (fun m op => op.Fits m) sampleEnd
      ⟨s, fun _ => unusedProc, 0x80001000⟩ ∅ := .boot hrun htramp
  obtain ⟨A, h⟩ := hboot.inv fun _ _ hop => hop
  have hc := hrun.inv.buddy.census
  rw [region_empty, pageCount_empty, sampleEnd_pageCount] at hc
  have hroom : ¬NoRoom ⟨s, fun _ => unusedProc, 0x80001000⟩ := by
    rintro (hle | hno)
    · dsimp only at hle
      omega
    · exact hno 0 (by decide) rfl
  obtain ⟨⟨⟩, m, hm, ht, -, hcount, i, hlive, hsz, hsame⟩ := wp_noPanic_iff.1
    (wp_mono h.userinit_spec (fun _ _ hq => hq) fun e he => hroom he.2)
  dsimp only at hcount
  refine ⟨m, i, fun ok hok => ?_, hlive, hsz, by omega, ht, ?_⟩
  · exact .step (.boot hrun htramp) (show MachineOp.userinit.Enabled _ from trivial) (hok _) hm
  · rintro (hle | hno)
    · omega
    · -- one of the first two slots is not that of the process
      obtain ⟨j, hj, hji⟩ : ∃ j < nProc, j ≠ i := by
        by_cases h0 : i = 0
        · exact ⟨1, by decide, by omega⟩
        · exact ⟨0, by decide, by omega⟩
      refine hno j hj ?_
      rw [hsame j hji]
      rfl

end Xv6Plus
