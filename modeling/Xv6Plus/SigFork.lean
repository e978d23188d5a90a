import Xv6Plus.SysFork

/-!
# Signals and `kfork`

A child starts with the registers and the memory of its parent and with the parent's handlers, but
outside of any handler : `kfork` clears the pending signals and the saved trapframe. When the
parent has forked inside a handler, its own `sigreturn` goes back to where the handler was entered,
and the child's `sigreturn` fails.
-/

namespace Xv6Plus

/-! ## The trapframe in memory -/

/-- The offset of a register in `struct trapframe`. -/
def Reg.offset (r : Reg) : ℕ := 40 + 8 * r.ctorIdx

/-- The `struct trapframe` at the address `a`. -/
def trapframeAt (m : Mem) (a : ℕ) : Trapframe where
  kernelSatp := read64 m a
  kernelSp := read64 m (a + 8)
  kernelTrap := read64 m (a + 16)
  epc := read64 m (a + 24)
  kernelHartid := read64 m (a + 32)
  reg r := read64 m (a + r.offset)

/-- The process in slot `i`, as signal handling sees it. -/
def Sys.sigProc (st : Sys) (i : ℕ) (state : RunState) : SigProc where
  pid := (st.info i).pid
  state := state
  killed := (st.info i).killed
  trapframe := trapframeAt st.machine.phys.mem (st.machine.proc i).trapframe
  pendingSignals := (st.info i).signals.pendingSignals
  signalHandlersValid := (st.info i).signals.signalHandlersValid
  signalHandlers := (st.info i).signals.signalHandlers
  sigTrapframe := (st.info i).signals.sigTrapframe
  sigTrapframeValid := (st.info i).signals.sigTrapframeValid

section Frame

variable {m m' : Mem} {src dst x : ℕ} {r : Reg}

/-- The registers are behind the five words of the kernel, and `a0` is at its place. -/
theorem Reg.offset_spec (r : Reg) : 40 ≤ r.offset ∧ r.offset + 8 ≤ 288 ∧
    (r = .a0 ∧ r.offset = 112 ∨ r ≠ .a0 ∧ (r.offset + 8 ≤ 112 ∨ 120 ≤ r.offset)) := by
  cases r <;> decide

theorem FrameCopied.word (h : FrameCopied m m' src dst) (hx : x + 8 ≤ 112 ∨ 120 ≤ x)
    (hle : x + 8 ≤ 288) : read64 m' (dst + x) = read64 m (src + x) := by
  refine readLE_shift fun i hi => ?_
  rw [Nat.add_assoc, Nat.add_assoc, h (x + i) (by omega), if_neg (by omega)]

theorem FrameCopied.a0 (h : FrameCopied m m' src dst) : read64 m' (dst + 112) = 0 := by
  have hd := readLE_of_digits (m := m') (n := 8) (a := dst + 112) (v := 0) fun i hi => by
    rw [Nat.add_assoc, h (112 + i) (by omega), if_pos (by omega)]
    simp
  rw [read64, hd, Nat.zero_mod]

/-- The copy of a trapframe, read as one. -/
theorem FrameCopied.trapframeAt (h : FrameCopied m m' src dst) : trapframeAt m' dst =
    { Xv6Plus.trapframeAt m src with
      reg := Function.update (Xv6Plus.trapframeAt m src).reg .a0 0 } := by
  have hreg : (Xv6Plus.trapframeAt m' dst).reg =
      Function.update (Xv6Plus.trapframeAt m src).reg .a0 0 := by
    funext r
    obtain ⟨-, hle, ⟨rfl, hoff⟩ | ⟨hr, hoff⟩⟩ := r.offset_spec
    · rw [Function.update_self]
      exact h.a0
    · rw [Function.update_of_ne hr]
      exact h.word hoff hle
  have h0 : read64 m' dst = read64 m src := h.word (x := 0) (by omega) (by omega)
  rw [← hreg]
  simp only [Xv6Plus.trapframeAt, h0, h.word (x := 8) (by omega) (by omega),
    h.word (x := 16) (by omega) (by omega), h.word (x := 24) (by omega) (by omega),
    h.word (x := 32) (by omega) (by omega)]

end Frame

/-! ## From `kfork` to `sigreturn` -/

/-- The parent, back from `kfork` in its system call with the pid of the child. -/
def Sys.Parent (st : Sys) (i : ℕ) (pid : ℤ) (s : SigState) : Prop :=
  s.pc = .handle ∧ ∃ state, s.table i = (st.sigProc i state).setReg .a0 (pid % 2 ^ 64).toNat

/-- The child, which `forkret` sends to user mode. -/
def Sys.Child (st : Sys) (j : ℕ) (s : SigState) : Prop :=
  s.pc = .ret ∧ ∃ state, s.table j = st.sigProc j state

/-- The process in slot `i` has come to a system call `sigreturn`, in steps in which no signal
has been delivered to it and it has not returned from a handler. -/
structure ToSigreturn (i : ℕ) (start : SigState → Prop) (s : SigState) : Prop where
  run : ∃ h, Run start (restrict (SigStep i) fun _ e => e ≠ .returned ∧ ∀ n, e ≠ .delivered n) h s
  pc : s.pc = .syscall
  num : argint (s.table i) .a7 = sysSigreturnNum

/-- `sigreturn` succeeds, and the trapframe is `f` then. -/
def SigState.Returns (i : ℕ) (s : SigState) (f : Trapframe) : Prop :=
  ∀ ret, (syscall i ret s.table).1 = .returned ∧ ((syscall i ret s.table).2 i).trapframe = f

/-- `sigreturn` fails with `-1` and leaves the other registers. -/
def SigState.Refuses (i : ℕ) (s : SigState) : Prop :=
  ∀ ret, (syscall i ret s.table).1 = .other ∧
    (syscall i ret s.table).2 i = (s.table i).setReg .a0 (2 ^ 64 - 1)

section Sigreturn

variable {i : ℕ} {s s' : SigState} {e : SigEvent} {start : SigState → Prop} {f : Trapframe}
  {v : Bool}

/-- What `sigreturn` goes by. -/
def SigProc.Saved (p : SigProc) (v : Bool) (f : Trapframe) : Prop :=
  p.sigTrapframeValid = v ∧ (v = true → p.sigTrapframe = f)

theorem SigStep.saved (hs : SigStep i s e s') (hret : e ≠ .returned) (hdel : ∀ n, e ≠ .delivered n)
    (h : (s.table i).Saved v f) : (s'.table i).Saved v f := by
  have he := hs.effect
  generalize s'.table i = p' at he
  cases he with
  | sent _ _ hp => exact ⟨hp.valid.trans h.1, fun hv => hp.saved.trans (h.2 hv)⟩
  | elsewhere _ hp => exact ⟨hp.valid.trans h.1, fun hv => hp.saved.trans (h.2 hv)⟩
  | delivered => exact absurd rfl (hdel _)
  | dropped => exact h
  | returned => exact absurd rfl hret
  | other hp => exact ⟨hp.valid.trans h.1, fun hv => hp.saved.trans (h.2 hv)⟩

theorem ToSigreturn.saved (h : ToSigreturn i start s)
    (hstart : ∀ s, start s → (s.table i).Saved v f) : (s.table i).Saved v f := by
  obtain ⟨_, hrun⟩ := h.run
  exact hrun.invariant (P := fun _ s => (s.table i).Saved v f) hstart
    fun _ _ _ _ hp hs => hs.1.saved hs.2.1 hs.2.2 hp

theorem ToSigreturn.syscall (h : ToSigreturn i start s) (ret : ℕ) : syscall i ret s.table =
    ((sysSigreturn (s.table i)).1, Function.update s.table i
      ((sysSigreturn (s.table i)).2.2.setReg .a0 (sysSigreturn (s.table i)).2.1)) := by
  rw [Xv6Plus.syscall]
  dsimp only
  rw [if_neg (by rw [h.num]; decide), if_neg (by rw [h.num]; decide), if_pos h.num]

theorem ToSigreturn.returns (h : ToSigreturn i start s)
    (hstart : ∀ s, start s → (s.table i).Saved true f) : s.Returns i f := by
  intro ret
  obtain ⟨hv, hf⟩ := h.saved hstart
  rw [h.syscall, sysSigreturn, if_neg (by rw [hv]; decide), hf rfl]
  refine ⟨rfl, ?_⟩
  dsimp only
  rw [Function.update_self, SigProc.setReg, Function.update_eq_self]

theorem ToSigreturn.refuses (h : ToSigreturn i start s)
    (hstart : ∀ s, start s → (s.table i).Saved false f) : s.Refuses i := by
  intro ret
  obtain ⟨hv, -⟩ := h.saved hstart
  rw [h.syscall, sysSigreturn, if_pos hv]
  exact ⟨rfl, Function.update_self ..⟩

end Sigreturn

/-! ## What a child inherits -/

/-- After `kfork` by the process `i`, with the child in slot `j`. -/
structure SigContext (st : Sys) (i : ℕ) (st' : Sys) (j : ℕ) : Prop where
  parent : st'.sigProc i = st.sigProc i
  regs : ∀ state, (st'.sigProc j state).trapframe = ((st.sigProc i state).setReg .a0 0).trapframe
  handlers : (st'.info j).signals.signalHandlers = (st.info i).signals.signalHandlers
  valid : (st'.info j).signals.signalHandlersValid = (st.info i).signals.signalHandlersValid
  /-- In a handler, the parent can go back to where it was entered. -/
  inside : (st.info i).signals.sigTrapframeValid = true →
    ∀ s, ToSigreturn i (st'.Parent i st.nextpid) s → s.Returns i (st.info i).signals.sigTrapframe
  outside : (st.info i).signals.sigTrapframeValid = false →
    ∀ s, ToSigreturn i (st'.Parent i st.nextpid) s → s.Refuses i
  /-- The child is not in a handler. -/
  child : ∀ s, ToSigreturn j (st'.Child j) s → s.Refuses j

section Context

variable {k : KernelEnd} {st st' : Sys} {held : Set (ℕ × ℕ)} {i j : ℕ}

theorem trapframeAt_congr {m m' : Mem} {a : ℕ} (h : Set.EqOn m m' (span 4096 (a, 0))) :
    trapframeAt m a = trapframeAt m' a := by
  have hword : ∀ x, x + 8 ≤ 288 → read64 m (a + x) = read64 m' (a + x) := by
    refine fun x hx => read64_congr fun y hy => h ?_
    rw [mem_span]
    have h1 := hy.1
    have h2 := hy.2
    simp only [pow_zero]
    omega
  have hreg : (trapframeAt m a).reg = (trapframeAt m' a).reg :=
    funext fun r => hword _ r.offset_spec.2.1
  have h0 : read64 m a = read64 m' a := hword 0 (by omega)
  rw [trapframeAt, trapframeAt, Trapframe.mk.injEq]
  exact ⟨h0, hword 8 (by omega), hword 16 (by omega), hword 24 (by omega), hword 32 (by omega),
    hreg⟩

theorem ForkedContext.sigContext (h : ForkedContext st i st' j) : SigContext st i st' j := by
  have hparent : st'.sigProc i = st.sigProc i := by
    funext state
    rw [Sys.sigProc, Sys.sigProc, h.info, h.slot, trapframeAt_congr h.frame]
  have hsaved : ∀ s, st'.Parent i st.nextpid s → (s.table i).Saved
      (st.info i).signals.sigTrapframeValid (st.info i).signals.sigTrapframe := by
    rintro s ⟨-, state, hs⟩
    rw [hs, hparent]
    exact ⟨rfl, fun _ => rfl⟩
  refine ⟨hparent, fun state => h.copied.trapframeAt, ?_, ?_, fun hv s hs => ?_, fun hv s hs => ?_,
    fun s hs => ?_⟩
  · rw [h.signals]
    rfl
  · rw [h.signals]
    rfl
  · rw [hv] at hsaved
    exact hs.returns hsaved
  · rw [hv] at hsaved
    exact hs.refuses hsaved
  · refine hs.refuses (f := initSignals.sigTrapframe) ?_
    rintro s ⟨-, state, hs⟩
    rw [hs, Sys.sigProc, h.signals]
    exact ⟨rfl, nofun⟩

/-- In every state of every run in which the sizes stay at or below `TRAPFRAME`, a child starts
with the memory, the registers (`a0` apart) and the handlers of its parent, and outside of any
handler : `sigreturn` succeeds in the parent if it has forked inside a handler, with the registers
that were saved when the handler was entered, and never in the child. -/
theorem kfork_context (hrun : MachineRun (fun m op => op.Fits m) k st.machine held)
    (hc : CanFork st i) : ∃ r st', (Sys.kfork i).run st = .ok (r, st') ∧
      ((r = -1 ∧ NoTrace k st st') ∨
        (r = st.nextpid ∧ ∃ j, ForkedTo k st i st' j ∧ SigContext st i st' j)) := by
  obtain ⟨r, st', hs, h⟩ := Sys.kfork_cases hrun hc
  refine ⟨r, st', hs, h.imp ?_ ?_⟩
  · rintro ⟨hr, hno, -⟩
    exact ⟨hr, hno⟩
  · rintro ⟨hr, j, hj, hctx⟩
    exact ⟨hr, j, hj, hctx.sigContext⟩

/-- The first process is in the handler of `signalled`. -/
def handlerSys (m : Machine) : Sys :=
  { bootSys m with info := fun _ => ⟨1, none, false, 0, false, some 0, [],
      { initSignals with
        signalHandlersValid := signalled.signalHandlersValid
        signalHandlers := signalled.signalHandlers
        sigTrapframe := signalled.trapframe
        sigTrapframeValid := true }⟩ }

theorem handlerSys_canFork {m : Machine} (hi : (m.proc i).state = .live) :
    CanFork (handlerSys m) i :=
  ⟨hi, rfl, nofun, Option.some_ne_none 0, fun _ _ => rfl⟩

theorem kfork_context_init : ∃ (st : Sys) (i : ℕ), CanFork st i ∧
    ∃ r st', (Sys.kfork i).run st = .ok (r, st') := by
  obtain ⟨m, i, hrun, hi, -⟩ := MachineRun.exists_process
  replace hrun : MachineRun (fun m op => op.Fits m) sampleEnd (handlerSys m).machine ∅ :=
    hrun (fun m op => op.Fits m) fun _ => trivial
  obtain ⟨r, st', hs, -⟩ := kfork_context hrun (handlerSys_canFork hi)
  exact ⟨handlerSys m, i, handlerSys_canFork hi, r, st', hs⟩

/-- A process on its way to user mode can call `sigreturn` next. -/
theorem exists_toSigreturn {start : SigState → Prop} {h : List SigEvent} {s : SigState}
    (hrun : Run start (restrict (SigStep i) fun _ e => e ≠ .returned ∧ ∀ n, e ≠ .delivered n) h s)
    (hpc : s.pc = .ret) (hk : (s.table i).killed = false) :
    ∃ t, ToSigreturn i start t ∧ t.user = ⟨64, fun _ => 24⟩ := by
  have hret := hrun.snoc ⟨SigStep.ret 0 0 0 0 hpc hk, SigEvent.noConfusion,
    fun _ => SigEvent.noConfusion⟩
  have huser := hret.snoc ⟨SigStep.run ⟨64, fun _ => 24⟩ rfl, SigEvent.noConfusion,
    fun _ => SigEvent.noConfusion⟩
  have hcall := huser.snoc ⟨SigStep.ecall rfl (by
    dsimp only
    rw [Function.update_self]
    exact hk), SigEvent.noConfusion, fun _ => SigEvent.noConfusion⟩
  refine ⟨_, ⟨⟨_, hcall⟩, rfl, ?_⟩, rfl⟩
  dsimp only
  rw [Function.update_self]
  rfl

/-- A process forks in its handler, and parent and child go on with the same registers to a
`sigreturn` : it succeeds in the parent and fails in the child. -/
theorem kfork_in_handler : ∃ (st : Sys) (i : ℕ) (st' : Sys) (j : ℕ) (s t : SigState),
    CanFork st i ∧ (st.info i).signals.sigTrapframeValid = true ∧
    (Sys.kfork i).run st = .ok (st.nextpid, st') ∧ ForkedTo sampleEnd st i st' j ∧
    ToSigreturn i (st'.Parent i st.nextpid) s ∧ ToSigreturn j (st'.Child j) t ∧
    s.user = t.user ∧ s.Returns i (st.info i).signals.sigTrapframe ∧ t.Refuses j := by
  obtain ⟨m, i, hrun, hi, hsz, -, -, hroom⟩ := MachineRun.exists_process
  replace hrun : MachineRun (fun m op => op.Fits m) sampleEnd (handlerSys m).machine ∅ :=
    hrun (fun m op => op.Fits m) fun _ => trivial
  obtain ⟨r, st', hs, ⟨-, -, hno | hpos⟩ | ⟨rfl, j, hj, hctx⟩⟩ :=
    Sys.kfork_cases hrun (handlerSys_canFork hi)
  · exact absurd hno hroom
  · exact absurd (hsz ▸ hpos : 0 < 0) (lt_irrefl 0)
  · have hsig := hctx.sigContext
    have hchild : (st'.info j).killed = false := hctx.killed
    obtain ⟨s, hsret, hsuser⟩ : ∃ s, ToSigreturn i (st'.Parent i (handlerSys m).nextpid) s ∧
        s.user = ⟨64, fun _ => 24⟩ := by
      obtain ⟨p, hp⟩ : ∃ p, p = (st'.sigProc i .running).setReg .a0
          ((handlerSys m).nextpid % 2 ^ 64).toNat := ⟨_, rfl⟩
      have hquiet : handleSignals p = (.other, p) := by
        rw [hp, hsig.parent]
        exact handleSignals_of_valid rfl
      have hkilled : p.killed = false := by
        rw [hp, hsig.parent]
        rfl
      -- no signal is delivered on the way out of the system call
      have hhandle : SigStep i ⟨fun _ => p, .handle, ⟨0, fun _ => 0⟩⟩ _ _ := .handle rfl
      rw [hquiet] at hhandle
      refine exists_toSigreturn ((Run.start ⟨rfl, .running, hp⟩).snoc ⟨hhandle,
        SigEvent.noConfusion, fun _ => SigEvent.noConfusion⟩) rfl ?_
      dsimp only
      rw [Function.update_self]
      exact hkilled
    obtain ⟨t, htret, htuser⟩ : ∃ t, ToSigreturn j (st'.Child j) t ∧
        t.user = ⟨64, fun _ => 24⟩ :=
      exists_toSigreturn (.start (s := ⟨fun _ => st'.sigProc j .running, .ret, ⟨0, fun _ => 0⟩⟩)
        ⟨rfl, .running, rfl⟩) rfl hchild
    exact ⟨handlerSys m, i, st', j, s, t, handlerSys_canFork hi, rfl, hs, hj, hsret, htret,
      hsuser.trans htuser.symm, hsig.inside rfl s hsret, hsig.child t htret⟩

end Context

end Xv6Plus
