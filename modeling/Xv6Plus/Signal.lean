import Xv6Plus.Bits
import Xv6Plus.Layout
import Xv6Plus.Log
import Xv6Plus.Steps

/-!
# Signals : `kernel/trap.c`, `kernel/sysproc.c`, `kernel/proc.c`

A process is interrupted by a trap, and on the way back `handle_signals` may send it to a
handler instead : it saves the trapframe and lets it point at the handler. `sigreturn` puts
the saved trapframe back.

One process is looked at, with the whole table around it, since `kkill` may hit any slot at
any moment. Its trap is cut where another processor can come between : before the system
call, before `handle_signals` and before the return to user mode. `exec` is left out, and a
process that exits takes no more steps.
-/

namespace Xv6Plus

/-! ## The code -/

/-- The user registers that `uservec` saves. -/
inductive Reg
  | ra | sp | gp | tp | t0 | t1 | t2 | s0 | s1 | a0 | a1 | a2 | a3 | a4 | a5 | a6 | a7
  | s2 | s3 | s4 | s5 | s6 | s7 | s8 | s9 | s10 | s11 | t3 | t4 | t5 | t6
  deriving DecidableEq, Repr

/-- `struct trapframe`. -/
structure Trapframe where
  kernelSatp : ℕ
  kernelSp : ℕ
  kernelTrap : ℕ
  epc : ℕ
  kernelHartid : ℕ
  reg : Reg → ℕ

/-- The registers of the processor in user mode. -/
structure UserRegs where
  pc : ℕ
  reg : Reg → ℕ

abbrev nSig : ℕ := 32

abbrev sigKill : ℕ := 9

/-- The fields of `struct proc` that signals use. -/
structure SigProc where
  pid : ℤ
  state : RunState
  killed : Bool
  trapframe : Trapframe
  pendingSignals : ℕ
  signalHandlersValid : ℕ
  signalHandlers : ℕ → ℕ
  sigTrapframe : Trapframe
  sigTrapframeValid : Bool

abbrev SigTable := ℕ → SigProc

inductive SigEvent
  /-- `kkill` has set the pending bit of a signal of the process in a slot. -/
  | sent (slot signum : ℕ)
  /-- `handle_signals` has sent the process to its handler. -/
  | delivered (signum : ℕ)
  /-- `handle_signals` has found no handler and killed the process. -/
  | dropped (signum : ℕ)
  /-- `sigreturn` has put the saved trapframe back. -/
  | returned
  | other

/-- Set a register in the trapframe. -/
def SigProc.setReg (p : SigProc) (r : Reg) (v : ℕ) : SigProc :=
  { p with trapframe := { p.trapframe with reg := Function.update p.trapframe.reg r v } }

/-- The loop of `kkill` : the first slot with the pid, from `i` on. -/
def findPid (pid : ℤ) (t : SigTable) : ℕ → ℕ → Option ℕ
  | 0, _ => none
  | n + 1, i => if (t i).pid = pid then some i else findPid pid t n (i + 1)

/-- What `kkill` does to the process it has found. -/
def SigProc.kill (signum : ℕ) (p : SigProc) : SigProc :=
  let p := if signum = sigKill then { p with killed := true }
    else { p with pendingSignals := p.pendingSignals ||| 2 ^ signum }
  if p.state = .sleeping then { p with state := .runnable } else p

def kkill (pid signum : ℤ) (t : SigTable) : SigEvent × ℤ × SigTable :=
  if signum < 0 ∨ signum ≥ nSig then (.other, -1, t)
  else match findPid pid t nProc 0 with
    | none => (.other, -1, t)
    | some i => (if signum.toNat = sigKill then .other else .sent i signum.toNat, 0,
        Function.update t i ((t i).kill signum.toNat))

/-- `handle_signals` sends the process to its handler. -/
def SigProc.deliver (signum : ℕ) (p : SigProc) : SigProc :=
  { p with
    sigTrapframe := p.trapframe
    sigTrapframeValid := true
    trapframe := { p.trapframe with
      epc := p.signalHandlers signum
      reg := Function.update (Function.update p.trapframe.reg .a0 signum) .ra (2 ^ 64 - 1) } }

/-- The loop of `handle_signals` from `signum` on, with the rounds that are left. -/
def handleLoop : ℕ → ℕ → SigProc → SigEvent × SigProc
  | 0, _, p => (.other, p)
  | n + 1, signum, p =>
    if p.pendingSignals.testBit signum = false then handleLoop n (signum + 1) p
    else
      let p := { p with pendingSignals := Nat.ldiff p.pendingSignals (2 ^ signum) }
      if signum = sigKill then (.dropped signum, { p with killed := true })
      else if p.signalHandlersValid.testBit signum = false then
        (.dropped signum, { p with killed := true })
      else (.delivered signum, p.deliver signum)

def handleSignals (p : SigProc) : SigEvent × SigProc :=
  if p.sigTrapframeValid = true ∨ p.pendingSignals = 0 then (.other, p)
  else handleLoop nSig 0 p

def sysSignal (signum : ℤ) (handler : ℕ) (p : SigProc) : ℕ × SigProc :=
  if signum < 0 ∨ signum ≥ nSig ∨ signum = sigKill then (2 ^ 64 - 1, p)
  else
    (p.signalHandlers signum.toNat, { p with
      signalHandlers := Function.update p.signalHandlers signum.toNat handler
      signalHandlersValid := p.signalHandlersValid ||| 2 ^ signum.toNat })

def sysSigreturn (p : SigProc) : SigEvent × ℕ × SigProc :=
  if p.sigTrapframeValid = false then (.other, 2 ^ 64 - 1, p)
  else (.returned, p.sigTrapframe.reg .a0,
    { p with trapframe := p.sigTrapframe, sigTrapframeValid := false })

/-- The `n`-th argument of a system call as an `int`. -/
def argint (p : SigProc) (r : Reg) : ℤ := toInt32 (p.trapframe.reg r % 2 ^ 32)

/-- `SYS_exit`. -/
abbrev sysExitNum : ℤ := 2

/-- `SYS_kill`. -/
abbrev sysKillNum : ℤ := 6

/-- `SYS_exec`. -/
abbrev sysExecNum : ℤ := 7

/-- `SYS_signal`. -/
abbrev sysSignalNum : ℤ := 23

/-- `SYS_sigreturn`. -/
abbrev sysSigreturnNum : ℤ := 24

/-- `syscall`, by the process in slot `i`. The system calls that have nothing to do with
signals, and unknown ones, return some value `ret`. -/
def syscall (i ret : ℕ) (t : SigTable) : SigEvent × SigTable :=
  let p := t i
  let num := argint p .a7
  if num = sysKillNum then
    let (e, r, t) := kkill (argint p .a0) (argint p .a1) t
    (e, Function.update t i ((t i).setReg .a0 (r % 2 ^ 64).toNat))
  else if num = sysSignalNum then
    let (r, p) := sysSignal (argint p .a0) (p.trapframe.reg .a1) p
    (.other, Function.update t i (p.setReg .a0 r))
  else if num = sysSigreturnNum then
    let (e, r, p) := sysSigreturn p
    (e, Function.update t i (p.setReg .a0 r))
  else (.other, Function.update t i (p.setReg .a0 ret))

/-! ## One process and the rest of the system -/

/-- Where the process is. -/
inductive TrapPc
  /-- In user mode. -/
  | user
  /-- In `usertrap`, before `syscall`. -/
  | syscall
  /-- In `usertrap`, before `handle_signals`. -/
  | handle
  /-- In `usertrap`, before the test of `killed`. -/
  | ret
  deriving DecidableEq

structure SigState where
  table : SigTable
  pc : TrapPc
  user : UserRegs

/-- `uservec` and the start of `usertrap` : the registers are in the trapframe. -/
def SigProc.saveUser (p : SigProc) (u : UserRegs) : SigProc :=
  { p with trapframe := { p.trapframe with epc := u.pc, reg := u.reg } }

def SigProc.prepareReturn (p : SigProc) (satp sp trap hartid : ℕ) : SigProc :=
  { p with trapframe := { p.trapframe with
      kernelSatp := satp, kernelSp := sp, kernelTrap := trap, kernelHartid := hartid } }

/-- Steps of the process in slot `i`, and of the others. -/
inductive SigStep (i : ℕ) : SigState → SigEvent → SigState → Prop
  /-- The program runs. -/
  | run {st : SigState} (u : UserRegs) : st.pc = .user →
      SigStep i st .other { st with user := u }
  /-- It makes a system call; a killed process exits here. -/
  | ecall {st : SigState} : st.pc = .user → (st.table i).killed = false →
      SigStep i st .other { st with
        pc := .syscall
        table := Function.update st.table i
          ((st.table i).saveUser ⟨(st.user.pc + 4) % 2 ^ 64, st.user.reg⟩) }
  /-- It is interrupted, or a page fault is repaired (`bad` is false), or it has done something
  it is killed for. -/
  | trap {st : SigState} (bad : Bool) : st.pc = .user →
      SigStep i st .other { st with
        pc := .handle
        table := Function.update st.table i
          { (st.table i).saveUser st.user with killed := (st.table i).killed || bad } }
  | call {st : SigState} (ret : ℕ) : st.pc = .syscall →
      argint (st.table i) .a7 ≠ sysExitNum → argint (st.table i) .a7 ≠ sysExecNum →
      SigStep i st (syscall i ret st.table).1
        { st with pc := .handle, table := (syscall i ret st.table).2 }
  | handle {st : SigState} : st.pc = .handle →
      SigStep i st (handleSignals (st.table i)).1 { st with
        pc := .ret
        table := Function.update st.table i (handleSignals (st.table i)).2 }
  /-- The process returns to user mode; a killed process exits here. -/
  | ret {st : SigState} (satp sp trap hartid : ℕ) : st.pc = .ret →
      (st.table i).killed = false →
      SigStep i st .other
        { table := Function.update st.table i ((st.table i).prepareReturn satp sp trap hartid)
          pc := .user
          user := ⟨(st.table i).trapframe.epc, (st.table i).trapframe.reg⟩ }
  /-- Some process calls `kkill`. -/
  | kill {st : SigState} (pid signum : ℤ) :
      SigStep i st (kkill pid signum st.table).1
        { st with table := (kkill pid signum st.table).2.2 }
  /-- The process is scheduled, or sleeps, or wakes up. -/
  | sched {st : SigState} {state : RunState} :
      SigStep i st .other { st with
        table := Function.update st.table i { st.table i with state := state } }
  /-- Other slots change. -/
  | others {st : SigState} {t : SigTable} : t i = st.table i →
      SigStep i st .other { st with table := t }

/-! ## What a step does to the process -/

section Steps

variable {i s : ℕ} {st st' : SigState} {e : SigEvent} {p : SigProc} {h : List SigEvent}

/-- A step that leaves the signals of the process as they are, and does not revive it. -/
structure SameSignals (p p' : SigProc) : Prop where
  pending : p'.pendingSignals = p.pendingSignals
  valid : p'.sigTrapframeValid = p.sigTrapframeValid
  saved : p'.sigTrapframe = p.sigTrapframe
  killed : p.killed = true → p'.killed = true

theorem SameSignals.refl (p : SigProc) : SameSignals p p := ⟨rfl, rfl, rfl, id⟩

theorem SameSignals.setReg {p' : SigProc} (hs : SameSignals p p') (r : Reg) (v : ℕ) :
    SameSignals p (p'.setReg r v) := ⟨hs.pending, hs.valid, hs.saved, hs.killed⟩

/-- What can happen to the signals of the process in slot `i`. -/
inductive SigEffect (i : ℕ) (p : SigProc) : SigEvent → SigProc → Prop
  /-- A signal is sent to it; the trapframe may have been written by the system call. -/
  | sent {s : ℕ} {p' : SigProc} : s < nSig → s ≠ sigKill →
      SameSignals { p with pendingSignals := p.pendingSignals ||| 2 ^ s } p' →
      SigEffect i p (.sent i s) p'
  | elsewhere {j s : ℕ} {p' : SigProc} : j ≠ i → SameSignals p p' → SigEffect i p (.sent j s) p'
  | delivered {s : ℕ} : p.sigTrapframeValid = false → p.pendingSignals.testBit s = true →
      (∀ j < s, p.pendingSignals.testBit j = false) → s ≠ sigKill →
      p.signalHandlersValid.testBit s = true →
      SigEffect i p (.delivered s)
        (SigProc.deliver s { p with pendingSignals := Nat.ldiff p.pendingSignals (2 ^ s) })
  | dropped {s : ℕ} : p.sigTrapframeValid = false → p.pendingSignals.testBit s = true →
      s = sigKill ∨ p.signalHandlersValid.testBit s = false →
      SigEffect i p (.dropped s)
        { p with pendingSignals := Nat.ldiff p.pendingSignals (2 ^ s), killed := true }
  /-- The system call's own write of `a0` is the value that the saved trapframe has there. -/
  | returned : p.sigTrapframeValid = true →
      SigEffect i p .returned { p with trapframe := p.sigTrapframe, sigTrapframeValid := false }
  | other {p' : SigProc} : SameSignals p p' → SigEffect i p .other p'

theorem SigProc.kill_same (p : SigProc) (s : ℕ) :
    SameSignals (if s = sigKill then p else
      { p with pendingSignals := p.pendingSignals ||| 2 ^ s }) (p.kill s) := by
  unfold SigProc.kill
  by_cases hs : s = sigKill
  · by_cases hst : p.state = .sleeping <;> simp only [hs, hst, if_true, if_false] <;>
      exact ⟨rfl, rfl, rfl, fun _ => rfl⟩
  · by_cases hst : p.state = .sleeping <;> simp only [hs, hst, if_true, if_false] <;>
      exact ⟨rfl, rfl, rfl, id⟩

/-- `kkill`, seen from the slot `i`. -/
theorem kkill_effect (i : ℕ) (pid signum : ℤ) (t : SigTable) :
    SigEffect i (t i) (kkill pid signum t).1 ((kkill pid signum t).2.2 i) := by
  unfold kkill
  by_cases hsig : signum < 0 ∨ signum ≥ nSig
  · rw [if_pos hsig]
    exact .other (.refl _)
  rw [if_neg hsig]
  cases findPid pid t nProc 0 with
  | none => exact .other (.refl _)
  | some j =>
    dsimp only
    have hkill := (t j).kill_same signum.toNat
    by_cases hji : j = i
    · subst hji
      rw [Function.update_self]
      by_cases hk : signum.toNat = sigKill
      · rw [if_pos hk] at hkill ⊢
        exact .other hkill
      · rw [if_neg hk] at hkill ⊢
        exact .sent (by simp only [nSig] at hsig ⊢; omega) hk hkill
    · rw [Function.update_of_ne (Ne.symm hji)]
      by_cases hk : signum.toNat = sigKill
      · rw [if_pos hk]
        exact .other (.refl _)
      · rw [if_neg hk]
        exact .elsewhere hji (.refl _)

theorem kkill_trapframe (i : ℕ) (pid signum : ℤ) (t : SigTable) :
    ((kkill pid signum t).2.2 i).trapframe = (t i).trapframe := by
  unfold kkill
  by_cases hsig : signum < 0 ∨ signum ≥ nSig
  · rw [if_pos hsig]
  rw [if_neg hsig]
  cases findPid pid t nProc 0 with
  | none => rfl
  | some j =>
    dsimp only
    by_cases hji : i = j
    · subst hji
      rw [Function.update_self, SigProc.kill]
      split_ifs <;> rfl
    · rw [Function.update_of_ne hji]

/-- `kkill` sends something or does nothing to the pending signals. -/
theorem kkill_event (pid signum : ℤ) (t : SigTable) :
    (∃ j s, (kkill pid signum t).1 = .sent j s) ∨ (kkill pid signum t).1 = .other := by
  unfold kkill
  by_cases hsig : signum < 0 ∨ signum ≥ nSig
  · rw [if_pos hsig]
    exact Or.inr rfl
  rw [if_neg hsig]
  cases findPid pid t nProc 0 with
  | none => exact Or.inr rfl
  | some j =>
    dsimp only
    split_ifs
    · exact Or.inr rfl
    · exact Or.inl ⟨j, _, rfl⟩

/-- The loop takes the first pending signal. -/
theorem handleLoop_effect (i : ℕ) (hv : p.sigTrapframeValid = false) : ∀ n k,
    (∀ j < k, p.pendingSignals.testBit j = false) →
    SigEffect i p (handleLoop n k p).1 (handleLoop n k p).2
  | 0, _, _ => .other (.refl p)
  | n + 1, k, hk => by
    rw [handleLoop]
    by_cases hbit : p.pendingSignals.testBit k = false
    · rw [if_pos hbit]
      refine handleLoop_effect i hv n (k + 1) fun j hj => ?_
      by_cases hjk : j = k
      · rw [hjk, hbit]
      · exact hk j (by omega)
    · rw [if_neg hbit]
      rw [Bool.not_eq_false] at hbit
      dsimp only
      by_cases hkill : k = sigKill
      · rw [if_pos hkill]
        exact .dropped hv hbit (Or.inl hkill)
      rw [if_neg hkill]
      by_cases hval : p.signalHandlersValid.testBit k = false
      · rw [if_pos hval]
        exact .dropped hv hbit (Or.inr hval)
      · rw [if_neg hval]
        exact .delivered hv hbit hk hkill (Bool.not_eq_false _ ▸ hval)

theorem handleSignals_effect (i : ℕ) (p : SigProc) :
    SigEffect i p (handleSignals p).1 (handleSignals p).2 := by
  unfold handleSignals
  by_cases hv : p.sigTrapframeValid = true ∨ p.pendingSignals = 0
  · rw [if_pos hv]
    exact .other (.refl p)
  · rw [if_neg hv]
    rw [not_or, Bool.not_eq_true] at hv
    exact handleLoop_effect i hv.1 nSig 0 nofun

/-- Writing a register is no effect on the signals. -/
theorem SigEffect.setReg {p' : SigProc} (he : SigEffect i p e p') (r : Reg) (v : ℕ)
    (hdel : ∀ s, e ≠ .delivered s) (hdrop : ∀ s, e ≠ .dropped s) (hret : e ≠ .returned) :
    SigEffect i p e (p'.setReg r v) := by
  cases he with
  | sent hs hk hp => exact .sent hs hk (hp.setReg r v)
  | elsewhere hj hp => exact .elsewhere hj (hp.setReg r v)
  | delivered => exact absurd rfl (hdel _)
  | dropped => exact absurd rfl (hdrop _)
  | returned => exact absurd rfl hret
  | other hp => exact .other (hp.setReg r v)

theorem syscall_effect (i ret : ℕ) (t : SigTable) :
    SigEffect i (t i) (syscall i ret t).1 ((syscall i ret t).2 i) := by
  unfold syscall
  dsimp only
  by_cases hkill : argint (t i) .a7 = sysKillNum
  · rw [if_pos hkill]
    dsimp only
    rw [Function.update_self]
    have hev := kkill_event (argint (t i) .a0) (argint (t i) .a1) t
    refine (kkill_effect i _ _ t).setReg _ _ ?_ ?_ ?_ <;>
      rcases hev with ⟨j, s, hev⟩ | hev <;> simp [hev]
  rw [if_neg hkill]
  by_cases hsig : argint (t i) .a7 = sysSignalNum
  · rw [if_pos hsig]
    dsimp only
    rw [Function.update_self, sysSignal]
    split_ifs
    · exact .other ((SameSignals.refl _).setReg _ _)
    · exact .other ⟨rfl, rfl, rfl, id⟩
  rw [if_neg hsig]
  by_cases hret : argint (t i) .a7 = sysSigreturnNum
  · rw [if_pos hret]
    dsimp only
    rw [Function.update_self, sysSigreturn]
    by_cases hv : (t i).sigTrapframeValid = false
    · rw [if_pos hv]
      exact .other ((SameSignals.refl _).setReg _ _)
    · rw [if_neg hv]
      rw [Bool.not_eq_false] at hv
      have hret : SigProc.setReg { t i with
            trapframe := (t i).sigTrapframe, sigTrapframeValid := false } .a0
            ((t i).sigTrapframe.reg .a0) =
          { t i with trapframe := (t i).sigTrapframe, sigTrapframeValid := false } := by
        rw [SigProc.setReg, Function.update_eq_self]
      rw [hret]
      exact .returned hv
  · rw [if_neg hret]
    dsimp only
    rw [Function.update_self]
    exact .other ((SameSignals.refl _).setReg _ _)

/-- All that a step can do to the signals of the process. -/
theorem SigStep.effect (hs : SigStep i st e st') : SigEffect i (st.table i) e (st'.table i) := by
  cases hs with
  | run => exact .other (.refl _)
  | ecall =>
    dsimp only
    rw [Function.update_self]
    exact .other ⟨rfl, rfl, rfl, id⟩
  | trap =>
    dsimp only
    rw [Function.update_self]
    refine .other ⟨rfl, rfl, rfl, fun hk => ?_⟩
    dsimp only
    rw [hk, Bool.true_or]
  | call => exact syscall_effect i _ _
  | handle _ =>
    dsimp only
    rw [Function.update_self]
    exact handleSignals_effect i _
  | ret =>
    dsimp only
    rw [Function.update_self]
    exact .other ⟨rfl, rfl, rfl, id⟩
  | kill => exact kkill_effect i _ _ _
  | sched =>
    dsimp only
    rw [Function.update_self]
    exact .other ⟨rfl, rfl, rfl, id⟩
  | others ht =>
    dsimp only
    rw [ht]
    exact .other (.refl _)

/-! ## No signal is lost, duplicated or nested -/

/-- A bit is set by a send and cleared by what `handle_signals` does with it. -/
theorem SigEffect.pending {p' : SigProc} (he : SigEffect i p e p') (s : ℕ) :
    p'.pendingSignals.testBit s = true ↔ e = .sent i s ∨ (p.pendingSignals.testBit s = true ∧
      ¬(e = .delivered s ∨ e = .dropped s)) := by
  cases he with
  | sent _ _ hp =>
    rw [hp.pending, testBit_set]
    simp [or_comm]
  | elsewhere hj hp =>
    rw [hp.pending]
    simp [hj]
  | delivered =>
    simp only [SigProc.deliver, testBit_clear]
    simp
  | dropped =>
    simp only [testBit_clear]
    simp
  | returned => simp
  | other hp =>
    rw [hp.pending]
    simp

/-- A handler is active from a delivery to the next `sigreturn`. -/
theorem SigEffect.valid {p' : SigProc} (he : SigEffect i p e p') :
    p'.sigTrapframeValid = true ↔ (∃ s, e = .delivered s) ∨
      (p.sigTrapframeValid = true ∧ ¬e = .returned) := by
  cases he with
  | sent _ _ hp =>
    rw [hp.valid]
    simp
  | elsewhere _ hp =>
    rw [hp.valid]
    simp
  | delivered => simp [SigProc.deliver]
  | dropped => simp
  | returned => simp
  | other hp =>
    rw [hp.valid]
    simp

/-- A send of `s` that has not been dealt with. -/
def SignalWaits (i s : ℕ) : List SigEvent → Prop :=
  Since (· = .sent i s) fun e => e = .delivered s ∨ e = .dropped s

/-- A delivery that no `sigreturn` has followed. -/
def HandlerActive : List SigEvent → Prop :=
  Since (fun e => ∃ s, e = .delivered s) (· = .returned)

/-- The process is new : `allocproc` and `kfork` clear its pending signals. -/
def SigState.Fresh (i : ℕ) (st : SigState) : Prop :=
  (st.table i).pendingSignals = 0 ∧ (st.table i).sigTrapframeValid = false

structure SigInv (i : ℕ) (h : List SigEvent) (st : SigState) : Prop where
  pending : ∀ s, (st.table i).pendingSignals.testBit s = true ↔ SignalWaits i s h
  valid : (st.table i).sigTrapframeValid = true ↔ HandlerActive h
  sends : ∀ s, .sent i s ∈ h → s < nSig ∧ s ≠ sigKill
  deliveries : ∀ h₁ s, h₁ ++ [.delivered s] <+: h →
    SignalWaits i s h₁ ∧ (∀ j < s, ¬SignalWaits i j h₁) ∧ ¬HandlerActive h₁
  drops : ∀ h₁ s, h₁ ++ [.dropped s] <+: h → SignalWaits i s h₁ ∧ (st.table i).killed = true

theorem SigEffect.killed {p' : SigProc} (he : SigEffect i p e p') (hk : p.killed = true) :
    p'.killed = true := by
  cases he with
  | sent _ _ hp => exact hp.killed hk
  | elsewhere _ hp => exact hp.killed hk
  | delivered => exact hk
  | dropped => rfl
  | returned => exact hk
  | other hp => exact hp.killed hk

theorem SigEffect.of_delivered {p' : SigProc} (he : SigEffect i p (.delivered s) p') :
    p.sigTrapframeValid = false ∧ p.pendingSignals.testBit s = true ∧
      (∀ j < s, p.pendingSignals.testBit j = false) ∧ p'.sigTrapframe = p.trapframe := by
  cases he with
  | delivered hv hbit hlow _ _ => exact ⟨hv, hbit, hlow, rfl⟩

theorem SigEffect.of_dropped {p' : SigProc} (he : SigEffect i p (.dropped s) p') :
    p.pendingSignals.testBit s = true ∧ p'.killed = true := by
  cases he with
  | dropped _ hbit _ => exact ⟨hbit, rfl⟩

theorem SigState.Fresh.inv (hf : st.Fresh i) : SigInv i [] st := by
  refine ⟨fun s => ?_, ?_, nofun, fun h₁ s hpre => ?_, fun h₁ s hpre => ?_⟩
  · rw [hf.1, Nat.zero_testBit]
    exact iff_of_false Bool.noConfusion not_since_nil
  · rw [hf.2]
    exact iff_of_false Bool.noConfusion not_since_nil
  · simp at hpre
  · simp at hpre

theorem SigInv.step (hinv : SigInv i h st) (hs : SigStep i st e st') : SigInv i (h ++ [e]) st' := by
  have he := hs.effect
  refine ⟨fun s => ?_, ?_, fun s hmem => ?_, fun h₁ s hpre => ?_, fun h₁ s hpre => ?_⟩
  · rw [he.pending s, hinv.pending s, SignalWaits, since_snoc]
  · rw [he.valid, hinv.valid, HandlerActive, since_snoc]
  · rcases List.mem_append.1 hmem with hmem | hmem
    · exact hinv.sends s hmem
    · obtain rfl := List.mem_singleton.1 hmem
      cases he with
      | sent hs hk _ => exact ⟨hs, hk⟩
      | elsewhere hj _ => exact absurd rfl hj
  · rcases List.prefix_concat_iff.1 hpre with heq | hpre
    · -- the delivery is the step itself
      obtain ⟨rfl, hev⟩ := List.append_inj' heq rfl
      obtain rfl := List.singleton_inj.1 hev
      obtain ⟨hv, hbit, hlow, -⟩ := he.of_delivered
      refine ⟨(hinv.pending s).1 hbit, fun j hj hw => ?_, fun hact => ?_⟩
      · exact absurd ((hinv.pending j).2 hw) (by simp [hlow j hj])
      · exact absurd (hinv.valid.2 hact) (by simp [hv])
    · exact hinv.deliveries h₁ s hpre
  · rcases List.prefix_concat_iff.1 hpre with heq | hpre
    · obtain ⟨rfl, hev⟩ := List.append_inj' heq rfl
      obtain rfl := List.singleton_inj.1 hev
      obtain ⟨hbit, hk⟩ := he.of_dropped
      exact ⟨(hinv.pending s).1 hbit, hk⟩
    · obtain ⟨hw, hk⟩ := hinv.drops h₁ s hpre
      exact ⟨hw, he.killed hk⟩

/-- A pending bit stands for a `kkill` that `handle_signals` has not dealt with, by delivering
the signal or by killing the process for want of a handler; a delivery takes the first such
signal, and there is none while a handler is active. -/
theorem signals_delivered_once (hrun : Run (SigState.Fresh i) (SigStep i) h st) :
    (∀ s, (st.table i).pendingSignals.testBit s = true ↔ SignalWaits i s h) ∧
    ((st.table i).sigTrapframeValid = true ↔ HandlerActive h) ∧
    (∀ h₁ s, h₁ ++ [.delivered s] <+: h →
      SignalWaits i s h₁ ∧ (∀ j < s, ¬SignalWaits i j h₁) ∧ ¬HandlerActive h₁) ∧
    (∀ h₁ s, h₁ ++ [.dropped s] <+: h → SignalWaits i s h₁ ∧ (st.table i).killed = true) ∧
    ∀ s, .sent i s ∈ h → s < nSig ∧ s ≠ sigKill := by
  have hinv : SigInv i h st :=
    hrun.invariant (fun _ hf => hf.inv) fun _ _ _ _ hinv hs => hinv.step hs
  exact ⟨hinv.pending, hinv.valid, hinv.deliveries, hinv.drops, hinv.sends⟩

/-! ## Handlers do not disturb the interrupted program -/

/-- `handle_signals` changes the trapframe when it delivers, and only then. -/
theorem handleLoop_trapframe (p : SigProc) : ∀ n k, (∃ s, (handleLoop n k p).1 = .delivered s) ∨
    ((handleLoop n k p).2.trapframe = p.trapframe ∧
      (handleLoop n k p).2.sigTrapframeValid = p.sigTrapframeValid)
  | 0, _ => Or.inr ⟨rfl, rfl⟩
  | n + 1, k => by
    rw [handleLoop]
    dsimp only
    split_ifs
    · exact handleLoop_trapframe p n (k + 1)
    · exact Or.inr ⟨rfl, rfl⟩
    · exact Or.inr ⟨rfl, rfl⟩
    · exact Or.inl ⟨k, rfl⟩

theorem handleSignals_trapframe (p : SigProc) : (∃ s, (handleSignals p).1 = .delivered s) ∨
    ((handleSignals p).2.trapframe = p.trapframe ∧
      (handleSignals p).2.sigTrapframeValid = p.sigTrapframeValid) := by
  unfold handleSignals
  split_ifs
  · exact Or.inr ⟨rfl, rfl⟩
  · exact handleLoop_trapframe p nSig 0

theorem kkill_valid (i : ℕ) (pid signum : ℤ) (t : SigTable) :
    ((kkill pid signum t).2.2 i).sigTrapframeValid = (t i).sigTrapframeValid := by
  have he := kkill_effect i pid signum t
  rw [Bool.eq_iff_iff, he.valid]
  rcases kkill_event pid signum t with ⟨j, s, hev⟩ | hev <;> simp [hev]

/-- What the program sees of a trapframe : the program counter and the registers. -/
def Trapframe.user (f : Trapframe) : UserRegs := ⟨f.epc, f.reg⟩

/-- A signal has just been delivered, and the trapframe was `f` before. -/
def SigState.Delivered (i : ℕ) (f : Trapframe) (st : SigState) : Prop :=
  ∃ st₀ s, SigStep i st₀ (.delivered s) st ∧ (st₀.table i).trapframe = f

/-- The process is back in user mode, and no handler is active. -/
def SigState.Resumed (i : ℕ) (st : SigState) : Prop :=
  st.pc = .user ∧ (st.table i).sigTrapframeValid = false

/-- While a handler is active the saved trapframe is `f`. When none is, the process is on its
way out of the trap of a `sigreturn`, with `f` as its trapframe. -/
structure Restores (i : ℕ) (f : Trapframe) (st : SigState) : Prop where
  active : (st.table i).sigTrapframeValid = true → (st.table i).sigTrapframe.user = f.user
  back : (st.table i).sigTrapframeValid = false → (st.table i).trapframe.user = f.user
  leaving : (st.table i).sigTrapframeValid = false → st.pc ≠ .syscall
  resumed : (st.table i).sigTrapframeValid = false → st.pc = .user → st.user = f.user

theorem Restores.of_active {f : Trapframe} (hv : (st.table i).sigTrapframeValid = true)
    (hs : (st.table i).sigTrapframe.user = f.user) : Restores i f st := by
  have hfalse : (st.table i).sigTrapframeValid ≠ false := by simp [hv]
  exact ⟨fun _ => hs, fun hc => absurd hc hfalse, fun hc => absurd hc hfalse,
    fun hc => absurd hc hfalse⟩

theorem Restores.of_back {f : Trapframe} (hv : (st.table i).sigTrapframeValid = false)
    (hb : (st.table i).trapframe.user = f.user) (hpc : st.pc ≠ .syscall)
    (hu : st.pc = .user → st.user = f.user) : Restores i f st :=
  ⟨fun hc => by simp [hv] at hc, fun _ => hb, fun _ => hpc, fun _ => hu⟩

theorem SigState.Delivered.restores {f : Trapframe} (hd : st.Delivered i f) : Restores i f st := by
  obtain ⟨st₀, s, hs, rfl⟩ := hd
  refine .of_active (hs.effect.valid.2 (Or.inl ⟨s, rfl⟩)) ?_
  rw [hs.effect.of_delivered.2.2.2]

theorem handleSignals_of_valid (hv : p.sigTrapframeValid = true) :
    handleSignals p = (.other, p) :=
  if_pos (Or.inl hv)

/-- Only a system call returns from a handler. -/
theorem SigStep.pc_of_returned (hs : SigStep i st e st') (he : e = .returned)
    (hv : (st.table i).sigTrapframeValid = true) : st'.pc = .handle := by
  cases hs with
  | call => rfl
  | handle =>
    rw [handleSignals_of_valid hv] at he
    exact absurd he SigEvent.noConfusion
  | kill =>
    rcases kkill_event _ _ st.table with ⟨j, s, hev⟩ | hev <;> rw [hev] at he <;>
      exact absurd he SigEvent.noConfusion
  | _ => exact absurd he SigEvent.noConfusion

/-- A step while a handler is active. -/
theorem Restores.step_active {f : Trapframe} (hr : Restores i f st) (hs : SigStep i st e st')
    (hv : (st.table i).sigTrapframeValid = true) : Restores i f st' := by
  have he := hs.effect
  have hsaved := hr.active hv
  by_cases hret : e = .returned
  · have hpc := hs.pc_of_returned hret hv
    subst hret
    generalize hp : st'.table i = p' at he
    cases he with
    | returned _ =>
      refine .of_back (by rw [hp]) (by rw [hp]; exact hsaved) ?_ ?_ <;> simp [hpc]
  · have hv' : (st'.table i).sigTrapframeValid = true := he.valid.2 (Or.inr ⟨hv, hret⟩)
    refine .of_active hv' ?_
    generalize hp : st'.table i = p' at he
    cases he with
    | sent _ _ hp => rw [hp.saved]; exact hsaved
    | elsewhere _ hp => rw [hp.saved]; exact hsaved
    | delivered hf => exact absurd (hf.symm.trans hv) Bool.noConfusion
    | dropped => exact hsaved
    | returned => exact absurd rfl hret
    | other hp => rw [hp.saved]; exact hsaved

/-- A step in the trap of a `sigreturn`, after it. -/
theorem Restores.step_back {f : Trapframe} (hr : Restores i f st) (hs : SigStep i st e st')
    (hv : (st.table i).sigTrapframeValid = false) (hpc : st.pc ≠ .user) : Restores i f st' := by
  have hback := hr.back hv
  have hnot : st.pc ≠ .syscall := hr.leaving hv
  have hstay : st.pc = .user → st.user = f.user := fun hc => absurd hc hpc
  cases hs with
  | run _ hu => exact absurd hu hpc
  | ecall hu _ => exact absurd hu hpc
  | trap _ hu => exact absurd hu hpc
  | call _ hc _ _ => exact absurd hc hnot
  | handle _ =>
    rcases handleSignals_trapframe (st.table i) with ⟨s, hev⟩ | ⟨htf, hval⟩
    · -- another signal is delivered in the same trap
      have he := handleSignals_effect i (st.table i)
      rw [hev] at he
      refine .of_active ?_ ?_
      · dsimp only
        rw [Function.update_self]
        exact he.valid.2 (Or.inl ⟨s, rfl⟩)
      · dsimp only
        rw [Function.update_self, he.of_delivered.2.2.2]
        exact hback
    · refine .of_back ?_ ?_ TrapPc.noConfusion TrapPc.noConfusion
      · dsimp only
        rw [Function.update_self, hval, hv]
      · dsimp only
        rw [Function.update_self, htf]
        exact hback
  | ret =>
    refine .of_back ?_ ?_ TrapPc.noConfusion fun _ => hback
    · dsimp only
      rw [Function.update_self]
      exact hv
    · dsimp only
      rw [Function.update_self]
      exact hback
  | kill =>
    refine .of_back ?_ ?_ hnot hstay
    · rw [kkill_valid, hv]
    · rw [kkill_trapframe]
      exact hback
  | sched =>
    refine .of_back ?_ ?_ hnot hstay
    · dsimp only
      rw [Function.update_self]
      exact hv
    · dsimp only
      rw [Function.update_self]
      exact hback
  | others ht =>
    refine .of_back ?_ ?_ hnot hstay
    · dsimp only
      rw [ht, hv]
    · dsimp only
      rw [ht]
      exact hback

theorem Restores.step {f : Trapframe} (hr : Restores i f st) (hs : SigStep i st e st')
    (hres : ¬st.Resumed i) : Restores i f st' := by
  by_cases hv : (st.table i).sigTrapframeValid = true
  · exact hr.step_active hs hv
  · have hv' := Bool.eq_false_of_not_eq_true hv
    exact hr.step_back hs hv' fun hpc => hres ⟨hpc, hv'⟩

/-- From a delivery on, whatever the handlers do and however many signals are delivered in a
row, once no handler is active the trapframe has the program counter and the registers it had
before the delivery, and the process resumes with them. -/
theorem handlers_restore {f : Trapframe} (hrun : Run (SigState.Delivered i f)
      (restrict (SigStep i) fun st _ => ¬st.Resumed i) h st)
    (hv : (st.table i).sigTrapframeValid = false) :
    (st.table i).trapframe.epc = f.epc ∧ (∀ r, (st.table i).trapframe.reg r = f.reg r) ∧
      (st.pc = .user → st.user.pc = f.epc ∧ ∀ r, st.user.reg r = f.reg r) := by
  have hr : Restores i f st := hrun.invariant (P := fun _ st => Restores i f st)
    (fun _ hd => hd.restores) fun _ _ _ _ hr hs => hr.step hs.1 hs.2
  have hback := UserRegs.mk.inj (hr.back hv)
  refine ⟨hback.1, fun r => congrFun hback.2 r, fun hpc => ?_⟩
  rw [hr.resumed hv hpc]
  exact ⟨rfl, fun _ => rfl⟩

end Steps

/-! ## A handler that returns at once -/

/-- A process with the signal `2` pending, for which it has a handler at `64`. -/
def signalled : SigProc where
  pid := 3
  state := .running
  killed := false
  trapframe := ⟨0, 0, 0, 4096, 0, fun _ => 7⟩
  pendingSignals := 4
  signalHandlersValid := 4
  signalHandlers := fun _ => 64
  sigTrapframe := ⟨0, 0, 0, 0, 0, fun _ => 0⟩
  sigTrapframeValid := false

theorem handlers_restore_sample : ∃ h st, Run (SigState.Delivered 0 signalled.trapframe)
      (restrict (SigStep 0) fun st _ => ¬st.Resumed 0) h st ∧
    (st.table 0).sigTrapframeValid = false ∧ (st.table 0).trapframe.reg .a0 = 7 := by
  have hd : SigStep 0 ⟨fun _ => signalled, .handle, ⟨0, fun _ => 0⟩⟩ (.delivered 2) _ :=
    .handle (i := 0) rfl
  have hactive : ∀ st : SigState, (st.table 0).sigTrapframeValid = true → ¬st.Resumed 0 :=
    fun st hv hr => absurd (hr.2.symm.trans hv) Bool.noConfusion
  -- the handler calls `sigreturn`
  have hrun : Run (SigState.Delivered 0 signalled.trapframe)
      (restrict (SigStep 0) fun st _ => ¬st.Resumed 0) _ _ :=
    ((((Run.start ⟨_, 2, hd, rfl⟩).snoc ⟨.ret 0 0 0 0 rfl rfl, hactive _ rfl⟩).snoc
    ⟨.run ⟨64, fun _ => 24⟩ rfl, hactive _ rfl⟩).snoc ⟨.ecall rfl rfl, hactive _ rfl⟩).snoc
    ⟨.call 0 rfl (by decide) (by decide), hactive _ rfl⟩
  exact ⟨_, _, hrun, rfl, (handlers_restore hrun rfl).2.1 .a0⟩

theorem signals_delivered_once_sample : ∃ h st, Run (SigState.Fresh 0) (SigStep 0) h st ∧
    SignalWaits 0 2 h ∧ (st.table 0).pendingSignals.testBit 2 = true := by
  have hrun : Run (SigState.Fresh 0) (SigStep 0) _ _ :=
    (Run.start (s := ⟨fun _ => { signalled with pendingSignals := 0 }, .user, ⟨0, fun _ => 0⟩⟩)
      ⟨rfl, rfl⟩).snoc (.kill 3 2)
  exact ⟨_, _, hrun, since_snoc.2 (Or.inl rfl),
    ((signals_delivered_once hrun).1 2).2 (since_snoc.2 (Or.inl rfl))⟩

end Xv6Plus
