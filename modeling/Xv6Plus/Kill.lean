import Xv6Plus.Signal

/-!
# `kkill` and the slots of the process table

`kkill` looks for its pid in every slot, those of no process included, whose `pid` is `0`.
Here the whole table changes step by step : each critical section under a `p->lock` is one
step, as `allocproc` keeps the lock of the slot it has found until its caller releases it.

An unused slot has no pid and is not killed, as long as nobody kills the pid `0`
(`unused_step`); what `kkill` and `allocproc` do then follows from that alone.
-/

namespace Xv6Plus

/-! ## The code -/

def SigProc.initSignals (p : SigProc) : SigProc :=
  { p with
    pendingSignals := 0
    sigTrapframeValid := false
    sigTrapframe := ⟨0, 0, 0, 0, 0, fun _ => 0⟩
    signalHandlers := fun _ => 0
    signalHandlersValid := 0 }

def SigProc.freeproc (p : SigProc) : SigProc :=
  SigProc.initSignals { p with pid := 0, killed := false, state := .unused }

structure SlotsState where
  table : SigTable
  /-- `nextpid`, as a 32-bit word. -/
  nextpid : ℕ

/-- One slot changes. -/
def SlotsState.set (st : SlotsState) (i : ℕ) (p : SigProc) : SlotsState :=
  { st with table := Function.update st.table i p }

/-- The loop of `allocproc` from the slot `i` on. -/
def findFree (t : SigTable) : ℕ → ℕ → Option ℕ
  | 0, _ => none
  | n + 1, i => if (t i).state = .unused then some i else findFree t n (i + 1)

/-- `allocproc`; `memory` tells whether `kalloc` and `proc_pagetable` succeed. -/
def SlotsState.allocproc (memory : Bool) (st : SlotsState) : Option ℕ × SlotsState :=
  match findFree st.table nProc 0 with
  | none => (none, st)
  | some j =>
    let p := { st.table j with pid := toInt32 st.nextpid, state := .used }
    let st := { st with nextpid := (st.nextpid + 1) % 2 ^ 32 }
    if memory = true then (some j, st.set j p.initSignals) else (none, st.set j p.freeproc)

/-- `kfork` by the process in slot `i` up to the release of the child's lock; `copied` tells
whether `uvmcopy` succeeds. -/
def SlotsState.kfork (i : ℕ) (memory copied : Bool) (st : SlotsState) :
    Option ℕ × SlotsState :=
  match st.allocproc memory with
  | (none, st) => (none, st)
  | (some j, st) =>
    if copied = true then
      let p := { st.table j with
        trapframe := (st.table i).trapframe
        pendingSignals := 0
        sigTrapframeValid := false
        sigTrapframe := ⟨0, 0, 0, 0, 0, fun _ => 0⟩
        signalHandlers := (st.table i).signalHandlers
        signalHandlersValid := (st.table i).signalHandlersValid }
      (some j, st.set j (p.setReg .a0 0))
    else (none, st.set j (st.table j).freeproc)

/-- `userinit` and `kthread_create` : the process can run at once. -/
def SlotsState.create (memory : Bool) (st : SlotsState) : Option ℕ × SlotsState :=
  match st.allocproc memory with
  | (none, st) => (none, st)
  | (some j, st) => (some j, st.set j { st.table j with state := .runnable })

inductive SlotsEvent
  | kill (pid signum : ℤ)
  | other

/-- The states between which a process moves while it lives. -/
def RunState.Scheduled (s : RunState) : Prop := s = .sleeping ∨ s = .runnable ∨ s = .running

inductive SlotsStep : SlotsState → SlotsEvent → SlotsState → Prop
  | fork {st : SlotsState} {i : ℕ} (memory copied : Bool) : (st.table i).state = .running →
      SlotsStep st .other (st.kfork i memory copied).2
  | create {st : SlotsState} (memory : Bool) : SlotsStep st .other (st.create memory).2
  /-- The last critical section of `kfork`. -/
  | ready {st : SlotsState} {i : ℕ} : (st.table i).state = .used →
      SlotsStep st .other (st.set i { st.table i with state := .runnable })
  /-- The scheduler, `yield`, `sleep` and `wakeup`. -/
  | sched {st : SlotsState} {i : ℕ} {s : RunState} : (st.table i).state.Scheduled →
      s.Scheduled → SlotsStep st .other (st.set i { st.table i with state := s })
  | exit {st : SlotsState} {i : ℕ} : (st.table i).state = .running →
      SlotsStep st .other (st.set i { st.table i with state := .zombie })
  /-- `kwait` has found a zombie. -/
  | reap {st : SlotsState} {i : ℕ} : (st.table i).state = .zombie →
      SlotsStep st .other (st.set i (st.table i).freeproc)
  | kill {st : SlotsState} (pid signum : ℤ) :
      SlotsStep st (.kill pid signum) { st with table := (kkill pid signum st.table).2.2 }
  /-- `usertrap` calls `setkilled` for the process that runs. -/
  | setkilled {st : SlotsState} {i : ℕ} : (st.table i).state = .running →
      SlotsStep st .other (st.set i { st.table i with killed := true })
  | handle {st : SlotsState} {i : ℕ} : (st.table i).state = .running →
      SlotsStep st .other (st.set i (handleSignals (st.table i)).2)
  /-- A process changes its own trapframe or its signals, as `sys_signal` and
  `sys_sigreturn` do. -/
  | own {st : SlotsState} {i : ℕ} {p : SigProc} : (st.table i).state = .running →
      p.state = .running → SlotsStep st .other (st.set i p)

/-- The table is zeroed at boot. -/
def SlotsState.Boot (st : SlotsState) : Prop :=
  st.nextpid = 1 ∧ ∀ i, (st.table i).state = .unused ∧ (st.table i).pid = 0 ∧
    (st.table i).killed = false

/-! ## Unused slots -/

/-- An unused slot is as `freeproc` leaves it. -/
def SigProc.Clean (p : SigProc) : Prop := p.state = .unused → p.pid = 0 ∧ p.killed = false

theorem SigProc.clean_of_ne {p : SigProc} (h : p.state ≠ .unused) : p.Clean :=
  fun hp => absurd hp h

theorem SigProc.freeproc_clean (p : SigProc) : p.freeproc.Clean := fun _ => ⟨rfl, rfl⟩

theorem RunState.Scheduled.ne_unused {s : RunState} (h : s.Scheduled) : s ≠ .unused := by
  rintro rfl
  rcases h with h | h | h <;> exact RunState.noConfusion h

section Kill

variable {st st' : SlotsState} {e : SlotsEvent} {h : List SlotsEvent} {t : SigTable}
  {pid signum : ℤ} {i j : ℕ} {memory : Bool}

/-- Every slot is clean after one slot has changed to something clean. -/
theorem update_clean (hinv : ∀ i, (t i).Clean) {p : SigProc} (hp : p.Clean) (i : ℕ) :
    (Function.update t j p i).Clean := by
  by_cases hij : i = j
  · subst hij
    rw [Function.update_self]
    exact hp
  · rw [Function.update_of_ne hij]
    exact hinv i

theorem findFree_state : ∀ {n i : ℕ}, findFree t n i = some j → (t j).state = .unused
  | 0, _, h => by simp [findFree] at h
  | n + 1, i, h => by
    rw [findFree] at h
    split_ifs at h with hs
    · exact Option.some.inj h ▸ hs
    · exact findFree_state h

theorem findPid_some : ∀ {n k : ℕ}, findPid pid t n k = some j → j < k + n ∧ (t j).pid = pid
  | 0, _, h => by simp [findPid] at h
  | n + 1, k, h => by
    rw [findPid] at h
    split_ifs at h with hs
    · obtain rfl := Option.some.inj h
      exact ⟨by omega, hs⟩
    · obtain ⟨hlt, hpid⟩ := findPid_some h
      exact ⟨by omega, hpid⟩

theorem findPid_none : ∀ {n k : ℕ}, findPid pid t n k = none → ∀ i, k ≤ i → i < k + n →
    (t i).pid ≠ pid
  | 0, _, _, i, hle, hlt => absurd hlt (by omega)
  | n + 1, k, h, i, hle, hlt => by
    rw [findPid] at h
    split_ifs at h with hs
    by_cases hik : i = k
    · rw [hik]
      exact hs
    · exact findPid_none h i (by omega) (by omega)

/-- What `allocproc` hands out : the slot was unused, and only its pid, its state and its
signals are new. -/
theorem SlotsState.allocproc_some (h : st.allocproc memory = (some j, st')) :
    (st.table j).state = .unused ∧ (st'.table j).state = .used ∧
      (st'.table j).killed = (st.table j).killed ∧ ∀ i ≠ j, st'.table i = st.table i := by
  unfold SlotsState.allocproc at h
  cases hf : findFree st.table nProc 0 with
  | none =>
    rw [hf] at h
    exact absurd (congrArg Prod.fst h) (by simp)
  | some k =>
    rw [hf] at h
    cases memory with
    | false => exact absurd (congrArg Prod.fst h) (by simp)
    | true =>
      obtain rfl : k = j := Option.some.inj (congrArg Prod.fst h)
      obtain rfl := congrArg Prod.snd h
      refine ⟨findFree_state hf, ?_, ?_, fun i hi => ?_⟩
      · simp [SlotsState.set, SigProc.initSignals]
      · simp [SlotsState.set, SigProc.initSignals]
      · exact Function.update_of_ne hi _ _

theorem SlotsState.allocproc_clean (hinv : ∀ i, (st.table i).Clean) (i : ℕ) :
    ((st.allocproc memory).2.table i).Clean := by
  unfold SlotsState.allocproc
  cases findFree st.table nProc 0 with
  | none => exact hinv i
  | some j =>
    cases memory with
    | false => exact update_clean hinv (SigProc.freeproc_clean _) i
    | true => exact update_clean hinv (SigProc.clean_of_ne RunState.noConfusion) i

theorem SlotsState.kfork_clean (hinv : ∀ i, (st.table i).Clean) (p : ℕ) (copied : Bool)
    (i : ℕ) : ((st.kfork p memory copied).2.table i).Clean := by
  have halloc : ∀ i, ((st.allocproc memory).2.table i).Clean := st.allocproc_clean hinv
  unfold SlotsState.kfork
  rcases ha : st.allocproc memory with ⟨_ | j, st'⟩
  · rw [ha] at halloc
    exact halloc i
  · rw [ha] at halloc
    cases copied with
    | false => exact update_clean halloc (SigProc.freeproc_clean _) i
    | true =>
      refine update_clean halloc (SigProc.clean_of_ne ?_) i
      show (st'.table j).state ≠ .unused
      rw [(SlotsState.allocproc_some ha).2.1]
      exact RunState.noConfusion

theorem SlotsState.create_clean (hinv : ∀ i, (st.table i).Clean) (i : ℕ) :
    ((st.create memory).2.table i).Clean := by
  have halloc : ∀ i, ((st.allocproc memory).2.table i).Clean := st.allocproc_clean hinv
  unfold SlotsState.create
  rcases ha : st.allocproc memory with ⟨_ | j, st'⟩
  · rw [ha] at halloc
    exact halloc i
  · rw [ha] at halloc
    exact update_clean halloc (SigProc.clean_of_ne RunState.noConfusion) i

/-! ## What `kkill` does -/

theorem SigProc.kill_state (p : SigProc) (s : ℕ) :
    (p.kill s).state = .unused ↔ p.state = .unused := by
  by_cases hk : s = sigKill <;> by_cases hs : p.state = .sleeping <;> simp [SigProc.kill, hk, hs]

theorem SigProc.handleSignals_state (p : SigProc) : (handleSignals p).2.state = p.state := by
  have hloop : ∀ n k, (handleLoop n k p).2.state = p.state := by
    intro n
    induction n with
    | zero => exact fun _ => rfl
    | succ n ih =>
      intro k
      rw [handleLoop]
      by_cases hbit : p.pendingSignals.testBit k = false
      · rw [if_pos hbit]
        exact ih _
      · rw [if_neg hbit]
        dsimp only
        split_ifs <;> rfl
  unfold handleSignals
  split_ifs
  · rfl
  · exact hloop _ _

/-- `kkill` fails, or it changes the first slot with the pid and no other. -/
theorem kkill_cases (pid signum : ℤ) (t : SigTable) :
    ((kkill pid signum t).2.1 = -1 ∧ (kkill pid signum t).2.2 = t ∧
      ¬((0 ≤ signum ∧ signum < nSig) ∧ ∃ i < nProc, (t i).pid = pid)) ∨
    ∃ j < nProc, (t j).pid = pid ∧ (0 ≤ signum ∧ signum < nSig) ∧
      (kkill pid signum t).2.1 = 0 ∧
      (kkill pid signum t).2.2 = Function.update t j ((t j).kill signum.toNat) := by
  unfold kkill
  by_cases hsig : signum < 0 ∨ signum ≥ nSig
  · rw [if_pos hsig]
    exact Or.inl ⟨rfl, rfl, fun hc => by omega⟩
  rw [if_neg hsig]
  cases hf : findPid pid t nProc 0 with
  | none => exact Or.inl ⟨rfl, rfl, fun ⟨_, i, hi, hpid⟩ =>
      findPid_none hf i (Nat.zero_le i) (by omega) hpid⟩
  | some j =>
    obtain ⟨hlt, hpid⟩ := findPid_some hf
    exact Or.inr ⟨j, by omega, hpid, by omega, rfl, rfl⟩

/-- The pid of a `kkill` is not `0`. -/
def NamesProcess (_ : SlotsState) (e : SlotsEvent) : Prop :=
  ∀ pid signum, e = .kill pid signum → pid ≠ 0

theorem unused_step (hinv : ∀ i, (st.table i).Clean) (hs : restrict SlotsStep NamesProcess st e st')
    (i : ℕ) : (st'.table i).Clean := by
  obtain ⟨hs, hnames⟩ := hs
  cases hs with
  | fork memory copied _ => exact st.kfork_clean hinv _ copied i
  | create memory => exact st.create_clean hinv i
  | ready _ => exact update_clean hinv (SigProc.clean_of_ne RunState.noConfusion) i
  | sched _ hs' => exact update_clean hinv (SigProc.clean_of_ne hs'.ne_unused) i
  | exit _ => exact update_clean hinv (SigProc.clean_of_ne RunState.noConfusion) i
  | reap _ => exact update_clean hinv (SigProc.freeproc_clean _) i
  | kill pid signum =>
    rcases kkill_cases pid signum st.table with ⟨-, ht, -⟩ | ⟨j, -, hpid, -, -, ht⟩
    · rw [ht]
      exact hinv i
    · rw [ht]
      refine update_clean hinv (fun hun => ?_) i
      -- an unused slot has the pid `0`
      exact absurd (hpid.symm.trans (hinv j ((SigProc.kill_state _ _).1 hun)).1)
        (hnames pid signum rfl)
  | @setkilled j hr =>
    refine update_clean hinv (SigProc.clean_of_ne ?_) i
    change (st.table j).state ≠ .unused
    rw [hr]
    exact RunState.noConfusion
  | handle hr =>
    refine update_clean hinv (SigProc.clean_of_ne ?_) i
    rw [SigProc.handleSignals_state, hr]
    exact RunState.noConfusion
  | own _ hp => exact update_clean hinv (SigProc.clean_of_ne (by simp [hp])) i

/-- What `kill` promises in one state of the table. -/
structure KillReaches (st : SlotsState) : Prop where
  /-- `kkill` returns `0` if there is a process with the pid. -/
  returns : ∀ pid signum : ℤ, pid ≠ 0 → ((kkill pid signum st.table).2.1 = 0 ↔
    (0 ≤ signum ∧ signum < nSig) ∧
      ∃ i < nProc, (st.table i).state ≠ .unused ∧ (st.table i).pid = pid)
  /-- It changes one slot at most, that of a process with the pid. -/
  named : ∀ (pid signum : ℤ) (i : ℕ), pid ≠ 0 →
    (kkill pid signum st.table).2.2 i ≠ st.table i →
    (st.table i).state ≠ .unused ∧ (st.table i).pid = pid ∧
      ∀ j ≠ i, (kkill pid signum st.table).2.2 j = st.table j
  unused : ∀ i, (st.table i).state = .unused → (st.table i).killed = false
  fresh : ∀ (memory : Bool) (j : ℕ) (st' : SlotsState), st.allocproc memory = (some j, st') →
    (st'.table j).killed = false

/-- As long as nobody kills the pid `0`, `kill` reaches only the process it names. -/
theorem kill_reaches_named (hrun : Run SlotsState.Boot (restrict SlotsStep NamesProcess) h st) :
    KillReaches st := by
  have hinv : ∀ i, (st.table i).Clean :=
    hrun.invariant (P := fun _ st => ∀ i, (st.table i).Clean)
      (fun _ hb i _ => (hb.2 i).2) fun _ _ _ _ hinv hs => unused_step hinv hs
  have hlive : ∀ {pid : ℤ} {i : ℕ}, pid ≠ 0 → (st.table i).pid = pid →
      (st.table i).state ≠ .unused :=
    fun hpid hi hun => hpid (hi.symm.trans (hinv _ hun).1)
  refine ⟨fun pid signum hpid => ?_, fun pid signum i hpid hne => ?_, fun i hi => (hinv i hi).2,
    fun memory j st' ha => ?_⟩
  · rcases kkill_cases pid signum st.table with ⟨hret, -, hno⟩ | ⟨j, hj, hjp, hsig, hret, -⟩
    · rw [hret]
      exact ⟨fun hc => absurd hc (by decide), fun ⟨hsig, i, hi, _, hip⟩ =>
        absurd ⟨hsig, i, hi, hip⟩ hno⟩
    · rw [hret]
      exact ⟨fun _ => ⟨hsig, j, hj, hlive hpid hjp, hjp⟩, fun _ => rfl⟩
  · rcases kkill_cases pid signum st.table with ⟨-, ht, -⟩ | ⟨j, -, hjp, -, -, ht⟩
    · exact absurd (congrFun ht i) hne
    · rw [ht] at hne ⊢
      obtain rfl : i = j := by
        by_contra hij
        exact hne (Function.update_of_ne hij _ _)
      exact ⟨hlive hpid hjp, hjp, fun k hk => Function.update_of_ne hk _ _⟩
  · obtain ⟨hun, -, hk, -⟩ := SlotsState.allocproc_some ha
    rw [hk]
    exact (hinv j hun).2

end Kill

/-! ## The pid `0` -/

/-- The table at boot. -/
def bootSlots : SlotsState where
  table := fun _ => ⟨0, .unused, false, ⟨0, 0, 0, 0, 0, fun _ => 0⟩, 0, 0, fun _ => 0,
    ⟨0, 0, 0, 0, 0, fun _ => 0⟩, false⟩
  nextpid := 1

theorem bootSlots_boot : bootSlots.Boot := ⟨rfl, fun _ => ⟨rfl, rfl, rfl⟩⟩

/-- `init` is there, and `SIGKILL` to the pid `1` reaches it. -/
theorem kill_reaches_named_init : ∃ h st,
    Run SlotsState.Boot (restrict SlotsStep NamesProcess) h st ∧ KillReaches st ∧
      (st.table 0).killed = true ∧ (st.table 1).killed = false := by
  have hrun : Run SlotsState.Boot (restrict SlotsStep NamesProcess) _ _ :=
    ((Run.start bootSlots_boot).snoc ⟨.create true, fun _ _ he => SlotsEvent.noConfusion he⟩).snoc
      ⟨.kill 1 9, fun _ _ he => by
        obtain ⟨rfl, -⟩ := SlotsEvent.kill.inj he
        decide⟩
  exact ⟨_, _, hrun, kill_reaches_named hrun, rfl, (kill_reaches_named hrun).unused 1 rfl⟩

/-- `kill(0, SIGKILL)` succeeds though no process has the pid `0` : it marks an unused slot,
and the next process that `allocproc` hands out is killed from the start. -/
theorem kill_zero_marks_unused : ∃ h st, Run SlotsState.Boot SlotsStep h st ∧
    (∀ i < nProc, (st.table i).state ≠ .unused → (st.table i).pid ≠ 0) ∧
    (kkill 0 9 st.table).2.1 = 0 ∧ (st.table 1).state = .unused ∧ (st.table 1).killed = true ∧
    (st.allocproc true).1 = some 1 ∧ ((st.allocproc true).2.table 1).killed = true := by
  have hrun : Run SlotsState.Boot SlotsStep _ _ :=
    ((Run.start bootSlots_boot).snoc (.create true)).snoc (.kill 0 9)
  exact ⟨_, _, hrun, by decide, rfl, rfl, rfl, rfl, rfl⟩

end Xv6Plus
