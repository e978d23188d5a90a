import Xv6Plus.Log
import Xv6Plus.Steps
import Xv6Plus.Vm

/-!
# The life of a process : `kfork`, `kexit`, `kwait`

Each critical section under `wait_lock` or a process's lock is one step. `kfork` has three of
them : the child's slot is taken and filled under the child's lock, the parent is set under
`wait_lock`, and the child becomes runnable. `kexit` reparents the children and becomes a
zombie in one section, and a round of `kwait` is one section too, as it keeps `wait_lock`.

Every process gets a number when it is forked, so that a history can tell two processes apart
that have used the same slot. The slots that were in use before any fork are those of
`initproc` and of kernel threads, which do not fork, exit or wait.
-/

namespace Xv6Plus

/-- What processes sleep on : `kwait` sleeps on the process itself. -/
inductive SleepChan
  | proc (i : ℕ)
  | other (a : ℕ)
  deriving DecidableEq

/-- The fields of `struct proc` that processes share with their parents. -/
structure PSlot where
  state : RunState
  chan : Option SleepChan
  killed : Bool
  xstate : ℤ
  pid : ℤ
  parent : Option ℕ
  /-- The number of the process. -/
  born : ℕ

abbrev PTable := ℕ → PSlot

/-- `freeproc`. -/
def PSlot.free (s : PSlot) : PSlot :=
  { s with state := .unused, chan := none, killed := false, xstate := 0, pid := 0, parent := none }

/-- The loop of `allocproc`. -/
def findUnused (t : PTable) : ℕ → ℕ → Option ℕ
  | 0, _ => none
  | n + 1, i => if (t i).state = .unused then some i else findUnused t n (i + 1)

/-- `wakeup`, by the process `me`. -/
def wakeupAll (me : ℕ) (c : SleepChan) (t : PTable) : PTable := fun i =>
  if i ≠ me ∧ (t i).state = .sleeping ∧ (t i).chan = some c then
    { t i with state := .runnable }
  else t i

/-- `reparent`, from the slot `i` on. -/
def reparentLoop (me initproc : ℕ) : ℕ → ℕ → PTable → PTable
  | 0, _, t => t
  | n + 1, i, t =>
    if (t i).parent = some me then
      reparentLoop me initproc n (i + 1)
        (wakeupAll me (.proc initproc)
          (Function.update t i { t i with parent := some initproc }))
    else reparentLoop me initproc n (i + 1) t

/-- `wakeup(p->parent)`. -/
def wakeupParent (me : ℕ) (t : PTable) : PTable :=
  match (t me).parent with
  | none => t
  | some q => wakeupAll me (.proc q) t

/-- `kexit` from `acquire(&wait_lock)` on. -/
def kexitTable (me initproc : ℕ) (status : ℤ) (t : PTable) : PTable :=
  let t := wakeupParent me (reparentLoop me initproc nProc 0 t)
  Function.update t me { t me with xstate := status, state := .zombie }

/-- The scan of `kwait` from the slot `i` on : the zombie that was found, and `havekids`. -/
def scanKids (t : PTable) (me : ℕ) : ℕ → ℕ → Bool → Option ℕ × Bool
  | 0, _, havekids => (none, havekids)
  | n + 1, i, havekids =>
    if (t i).parent = some me then
      if (t i).state = .zombie then (some i, true) else scanKids t me n (i + 1) true
    else scanKids t me n (i + 1) havekids

inductive LifeEvent
  /-- `kfork` has made the process `id`. -/
  | forked (id : ℕ) (pid : ℤ)
  | exited (id : ℕ) (status : ℤ)
  /-- `kwait` by the process `parent` returns `pid` and hands out `status`. -/
  | reaped (parent id : ℕ) (pid status : ℤ)
  | other

/-- Where a process is. -/
inductive LifePc
  | user
  /-- In `kfork`, the child's slot is filled. -/
  | forking (child : ℕ)
  /-- In `kfork`, the child has its parent. -/
  | forked (child : ℕ)
  /-- In `kwait`, without `wait_lock`. -/
  | waiting
  deriving DecidableEq

/-- A round of the loop of `kwait`; `copyFails` is `addr != 0` with a failing `copyout`. -/
def kwaitRound (me : ℕ) (copyFails : Bool) (t : PTable) : LifeEvent × PTable × LifePc :=
  match scanKids t me nProc 0 false with
  | (some i, _) =>
    if copyFails = true then (.other, t, .user)
    else (.reaped (t me).born (t i).born (t i).pid (t i).xstate,
      Function.update t i (t i).free, .user)
  | (none, havekids) =>
    if havekids = false ∨ (t me).killed = true then (.other, t, .user)
    else (.other, Function.update t me { t me with state := .sleeping, chan := some (.proc me) },
      .waiting)

structure LifeState where
  slot : PTable
  pc : ℕ → LifePc
  nextpid : ℕ
  /-- The number of processes so far. -/
  births : ℕ

/-- What does not change : `initproc` and the slots of kernel threads. -/
structure Roots where
  initproc : ℕ
  kthread : ℕ → Bool

/-- A user process that is running. -/
def LifeState.Runs (r : Roots) (st : LifeState) (p : ℕ) : Prop :=
  p < nProc ∧ r.kthread p = false ∧ (st.slot p).state = .running

/-- Steps of processes and of the scheduler. -/
inductive LifeStep (r : Roots) : LifeState → LifeEvent → LifeState → Prop
  /-- `kfork` : `allocproc` and `uvmcopy` succeed. -/
  | fork {st : LifeState} {p j : ℕ} : st.Runs r p → st.pc p = .user →
      findUnused st.slot nProc 0 = some j →
      LifeStep r st (.forked st.births (toInt32 st.nextpid))
        { slot := Function.update st.slot j { st.slot j with
            state := .used, pid := toInt32 st.nextpid, born := st.births }
          pc := Function.update st.pc p (.forking j)
          nextpid := (st.nextpid + 1) % 2 ^ 32
          births := st.births + 1 }
  /-- `kfork` runs out of memory : `freeproc`. -/
  | forkFails {st : LifeState} {p j : ℕ} : st.Runs r p → st.pc p = .user →
      findUnused st.slot nProc 0 = some j →
      LifeStep r st .other { st with
        slot := Function.update st.slot j (st.slot j).free
        nextpid := (st.nextpid + 1) % 2 ^ 32 }
  | setParent {st : LifeState} {p j : ℕ} : st.Runs r p → st.pc p = .forking j →
      LifeStep r st .other { st with
        slot := Function.update st.slot j { st.slot j with parent := some p }
        pc := Function.update st.pc p (.forked j) }
  | ready {st : LifeState} {p j : ℕ} : st.Runs r p → st.pc p = .forked j →
      LifeStep r st .other { st with
        slot := Function.update st.slot j { st.slot j with state := .runnable }
        pc := Function.update (Function.update st.pc j .user) p .user }
  /-- `kexit`; it panics for `initproc`. -/
  | exit {st : LifeState} {p : ℕ} (status : ℤ) : st.Runs r p → st.pc p = .user →
      p ≠ r.initproc →
      LifeStep r st (.exited (st.slot p).born status)
        { st with slot := kexitTable p r.initproc status st.slot }
  | wait {st : LifeState} {p : ℕ} : st.Runs r p → st.pc p = .user →
      LifeStep r st .other { st with pc := Function.update st.pc p .waiting }
  | scan {st : LifeState} {p : ℕ} (copyFails : Bool) : st.Runs r p → st.pc p = .waiting →
      LifeStep r st (kwaitRound p copyFails st.slot).1 { st with
        slot := (kwaitRound p copyFails st.slot).2.1
        pc := Function.update st.pc p (kwaitRound p copyFails st.slot).2.2 }
  /-- The scheduler lets a process run. -/
  | dispatch {st : LifeState} {i : ℕ} : (st.slot i).state = .runnable →
      LifeStep r st .other { st with
        slot := Function.update st.slot i { st.slot i with state := .running, chan := none } }
  /-- `yield`. -/
  | yield {st : LifeState} {i : ℕ} : (st.slot i).state = .running →
      LifeStep r st .other { st with
        slot := Function.update st.slot i { st.slot i with state := .runnable } }
  /-- A process sleeps on something else than a child. -/
  | sleep {st : LifeState} {i : ℕ} (a : ℕ) : (st.slot i).state = .running →
      LifeStep r st .other { st with
        slot := Function.update st.slot i
          { st.slot i with state := .sleeping, chan := some (.other a) } }
  /-- A process, or an interrupt, wakes up those that sleep on something. -/
  | wakeup {st : LifeState} (me : ℕ) (c : SleepChan) :
      LifeStep r st .other { st with slot := wakeupAll me c st.slot }
  /-- `kkill`, with `SIGKILL` or another signal. -/
  | kill {st : LifeState} (i : ℕ) (sigkill : Bool) :
      LifeStep r st .other { st with
        slot := Function.update st.slot i { st.slot i with
          killed := (st.slot i).killed || sigkill
          state := if (st.slot i).state = .sleeping then .runnable else (st.slot i).state } }

/-- The process is there and has not exited. -/
def LifeState.Alive (st : LifeState) (i : ℕ) : Prop :=
  (st.slot i).state ≠ .unused ∧ (st.slot i).state ≠ .zombie

/-- After `userinit` and the start of the kernel threads. -/
structure LifeState.Init (r : Roots) (st : LifeState) : Prop where
  init_lt : r.initproc < nProc
  roots : ∀ i, (i = r.initproc ∨ r.kthread i = true) → i < nProc ∧
    (st.slot i).state ∈ [RunState.sleeping, .runnable, .running]
  rest : ∀ i, ¬(i = r.initproc ∨ r.kthread i = true) → (st.slot i).state = .unused
  parents : ∀ i, (st.slot i).parent = none
  numbers : ∀ i, (st.slot i).state ≠ .unused → (st.slot i).born < st.births ∧
    ∀ j, (st.slot j).state ≠ .unused → (st.slot i).born = (st.slot j).born → i = j
  pc : ∀ i, st.pc i = .user

/-! ## Slots up to scheduling -/

/-- The phase of a process, without what the scheduler does to it. -/
def RunState.phase : RunState → ProcState
  | .unused => .unused
  | .used => .used
  | .sleeping | .runnable | .running => .live
  | .zombie => .zombie

/-- The slot is the same up to scheduling and signals. -/
structure PSlot.Like (s s' : PSlot) : Prop where
  phase : s'.state.phase = s.state.phase
  xstate : s'.xstate = s.xstate
  pid : s'.pid = s.pid
  parent : s'.parent = s.parent
  born : s'.born = s.born

theorem PSlot.Like.refl (s : PSlot) : s.Like s := ⟨rfl, rfl, rfl, rfl, rfl⟩

theorem PSlot.Like.trans {s s' s'' : PSlot} (h : s.Like s') (h' : s'.Like s'') : s.Like s'' :=
  ⟨h'.phase.trans h.phase, h'.xstate.trans h.xstate, h'.pid.trans h.pid,
    h'.parent.trans h.parent, h'.born.trans h.born⟩

theorem wakeupAll_like (me : ℕ) (c : SleepChan) (t : PTable) (i : ℕ) :
    (t i).Like (wakeupAll me c t i) := by
  unfold wakeupAll
  split_ifs with hs
  · exact ⟨by rw [hs.2.1]; rfl, rfl, rfl, rfl, rfl⟩
  · exact .refl _

theorem wakeupParent_like (me : ℕ) (t : PTable) (i : ℕ) :
    (t i).Like (wakeupParent me t i) := by
  unfold wakeupParent
  cases (t me).parent with
  | none => exact .refl _
  | some q => exact wakeupAll_like _ _ _ _

/-- One slot changes in its scheduling. -/
theorem update_like {t : PTable} {i : ℕ} {s : PSlot} (h : (t i).Like s) (j : ℕ) :
    (t j).Like (Function.update t i s j) := by
  by_cases hj : j = i
  · subst hj
    rw [Function.update_self]
    exact h
  · rw [Function.update_of_ne hj]
    exact .refl _

theorem findUnused_spec {t : PTable} {j : ℕ} : ∀ {n i : ℕ}, findUnused t n i = some j →
    i ≤ j ∧ j < i + n ∧ (t j).state = .unused
  | 0, _, h => by simp [findUnused] at h
  | n + 1, i, h => by
    rw [findUnused] at h
    split_ifs at h with hs
    · obtain rfl := Option.some.inj h
      exact ⟨le_refl _, by omega, hs⟩
    · obtain ⟨h1, h2, h3⟩ := findUnused_spec h
      exact ⟨by omega, by omega, h3⟩

theorem scanKids_spec {t : PTable} {me j : ℕ} {b : Bool} : ∀ {n i : ℕ} {havekids : Bool},
    scanKids t me n i havekids = (some j, b) →
    j < i + n ∧ (t j).parent = some me ∧ (t j).state = .zombie
  | 0, _, _, h => by simp [scanKids] at h
  | n + 1, i, havekids, h => by
    rw [scanKids] at h
    split_ifs at h with hp hz
    · obtain rfl := Option.some.inj (Prod.mk.inj h).1
      exact ⟨by omega, hp, hz⟩
    · obtain ⟨h1, h2⟩ := scanKids_spec h
      exact ⟨by omega, h2⟩
    · obtain ⟨h1, h2⟩ := scanKids_spec h
      exact ⟨by omega, h2⟩

theorem scanKids_none {t : PTable} {me : ℕ} {b : Bool} : ∀ {n i : ℕ} {havekids : Bool},
    scanKids t me n i havekids = (none, b) →
    ∀ k, i ≤ k → k < i + n → (t k).parent = some me → (t k).state ≠ .zombie
  | 0, _, _, _, k, hle, hlt, _ => absurd hlt (by omega)
  | n + 1, i, havekids, h, k, hle, hlt, hk => by
    rw [scanKids] at h
    by_cases hki : k = i
    · subst hki
      rw [if_pos hk] at h
      split_ifs at h with hz
      · exact absurd (Prod.mk.inj h).1 (by simp)
      · exact hz
    · split_ifs at h with hp hz
      · exact absurd (Prod.mk.inj h).1 (by simp)
      · exact scanKids_none h k (by omega) (by omega) hk
      · exact scanKids_none h k (by omega) (by omega) hk

/-- The slot after `reparent`. -/
def PSlot.orphaned (me initproc : ℕ) (s : PSlot) : PSlot :=
  if s.parent = some me then { s with parent := some initproc } else s

theorem PSlot.Like.orphaned {s s' : PSlot} (h : s.Like s') (me initproc : ℕ) :
    (s.orphaned me initproc).Like (s'.orphaned me initproc) := by
  unfold PSlot.orphaned
  rw [h.parent]
  split_ifs
  · exact ⟨h.phase, h.xstate, h.pid, rfl, h.born⟩
  · exact h

theorem reparentLoop_like (me initproc : ℕ) : ∀ (n i : ℕ) (t : PTable) (k : ℕ),
    PSlot.Like (if i ≤ k ∧ k < i + n then (t k).orphaned me initproc else t k)
      (reparentLoop me initproc n i t k)
  | 0, i, t, k => by
    rw [if_neg (by omega)]
    exact .refl _
  | n + 1, i, t, k => by
    rw [reparentLoop]
    by_cases hp : (t i).parent = some me
    · rw [if_pos hp]
      set t' := wakeupAll me (.proc initproc)
        (Function.update t i { t i with parent := some initproc }) with ht'
      have ih := reparentLoop_like me initproc n (i + 1) t' k
      have hself : (t i).orphaned me initproc = { t i with parent := some initproc } := if_pos hp
      by_cases hki : k = i
      · subst hki
        rw [if_neg (by omega)] at ih
        rw [if_pos (by omega), hself]
        refine PSlot.Like.trans ?_ ih
        have := wakeupAll_like me (.proc initproc)
          (Function.update t k { t k with parent := some initproc }) k
        rwa [Function.update_self] at this
      · have hk : (t k).Like (t' k) := by
          have := wakeupAll_like me (.proc initproc)
            (Function.update t i { t i with parent := some initproc }) k
          rwa [Function.update_of_ne hki] at this
        by_cases hin : i ≤ k ∧ k < i + (n + 1)
        · rw [if_pos (by omega)] at ih
          rw [if_pos hin]
          exact (hk.orphaned me initproc).trans ih
        · rw [if_neg (by omega)] at ih
          rw [if_neg hin]
          exact hk.trans ih
    · rw [if_neg hp]
      have ih := reparentLoop_like me initproc n (i + 1) t k
      by_cases hki : k = i
      · subst hki
        rw [if_neg (by omega)] at ih
        rw [if_pos (by omega), PSlot.orphaned, if_neg hp]
        exact ih
      · by_cases hin : i ≤ k ∧ k < i + (n + 1)
        · rw [if_pos (by omega)] at ih
          rw [if_pos hin]
          exact ih
        · rw [if_neg (by omega)] at ih
          rw [if_neg hin]
          exact ih

/-- The slots after `kexit`. -/
theorem kexitTable_like (me initproc : ℕ) (status : ℤ) (t : PTable) {k : ℕ} (hk : k < nProc) :
    PSlot.Like (if k = me then { (t k).orphaned me initproc with
      xstate := status, state := .zombie } else (t k).orphaned me initproc)
      (kexitTable me initproc status t k) := by
  have hr := reparentLoop_like me initproc nProc 0 t k
  rw [if_pos (by omega)] at hr
  have hw := hr.trans (wakeupParent_like me _ k)
  unfold kexitTable
  by_cases hkm : k = me
  · subst hkm
    rw [if_pos rfl, Function.update_self]
    exact ⟨rfl, rfl, hw.pid, hw.parent, hw.born⟩
  · rw [if_neg hkm, Function.update_of_ne hkm]
    exact hw

theorem kexitTable_beyond {me : ℕ} (initproc : ℕ) (status : ℤ) (t : PTable) {k : ℕ}
    (hk : nProc ≤ k) (hme : me < nProc) : (t k).Like (kexitTable me initproc status t k) := by
  have hr := reparentLoop_like me initproc nProc 0 t k
  rw [if_neg (by omega)] at hr
  unfold kexitTable
  rw [Function.update_of_ne (by omega)]
  exact hr.trans (wakeupParent_like me _ k)

/-! ## The invariant -/

/-- A slot that was in use before any fork. -/
def Roots.Root (r : Roots) (i : ℕ) : Prop := i = r.initproc ∨ r.kthread i = true

/-- The phase of the process in a slot. -/
def LifeState.phase (st : LifeState) (i : ℕ) : ProcState := (st.slot i).state.phase

/-- The child that a process is forking. -/
def LifePc.child : LifePc → Option ℕ
  | .forking j | .forked j => some j
  | _ => none

structure LifeInv (r : Roots) (st : LifeState) : Prop where
  bound : ∀ i, nProc ≤ i → st.phase i = .unused ∧ (st.slot i).parent = none
  root : ∀ i, r.Root i → st.phase i = .live
  parent : ∀ i q, (st.slot i).parent = some q → st.phase q = .live
  orphan : ∀ i, (st.slot i).parent = none →
    st.phase i = .unused ∨ st.phase i = .used ∨ r.Root i
  child : ∀ p j, (st.pc p).child = some j → st.phase p = .live ∧ st.phase j = .used
  named : ∀ p j, st.pc p = .forked j → (st.slot j).parent = some p
  one : ∀ p q j, (st.pc p).child = some j → (st.pc q).child = some j → p = q
  born_lt : ∀ i, st.phase i ≠ .unused → (st.slot i).born < st.births
  born_inj : ∀ i j, st.phase i ≠ .unused → st.phase j ≠ .unused →
    (st.slot i).born = (st.slot j).born → i = j

section Life

variable {r : Roots} {st st' : LifeState} {e : LifeEvent} {h : List LifeEvent} {p j : ℕ}

theorem phase_unused_iff : st.phase j = .unused ↔ (st.slot j).state = .unused := by
  unfold LifeState.phase
  cases (st.slot j).state <;> simp [RunState.phase]

theorem phase_used_iff : st.phase j = .used ↔ (st.slot j).state = .used := by
  unfold LifeState.phase
  cases (st.slot j).state <;> simp [RunState.phase]

theorem phase_zombie_iff : st.phase j = .zombie ↔ (st.slot j).state = .zombie := by
  unfold LifeState.phase
  cases (st.slot j).state <;> simp [RunState.phase]

theorem LifeState.Runs.phase (hr : st.Runs r p) : st.phase p = .live := by
  unfold LifeState.phase
  rw [hr.2.2]
  rfl

theorem LifeState.Init.inv (hi : st.Init r) : LifeInv r st := by
  have hlive : ∀ i, r.Root i → st.phase i = .live := by
    intro i hr
    have hs := (hi.roots i hr).2
    simp only [List.mem_cons, List.not_mem_nil, or_false] at hs
    unfold LifeState.phase
    rcases hs with hs | hs | hs <;> rw [hs] <;> rfl
  have hrest : ∀ i, ¬r.Root i → st.phase i = .unused := fun i hr => by
    rw [phase_unused_iff]
    exact hi.rest i hr
  have hchild : ∀ p, (st.pc p).child = none := fun p => by rw [hi.pc]; rfl
  refine ⟨fun i hle => ⟨hrest i fun hr => ?_, hi.parents i⟩, hlive, fun i q hq => ?_,
    fun i _ => ?_, fun p j hp => ?_, fun p j hp => ?_, fun p q j hp _ => ?_, fun i hi' => ?_,
    fun i j hi' hj' => ?_⟩
  · exact absurd (hi.roots i hr).1 (by omega)
  · rw [hi.parents] at hq
    simp at hq
  · by_cases hr : r.Root i
    · exact Or.inr (Or.inr hr)
    · exact Or.inl (hrest i hr)
  · simp [hchild] at hp
  · rw [hi.pc] at hp
    simp at hp
  · simp [hchild] at hp
  · rw [Ne, phase_unused_iff] at hi'
    exact (hi.numbers i hi').1
  · rw [Ne, phase_unused_iff] at hi' hj'
    exact (hi.numbers i hi').2 j hj'

/-- Steps that only schedule, or give up on a child. -/
theorem LifeInv.like (hinv : LifeInv r st) (hl : ∀ i, (st.slot i).Like (st'.slot i))
    (hpc : ∀ p, st'.pc p = st.pc p ∨ (st'.pc p).child = none) (hb : st'.births = st.births) :
    LifeInv r st' := by
  have hph : ∀ i, st'.phase i = st.phase i := fun i => (hl i).phase
  have hchild : ∀ p j, (st'.pc p).child = some j → (st.pc p).child = some j := by
    intro p j hj
    rcases hpc p with hp | hp
    · rwa [hp] at hj
    · rw [hp] at hj
      exact absurd hj (by simp)
  refine ⟨fun i hi => ?_, fun i hi => ?_, fun i q hq => ?_, fun i hi => ?_, fun p j hj => ?_,
    fun p j hj => ?_, fun p q j hp hq => ?_, fun i hi => ?_, fun i j hi hj hij => ?_⟩
  · rw [hph, (hl i).parent]
    exact hinv.bound i hi
  · rw [hph]
    exact hinv.root i hi
  · rw [(hl i).parent] at hq
    rw [hph]
    exact hinv.parent i q hq
  · rw [(hl i).parent] at hi
    rw [hph]
    exact hinv.orphan i hi
  · rw [hph, hph]
    exact hinv.child p j (hchild p j hj)
  · rw [(hl j).parent]
    rcases hpc p with hp | hp
    · exact hinv.named p j (hp ▸ hj)
    · rw [hj] at hp
      exact absurd hp (by simp [LifePc.child])
  · exact hinv.one p q j (hchild p j hp) (hchild q j hq)
  · rw [hph] at hi
    rw [(hl i).born, hb]
    exact hinv.born_lt i hi
  · rw [hph] at hi hj
    rw [(hl i).born, (hl j).born] at hij
    exact hinv.born_inj i j hi hj hij

/-- The slot `j` is taken for a child of `p`. -/
theorem LifeInv.fork {s : PSlot} {n : ℕ} (hinv : LifeInv r st) (hp : st.phase p = .live)
    (hpc : st.pc p = .user) (hj : st.phase j = .unused) (hlt : j < nProc)
    (hs : s.state = .used) (hpar : s.parent = (st.slot j).parent) (hborn : s.born = st.births) :
    LifeInv r { slot := Function.update st.slot j s
                pc := Function.update st.pc p (.forking j)
                nextpid := n
                births := st.births + 1 } := by
  set st' : LifeState := { slot := Function.update st.slot j s
                           pc := Function.update st.pc p (.forking j)
                           nextpid := n
                           births := st.births + 1 } with hst'
  have hself : st'.phase j = .used := by simp [hst', LifeState.phase, hs, RunState.phase]
  have hother : ∀ i, i ≠ j → st'.phase i = st.phase i := fun i hi => by
    simp [hst', LifeState.phase, hi]
  have hparent : ∀ i, (st'.slot i).parent = (st.slot i).parent := by
    intro i
    by_cases hi : i = j
    · subst hi
      simp [hst', hpar]
    · simp [hst', hi]
  have hne : ∀ i, st.phase i ≠ .unused → i ≠ j := by
    rintro i hi rfl
    exact hi hj
  have hchild : ∀ q k, (st'.pc q).child = some k → (q = p ∧ k = j) ∨
      (q ≠ p ∧ (st.pc q).child = some k) := by
    intro q k hq
    by_cases hqp : q = p
    · subst hqp
      simp [hst', LifePc.child] at hq
      exact Or.inl ⟨rfl, hq.symm⟩
    · exact Or.inr ⟨hqp, by simpa [hst', hqp] using hq⟩
  refine ⟨fun i hi => ?_, fun i hi => ?_, fun i q hq => ?_, fun i hi => ?_, fun q k hk => ?_,
    fun q k hk => ?_, fun q q' k hq hq' => ?_, fun i hi => ?_, fun i k hi hk hik => ?_⟩
  · rw [hparent, hother i (by omega)]
    exact hinv.bound i hi
  · have hl := hinv.root i hi
    rw [hother i (hne i (by simp [hl]))]
    exact hl
  · rw [hparent] at hq
    have hl := hinv.parent i q hq
    rw [hother q (hne q (by simp [hl]))]
    exact hl
  · rw [hparent] at hi
    by_cases hij : i = j
    · subst hij
      exact Or.inr (Or.inl hself)
    · rw [hother i hij]
      exact hinv.orphan i hi
  · rcases hchild q k hk with ⟨rfl, rfl⟩ | ⟨-, hk⟩
    · exact ⟨(hother q (hne q (by simp [hp]))).trans hp, hself⟩
    · obtain ⟨h1, h2⟩ := hinv.child q k hk
      rw [hother q (hne q (by simp [h1])), hother k (hne k (by simp [h2]))]
      exact ⟨h1, h2⟩
  · rw [hparent]
    refine hinv.named q k ?_
    by_cases hqp : q = p
    · subst hqp
      simp [hst'] at hk
    · simpa [hst', hqp] using hk
  · have hold : ∀ q, (st.pc q).child ≠ some j := fun q hc =>
      absurd (hinv.child q j hc).2 (by simp [hj])
    rcases hchild q k hq with ⟨h1, h2⟩ | ⟨-, h1⟩ <;>
      rcases hchild q' k hq' with ⟨h1', h2'⟩ | ⟨-, h1'⟩
    · rw [h1, h1']
    · exact absurd (h2 ▸ h1') (hold q')
    · exact absurd (h2' ▸ h1) (hold q)
    · exact hinv.one q q' k h1 h1'
  · by_cases hij : i = j
    · subst hij
      simp [hst', hborn]
    · rw [hother i hij] at hi
      have := hinv.born_lt i hi
      simp only [hst', Function.update_of_ne hij]
      omega
  · by_cases hij : i = j <;> by_cases hkj : k = j
    · rw [hij, hkj]
    · subst hij
      rw [hother k hkj] at hk
      have := hinv.born_lt k hk
      simp [hst', hborn, hkj] at hik
      omega
    · subst hkj
      rw [hother i hij] at hi
      have := hinv.born_lt i hi
      simp [hst', hborn, hij] at hik
      omega
    · rw [hother i hij] at hi
      rw [hother k hkj] at hk
      refine hinv.born_inj i k hi hk ?_
      simpa [hst', hij, hkj] using hik

/-- A slot that no one refers to is freed. -/
theorem LifeInv.free {n : ℕ} {pc : ℕ → LifePc} (hinv : LifeInv r st)
    (hj : st.phase j = .unused ∨ st.phase j = .zombie)
    (hpc : ∀ p, pc p = st.pc p ∨ (pc p).child = none) :
    LifeInv r { st with
      slot := Function.update st.slot j (st.slot j).free, pc := pc, nextpid := n } := by
  set st' : LifeState := { st with
    slot := Function.update st.slot j (st.slot j).free, pc := pc, nextpid := n } with hst'
  have hself : st'.phase j = .unused := by
    simp [hst', LifeState.phase, PSlot.free, RunState.phase]
  have hother : ∀ i, i ≠ j → st'.phase i = st.phase i := fun i hi => by
    simp [hst', LifeState.phase, hi]
  have hslot : ∀ i, i ≠ j → st'.slot i = st.slot i := fun i hi => by simp [hst', hi]
  have hparent : ∀ i q, (st'.slot i).parent = some q → (st.slot i).parent = some q := by
    intro i q hq
    by_cases hij : i = j
    · subst hij
      simp [hst', PSlot.free] at hq
    · rwa [hslot i hij] at hq
  have hne : ∀ i, st.phase i = .live ∨ st.phase i = .used → i ≠ j := by
    rintro i hi rfl
    rcases hj with hj | hj <;> simp [hj] at hi
  have hchild : ∀ p k, (st'.pc p).child = some k → (st.pc p).child = some k := by
    intro p k hk
    rcases hpc p with hp | hp
    · simpa [hst', hp] using hk
    · simp [hst', hp] at hk
  have hused : ∀ i, st'.phase i ≠ .unused → i ≠ j ∧ st.phase i ≠ .unused := by
    intro i hi
    have hij : i ≠ j := by
      rintro rfl
      exact hi hself
    exact ⟨hij, hother i hij ▸ hi⟩
  refine ⟨fun i hi => ?_, fun i hi => ?_, fun i q hq => ?_, fun i hi => ?_, fun q k hk => ?_,
    fun q k hk => ?_, fun q q' k hq hq' => hinv.one q q' k (hchild q k hq) (hchild q' k hq'),
    fun i hi => ?_, fun i k hi hk hik => ?_⟩
  · by_cases hij : i = j
    · subst hij
      exact ⟨hself, by simp [hst', PSlot.free]⟩
    · rw [hother i hij, hslot i hij]
      exact hinv.bound i hi
  · have hl := hinv.root i hi
    rw [hother i (hne i (Or.inl hl))]
    exact hl
  · have hl := hinv.parent i q (hparent i q hq)
    rw [hother q (hne q (Or.inl hl))]
    exact hl
  · by_cases hij : i = j
    · subst hij
      exact Or.inl hself
    · rw [hslot i hij] at hi
      rw [hother i hij]
      exact hinv.orphan i hi
  · obtain ⟨h1, h2⟩ := hinv.child q k (hchild q k hk)
    rw [hother q (hne q (Or.inl h1)), hother k (hne k (Or.inr h2))]
    exact ⟨h1, h2⟩
  · rcases hpc q with hq | hq
    · have hk' : st.pc q = .forked k := by rw [← hq]; exact hk
      have hkj := hne k (Or.inr (hinv.child q k (by rw [hk']; rfl)).2)
      rw [hslot k hkj]
      exact hinv.named q k hk'
    · have hk' : pc q = .forked k := hk
      rw [hk'] at hq
      exact absurd hq (by simp [LifePc.child])
  · obtain ⟨hij, hu⟩ := hused i hi
    rw [hslot i hij]
    exact hinv.born_lt i hu
  · obtain ⟨hij, hu⟩ := hused i hi
    obtain ⟨hkj, hv⟩ := hused k hk
    rw [hslot i hij, hslot k hkj] at hik
    exact hinv.born_inj i k hu hv hik

/-- The child `j` of `p` goes on : it gets its parent, or it becomes runnable. -/
theorem LifeInv.goOn {s : PSlot} {c : LifePc} {pc : ℕ → LifePc} (hinv : LifeInv r st)
    (hpc : (st.pc p).child = some j) (hs : s.state.phase = .used ∨ s.state.phase = .live)
    (hpar : s.parent = some p) (hborn : s.born = (st.slot j).born)
    (hc : c.child = none ∨ (c = .forked j ∧ s.state.phase = .used))
    (hself : pc p = c) (hother : ∀ q, q ≠ p → pc q = st.pc q ∨ (pc q).child = none) :
    LifeInv r { st with slot := Function.update st.slot j s, pc := pc } := by
  set st' : LifeState := { st with slot := Function.update st.slot j s, pc := pc } with hst'
  obtain ⟨hp, hj⟩ := hinv.child p j hpc
  have hphj : st'.phase j = s.state.phase := by simp [hst', LifeState.phase]
  have hph : ∀ i, i ≠ j → st'.phase i = st.phase i := fun i hi => by
    simp [hst', LifeState.phase, hi]
  have hslot : ∀ i, i ≠ j → st'.slot i = st.slot i := fun i hi => by simp [hst', hi]
  have hslotj : st'.slot j = s := by simp [hst']
  have hlive : ∀ i, st.phase i = .live → st'.phase i = .live := by
    intro i hi
    rw [hph i ?_, hi]
    rintro rfl
    exact absurd (hi.symm.trans hj) ProcState.noConfusion
  have hchild : ∀ q k, (st'.pc q).child = some k → (st.pc q).child = some k := by
    intro q k hk
    have hk' : (pc q).child = some k := hk
    by_cases hqp : q = p
    · subst hqp
      rw [hself] at hk'
      rcases hc with hc | ⟨rfl, -⟩
      · rw [hc] at hk'
        exact absurd hk' (by simp)
      · rw [hpc]
        exact hk'
    · rcases hother q hqp with hq | hq
      · rwa [hq] at hk'
      · rw [hq] at hk'
        exact absurd hk' (by simp)
  have hphne : st'.phase j ≠ .unused := by
    rw [hphj]
    rcases hs with hs | hs <;> rw [hs] <;> exact ProcState.noConfusion
  refine ⟨fun i hi => ?_, fun i hi => hlive i (hinv.root i hi), fun i q hq => ?_, fun i hi => ?_,
    fun q k hk => ?_, fun q k hk => ?_,
    fun q q' k hq hq' => hinv.one q q' k (hchild q k hq) (hchild q' k hq'), fun i hi => ?_,
    fun i k hi hk hik => ?_⟩
  · have hij : i ≠ j := by
      rintro rfl
      exact absurd ((hinv.bound i hi).1.symm.trans hj) ProcState.noConfusion
    rw [hph i hij, hslot i hij]
    exact hinv.bound i hi
  · by_cases hij : i = j
    · subst hij
      rw [hslotj, hpar] at hq
      obtain rfl := Option.some.inj hq
      exact hlive p hp
    · rw [hslot i hij] at hq
      exact hlive q (hinv.parent i q hq)
  · by_cases hij : i = j
    · subst hij
      rw [hslotj, hpar] at hi
      exact absurd hi (by simp)
    · rw [hslot i hij] at hi
      rw [hph i hij]
      exact hinv.orphan i hi
  · obtain ⟨h1, h2⟩ := hinv.child q k (hchild q k hk)
    refine ⟨hlive q h1, ?_⟩
    by_cases hkj : k = j
    · -- only `p` refers to `j`
      subst hkj
      obtain rfl := hinv.one q p k (hchild q k hk) hpc
      have hk' : (pc q).child = some k := hk
      rw [hself] at hk'
      rcases hc with hc | ⟨-, hu⟩
      · rw [hc] at hk'
        exact absurd hk' (by simp)
      · rw [hphj, hu]
    · rw [hph k hkj, h2]
  · have hk' : pc q = .forked k := hk
    have hold := hchild q k (by rw [hk]; rfl)
    by_cases hkj : k = j
    · subst hkj
      obtain rfl := hinv.one q p k hold hpc
      rw [hslotj, hpar]
    · rw [hslot k hkj]
      have hqp : q ≠ p := by
        rintro rfl
        exact hkj (Option.some.inj (hold.symm.trans hpc))
      rcases hother q hqp with hq | hq
      · exact hinv.named q k (hq ▸ hk')
      · rw [hk'] at hq
        exact absurd hq (by simp [LifePc.child])
  · by_cases hij : i = j
    · subst hij
      rw [hslotj, hborn]
      exact hinv.born_lt i (by rw [hj]; exact ProcState.noConfusion)
    · rw [hph i hij] at hi
      rw [hslot i hij]
      exact hinv.born_lt i hi
  · have hbn : ∀ i, (st'.slot i).born = (st.slot i).born := by
      intro i
      by_cases hij : i = j
      · subst hij
        rw [hslotj, hborn]
      · rw [hslot i hij]
    have hun : ∀ i, st'.phase i ≠ .unused → st.phase i ≠ .unused := by
      intro i hi
      by_cases hij : i = j
      · subst hij
        rw [hj]
        exact ProcState.noConfusion
      · rwa [hph i hij] at hi
    rw [hbn, hbn] at hik
    exact hinv.born_inj i k (hun i hi) (hun k hk) hik

/-- What `kexit` of `p` leaves. -/
structure ExitPost (r : Roots) (p : ℕ) (status : ℤ) (st st' : LifeState) : Prop where
  self : (st'.slot p).state = .zombie ∧ (st'.slot p).xstate = status ∧
    (st'.slot p).pid = (st.slot p).pid
  other : ∀ k, k ≠ p → st'.phase k = st.phase k ∧ (st'.slot k).xstate = (st.slot k).xstate ∧
    (st'.slot k).pid = (st.slot k).pid
  born : ∀ k, (st'.slot k).born = (st.slot k).born
  parent : ∀ k q, (st'.slot k).parent = some q →
    ((st.slot k).parent = some p ∧ q = r.initproc) ∨ (q ≠ p ∧ (st.slot k).parent = some q)
  kept : ∀ k q, q ≠ p → (st.slot k).parent = some q → (st'.slot k).parent = some q
  none : ∀ k, (st'.slot k).parent = none ↔ (st.slot k).parent = none
  pc : st'.pc = st.pc
  births : st'.births = st.births

theorem orphaned_parent (me initproc q : ℕ) (s : PSlot) :
    ((s.orphaned me initproc).parent = some q →
      (s.parent = some me ∧ q = initproc) ∨ (q ≠ me ∧ s.parent = some q)) ∧
    (q ≠ me → s.parent = some q → (s.orphaned me initproc).parent = some q) ∧
    ((s.orphaned me initproc).parent = none ↔ s.parent = none) := by
  unfold PSlot.orphaned
  split_ifs with hp
  · refine ⟨fun hq => Or.inl ⟨hp, (Option.some.inj hq).symm⟩, fun hq hs => ?_, by simp [hp]⟩
    exact absurd (Option.some.inj (hs.symm.trans hp)) hq
  · refine ⟨fun hq => Or.inr ⟨?_, hq⟩, fun _ hs => hs, Iff.rfl⟩
    rintro rfl
    exact hp hq

theorem kexit_post (hinv : LifeInv r st) (hlt : p < nProc) (status : ℤ) :
    ExitPost r p status st { st with slot := kexitTable p r.initproc status st.slot } := by
  have hfields : ∀ k, (kexitTable p r.initproc status st.slot k).born = (st.slot k).born ∧
      (kexitTable p r.initproc status st.slot k).pid = (st.slot k).pid ∧
      (k < nProc → (kexitTable p r.initproc status st.slot k).parent =
        ((st.slot k).orphaned p r.initproc).parent) ∧
      (k ≠ p → (kexitTable p r.initproc status st.slot k).state.phase = st.phase k ∧
        (kexitTable p r.initproc status st.slot k).xstate = (st.slot k).xstate) := by
    intro k
    by_cases hk : k < nProc
    · have hl := kexitTable_like p r.initproc status st.slot hk
      have ho : ∀ s : PSlot, (s.orphaned p r.initproc).born = s.born ∧
          (s.orphaned p r.initproc).pid = s.pid ∧ (s.orphaned p r.initproc).state = s.state ∧
          (s.orphaned p r.initproc).xstate = s.xstate := by
        intro s
        unfold PSlot.orphaned
        split_ifs <;> exact ⟨rfl, rfl, rfl, rfl⟩
      obtain ⟨h1, h2, h3, h4⟩ := ho (st.slot k)
      by_cases hkp : k = p
      · rw [if_pos hkp] at hl
        exact ⟨hl.born.trans h1, hl.pid.trans h2, fun _ => hl.parent, fun hc => absurd hkp hc⟩
      · rw [if_neg hkp] at hl
        refine ⟨hl.born.trans h1, hl.pid.trans h2, fun _ => hl.parent, fun _ => ⟨?_, ?_⟩⟩
        · rw [hl.phase, h3]
          rfl
        · rw [hl.xstate, h4]
    · have hl := kexitTable_beyond r.initproc status st.slot (not_lt.1 hk) hlt
      exact ⟨hl.born, hl.pid, fun hc => absurd hc hk, fun _ => ⟨hl.phase, hl.xstate⟩⟩
  have hbeyond : ∀ k, nProc ≤ k → (kexitTable p r.initproc status st.slot k).parent = none :=
    fun k hk => (kexitTable_beyond _ _ _ hk hlt).parent.trans (hinv.bound k hk).2
  refine ⟨⟨?_, ?_, (hfields p).2.1⟩, fun k hk => ⟨((hfields k).2.2.2 hk).1,
    ((hfields k).2.2.2 hk).2, (hfields k).2.1⟩, fun k => (hfields k).1, fun k q hq => ?_,
    fun k q hqp hq => ?_, fun k => ?_, rfl, rfl⟩
  · simp [kexitTable]
  · simp [kexitTable]
  · by_cases hk : k < nProc
    · rw [(hfields k).2.2.1 hk] at hq
      exact (orphaned_parent p r.initproc q (st.slot k)).1 hq
    · rw [hbeyond k (not_lt.1 hk)] at hq
      exact absurd hq (by simp)
  · by_cases hk : k < nProc
    · rw [(hfields k).2.2.1 hk]
      exact (orphaned_parent p r.initproc q (st.slot k)).2.1 hqp hq
    · rw [(hinv.bound k (not_lt.1 hk)).2] at hq
      exact absurd hq (by simp)
  · by_cases hk : k < nProc
    · rw [(hfields k).2.2.1 hk]
      exact (orphaned_parent p r.initproc 0 (st.slot k)).2.2
    · exact iff_of_true (hbeyond k (not_lt.1 hk)) (hinv.bound k (not_lt.1 hk)).2

theorem LifeInv.exit {status : ℤ} (hinv : LifeInv r st) (hx : ExitPost r p status st st')
    (hp : st.phase p = .live) (hroot : ¬r.Root p) (hpc : st.pc p = .user) : LifeInv r st' := by
  have hself : st'.phase p = .zombie := phase_zombie_iff.2 hx.self.1
  have hlive : ∀ q, q ≠ p → st.phase q = .live → st'.phase q = .live := fun q hq hl =>
    (hx.other q hq).1.trans hl
  have hinit : st'.phase r.initproc = .live :=
    hlive _ (fun hc => hroot (Or.inl hc.symm)) (hinv.root _ (Or.inl rfl))
  have hunused : ∀ i, st'.phase i ≠ .unused → st.phase i ≠ .unused := by
    intro i hi
    by_cases hip : i = p
    · rw [hip, hp]
      exact ProcState.noConfusion
    · rwa [(hx.other i hip).1] at hi
  have hchild : ∀ q k, (st.pc q).child = some k → q ≠ p ∧ k ≠ p := by
    intro q k hk
    constructor
    · rintro rfl
      rw [hpc] at hk
      exact absurd hk (by simp [LifePc.child])
    · rintro rfl
      exact absurd ((hinv.child q k hk).2.symm.trans hp) ProcState.noConfusion
  refine ⟨fun i hi => ?_, fun i hi => ?_, fun i q hq => ?_, fun i hi => ?_, fun q k hk => ?_,
    fun q k hk => ?_, fun q q' k hq hq' => ?_, fun i hi => ?_, fun i k hi hk hik => ?_⟩
  · obtain ⟨h1, h2⟩ := hinv.bound i hi
    have hip : i ≠ p := by
      rintro rfl
      exact absurd (h1.symm.trans hp) ProcState.noConfusion
    exact ⟨(hx.other i hip).1.trans h1, (hx.none i).2 h2⟩
  · exact hlive i (fun hc => hroot (hc ▸ hi)) (hinv.root i hi)
  · rcases hx.parent i q hq with ⟨-, rfl⟩ | ⟨hqp, hq⟩
    · exact hinit
    · exact hlive q hqp (hinv.parent i q hq)
  · have hold := hinv.orphan i ((hx.none i).1 hi)
    by_cases hip : i = p
    · subst hip
      rw [hp] at hold
      rcases hold with hc | hc | hc
      · exact absurd hc ProcState.noConfusion
      · exact absurd hc ProcState.noConfusion
      · exact absurd hc hroot
    · rw [(hx.other i hip).1]
      exact hold
  · rw [hx.pc] at hk
    obtain ⟨h1, h2⟩ := hinv.child q k hk
    obtain ⟨hq, hkp⟩ := hchild q k hk
    exact ⟨hlive q hq h1, (hx.other k hkp).1.trans h2⟩
  · rw [hx.pc] at hk
    exact hx.kept k q (hchild q k (by rw [hk]; rfl)).1 (hinv.named q k hk)
  · rw [hx.pc] at hq hq'
    exact hinv.one q q' k hq hq'
  · rw [hx.born, hx.births]
    exact hinv.born_lt i (hunused i hi)
  · rw [hx.born, hx.born] at hik
    exact hinv.born_inj i k (hunused i hi) (hunused k hk) hik

end Life

end Xv6Plus
