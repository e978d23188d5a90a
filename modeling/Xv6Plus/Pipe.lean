import Xv6Plus.Steps

/-!
# Pipes : `kernel/pipe.c`

Any number of processes read and write one pipe. A round of the loop of `pipewrite`, or of one
of the loops of `piperead`, is one step of the process that holds `pi->lock`, so that a signal
can come between two rounds. `sleep` gives the lock back; a process that is woken up competes
for it again. A process inside a call has a descriptor of that end open, so the end is closed
only when no process is inside such a call.
-/

namespace Xv6Plus

abbrev pipeSize : ℕ := 512

/-- `struct pipe`; `nread` and `nwrite` are 32-bit counters. -/
structure Pipe where
  data : ℕ → UInt8
  nread : ℕ
  nwrite : ℕ
  readopen : Bool
  writeopen : Bool

/-- The addresses that processes sleep on. -/
inductive Chan
  | nread
  | nwrite
  deriving DecidableEq

/-- Where a process is. The counters `n` and `i` are the locals of the calls. -/
inductive PipePc
  | outside
  /-- In `pipewrite`, before it has the lock, at first or after `sleep`. -/
  | wantsWrite (n : ℤ) (i : ℕ)
  /-- In `pipewrite`, at the head of the loop. -/
  | writes (n : ℤ) (i : ℕ)
  /-- In `pipewrite`, asleep on `&pi->nwrite`. -/
  | sleepsFull (n : ℤ) (i : ℕ)
  /-- In `piperead`, before it has the lock, at first or after `sleep`. -/
  | wantsRead (n : ℤ)
  /-- In `piperead`, at the head of the first loop. -/
  | waits (n : ℤ)
  /-- In `piperead`, asleep on `&pi->nread`. -/
  | sleepsEmpty (n : ℤ)
  /-- In `piperead`, at the head of the second loop. -/
  | copies (n : ℤ) (i : ℕ)
  deriving DecidableEq

/-- How a round ends : in the next round, in `sleep`, or in a return. -/
inductive Round
  | next (pc : PipePc)
  | sleep (pc : PipePc)
  | ret (r : ℤ)

inductive PipeEvent
  /-- The process calls `pipewrite`. -/
  | writeCall (p : ℕ)
  /-- A byte is put into the pipe. -/
  | put (p : ℕ) (ch : UInt8)
  /-- `pipewrite` returns. -/
  | writeRet (p : ℕ) (r : ℤ)
  /-- A byte is handed to the reader. -/
  | take (p : ℕ) (ch : UInt8)
  /-- `piperead` returns. -/
  | readRet (p : ℕ) (r : ℤ)
  /-- `copyin` or `copyout` has failed. -/
  | fault (p : ℕ)
  /-- `kkill` of the process, with `SIGKILL` or another signal. -/
  | kill (p : ℕ) (sigkill : Bool)
  | other

namespace Pipe

/-- A round of the loop of `pipewrite` : the pipe, the channel that is woken up, and how the
round ends. `copyin` is the byte that `copyin` gets, or `none` if it fails. -/
def writeRound (pi : Pipe) (killed : Bool) (n : ℤ) (i : ℕ) (copyin : Option UInt8) :
    Pipe × Option Chan × Round :=
  if (i : ℤ) < n then
    if pi.readopen = false ∨ killed = true then (pi, none, .ret (-1))
    else if pi.nwrite = (pi.nread + pipeSize) % 2 ^ 32 then
      (pi, some .nread, .sleep (.sleepsFull n i))
    else match copyin with
      | none => (pi, some .nread, .ret i)
      | some ch => ({ pi with
          data := Function.update pi.data (pi.nwrite % pipeSize) ch
          nwrite := (pi.nwrite + 1) % 2 ^ 32 }, none, .next (.writes n (i + 1)))
  else (pi, some .nread, .ret i)

/-- A round of the first loop of `piperead`, or the way on to the second one. -/
def waitRound (pi : Pipe) (killed : Bool) (n : ℤ) : Pipe × Option Chan × Round :=
  if pi.nread = pi.nwrite ∧ pi.writeopen = true then
    if killed = true then (pi, none, .ret (-1)) else (pi, none, .sleep (.sleepsEmpty n))
  else (pi, none, .next (.copies n 0))

/-- A round of the second loop of `piperead`; `copyout` tells whether `copyout` succeeds. -/
def copyRound (pi : Pipe) (n : ℤ) (i : ℕ) (copyout : Bool) : Pipe × Option Chan × Round :=
  if (i : ℤ) < n ∧ pi.nread ≠ pi.nwrite then
    let pi' := { pi with nread := (pi.nread + 1) % 2 ^ 32 }
    if copyout = true then (pi', none, .next (.copies n (i + 1)))
    else (pi', some .nwrite, .ret i)
  else (pi, some .nwrite, .ret i)

def pipeclose (pi : Pipe) (writable : Bool) : Pipe × Chan :=
  if writable = true then ({ pi with writeopen := false }, .nread)
  else ({ pi with readopen := false }, .nwrite)

end Pipe

/-- `wakeup`, for one process. -/
def PipePc.woken (c : Chan) : PipePc → PipePc
  | .sleepsFull n i => if c = .nwrite then .wantsWrite n i else .sleepsFull n i
  | .sleepsEmpty n => if c = .nread then .wantsRead n else .sleepsEmpty n
  | pc => pc

/-- The pipe and the processes that use it. -/
structure PipeState where
  pipe : Pipe
  /-- The holder of `pi->lock`. -/
  lock : Option ℕ
  pc : ℕ → PipePc
  killed : ℕ → Bool

namespace PipeState

def wakeup (c : Option Chan) (pc : ℕ → PipePc) : ℕ → PipePc :=
  match c with
  | none => pc
  | some c => fun q => (pc q).woken c

/-- The holder `p` of the lock has done a round. -/
def after (st : PipeState) (p : ℕ) (r : Pipe × Option Chan × Round) : PipeState :=
  let pc := wakeup r.2.1 st.pc
  match r.2.2 with
  | .next c => { st with pipe := r.1, pc := Function.update pc p c }
  | .sleep c => { st with pipe := r.1, pc := Function.update pc p c, lock := none }
  | .ret _ => { st with pipe := r.1, pc := Function.update pc p .outside, lock := none }

end PipeState

/-- A process is inside `pipewrite`. -/
def PipePc.inWrite : PipePc → Bool
  | .wantsWrite .. | .writes .. | .sleepsFull .. => true
  | _ => false

/-- A process is inside `piperead`. -/
def PipePc.inRead : PipePc → Bool
  | .wantsRead _ | .waits _ | .sleepsEmpty _ | .copies .. => true
  | _ => false

/-- The event of a round of `pipewrite`. -/
def writeEvent (p : ℕ) (copyin : Option UInt8) : Round → PipeEvent
  | .next _ => .put p (copyin.getD 0)
  | .sleep _ => .other
  | .ret r => .writeRet p r

/-- `pipealloc` has made the pipe. -/
def PipeState.Init (st : PipeState) : Prop :=
  st.pipe.nread = 0 ∧ st.pipe.nwrite = 0 ∧ st.pipe.readopen = true ∧ st.pipe.writeopen = true ∧
    st.lock = none ∧ ∀ p, st.pc p = .outside

/-- Steps of the processes. -/
inductive PipeStep : PipeState → PipeEvent → PipeState → Prop
  | callWrite {st : PipeState} (p : ℕ) (n : ℤ) : st.pc p = .outside → st.pipe.writeopen = true →
      PipeStep st (.writeCall p) { st with pc := Function.update st.pc p (.wantsWrite n 0) }
  | callRead {st : PipeState} (p : ℕ) (n : ℤ) : st.pc p = .outside → st.pipe.readopen = true →
      PipeStep st .other { st with pc := Function.update st.pc p (.wantsRead n) }
  | lockWrite {st : PipeState} {p : ℕ} {n : ℤ} {i : ℕ} : st.pc p = .wantsWrite n i →
      st.lock = none →
      PipeStep st .other { st with pc := Function.update st.pc p (.writes n i), lock := some p }
  | lockRead {st : PipeState} {p : ℕ} {n : ℤ} : st.pc p = .wantsRead n → st.lock = none →
      PipeStep st .other { st with pc := Function.update st.pc p (.waits n), lock := some p }
  | write {st : PipeState} {p : ℕ} {n : ℤ} {i : ℕ} (ch : UInt8) : st.pc p = .writes n i →
      PipeStep st (writeEvent p (some ch)
          (st.pipe.writeRound (st.killed p) n i (some ch)).2.2)
        (st.after p (st.pipe.writeRound (st.killed p) n i (some ch)))
  /-- The round gets to `copyin`, which fails. -/
  | writeFault {st : PipeState} {p : ℕ} {n : ℤ} {i : ℕ} : st.pc p = .writes n i →
      (∃ c, (st.pipe.writeRound (st.killed p) n i (some 0)).2.2 = .next c) →
      PipeStep st (.fault p) (st.after p (st.pipe.writeRound (st.killed p) n i none))
  | wait {st : PipeState} {p : ℕ} {n : ℤ} : st.pc p = .waits n →
      PipeStep st (match (st.pipe.waitRound (st.killed p) n).2.2 with
          | .ret r => .readRet p r
          | _ => .other)
        (st.after p (st.pipe.waitRound (st.killed p) n))
  | copy {st : PipeState} {p : ℕ} {n : ℤ} {i : ℕ} : st.pc p = .copies n i →
      PipeStep st (match (st.pipe.copyRound n i true).2.2 with
          | .ret r => .readRet p r
          | _ => .take p (st.pipe.data (st.pipe.nread % pipeSize)))
        (st.after p (st.pipe.copyRound n i true))
  /-- The round gets to `copyout`, which fails. -/
  | copyFault {st : PipeState} {p : ℕ} {n : ℤ} {i : ℕ} : st.pc p = .copies n i →
      (∃ c, (st.pipe.copyRound n i true).2.2 = .next c) →
      PipeStep st (.fault p) (st.after p (st.pipe.copyRound n i false))
  | close {st : PipeState} (writable : Bool) : st.lock = none →
      (∀ p, (if writable then (st.pc p).inWrite else (st.pc p).inRead) = false) →
      PipeStep st .other { st with
        pipe := (st.pipe.pipeclose writable).1
        pc := PipeState.wakeup (some (st.pipe.pipeclose writable).2) st.pc }
  /-- `kkill` : a sleeping process wakes up. -/
  | kill {st : PipeState} (p : ℕ) (sigkill : Bool) :
      PipeStep st (.kill p sigkill) { st with
        killed := Function.update st.killed p (st.killed p || sigkill)
        pc := Function.update st.pc p (((st.pc p).woken .nread).woken .nwrite) }

/-! ## What a step can do -/

/-- A process has `pi->lock`. -/
def PipePc.holdsLock : PipePc → Bool
  | .writes .. | .waits _ | .copies .. => true
  | _ => false

section Woken

variable (c : Chan) (pc : PipePc) (n : ℤ) (i : ℕ)

@[simp] theorem holdsLock_woken : (pc.woken c).holdsLock = pc.holdsLock := by
  cases c <;> cases pc <;> rfl

@[simp] theorem inWrite_woken : (pc.woken c).inWrite = pc.inWrite := by
  cases c <;> cases pc <;> rfl

@[simp] theorem inRead_woken : (pc.woken c).inRead = pc.inRead := by
  cases c <;> cases pc <;> rfl

@[simp] theorem woken_eq_writes : pc.woken c = .writes n i ↔ pc = .writes n i := by
  cases c <;> cases pc <;> simp [PipePc.woken]

@[simp] theorem woken_eq_copies : pc.woken c = .copies n i ↔ pc = .copies n i := by
  cases c <;> cases pc <;> simp [PipePc.woken]

@[simp] theorem woken_eq_sleepsEmpty :
    pc.woken c = .sleepsEmpty n ↔ c ≠ .nread ∧ pc = .sleepsEmpty n := by
  cases c <;> cases pc <;> simp [PipePc.woken]

@[simp] theorem woken_eq_sleepsFull :
    pc.woken c = .sleepsFull n i ↔ c ≠ .nwrite ∧ pc = .sleepsFull n i := by
  cases c <;> cases pc <;> simp [PipePc.woken]

end Woken

/-- The pipe is full. -/
def Pipe.Full (pi : Pipe) : Prop := pi.nwrite = (pi.nread + pipeSize) % 2 ^ 32

/-- All that can happen, branch by branch. -/
inductive PipeMove (st : PipeState) : PipeEvent → PipeState → Prop
  | callWrite (p : ℕ) (n : ℤ) : st.pc p = .outside → st.pipe.writeopen = true →
      PipeMove st (.writeCall p) { st with pc := Function.update st.pc p (.wantsWrite n 0) }
  | callRead (p : ℕ) (n : ℤ) : st.pc p = .outside → st.pipe.readopen = true →
      PipeMove st .other { st with pc := Function.update st.pc p (.wantsRead n) }
  | lockWrite (p : ℕ) (n : ℤ) (i : ℕ) : st.pc p = .wantsWrite n i → st.lock = none →
      PipeMove st .other { st with pc := Function.update st.pc p (.writes n i), lock := some p }
  | lockRead (p : ℕ) (n : ℤ) : st.pc p = .wantsRead n → st.lock = none →
      PipeMove st .other { st with pc := Function.update st.pc p (.waits n), lock := some p }
  /-- `pipewrite` gives up. -/
  | gone (p : ℕ) (n : ℤ) (i : ℕ) : st.pc p = .writes n i →
      st.pipe.readopen = false ∨ st.killed p = true →
      PipeMove st (.writeRet p (-1))
        { st with pc := Function.update st.pc p .outside, lock := none }
  | full (p : ℕ) (n : ℤ) (i : ℕ) : st.pc p = .writes n i → st.pipe.readopen = true →
      st.pipe.Full →
      PipeMove st .other { st with
        pc := Function.update (fun q => (st.pc q).woken .nread) p (.sleepsFull n i), lock := none }
  | put (p : ℕ) (n : ℤ) (i : ℕ) (ch : UInt8) : st.pc p = .writes n i → st.killed p = false →
      ¬st.pipe.Full →
      PipeMove st (.put p ch) { st with
        pipe := { st.pipe with
          data := Function.update st.pipe.data (st.pipe.nwrite % pipeSize) ch
          nwrite := (st.pipe.nwrite + 1) % 2 ^ 32 }
        pc := Function.update st.pc p (.writes n (i + 1)) }
  | wrote (p : ℕ) (n : ℤ) (i : ℕ) (e : PipeEvent) : st.pc p = .writes n i →
      e = .writeRet p i ∨ e = .fault p →
      PipeMove st e { st with
        pc := Function.update (fun q => (st.pc q).woken .nread) p .outside, lock := none }
  | quit (p : ℕ) (n : ℤ) : st.pc p = .waits n → st.pipe.nread = st.pipe.nwrite →
      PipeMove st (.readRet p (-1))
        { st with pc := Function.update st.pc p .outside, lock := none }
  | empty (p : ℕ) (n : ℤ) : st.pc p = .waits n → st.pipe.nread = st.pipe.nwrite →
      st.pipe.writeopen = true →
      PipeMove st .other
        { st with pc := Function.update st.pc p (.sleepsEmpty n), lock := none }
  | start (p : ℕ) (n : ℤ) : st.pc p = .waits n →
      PipeMove st .other { st with pc := Function.update st.pc p (.copies n 0) }
  | take (p : ℕ) (n : ℤ) (i : ℕ) : st.pc p = .copies n i → st.pipe.nread ≠ st.pipe.nwrite →
      PipeMove st (.take p (st.pipe.data (st.pipe.nread % pipeSize))) { st with
        pipe := { st.pipe with nread := (st.pipe.nread + 1) % 2 ^ 32 }
        pc := Function.update st.pc p (.copies n (i + 1)) }
  | lose (p : ℕ) (n : ℤ) (i : ℕ) : st.pc p = .copies n i → st.pipe.nread ≠ st.pipe.nwrite →
      PipeMove st (.fault p) { st with
        pipe := { st.pipe with nread := (st.pipe.nread + 1) % 2 ^ 32 }
        pc := Function.update (fun q => (st.pc q).woken .nwrite) p .outside
        lock := none }
  | copied (p : ℕ) (n : ℤ) (i : ℕ) : st.pc p = .copies n i →
      PipeMove st (.readRet p i) { st with
        pc := Function.update (fun q => (st.pc q).woken .nwrite) p .outside, lock := none }
  | closeWrite : st.lock = none → (∀ p, (st.pc p).inWrite = false) →
      PipeMove st .other { st with
        pipe := { st.pipe with writeopen := false }, pc := fun q => (st.pc q).woken .nread }
  | closeRead : st.lock = none → (∀ p, (st.pc p).inRead = false) →
      PipeMove st .other { st with
        pipe := { st.pipe with readopen := false }, pc := fun q => (st.pc q).woken .nwrite }
  | kill (p : ℕ) (sigkill : Bool) :
      PipeMove st (.kill p sigkill) { st with
        killed := Function.update st.killed p (st.killed p || sigkill)
        pc := Function.update st.pc p (((st.pc p).woken .nread).woken .nwrite) }

section Moves

variable {st st' : PipeState} {e : PipeEvent} {p : ℕ} {n : ℤ} {i : ℕ}

theorem writeRound_move (ch : UInt8) (hpc : st.pc p = .writes n i) :
    PipeMove st (writeEvent p (some ch) (st.pipe.writeRound (st.killed p) n i (some ch)).2.2)
      (st.after p (st.pipe.writeRound (st.killed p) n i (some ch))) := by
  unfold Pipe.writeRound
  by_cases hin : (i : ℤ) < n
  · rw [if_pos hin]
    by_cases hgone : st.pipe.readopen = false ∨ st.killed p = true
    · rw [if_pos hgone]
      exact .gone p n i hpc hgone
    rw [if_neg hgone]
    rw [not_or, Bool.not_eq_false, Bool.not_eq_true] at hgone
    by_cases hfull : st.pipe.nwrite = (st.pipe.nread + pipeSize) % 2 ^ 32
    · rw [if_pos hfull]
      exact .full p n i hpc hgone.1 hfull
    · rw [if_neg hfull]
      exact .put p n i ch hpc hgone.2 hfull
  · rw [if_neg hin]
    exact .wrote p n i _ hpc (Or.inl rfl)

theorem writeRound_fault (hpc : st.pc p = .writes n i)
    (hc : ∃ c, (st.pipe.writeRound (st.killed p) n i (some 0)).2.2 = .next c) :
    PipeMove st (.fault p) (st.after p (st.pipe.writeRound (st.killed p) n i none)) := by
  obtain ⟨c, hc⟩ := hc
  unfold Pipe.writeRound at hc ⊢
  by_cases hin : (i : ℤ) < n
  · rw [if_pos hin] at hc ⊢
    by_cases hgone : st.pipe.readopen = false ∨ st.killed p = true
    · rw [if_pos hgone] at hc
      exact absurd hc Round.noConfusion
    rw [if_neg hgone] at hc ⊢
    by_cases hfull : st.pipe.nwrite = (st.pipe.nread + pipeSize) % 2 ^ 32
    · rw [if_pos hfull] at hc
      exact absurd hc Round.noConfusion
    · rw [if_neg hfull]
      exact .wrote p n i _ hpc (Or.inr rfl)
  · rw [if_neg hin] at hc
    exact absurd hc Round.noConfusion

theorem waitRound_move (hpc : st.pc p = .waits n) :
    PipeMove st (match (st.pipe.waitRound (st.killed p) n).2.2 with
        | .ret r => .readRet p r
        | _ => .other)
      (st.after p (st.pipe.waitRound (st.killed p) n)) := by
  unfold Pipe.waitRound
  by_cases hempty : st.pipe.nread = st.pipe.nwrite ∧ st.pipe.writeopen = true
  · rw [if_pos hempty]
    by_cases hk : st.killed p = true
    · rw [if_pos hk]
      exact .quit p n hpc hempty.1
    · rw [if_neg hk]
      exact .empty p n hpc hempty.1 hempty.2
  · rw [if_neg hempty]
    exact .start p n hpc

theorem copyRound_move (hpc : st.pc p = .copies n i) :
    PipeMove st (match (st.pipe.copyRound n i true).2.2 with
        | .ret r => .readRet p r
        | _ => .take p (st.pipe.data (st.pipe.nread % pipeSize)))
      (st.after p (st.pipe.copyRound n i true)) := by
  unfold Pipe.copyRound
  by_cases hmore : (i : ℤ) < n ∧ st.pipe.nread ≠ st.pipe.nwrite
  · rw [if_pos hmore]
    exact .take p n i hpc hmore.2
  · rw [if_neg hmore]
    exact .copied p n i hpc

theorem copyRound_fault (hpc : st.pc p = .copies n i)
    (hc : ∃ c, (st.pipe.copyRound n i true).2.2 = .next c) :
    PipeMove st (.fault p) (st.after p (st.pipe.copyRound n i false)) := by
  obtain ⟨c, hc⟩ := hc
  unfold Pipe.copyRound at hc ⊢
  by_cases hmore : (i : ℤ) < n ∧ st.pipe.nread ≠ st.pipe.nwrite
  · rw [if_pos hmore]
    exact .lose p n i hpc hmore.2
  · rw [if_neg hmore] at hc
    exact absurd hc Round.noConfusion

theorem PipeStep.move (hs : PipeStep st e st') : PipeMove st e st' := by
  cases hs with
  | callWrite p n hp ho => exact .callWrite p n hp ho
  | callRead p n hp ho => exact .callRead p n hp ho
  | lockWrite hp hl => exact .lockWrite _ _ _ hp hl
  | lockRead hp hl => exact .lockRead _ _ hp hl
  | write ch hp => exact writeRound_move ch hp
  | writeFault hp hc => exact writeRound_fault hp hc
  | wait hp => exact waitRound_move hp
  | copy hp => exact copyRound_move hp
  | copyFault hp hc => exact copyRound_fault hp hc
  | close writable hl hout =>
    cases writable with
    | false => exact .closeRead hl hout
    | true => exact .closeWrite hl hout
  | kill p sigkill => exact .kill p sigkill

end Moves

/-- A new pipe. -/
def newPipe : PipeState := ⟨⟨fun _ => 0, 0, 0, true, true⟩, none, fun _ => .outside, fun _ => false⟩

theorem newPipe_init : newPipe.Init := ⟨rfl, rfl, rfl, rfl, rfl, fun _ => rfl⟩

end Xv6Plus
