import Xv6Plus.Layout
import Xv6Plus.Steps

/-!
# Interrupts, spin locks and context switches

The code of `kernel/spinlock.c` and of `scheduler`, `sched`, `yield` and `sleep` in
`kernel/proc.c`, cut into instructions. Each hart runs its scheduler or a kernel thread; what
either has still to do of the calls it is in is a list of instructions. An interrupt can come
between any two of them while interrupts are on, and puts the handler in front.

Two steps of the source are one instruction where nobody else can tell : what `push_off` does
after `intr_off`, as only its hart reads `noff` and `intena`, and the writes of `lk->locked` and
`lk->cpu`, as other harts only ask whether `lk->cpu` is theirs.

`Safe` checks a list of instructions : it follows how many `push_off`s are unmatched and which
locks are held, and asks at every instruction for what keeps it from panicking.
-/

namespace Xv6Plus

/-! ## The code -/

/-- A spin lock : that of a process, or another one. -/
inductive LockId
  | proc (t : ℕ)
  | other (i : ℕ)
  deriving DecidableEq, Repr

/-- What can run on a hart : its `scheduler`, or a kernel thread. -/
inductive Ctx
  | sched (k : ℕ)
  | thread (t : ℕ)
  deriving DecidableEq, Repr

inductive Instr
  /-- `int old = intr_get()` in `push_off`. -/
  | pushOff
  /-- The rest of `push_off`. -/
  | pushOff1 (old : Bool)
  | popOff
  /-- `acquire` after `push_off`. -/
  | take (lk : LockId)
  /-- `release` before `pop_off`. -/
  | free (lk : LockId)
  /-- `p->state = s`, for the process itself. -/
  | setState (s : RunState)
  /-- `sched` up to `swtch`. -/
  | swtch
  /-- `mycpu()->intena = intena` after `swtch`. -/
  | setIntena (b : Bool)
  /-- `wakeup` has the lock of a process. -/
  | wake (t : ℕ)
  | intrOn
  | intrOff
  /-- The end of `kerneltrap`. -/
  | sret
  /-- The loop of `scheduler`, at process `i`. -/
  | scan (i : ℕ)
  /-- `scheduler` has the lock of process `i`. -/
  | dispatch (i : ℕ)
  deriving DecidableEq, Repr

def acquire (lk : LockId) : List Instr := [.pushOff, .take lk]

def release (lk : LockId) : List Instr := [.free lk, .popOff]

def myproc : List Instr := [.pushOff, .popOff]

def sched : List Instr := myproc ++ [.swtch]

def yield (t : ℕ) : List Instr :=
  myproc ++ acquire (.proc t) ++ [.setState .runnable] ++ sched ++ release (.proc t)

def sleep (t : ℕ) (lk : LockId) : List Instr :=
  myproc ++ acquire (.proc t) ++ release lk ++ [.setState .sleeping] ++ sched ++
    release (.proc t) ++ acquire lk

/-- `wakeup`, for the process `t`. -/
def wakeup (t : ℕ) : List Instr := myproc ++ acquire (.proc t) ++ [.wake t] ++ release (.proc t)

/-- `kthread_entry` and `forkret`, up to the release of the lock that `scheduler` has taken. -/
def kthreadEntry (t : ℕ) : List Instr := myproc ++ release (.proc t)

/-- A pass of `scheduler` over the processes. -/
def schedulerPass : List Instr := [.intrOn, .intrOff, .scan 0]

/-- `struct cpu`, and whether interrupts are on. -/
structure Hart where
  sie : Bool
  noff : ℕ
  intena : Bool
  /-- `c->proc`, the thread that runs on the hart. -/
  proc : Option ℕ

structure CtxState where
  code : List Instr
  /-- How many of its `push_off`s are unmatched. -/
  depth : ℕ
  /-- The locks it holds. -/
  held : Finset LockId

structure HartsState where
  hart : ℕ → Hart
  ctx : Ctx → CtxState
  state : ℕ → RunState
  /-- The hart that holds a lock. -/
  lock : LockId → Option ℕ
  panic : Option String

inductive HartEvent
  /-- A `push_off`; interrupts were on or off before it. -/
  | push (c : Ctx) (old : Bool)
  /-- A `pop_off`; interrupts are on or off after it. -/
  | pop (c : Ctx) (sie : Bool)
  | intrOn (c : Ctx)
  | intrOff (c : Ctx)
  | other
  deriving DecidableEq, Repr

namespace HartsState

/-- What runs on the hart `k`. -/
def cur (st : HartsState) (k : ℕ) : Ctx :=
  match (st.hart k).proc with
  | none => .sched k
  | some t => .thread t

/-- The hart `k` and what runs on it have changed. -/
def put (st : HartsState) (k : ℕ) (hart : Hart) (c : Ctx) (cs : CtxState) : HartsState :=
  { st with hart := Function.update st.hart k hart, ctx := Function.update st.ctx c cs }

def panics (st : HartsState) (msg : String) : HartsState := { st with panic := some msg }

def setLock (st : HartsState) (lk : LockId) (o : Option ℕ) : HartsState :=
  { st with lock := Function.update st.lock lk o }

def setState (st : HartsState) (t : ℕ) (s : RunState) : HartsState :=
  { st with state := Function.update st.state t s }

end HartsState

def HartsState.popOff (st : HartsState) (k : ℕ) (c : Ctx) (cs : CtxState) :
    HartEvent × HartsState :=
  let hart := st.hart k
  if hart.sie = true then (.other, st.panics "pop_off - interruptible")
  else if hart.noff < 1 then (.other, st.panics "pop_off")
  else
    let sie := decide (hart.noff - 1 = 0) && hart.intena
    (.pop c sie, st.put k { hart with noff := hart.noff - 1, sie := sie } c
      { cs with depth := cs.depth - 1 })

/-- `sched` by the thread `t`, up to `swtch` : the scheduler of the hart goes on. -/
def HartsState.swtch (st : HartsState) (k t : ℕ) (rest : List Instr) : HartsState :=
  let hart := st.hart k
  if st.lock (.proc t) ≠ some k then st.panics "sched p->lock"
  else if hart.noff ≠ 1 then st.panics "sched locks"
  else if st.state t = .running then st.panics "sched RUNNING"
  else if hart.sie = true then st.panics "sched interruptible"
  else { st with
    hart := Function.update st.hart k { hart with proc := none }
    ctx := Function.update
      (Function.update st.ctx (.thread t)
        { st.ctx (.thread t) with code := .setIntena hart.intena :: rest, held := ∅ })
      (.sched k) { st.ctx (.sched k) with held := {.proc t} } }

/-- `scheduler` with the lock of process `i`. -/
def HartsState.dispatch (st : HartsState) (k i : ℕ) : HartsState :=
  let cs := { st.ctx (.sched k) with code := release (.proc i) ++ [.scan (i + 1)] }
  if st.state i = .runnable then
    { st with
      hart := Function.update st.hart k { st.hart k with proc := some i }
      ctx := Function.update (Function.update st.ctx (.sched k) { cs with held := ∅ })
        (.thread i) { st.ctx (.thread i) with held := {.proc i} }
      state := Function.update st.state i .running }
  else st.put k (st.hart k) (.sched k) cs

/-- The hart `k` does its next instruction; it cannot while it spins on a lock. There are `n`
slots for processes. -/
def HartsState.exec (n k : ℕ) (st : HartsState) : Option (HartEvent × HartsState) :=
  let hart := st.hart k
  let c := st.cur k
  let cs := st.ctx c
  match cs.code with
  | [] => none
  | i :: rest =>
    let cs := { cs with code := rest }
    match i with
    | .pushOff =>
      some (.other, st.put k hart c { cs with code := .pushOff1 hart.sie :: rest })
    | .pushOff1 old =>
      some (.push c hart.sie, st.put k
        { hart with
          sie := false
          intena := if hart.noff = 0 then old else hart.intena
          noff := hart.noff + 1 } c { cs with depth := cs.depth + 1 })
    | .popOff => some (st.popOff k c cs)
    | .take lk =>
      match st.lock lk with
      | none =>
        some (.other, (st.put k hart c { cs with held := insert lk cs.held }).setLock lk (some k))
      | some k' => if k' = k then some (.other, st.panics "acquire") else none
    | .free lk =>
      if st.lock lk ≠ some k then some (.other, st.panics "release")
      else some (.other, (st.put k hart c { cs with held := cs.held.erase lk }).setLock lk none)
    | .setState s =>
      match c with
      | .sched _ => none
      | .thread t => some (.other, (st.put k hart c cs).setState t s)
    | .swtch =>
      match c with
      | .sched _ => none
      | .thread t => some (.other, st.swtch k t rest)
    | .setIntena b => some (.other, st.put k { hart with intena := b } c cs)
    | .wake t =>
      some (.other, if st.state t = .sleeping then (st.put k hart c cs).setState t .runnable
        else st.put k hart c cs)
    | .intrOn => some (.intrOn c, st.put k { hart with sie := true } c cs)
    | .intrOff => some (.intrOff c, st.put k { hart with sie := false } c cs)
    | .sret => if cs.depth = 0 then some (.other, st.put k { hart with sie := true } c cs) else none
    | .scan i => some (.other, st.put k hart c
        { cs with code := if i < n then acquire (.proc i) ++ [.dispatch i] else schedulerPass })
    | .dispatch i => some (.other, st.dispatch k i)

/-! ## What kernel code calls -/

inductive HartCall
  | pushOff
  | popOff
  | acquire (lk : LockId)
  | release (lk : LockId)
  | yield
  | sleep (lk : LockId)
  | wakeup (t : ℕ)
  | intrOn
  | intrOff

def HartCall.code (c : Ctx) : HartCall → List Instr
  | .pushOff => [.pushOff]
  | .popOff => [.popOff]
  | .acquire lk => Xv6Plus.acquire lk
  | .release lk => Xv6Plus.release lk
  | .yield => match c with
    | .thread t => Xv6Plus.yield t
    | .sched _ => []
  | .sleep lk => match c with
    | .thread t => Xv6Plus.sleep t lk
    | .sched _ => []
  | .wakeup t => Xv6Plus.wakeup t
  | .intrOn => [.intrOn]
  | .intrOff => [.intrOff]

/-- Kernel code calls something : the code of a thread, or of an interrupt handler. -/
def CtxState.Calling (cs : CtxState) : Prop := cs.code = [] ∨ ∃ rest, cs.code = .sret :: rest

/-- How kernel code uses locks. It matches its own `push_off`s, releases what it holds and does
not acquire it again, yields without a lock and sleeps with one; only a system call turns
interrupts on or off. -/
def HartCall.Allowed (c : Ctx) (cs : CtxState) : HartCall → Prop
  | .pushOff => True
  | .popOff => cs.held.card < cs.depth
  | .acquire lk => lk ∉ cs.held
  | .release lk => lk ∈ cs.held
  | .yield => (∃ t, c = .thread t) ∧ cs.depth = 0
  | .sleep lk => (∃ t, c = .thread t ∧ lk ≠ .proc t) ∧ cs.depth = 1 ∧ lk ∈ cs.held
  | .wakeup t => c ≠ .thread t ∧ .proc t ∉ cs.held
  | .intrOn | .intrOff => (∃ t, c = .thread t) ∧ cs.depth = 0 ∧ cs.code = []

inductive HartStep (n : ℕ) : HartsState → HartEvent → HartsState → Prop
  | exec {st st' : HartsState} {e : HartEvent} (k : ℕ) : st.exec n k = some (e, st') →
      HartStep n st e st'
  /-- An interrupt. -/
  | trap {st : HartsState} (k : ℕ) : (st.hart k).sie = true →
      HartStep n st .other (st.put k { st.hart k with sie := false } (st.cur k)
        { st.ctx (st.cur k) with code := .sret :: (st.ctx (st.cur k)).code })
  | call {st : HartsState} (k : ℕ) (op : HartCall) : (st.ctx (st.cur k)).Calling →
      op.Allowed (st.cur k) (st.ctx (st.cur k)) →
      HartStep n st .other (st.put k (st.hart k) (st.cur k)
        { st.ctx (st.cur k) with code := op.code (st.cur k) ++ (st.ctx (st.cur k)).code })

/-- Every hart is about to enter the loop of `scheduler`, and no thread has run. -/
structure HartsState.Init (st : HartsState) : Prop where
  hart : ∀ k, (st.hart k).noff = 0 ∧ (st.hart k).proc = none
  sched : ∀ k, st.ctx (.sched k) = ⟨schedulerPass, 0, ∅⟩
  /-- A thread starts inside the `acquire` of the scheduler that runs it first. -/
  thread : ∀ t, st.ctx (.thread t) = ⟨kthreadEntry t, 1, ∅⟩
  lock : ∀ lk, st.lock lk = none
  panic : st.panic = none

/-! ## Safe code -/

/-- The code of `c` does not panic, from a state with `d` unmatched `push_off`s and the locks
`H`; `away` tells whether the thread has changed its state from `RUNNING`. -/
def Safe (c : Ctx) : List Instr → ℕ → Finset LockId → Bool → Prop
  | [], _, _, away => (∃ t, c = .thread t) ∧ away = false
  | .pushOff :: r, d, H, away => Safe c r (d + 1) H away
  | .pushOff1 _ :: r, d, H, away => Safe c r (d + 1) H away
  | .popOff :: r, d, H, away => H.card < d ∧ Safe c r (d - 1) H away
  | .take lk :: r, d, H, away => H.card < d ∧ lk ∉ H ∧ Safe c r d (insert lk H) away
  | .free lk :: r, d, H, away => lk ∈ H ∧ (away = true → ∀ t, c = .thread t → lk ≠ .proc t) ∧
      Safe c r d (H.erase lk) away
  | .setState s :: r, d, H, _ => s ≠ .running ∧ ∃ t, c = .thread t ∧ .proc t ∈ H ∧ Safe c r d H true
  | .swtch :: r, d, H, away => d = 1 ∧ away = true ∧
      ∃ t, c = .thread t ∧ H = {.proc t} ∧ Safe c r 1 {.proc t} false
  | .setIntena _ :: r, d, H, away => d = 1 ∧ Safe c r d H away
  | .wake t :: r, d, H, away => .proc t ∈ H ∧ c ≠ .thread t ∧ Safe c r d H away
  | .intrOn :: r, d, H, away => d = 0 ∧ Safe c r d H away
  | .intrOff :: r, d, H, away => d = 0 ∧ Safe c r d H away
  -- the handler returns when it has matched its own calls
  | .sret :: r, _, _, away => away = false ∧ Safe c r 0 ∅ false
  | .scan _ :: r, d, H, _ => (∃ k, c = .sched k) ∧ d = 0 ∧ H = ∅ ∧ r = []
  | .dispatch i :: r, d, H, _ => (∃ k, c = .sched k) ∧ d = 1 ∧ H = {.proc i} ∧ r = []

section Safe

variable {c : Ctx} {cs : CtxState} {rest : List Instr} {d t k i : ℕ} {H : Finset LockId}
  {lk : LockId} {op : HartCall}

theorem Safe.free_popOff (hH : H.card ≤ d) (hlk : lk ∈ H)
    (hrest : Safe c rest (d - 1) (H.erase lk) false) :
    Safe c (release lk ++ rest) d H false := by
  have hpos : 0 < H.card := Finset.card_pos.2 ⟨lk, hlk⟩
  refine ⟨hlk, by simp, ?_, hrest⟩
  rw [Finset.card_erase_of_mem hlk]
  omega

theorem Safe.take_push (hH : H.card ≤ d) (hlk : lk ∉ H) {away : Bool}
    (hrest : Safe c rest (d + 1) (insert lk H) away) :
    Safe c (acquire lk ++ rest) d H away :=
  ⟨by omega, hlk, hrest⟩

theorem Safe.myproc (hH : H.card ≤ d) {away : Bool} (hrest : Safe c rest d H away) :
    Safe c (myproc ++ rest) d H away :=
  ⟨by omega, hrest⟩

/-- What is left when the thread resumes : it releases its lock. -/
theorem Safe.resumed (hrest : Safe c rest 0 ∅ false) :
    Safe c (release (.proc t) ++ rest) 1 {.proc t} false := by
  refine .free_popOff (by simp) (Finset.mem_singleton_self _) ?_
  rwa [Finset.erase_singleton]

theorem Safe.sched_thread (hrest : Safe (.thread t) rest 1 {.proc t} false) :
    Safe (.thread t) (sched ++ rest) 1 {.proc t} true :=
  .myproc (by simp) ⟨rfl, rfl, t, rfl, rfl, hrest⟩

theorem Safe.schedulerPass : Safe (.sched k) schedulerPass 0 ∅ false :=
  ⟨rfl, rfl, ⟨k, rfl⟩, rfl, rfl, rfl⟩

theorem Safe.scanned : Safe (.sched k) (release (.proc i) ++ [.scan (i + 1)]) 1 {.proc i} false :=
  .resumed ⟨⟨k, rfl⟩, rfl, rfl, rfl⟩

theorem Safe.kthreadEntry : Safe (.thread t) (kthreadEntry t) 1 {.proc t} false := by
  refine .myproc (by simp) ?_
  rw [← List.append_nil (release _)]
  exact .resumed ⟨⟨t, rfl⟩, rfl⟩

/-- Where kernel code calls something, the rest is safe whatever the call leaves. -/
theorem Safe.calling (hc : cs.Calling) {away : Bool} (hs : Safe c cs.code d H away) :
    away = false ∧ ∀ d' H', Safe c cs.code d' H' false := by
  rcases hc with hc | ⟨r, hc⟩
  · rw [hc] at hs ⊢
    exact ⟨hs.2, fun _ _ => ⟨hs.1, rfl⟩⟩
  · rw [hc] at hs ⊢
    exact ⟨hs.1, fun _ _ => ⟨rfl, hs.2⟩⟩

theorem Safe.call (hH : cs.held.card ≤ cs.depth) (ha : op.Allowed c cs)
    (hrest : ∀ d H, Safe c cs.code d H false) :
    Safe c (op.code c ++ cs.code) cs.depth cs.held false := by
  cases op with
  | pushOff => exact hrest _ _
  | popOff => exact ⟨ha, hrest _ _⟩
  | acquire lk => exact .take_push hH ha (hrest _ _)
  | release lk => exact .free_popOff hH ha (hrest _ _)
  | yield =>
    obtain ⟨⟨t, rfl⟩, hd⟩ := ha
    have hnone : cs.held = ∅ := Finset.card_eq_zero.1 (by omega)
    rw [hd, hnone]
    simp only [HartCall.code, yield, List.append_assoc]
    refine .myproc (by simp) (.take_push (by simp) (Finset.notMem_empty _) ?_)
    exact ⟨RunState.noConfusion, t, rfl, by simp, .sched_thread (.resumed (hrest _ _))⟩
  | sleep lk =>
    obtain ⟨⟨t, rfl, hne⟩, hd, hlk⟩ := ha
    have hone : cs.held = {lk} :=
      (Finset.eq_of_subset_of_card_le (Finset.singleton_subset_iff.2 hlk) (by simp; omega)).symm
    rw [hd, hone]
    simp only [HartCall.code, sleep, List.append_assoc]
    have herase : (insert (.proc t) ({lk} : Finset LockId)).erase lk = {.proc t} := by
      rw [Finset.erase_insert_of_ne (Ne.symm hne), Finset.erase_singleton,
        LawfulSingleton.insert_empty_eq]
    refine .myproc (by simp) (.take_push (by simp) (by simpa using Ne.symm hne) ?_)
    refine .free_popOff (Finset.card_insert_le _ _) (by simp) ?_
    rw [herase]
    exact ⟨RunState.noConfusion, t, rfl, by simp, .sched_thread (.resumed
      (.take_push (by simp) (Finset.notMem_empty _) (hrest _ _)))⟩
  | wakeup t =>
    obtain ⟨hne, hlk⟩ := ha
    simp only [HartCall.code, wakeup, List.append_assoc]
    refine .myproc hH (.take_push hH hlk ⟨Finset.mem_insert_self _ _, hne, ?_⟩)
    refine .free_popOff ?_ (Finset.mem_insert_self _ _) ?_
    · rw [Finset.card_insert_of_notMem hlk]
      omega
    · exact hrest _ _
  | intrOn => exact ⟨ha.2.1, hrest _ _⟩
  | intrOff => exact ⟨ha.2.1, hrest _ _⟩

end Safe

end Xv6Plus
