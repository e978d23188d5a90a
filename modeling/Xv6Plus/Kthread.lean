import Xv6Plus.Count
import Xv6Plus.ProcReap

/-!
# Kernel threads and `kexit`

`kthread_create` takes a slot at any time, and `kthread_entry` calls `kexit` when the thread's
function returns. `kexit` gives back the current directory and leaves a zombie to its parent;
`kthread_create` sets neither. The steps of processes are those of `LifeStep`, with the
current directories and the reference counts of their inodes beside them. A fault in the
kernel, as the use of a null pointer is, ends the run.

While no kernel thread's function returns, every `kexit` gives back an inode that is referenced
and every zombie can be waited for (`exits_safely`).
-/

namespace Xv6Plus

/-! ## The code -/

/-- `ip->ref` of the entries of the inode table. -/
abbrev InodeRefs := ℕ → ℤ

/-- `idup`; the null pointer faults. -/
def InodeRefs.idup (ref : InodeRefs) : Option ℕ → Except String InodeRefs
  | none => .error "kerneltrap"
  | some i => .ok (Function.update ref i (ref i + 1))

/-- What `iput` does to the count; the null pointer faults. -/
def InodeRefs.iput (ref : InodeRefs) : Option ℕ → Except String InodeRefs
  | none => .error "kerneltrap"
  | some i => .ok (Function.update ref i (ref i - 1))

structure KthreadState where
  life : LifeState
  /-- `p->is_kthread`. -/
  kthread : ℕ → Bool
  /-- `p->cwd`. -/
  cwd : ℕ → Option ℕ
  ref : InodeRefs
  /-- How many references open files and system calls have. -/
  held : ℕ → ℕ
  /-- The kernel has panicked. -/
  halted : Bool

inductive KthreadEvent
  /-- `kexit` by the process in a slot calls `iput`. -/
  | iput (p : ℕ) (ip : Option ℕ)
  | reaped (id : ℕ)
  | other

def LifeEvent.kthread : LifeEvent → KthreadEvent
  | .reaped _ id _ _ => .reaped id
  | _ => .other

/-- The event of a step that neither forks nor exits. -/
def LifeEvent.Quiet : LifeEvent → Prop
  | .forked _ _ | .exited _ _ => False
  | _ => True

/-- `kexit(status)` is called by the process in slot `p` : by a system call or a trap, or by
`kthread_entry`. -/
structure KthreadState.Exits (initproc : ℕ) (st : KthreadState) (p : ℕ) (status : ℤ) :
    Prop where
  lt : p < nProc
  running : (st.life.slot p).state = .running
  pc : st.life.pc p = .user
  not_init : p ≠ initproc
  status_zero : st.kthread p = true → status = 0

/-- `kexit` after `iput`. -/
def KthreadState.exited (initproc p : ℕ) (status : ℤ) (ref : InodeRefs) (st : KthreadState) :
    KthreadState :=
  { st with
    life := { st.life with slot := kexitTable p initproc status st.life.slot }
    cwd := Function.update st.cwd p none
    ref := ref }

/-- `kfork` after `idup`. -/
def KthreadState.forked (p j : ℕ) (ref : InodeRefs) (st : KthreadState) : KthreadState :=
  { st with
    life := { slot := Function.update st.life.slot j { st.life.slot j with
                state := .used, pid := toInt32 st.life.nextpid, born := st.life.births }
              pc := Function.update st.life.pc p (.forking j)
              nextpid := (st.life.nextpid + 1) % 2 ^ 32
              births := st.life.births + 1 }
    cwd := Function.update st.cwd j (st.cwd p)
    ref := ref }

/-- `kthread_create` in the slot `j`. -/
def KthreadState.created (j : ℕ) (st : KthreadState) : KthreadState :=
  { st with
    life := { slot := Function.update st.life.slot j { st.life.slot j with
                state := .runnable, pid := toInt32 st.life.nextpid, born := st.life.births }
              pc := Function.update st.life.pc j .user
              nextpid := (st.life.nextpid + 1) % 2 ^ 32
              births := st.life.births + 1 }
    kthread := Function.update st.kthread j true }

inductive KthreadMove (initproc : ℕ) : KthreadState → KthreadEvent → KthreadState → Prop
  | life {st : KthreadState} {e : LifeEvent} {life : LifeState} :
      LifeStep ⟨initproc, st.kthread⟩ st.life e life → e.Quiet →
      KthreadMove initproc st e.kthread { st with life := life }
  | fork {st : KthreadState} {p j : ℕ} {ref : InodeRefs} :
      st.life.Runs ⟨initproc, st.kthread⟩ p → st.life.pc p = .user →
      findUnused st.life.slot nProc 0 = some j → st.ref.idup (st.cwd p) = .ok ref →
      KthreadMove initproc st .other (st.forked p j ref)
  | forkFaults {st : KthreadState} {p j : ℕ} {msg : String} :
      st.life.Runs ⟨initproc, st.kthread⟩ p → st.life.pc p = .user →
      findUnused st.life.slot nProc 0 = some j → st.ref.idup (st.cwd p) = .error msg →
      KthreadMove initproc st .other { st with halted := true }
  | exit {st : KthreadState} {p : ℕ} (status : ℤ) {ref : InodeRefs} :
      st.Exits initproc p status → st.ref.iput (st.cwd p) = .ok ref →
      KthreadMove initproc st (.iput p (st.cwd p)) (st.exited initproc p status ref)
  | exitFaults {st : KthreadState} {p : ℕ} (status : ℤ) {msg : String} :
      st.Exits initproc p status → st.ref.iput (st.cwd p) = .error msg →
      KthreadMove initproc st (.iput p (st.cwd p)) { st with halted := true }
  | create {st : KthreadState} {j : ℕ} : findUnused st.life.slot nProc 0 = some j →
      KthreadMove initproc st .other (st.created j)
  /-- `allocproc` runs out of memory in `kthread_create`. -/
  | createFails {st : KthreadState} {j : ℕ} : findUnused st.life.slot nProc 0 = some j →
      KthreadMove initproc st .other { st with life := { st.life with
        slot := Function.update st.life.slot j (st.life.slot j).free
        nextpid := (st.life.nextpid + 1) % 2 ^ 32 } }
  /-- An open file or a system call gets a reference, by `iget` or `idup`. -/
  | hold {st : KthreadState} (i : ℕ) : KthreadMove initproc st .other { st with
        ref := Function.update st.ref i (st.ref i + 1)
        held := Function.update st.held i (st.held i + 1) }
  /-- And gives it back. -/
  | drop {st : KthreadState} {i : ℕ} : 0 < st.held i →
      KthreadMove initproc st .other { st with
        ref := Function.update st.ref i (st.ref i - 1)
        held := Function.update st.held i (st.held i - 1) }
  /-- `sys_chdir` keeps the reference that `namei` has given it, and puts the old one. -/
  | chdir {st : KthreadState} {p i : ℕ} {ref : InodeRefs} :
      st.life.Runs ⟨initproc, st.kthread⟩ p → 0 < st.held i →
      st.ref.iput (st.cwd p) = .ok ref →
      KthreadMove initproc st .other { st with
        cwd := Function.update st.cwd p (some i)
        ref := ref
        held := Function.update st.held i (st.held i - 1) }

def KthreadStep (initproc : ℕ) (st : KthreadState) (e : KthreadEvent) (st' : KthreadState) :
    Prop :=
  st.halted = false ∧ KthreadMove initproc st e st'

/-- After `userinit`, before the first `kthread_create` : `initproc` has the root directory. -/
structure KthreadState.Boot (initproc : ℕ) (st : KthreadState) : Prop where
  life : st.life.Init ⟨initproc, fun _ => false⟩
  kthread : ∀ i, st.kthread i = false
  root : ∃ i, st.cwd initproc = some i ∧ ∀ k, st.ref k = if k = i then 1 else 0
  cwd : ∀ p, p ≠ initproc → st.cwd p = none
  held : ∀ i, st.held i = 0
  halted : st.halted = false

/-! ## The invariant -/

/-- One if the directory is the inode `i`. -/
def refersTo (i : ℕ) (c : Option ℕ) : ℕ := if c = some i then 1 else 0

theorem refersTo_self (i : ℕ) : refersTo i (some i) = 1 := if_pos rfl

theorem refersTo_ne {i k : ℕ} (h : k ≠ i) : refersTo i (some k) = 0 := if_neg (by simp [h])

theorem refersTo_none (i : ℕ) : refersTo i none = 0 := if_neg (by simp)

structure KthreadInv (initproc : ℕ) (st : KthreadState) : Prop where
  running : st.halted = false
  life : LifeInv ⟨initproc, st.kthread⟩ st.life
  init : st.kthread initproc = false
  parent : ∀ i q, (st.life.slot i).parent = some q → st.kthread q = false
  /-- A process has a current directory from `kfork` to `kexit`. -/
  hasDir : ∀ p, st.kthread p = false → (st.life.phase p = .live ∨ st.life.phase p = .used) →
    st.cwd p ≠ none
  noDir : ∀ p, (st.life.phase p = .unused ∨ st.life.phase p = .zombie) → st.cwd p = none
  count : ∀ i, st.ref i = st.held i + tally nProc st.cwd (refersTo i)

section Kthread

variable {initproc : ℕ} {st st' : KthreadState} {e : KthreadEvent} {h : List KthreadEvent}
  {p j : ℕ} {status : ℤ}

/-- A step of a process that neither forks nor exits. -/
structure QuietPost (r : Roots) (st st' : LifeState) : Prop where
  inv : LifeInv r st'
  live : ∀ i, (st'.phase i = .live ∨ st'.phase i = .used) ↔
    (st.phase i = .live ∨ st.phase i = .used)
  parent : ∀ i q, (st'.slot i).parent = some q → (st.slot i).parent = some q ∨
    r.kthread q = false

section Quiet

variable {r : Roots} {l l' : LifeState}

theorem QuietPost.like (hinv : LifeInv r l) (hl : ∀ i, (l.slot i).Like (l'.slot i))
    (hpc : ∀ p, l'.pc p = l.pc p ∨ (l'.pc p).child = none) (hb : l'.births = l.births) :
    QuietPost r l l' := by
  refine ⟨hinv.like hl hpc hb, fun i => ?_, fun i q hq => Or.inl ((hl i).parent ▸ hq)⟩
  have hph : l'.phase i = l.phase i := (hl i).phase
  rw [hph]

theorem QuietPost.free {n : ℕ} {pc : ℕ → LifePc} (hinv : LifeInv r l)
    (hj : l.phase j = .unused ∨ l.phase j = .zombie)
    (hpc : ∀ p, pc p = l.pc p ∨ (pc p).child = none) :
    QuietPost r l { l with
      slot := Function.update l.slot j (l.slot j).free, pc := pc, nextpid := n } := by
  refine ⟨hinv.free hj hpc, fun i => ?_, fun i q hq => ?_⟩
  · by_cases hij : i = j
    · subst hij
      refine iff_of_false (by simp [LifeState.phase, PSlot.free, RunState.phase]) ?_
      rcases hj with hj | hj <;> simp [hj]
    · simp [LifeState.phase, hij]
  · by_cases hij : i = j
    · subst hij
      simp [PSlot.free] at hq
    · simp [hij] at hq
      exact Or.inl hq

theorem QuietPost.goOn {s : PSlot} {c : LifePc} {pc : ℕ → LifePc} (hinv : LifeInv r l)
    (hpc : (l.pc p).child = some j) (hs : s.state.phase = .used ∨ s.state.phase = .live)
    (hpar : s.parent = some p) (hborn : s.born = (l.slot j).born)
    (hc : c.child = none ∨ (c = .forked j ∧ s.state.phase = .used))
    (hself : pc p = c) (hother : ∀ q, q ≠ p → pc q = l.pc q ∨ (pc q).child = none)
    (hp : r.kthread p = false) :
    QuietPost r l { l with slot := Function.update l.slot j s, pc := pc } := by
  refine ⟨hinv.goOn hpc hs hpar hborn hc hself hother, fun i => ?_, fun i q hq => ?_⟩
  · by_cases hij : i = j
    · subst hij
      have hused := (hinv.child p i hpc).2
      refine iff_of_true ?_ (Or.inr hused)
      simpa [LifeState.phase] using hs.symm
    · simp [LifeState.phase, hij]
  · dsimp only at hq
    by_cases hij : i = j
    · subst hij
      rw [Function.update_self, hpar] at hq
      exact Or.inr (Option.some.inj hq ▸ hp)
    · rw [Function.update_of_ne hij] at hq
      exact Or.inl hq

theorem LifeStep.quiet {e : LifeEvent} (hinv : LifeInv r l) (hstep : LifeStep r l e l')
    (hq : e.Quiet) : QuietPost r l l' := by
  have hsame : ∀ (q : ℕ) (c : LifePc), c.child = none →
      ∀ k, Function.update l.pc q c k = l.pc k ∨ (Function.update l.pc q c k).child = none := by
    intro q c hc k
    by_cases hk : k = q
    · subst hk
      rw [Function.update_self]
      exact Or.inr hc
    · exact Or.inl (Function.update_of_ne hk _ _)
  -- what only changes how a slot is scheduled
  have hsched : ∀ {i : ℕ} {s : PSlot}, (l.slot i).Like s →
      QuietPost r l { l with slot := Function.update l.slot i s } := fun hl =>
    .like hinv (update_like hl) (fun _ => Or.inl rfl) rfl
  cases hstep with
  | fork hr hpc hf => exact absurd hq id
  | exit status hr hpc hne => exact absurd hq id
  | @forkFails p j hr hpc hf =>
    exact .free hinv (Or.inl (phase_unused_iff.2 (findUnused_spec hf).2.2)) fun q => Or.inl rfl
  | @setParent p j hr hpc =>
    have hchild : (l.pc p).child = some j := by rw [hpc]; rfl
    have hj : (l.slot j).state.phase = .used := (hinv.child p j hchild).2
    exact .goOn hinv hchild (Or.inl hj) rfl rfl (Or.inr ⟨rfl, hj⟩) (Function.update_self ..)
      (fun q hq => Or.inl (Function.update_of_ne hq _ _)) hr.2.1
  | @ready p j hr hpc =>
    have hchild : (l.pc p).child = some j := by rw [hpc]; rfl
    refine .goOn hinv hchild (Or.inr rfl) (hinv.named p j hpc) rfl (Or.inl rfl)
      (Function.update_self ..) (fun q hq => ?_) hr.2.1
    rw [Function.update_of_ne hq]
    exact hsame j .user rfl q
  | @wait p hr hpc => exact .like hinv (fun i => .refl _) (hsame p _ rfl) rfl
  | @scan p b hr hpc =>
    rcases kwaitRound_cases l.slot p b with ⟨i, -, hz, -, heq⟩ | heq | ⟨k, -, heq⟩
    · rw [heq]
      exact .free hinv (Or.inr (phase_zombie_iff.2 hz)) (hsame p _ rfl)
    · rw [heq]
      exact .like hinv (fun i => .refl _) (hsame p _ rfl) rfl
    · rw [heq]
      exact .like hinv (update_like ⟨hr.phase.symm, rfl, rfl, rfl, rfl⟩) (hsame p _ rfl) rfl
  | @dispatch i hs => exact hsched ⟨by rw [hs]; rfl, rfl, rfl, rfl, rfl⟩
  | @yield i hs => exact hsched ⟨by rw [hs]; rfl, rfl, rfl, rfl, rfl⟩
  | @sleep i a hs => exact hsched ⟨by rw [hs]; rfl, rfl, rfl, rfl, rfl⟩
  | wakeup me c => exact .like hinv (wakeupAll_like me c _) (fun _ => Or.inl rfl) rfl
  | kill i sigkill =>
    refine hsched ⟨?_, rfl, rfl, rfl, rfl⟩
    simp only
    split_ifs with hs
    · rw [hs]
      rfl
    · rfl

end Quiet

/-! ## Steps keep the invariant -/

theorem ProcState.gone_iff (x : ProcState) :
    (x = .unused ∨ x = .zombie) ↔ ¬(x = .live ∨ x = .used) := by
  cases x <;> simp

theorem KthreadInv.quiet {life : LifeState} (hinv : KthreadInv initproc st)
    (hpost : QuietPost ⟨initproc, st.kthread⟩ st.life life) :
    KthreadInv initproc { st with life := life } where
  running := hinv.running
  life := hpost.inv
  init := hinv.init
  parent i q hq := (hpost.parent i q hq).elim (hinv.parent i q) id
  hasDir p hp hl := hinv.hasDir p hp ((hpost.live p).1 hl)
  noDir p hp := by
    refine hinv.noDir p ((ProcState.gone_iff _).2 fun hl => ?_)
    exact (ProcState.gone_iff _).1 hp ((hpost.live p).2 hl)
  count := hinv.count

/-- The slot `j` is taken for a kernel thread. -/
theorem LifeInv.create {r : Roots} {l : LifeState} {s : PSlot} {n : ℕ} (hinv : LifeInv r l)
    (hj : l.phase j = .unused) (hlt : j < nProc) (hs : s.state.phase = .live)
    (hpar : s.parent = (l.slot j).parent) (hborn : s.born = l.births) :
    LifeInv ⟨r.initproc, Function.update r.kthread j true⟩
      { slot := Function.update l.slot j s
        pc := Function.update l.pc j .user
        nextpid := n
        births := l.births + 1 } := by
  set l' : LifeState := { slot := Function.update l.slot j s
                          pc := Function.update l.pc j .user
                          nextpid := n
                          births := l.births + 1 } with hl'
  have hself : l'.phase j = .live := by simp [hl', LifeState.phase, hs]
  have hother : ∀ i, i ≠ j → l'.phase i = l.phase i := fun i hi => by
    simp [hl', LifeState.phase, hi]
  have hne : ∀ i, l.phase i ≠ .unused → i ≠ j := by
    rintro i hi rfl
    exact hi hj
  have hlive : ∀ i, l.phase i = .live → l'.phase i = .live := fun i hi =>
    (hother i (hne i (by simp [hi]))).trans hi
  have hparent : ∀ i, (l'.slot i).parent = (l.slot i).parent := by
    intro i
    by_cases hi : i = j
    · subst hi
      simp [hl', hpar]
    · simp [hl', hi]
  have hchild : ∀ q k, (l'.pc q).child = some k → (l.pc q).child = some k := by
    intro q k hq
    by_cases hqj : q = j
    · subst hqj
      simp [hl', LifePc.child] at hq
    · simpa [hl', hqj] using hq
  have hborn' : ∀ i, i ≠ j → (l'.slot i).born = (l.slot i).born := fun i hi => by simp [hl', hi]
  have hlt' : ∀ i, i ≠ j → l'.phase i ≠ .unused → (l'.slot i).born < l.births := by
    intro i hij hi
    rw [hother i hij] at hi
    rw [hborn' i hij]
    exact hinv.born_lt i hi
  have hbornj : (l'.slot j).born = l.births := by simp [hl', hborn]
  refine ⟨fun i hi => ?_, fun i hi => ?_, fun i q hq => ?_, fun i hi => ?_, fun q k hk => ?_,
    fun q k hk => ?_, fun q q' k hq hq' => hinv.one q q' k (hchild q k hq) (hchild q' k hq'),
    fun i hi => ?_, fun i k hi hk hik => ?_⟩
  · rw [hparent, hother i (by omega)]
    exact hinv.bound i hi
  · by_cases hij : i = j
    · rw [hij]
      exact hself
    · refine hlive i (hinv.root i (hi.imp id fun hk => ?_))
      simpa [hij] using hk
  · exact hlive q (hinv.parent i q (hparent i ▸ hq))
  · by_cases hij : i = j
    · exact Or.inr (Or.inr (Or.inr (by simp [hij])))
    · rw [hother i hij]
      refine (hinv.orphan i (hparent i ▸ hi)).imp id (Or.imp id (Or.imp id fun hk => ?_))
      simpa [hij] using hk
  · obtain ⟨h1, h2⟩ := hinv.child q k (hchild q k hk)
    exact ⟨hlive q h1, (hother k (hne k (by simp [h2]))).trans h2⟩
  · rw [hparent]
    refine hinv.named q k ?_
    by_cases hqj : q = j
    · subst hqj
      simp [hl'] at hk
    · simpa [hl', hqj] using hk
  · by_cases hij : i = j
    · rw [hij, hbornj]
      exact Nat.lt_succ_self _
    · exact Nat.lt_succ_of_lt (hlt' i hij hi)
  · by_cases hij : i = j <;> by_cases hkj : k = j
    · rw [hij, hkj]
    · have := hlt' k hkj hk
      rw [hij, hbornj] at hik
      omega
    · have := hlt' i hij hi
      rw [hkj, hbornj] at hik
      omega
    · rw [hborn' i hij, hborn' k hkj] at hik
      exact hinv.born_inj i k (hother i hij ▸ hi) (hother k hkj ▸ hk) hik

theorem KthreadInv.fork {ref : InodeRefs} (hinv : KthreadInv initproc st)
    (hr : st.life.Runs ⟨initproc, st.kthread⟩ p) (hpc : st.life.pc p = .user)
    (hf : findUnused st.life.slot nProc 0 = some j) (hd : st.ref.idup (st.cwd p) = .ok ref) :
    KthreadInv initproc (st.forked p j ref) := by
  obtain ⟨-, hlt, hun⟩ := findUnused_spec hf
  have hj : st.life.phase j = .unused := phase_unused_iff.2 hun
  have hnone : st.cwd j = none := hinv.noDir j (Or.inl hj)
  have hother : ∀ q, q ≠ j → (st.forked p j ref).life.phase q = st.life.phase q := fun q hq => by
    simp [KthreadState.forked, LifeState.phase, hq]
  have hself : (st.forked p j ref).life.phase j = .used := by
    simp [KthreadState.forked, LifeState.phase, RunState.phase]
  obtain ⟨i, hi⟩ := Option.ne_none_iff_exists'.1 (hinv.hasDir p hr.2.1 (Or.inl hr.phase))
  rw [hi] at hd
  obtain rfl := Except.ok.inj hd
  refine ⟨hinv.running, hinv.life.fork hr.phase hpc hj (by omega) rfl rfl rfl, hinv.init,
    fun k q hq => hinv.parent k q ?_, fun q hq hl => ?_, fun q hq => ?_, fun k => ?_⟩
  · by_cases hk : k = j
    · subst hk
      simpa [KthreadState.forked] using hq
    · simpa [KthreadState.forked, hk] using hq
  · by_cases hqj : q = j
    · subst hqj
      simp [KthreadState.forked, hi]
    · rw [hother q hqj] at hl
      simpa [KthreadState.forked, hqj] using hinv.hasDir q hq hl
  · by_cases hqj : q = j
    · rw [hqj, hself] at hq
      simp at hq
    · rw [hother q hqj] at hq
      simpa [KthreadState.forked, hqj] using hinv.noDir q hq
  · have hcount := hinv.count k
    have htally := tally_update (f := st.cwd) (v := some i) (g := refersTo k)
      (show j < nProc by omega)
    rw [hnone, refersTo_none] at htally
    simp only [KthreadState.forked, hi]
    by_cases hki : k = i
    · subst hki
      rw [refersTo_self] at htally
      rw [Function.update_self]
      omega
    · rw [refersTo_ne (Ne.symm hki)] at htally
      rw [Function.update_of_ne hki]
      omega

theorem KthreadInv.exit {ref : InodeRefs} (hinv : KthreadInv initproc st)
    (hx : st.Exits initproc p status) (hp : st.kthread p = false)
    (hput : st.ref.iput (st.cwd p) = .ok ref) :
    KthreadInv initproc (st.exited initproc p status ref) := by
  have hlive : st.life.phase p = .live := by
    unfold LifeState.phase
    rw [hx.running]
    rfl
  obtain ⟨i, hi⟩ := Option.ne_none_iff_exists'.1 (hinv.hasDir p hp (Or.inl hlive))
  rw [hi] at hput
  obtain rfl := Except.ok.inj hput
  have hroot : ¬Roots.Root ⟨initproc, st.kthread⟩ p := by
    rintro (hc | hc)
    · exact hx.not_init hc
    · exact absurd (hc.symm.trans hp) Bool.noConfusion
  have hpost := kexit_post hinv.life hx.lt status
  refine ⟨hinv.running, hinv.life.exit hpost hlive hroot hx.pc, hinv.init, fun k q hq => ?_,
    fun q hq hl => ?_, fun q hq => ?_, fun k => ?_⟩
  · rcases hpost.parent k q hq with ⟨-, rfl⟩ | ⟨-, hq⟩
    · exact hinv.init
    · exact hinv.parent k q hq
  · by_cases hqp : q = p
    · have hz := phase_zombie_iff.2 hpost.self.1
      rw [hqp] at hl
      rcases hl with hl | hl <;> exact absurd (hl.symm.trans hz) ProcState.noConfusion
    · have hsame : st.cwd q ≠ none := by
        refine hinv.hasDir q hq ?_
        rwa [← (hpost.other q hqp).1]
      simpa [KthreadState.exited, hqp] using hsame
  · by_cases hqp : q = p
    · simp [KthreadState.exited, hqp]
    · have hsame : st.cwd q = none := by
        refine hinv.noDir q ?_
        rwa [← (hpost.other q hqp).1]
      simpa [KthreadState.exited, hqp] using hsame
  · have hcount := hinv.count k
    have htally := tally_update (f := st.cwd) (v := none) (g := refersTo k) hx.lt
    rw [hi, refersTo_none] at htally
    simp only [KthreadState.exited]
    by_cases hki : k = i
    · subst hki
      rw [refersTo_self] at htally
      rw [Function.update_self]
      omega
    · rw [refersTo_ne (Ne.symm hki)] at htally
      rw [Function.update_of_ne hki]
      omega

theorem KthreadInv.create (hinv : KthreadInv initproc st)
    (hf : findUnused st.life.slot nProc 0 = some j) : KthreadInv initproc (st.created j) := by
  obtain ⟨-, hlt, hun⟩ := findUnused_spec hf
  have hj : st.life.phase j = .unused := phase_unused_iff.2 hun
  have hinit : initproc ≠ j := by
    rintro rfl
    exact absurd ((hinv.life.root _ (Or.inl rfl)).symm.trans hj) ProcState.noConfusion
  have hother : ∀ q, q ≠ j → (st.created j).life.phase q = st.life.phase q := fun q hq => by
    simp [KthreadState.created, LifeState.phase, hq]
  have hself : (st.created j).life.phase j = .live := by
    simp [KthreadState.created, LifeState.phase, RunState.phase]
  refine ⟨hinv.running, hinv.life.create hj (by omega) rfl rfl rfl, ?_, fun k q hq => ?_,
    fun q hq hl => ?_, fun q hq => ?_, hinv.count⟩
  · simpa [KthreadState.created, hinit] using hinv.init
  · have hq' : (st.life.slot k).parent = some q := by
      by_cases hk : k = j
      · subst hk
        simpa [KthreadState.created] using hq
      · simpa [KthreadState.created, hk] using hq
    have hqj : q ≠ j := by
      rintro rfl
      exact absurd ((hinv.life.parent k q hq').symm.trans hj) ProcState.noConfusion
    simpa [KthreadState.created, hqj] using hinv.parent k q hq'
  · by_cases hqj : q = j
    · simp [KthreadState.created, hqj] at hq
    · rw [hother q hqj] at hl
      exact hinv.hasDir q (by simpa [KthreadState.created, hqj] using hq) hl
  · by_cases hqj : q = j
    · rw [hqj, hself] at hq
      simp at hq
    · rw [hother q hqj] at hq
      exact hinv.noDir q hq

theorem KthreadInv.chdir {i : ℕ} {ref : InodeRefs} (hinv : KthreadInv initproc st)
    (hr : st.life.Runs ⟨initproc, st.kthread⟩ p) (hheld : 0 < st.held i)
    (hput : st.ref.iput (st.cwd p) = .ok ref) :
    KthreadInv initproc { st with
      cwd := Function.update st.cwd p (some i)
      ref := ref
      held := Function.update st.held i (st.held i - 1) } := by
  obtain ⟨o, ho⟩ := Option.ne_none_iff_exists'.1 (hinv.hasDir p hr.2.1 (Or.inl hr.phase))
  rw [ho] at hput
  obtain rfl := Except.ok.inj hput
  refine ⟨hinv.running, hinv.life, hinv.init, hinv.parent, fun q hq hl => ?_, fun q hq => ?_,
    fun k => ?_⟩
  · by_cases hqp : q = p
    · simp [hqp]
    · simpa [hqp] using hinv.hasDir q hq hl
  · have hqp : q ≠ p := by
      rintro rfl
      exact (ProcState.gone_iff _).1 hq (Or.inl hr.phase)
    simpa [hqp] using hinv.noDir q hq
  · have hcount := hinv.count k
    have htally := tally_update (f := st.cwd) (v := some i) (g := refersTo k) hr.1
    rw [ho] at htally
    -- the reference of the old directory goes, and the one in hand becomes that of the new one
    have href : Function.update st.ref o (st.ref o - 1) k = st.ref k - refersTo k (some o) := by
      by_cases hk : o = k
      · rw [hk, Function.update_self, refersTo_self]
        rfl
      · rw [Function.update_of_ne (Ne.symm hk), refersTo_ne hk]
        exact (sub_zero _).symm
    have hhand : Function.update st.held i (st.held i - 1) k + refersTo k (some i) =
        st.held k := by
      by_cases hk : i = k
      · rw [← hk, Function.update_self, refersTo_self]
        omega
      · rw [Function.update_of_ne (Ne.symm hk), refersTo_ne hk]
        exact add_zero _
    dsimp only
    rw [href]
    omega

/-- The function of no kernel thread returns. -/
def ThreadsStay (st : KthreadState) (e : KthreadEvent) : Prop :=
  ∀ p ip, e = .iput p ip → st.kthread p = false

theorem KthreadInv.start (hb : st.Boot initproc) : KthreadInv initproc st := by
  obtain ⟨i, hi, href⟩ := hb.root
  have hroots : (⟨initproc, st.kthread⟩ : Roots) = ⟨initproc, fun _ => false⟩ := by
    rw [funext hb.kthread]
  have hlife : LifeInv ⟨initproc, st.kthread⟩ st.life := hroots ▸ hb.life.inv
  have hgone : ∀ p, p ≠ initproc → st.life.phase p = .unused := fun p hp =>
    phase_unused_iff.2 (hb.life.rest p (by simp [hp]))
  refine ⟨hb.halted, hlife, hb.kthread _, fun k q hq => ?_, fun p _ hl => ?_, fun p hp => ?_,
    fun k => ?_⟩
  · exact hb.kthread q
  · by_cases hpi : p = initproc
    · simp [hpi, hi]
    · rw [hgone p hpi] at hl
      simp at hl
  · refine hb.cwd p ?_
    rintro rfl
    exact (ProcState.gone_iff _).1 hp (Or.inl (hlife.root _ (Or.inl rfl)))
  · have hcwd : st.cwd = Function.update (fun _ => none) initproc (some i) := by
      funext p
      by_cases hpi : p = initproc
      · rw [hpi, hi, Function.update_self]
      · rw [hb.cwd p hpi, Function.update_of_ne hpi]
    have htally := tally_update (f := fun _ : ℕ => (none : Option ℕ)) (v := some i)
      (g := refersTo k) (p := initproc) hb.life.init_lt
    have hzero : tally nProc (fun _ : ℕ => (none : Option ℕ)) (refersTo k) = 0 :=
      tally_eq_zero fun _ _ => refersTo_none k
    rw [hzero, refersTo_none] at htally
    rw [href k, hb.held, hcwd]
    by_cases hki : k = i
    · subst hki
      rw [refersTo_self] at htally
      rw [if_pos rfl]
      omega
    · rw [refersTo_ne (Ne.symm hki)] at htally
      rw [if_neg hki]
      omega

theorem KthreadStep.inv (hinv : KthreadInv initproc st)
    (hs : restrict (KthreadStep initproc) ThreadsStay st e st') : KthreadInv initproc st' := by
  obtain ⟨⟨-, hm⟩, hstay⟩ := hs
  -- a process that is not a kernel thread has a directory
  have hdir : ∀ {p}, st.kthread p = false → (st.life.slot p).state = .running →
      st.cwd p ≠ none := fun hk hr => hinv.hasDir _ hk (Or.inl (by simp [LifeState.phase, hr,
        RunState.phase]))
  cases hm with
  | life hl hq => exact hinv.quiet (hl.quiet hinv.life hq)
  | fork hr hpc hf hd => exact hinv.fork hr hpc hf hd
  | @forkFaults p j msg hr hpc hf hd =>
    obtain ⟨i, hi⟩ := Option.ne_none_iff_exists'.1 (hdir hr.2.1 hr.2.2)
    simp [hi, InodeRefs.idup] at hd
  | exit _ hx hput => exact hinv.exit hx (hstay _ _ rfl) hput
  | @exitFaults p status msg hx hput =>
    obtain ⟨i, hi⟩ := Option.ne_none_iff_exists'.1 (hdir (hstay _ _ rfl) hx.running)
    simp [hi, InodeRefs.iput] at hput
  | create hf => exact hinv.create hf
  | createFails hf =>
    exact hinv.quiet (.free hinv.life (Or.inl (phase_unused_iff.2 (findUnused_spec hf).2.2))
      fun _ => Or.inl rfl)
  | hold i =>
    refine ⟨hinv.running, hinv.life, hinv.init, hinv.parent, hinv.hasDir, hinv.noDir, fun k => ?_⟩
    have hcount := hinv.count k
    by_cases hk : k = i
    · subst hk
      simp only [Function.update_self]
      omega
    · simp only [Function.update_of_ne hk]
      exact hcount
  | @drop i hpos =>
    refine ⟨hinv.running, hinv.life, hinv.init, hinv.parent, hinv.hasDir, hinv.noDir, fun k => ?_⟩
    have hcount := hinv.count k
    by_cases hk : k = i
    · subst hk
      simp only [Function.update_self]
      omega
    · simp only [Function.update_of_ne hk]
      exact hcount
  | chdir hr hheld hput => exact hinv.chdir hr hheld hput

/-! ## A zombie can be waited for -/

/-- The runs in which the functions of kernel threads do not return. -/
abbrev KthreadRun (initproc : ℕ) : List KthreadEvent → KthreadState → Prop :=
  Run (KthreadState.Boot initproc) (restrict (KthreadStep initproc) ThreadsStay)

theorem KthreadRun.inv (hrun : KthreadRun initproc h st) : KthreadInv initproc st :=
  hrun.invariant (P := fun _ st => KthreadInv initproc st) (fun _ hb => .start hb)
    fun _ _ _ _ hinv hs => KthreadStep.inv hinv hs

theorem KthreadRun.snoc {e : LifeEvent} {life : LifeState} (hrun : KthreadRun initproc h st)
    (hl : LifeStep ⟨initproc, st.kthread⟩ st.life e life) (hq : e.Quiet) :
    KthreadRun initproc (h ++ [e.kthread]) { st with life := life } := by
  refine Run.snoc hrun ⟨⟨(KthreadRun.inv hrun).running, .life hl hq⟩, fun p ip he => ?_⟩
  cases e <;> cases he

/-- The same zombies are there, as they were. -/
def KeepsZombies (l l' : LifeState) : Prop :=
  ∀ i, ((l.slot i).state = .zombie ∨ (l'.slot i).state = .zombie) → l'.slot i = l.slot i

theorem KeepsZombies.trans {l l' l'' : LifeState} (h : KeepsZombies l l')
    (h' : KeepsZombies l' l'') : KeepsZombies l l'' := by
  intro i hi
  rcases hi with hi | hi
  · have h1 := h i (Or.inl hi)
    exact (h' i (Or.inl (h1 ▸ hi))).trans h1
  · have h1 := h' i (Or.inr hi)
    exact h1.trans (h i (Or.inr (h1 ▸ hi)))

theorem KeepsZombies.update {l l' : LifeState} {i : ℕ} {s : PSlot}
    (hslot : l'.slot = Function.update l.slot i s) (hi : (l.slot i).state ≠ .zombie)
    (hs : s.state ≠ .zombie) : KeepsZombies l l' := by
  intro k hk
  rw [hslot] at hk ⊢
  by_cases hki : k = i
  · subst hki
    rw [Function.update_self] at hk
    exact (hk.elim hi hs).elim
  · exact Function.update_of_ne hki _ _

/-- The run goes on and keeps the zombies. -/
def GoesOn (initproc : ℕ) (h : List KthreadEvent) (st : KthreadState)
    (P : KthreadState → Prop) : Prop :=
  ∃ h' st', KthreadRun initproc (h ++ h') st' ∧ KeepsZombies st.life st'.life ∧
    st'.kthread = st.kthread ∧ P st'

theorem GoesOn.now {P : KthreadState → Prop} (hrun : KthreadRun initproc h st) (hP : P st) :
    GoesOn initproc h st P :=
  ⟨[], st, by rwa [List.append_nil], fun _ _ => rfl, rfl, hP⟩

theorem GoesOn.step {P : KthreadState → Prop} {life : LifeState}
    (hrun : KthreadRun initproc h st)
    (hl : LifeStep ⟨initproc, st.kthread⟩ st.life .other life) (hz : KeepsZombies st.life life)
    (hgo : ∀ h', KthreadRun initproc h' { st with life := life } →
      GoesOn initproc h' { st with life := life } P) : GoesOn initproc h st P := by
  obtain ⟨h', st', hrun', hz', hk', hP⟩ := hgo _ (KthreadRun.snoc hrun hl trivial)
  exact ⟨_ :: h', st', by rwa [List.append_cons], hz.trans hz', hk', hP⟩

theorem GoesOn.runs {q : ℕ} (hrun : KthreadRun initproc h st) (hq : st.life.phase q = .live) :
    GoesOn initproc h st fun st' => (st'.life.slot q).state = .running ∧
      st'.life.pc = st.life.pc := by
  have hdispatch : ∀ {h : List KthreadEvent} {st : KthreadState}, KthreadRun initproc h st →
      (st.life.slot q).state = .runnable → GoesOn initproc h st fun st' =>
        (st'.life.slot q).state = .running ∧ st'.life.pc = st.life.pc := fun hrun hs =>
    .step hrun (.dispatch hs) (.update rfl (by simp [hs]) (by simp)) fun h' hrun' =>
      .now hrun' ⟨by simp, rfl⟩
  unfold LifeState.phase at hq
  cases hs : (st.life.slot q).state with
  | unused | used | zombie => simp [hs, RunState.phase] at hq
  | running => exact .now hrun ⟨hs, rfl⟩
  | runnable => exact hdispatch hrun hs
  | sleeping =>
    refine .step hrun (.kill q false) (.update rfl (by simp [hs]) (by simp [hs])) fun h' hrun' => ?_
    exact hdispatch hrun' (by simp [hs])

theorem GoesOn.waits {q : ℕ} (hrun : KthreadRun initproc h st)
    (hr : st.life.Runs ⟨initproc, st.kthread⟩ q) :
    GoesOn initproc h st fun st' => st'.life.Runs ⟨initproc, st'.kthread⟩ q ∧
      st'.life.pc q = .waiting := by
  have huser : ∀ {h : List KthreadEvent} {st : KthreadState}, KthreadRun initproc h st →
      st.life.Runs ⟨initproc, st.kthread⟩ q → st.life.pc q = .user →
      GoesOn initproc h st fun st' => st'.life.Runs ⟨initproc, st'.kthread⟩ q ∧
        st'.life.pc q = .waiting := fun hrun hr hpc =>
    .step hrun (.wait hr hpc) (fun _ _ => rfl) fun h' hrun' => .now hrun' ⟨hr, by simp⟩
  have hforked : ∀ {h : List KthreadEvent} {st : KthreadState} {j : ℕ},
      KthreadRun initproc h st → st.life.Runs ⟨initproc, st.kthread⟩ q →
      st.life.pc q = .forked j → GoesOn initproc h st fun st' =>
        st'.life.Runs ⟨initproc, st'.kthread⟩ q ∧ st'.life.pc q = .waiting := by
    intro h st j hrun hr hpc
    have hj := phase_used_iff.1 ((KthreadRun.inv hrun).life.child q j (by rw [hpc]; rfl)).2
    have hqj : q ≠ j := by
      rintro rfl
      exact absurd (hr.2.2.symm.trans hj) RunState.noConfusion
    refine .step hrun (.ready hr hpc) (.update rfl (by simp [hj]) (by simp)) fun h' hrun' =>
      huser hrun' ⟨hr.1, hr.2.1, ?_⟩ (by simp)
    simpa [hqj] using hr.2.2
  cases hpc : st.life.pc q with
  | user => exact huser hrun hr hpc
  | waiting => exact .now hrun ⟨hr, hpc⟩
  | forked j => exact hforked hrun hr hpc
  | forking j =>
    have hj := phase_used_iff.1 ((KthreadRun.inv hrun).life.child q j (by rw [hpc]; rfl)).2
    have hqj : q ≠ j := by
      rintro rfl
      exact absurd (hr.2.2.symm.trans hj) RunState.noConfusion
    refine .step hrun (.setParent hr hpc) (.update rfl (by simp [hj]) (by simp [hj]))
      fun h' hrun' => hforked (j := j) hrun' ⟨hr.1, hr.2.1, ?_⟩ (by simp)
    simpa [hqj] using hr.2.2

/-- The zombies that a process can wait for. -/
def zombiesOf (q : ℕ) (l : LifeState) : Finset ℕ :=
  (Finset.range nProc).filter fun i => (l.slot i).state = .zombie ∧ (l.slot i).parent = some q

theorem KeepsZombies.zombiesOf {l l' : LifeState} (hk : KeepsZombies l l') (q : ℕ) :
    zombiesOf q l' = zombiesOf q l := by
  refine Finset.filter_congr fun i _ => ⟨fun hi => ?_, fun hi => ?_⟩
  · rwa [hk i (Or.inr hi.1)] at hi
  · rwa [← hk i (Or.inl hi.1)] at hi

theorem zombiesOf_free (q k : ℕ) (l : LifeState) (pc : ℕ → LifePc) :
    zombiesOf q { l with slot := Function.update l.slot k (l.slot k).free, pc := pc } =
      (zombiesOf q l).erase k := by
  ext i
  by_cases hik : i = k
  · subst hik
    refine iff_of_false (fun hi => ?_) (Finset.notMem_erase i _)
    have hz := (Finset.mem_filter.1 hi).2.1
    simp [PSlot.free] at hz
  · simp [zombiesOf, hik]

/-- The parent of a zombie gets to `kwait`, which frees one of its zombies at a time. -/
theorem KthreadRun.frees {q z : ℕ} : ∀ (n : ℕ) {h : List KthreadEvent} {st : KthreadState},
    KthreadRun initproc h st → (zombiesOf q st.life).card = n → z ∈ zombiesOf q st.life →
    ∃ h' st', KthreadRun initproc (h ++ h') st' ∧ (st'.life.slot z).state = .unused ∧
      .reaped (st.life.slot z).born ∈ h'
  | 0, _, _, _, hn, hz => absurd (Finset.card_eq_zero.1 hn ▸ hz) (Finset.notMem_empty z)
  | n + 1, h, st, hrun, hn, hz => by
    obtain ⟨hzlt, hzz, hzq⟩ : z < nProc ∧ (st.life.slot z).state = .zombie ∧
      (st.life.slot z).parent = some q := by simpa [zombiesOf] using hz
    have hinv := KthreadRun.inv hrun
    have hqlive := hinv.life.parent z q hzq
    obtain ⟨h₁, st₁, hrun₁, hk₁, ht₁, hs₁, -⟩ := GoesOn.runs hrun hqlive
    have hq₁ : st₁.life.Runs ⟨initproc, st₁.kthread⟩ q := by
      refine ⟨?_, ?_, hs₁⟩
      · by_contra hge
        rw [(hinv.life.bound q (not_lt.1 hge)).1] at hqlive
        exact absurd hqlive ProcState.noConfusion
      · rw [ht₁]
        exact hinv.parent z q hzq
    obtain ⟨h₂, st₂, hrun₂, hk₂, ht₂, hq₂, hpc₂⟩ := GoesOn.waits hrun₁ hq₁
    have hk := hk₁.trans hk₂
    have hz₂ : st₂.life.slot z = st.life.slot z := hk z (Or.inl hzz)
    rcases hscan : scanKids st₂.life.slot q nProc 0 false with ⟨_ | k, b⟩
    · exact absurd (hz₂ ▸ hzz)
        (scanKids_none hscan z (Nat.zero_le z) (by omega) (hz₂ ▸ hzq))
    obtain ⟨hklt, hkq, hkz⟩ := scanKids_spec hscan
    have hround : kwaitRound q false st₂.life.slot =
        (.reaped (st₂.life.slot q).born (st₂.life.slot k).born (st₂.life.slot k).pid
          (st₂.life.slot k).xstate, Function.update st₂.life.slot k (st₂.life.slot k).free,
          .user) := by
      simp [kwaitRound, hscan]
    have hscans : LifeStep ⟨initproc, st₂.kthread⟩ st₂.life _ _ := .scan false hq₂ hpc₂
    rw [hround] at hscans
    have hrun₃ := KthreadRun.snoc hrun₂ hscans trivial
    dsimp only [LifeEvent.kthread] at hrun₃
    by_cases hkz' : z = k
    · subst hkz'
      rw [List.append_assoc, List.append_assoc] at hrun₃
      exact ⟨_, _, hrun₃, by simp [PSlot.free], by simp [hz₂]⟩
    · have hcard : (zombiesOf q { st₂.life with
          slot := Function.update st₂.life.slot k (st₂.life.slot k).free
          pc := Function.update st₂.life.pc q .user }) = (zombiesOf q st.life).erase k := by
        rw [zombiesOf_free, hk.zombiesOf q]
      have hkmem : k ∈ zombiesOf q st.life := by
        rw [← hk.zombiesOf q]
        simp [zombiesOf, hkz, hkq]
        omega
      obtain ⟨h₄, st₄, hrun₄, hun, hreap⟩ := KthreadRun.frees n hrun₃
        (by rw [hcard, Finset.card_erase_of_mem hkmem, hn]; rfl)
        (by rw [hcard]; exact Finset.mem_erase.2 ⟨hkz', hz⟩)
      rw [List.append_assoc, List.append_assoc, List.append_assoc] at hrun₄
      dsimp only at hreap
      rw [Function.update_of_ne hkz', hz₂] at hreap
      exact ⟨_, st₄, hrun₄, hun, by simp [hreap]⟩

/-- What `kexit` relies on and what becomes of the zombies it leaves. -/
structure ExitsSafely (initproc : ℕ) (h : List KthreadEvent) (st : KthreadState) : Prop where
  running : st.halted = false
  /-- `iput` gets an inode that is referenced. -/
  iput : ∀ h₁ p ip, h₁ ++ [.iput p ip] <+: h → ∃ st₁ i, KthreadRun initproc h₁ st₁ ∧
    st₁.cwd p = ip ∧ ip = some i ∧ 1 ≤ st₁.ref i
  parent : ∀ z, (st.life.slot z).state = .zombie →
    ∃ q, (st.life.slot z).parent = some q ∧ st.life.Alive q
  /-- The slot of a zombie can be freed by `kwait`. -/
  freed : ∀ z, (st.life.slot z).state = .zombie → ∃ h' st', KthreadRun initproc (h ++ h') st' ∧
    (st'.life.slot z).state = .unused ∧ .reaped (st.life.slot z).born ∈ h'

theorem KthreadInv.zombie {z : ℕ} (hinv : KthreadInv initproc st)
    (hz : (st.life.slot z).state = .zombie) :
    z < nProc ∧ ∃ q, (st.life.slot z).parent = some q ∧ st.life.phase q = .live := by
  have hph : st.life.phase z = .zombie := phase_zombie_iff.2 hz
  constructor
  · by_contra hge
    exact absurd (hph.symm.trans (hinv.life.bound z (not_lt.1 hge)).1) ProcState.noConfusion
  · cases hq : (st.life.slot z).parent with
    | some q => exact ⟨q, rfl, hinv.life.parent z q hq⟩
    | none =>
      rcases hinv.life.orphan z hq with hc | hc | hc
      · exact absurd (hph.symm.trans hc) ProcState.noConfusion
      · exact absurd (hph.symm.trans hc) ProcState.noConfusion
      · exact absurd (hph.symm.trans (hinv.life.root z hc)) ProcState.noConfusion

theorem KthreadInv.referenced {i : ℕ} (hinv : KthreadInv initproc st) (hp : p < nProc)
    (hi : st.cwd p = some i) : 1 ≤ st.ref i := by
  have hle := le_tally (f := st.cwd) (g := refersTo i) hp
  have hcount := hinv.count i
  rw [hi, refersTo_self] at hle
  omega

/-- As long as the function of no kernel thread returns, every `kexit` is safe. -/
theorem exits_safely (hrun : KthreadRun initproc h st) : ExitsSafely initproc h st := by
  have hinv := KthreadRun.inv hrun
  refine ⟨hinv.running, fun h₁ p ip hpre => ?_, fun z hz => ?_, fun z hz => ?_⟩
  · obtain ⟨st₁, st₂, hrun₁, ⟨-, hm⟩, hstay⟩ := hrun.at_event hpre
    have hinv₁ := KthreadRun.inv hrun₁
    have hk := hstay p ip rfl
    obtain ⟨hlt, hlive, hip⟩ : p < nProc ∧ (st₁.life.slot p).state = .running ∧
        st₁.cwd p = ip := by
      generalize he : KthreadEvent.iput p ip = e at hm
      cases hm with
      | exit _ hx _ | exitFaults _ hx _ =>
        obtain ⟨rfl, rfl⟩ := KthreadEvent.iput.inj he
        exact ⟨hx.lt, hx.running, rfl⟩
      | @life e _ _ _ => cases e <;> cases he
      | _ => cases he
    obtain ⟨i, hi⟩ := Option.ne_none_iff_exists'.1
      (hinv₁.hasDir p hk (Or.inl (by simp [LifeState.phase, hlive, RunState.phase])))
    exact ⟨st₁, i, hrun₁, hip, hip.symm.trans hi, hinv₁.referenced hlt hi⟩
  · obtain ⟨-, q, hq, hl⟩ := hinv.zombie hz
    refine ⟨q, hq, fun hc => ?_, fun hc => ?_⟩
    · exact absurd (hl.symm.trans (phase_unused_iff.2 hc)) ProcState.noConfusion
    · exact absurd (hl.symm.trans (phase_zombie_iff.2 hc)) ProcState.noConfusion
  · obtain ⟨hlt, q, hq, -⟩ := hinv.zombie hz
    exact KthreadRun.frees (q := q) _ hrun rfl (by simp [zombiesOf, hlt, hz, hq])

end Kthread

/-! ## A kernel thread that returns -/

/-- `initproc` runs in slot `0`, in the root directory. -/
def bootKthread : KthreadState where
  life := bootLife
  kthread := fun _ => false
  cwd := fun p => if p = 0 then some 0 else none
  ref := fun i => if i = 0 then 1 else 0
  held := fun _ => 0
  halted := false

theorem bootKthread_boot : bootKthread.Boot 0 :=
  ⟨bootLife_init, fun _ => rfl, ⟨0, rfl, fun _ => rfl⟩, fun _ hp => if_neg hp, fun _ => rfl, rfl⟩

/-- A child of `initproc` exits beside a kernel thread. -/
theorem exits_safely_child : ∃ h st, ExitsSafely 0 h st ∧ .iput 2 (some 0) ∈ h ∧
    (st.life.slot 2).state = .zombie := by
  have hstay : ∀ {st : KthreadState}, ThreadsStay st .other := fun _ _ he =>
    KthreadEvent.noConfusion he
  have h0 : KthreadRun 0 [] bootKthread := .start bootKthread_boot
  have h1 := Run.snoc h0 ⟨⟨rfl, .create (j := 1) rfl⟩, hstay⟩
  have h2 := Run.snoc h1 ⟨⟨rfl, .fork (p := 0) (j := 2) ⟨by decide, rfl, rfl⟩ rfl rfl rfl⟩, hstay⟩
  have h3 := KthreadRun.snoc h2 (.setParent (p := 0) (j := 2) ⟨by decide, rfl, rfl⟩ rfl) trivial
  have h4 := KthreadRun.snoc h3 (.ready (p := 0) (j := 2) ⟨by decide, rfl, rfl⟩ rfl) trivial
  have h5 := KthreadRun.snoc h4 (.dispatch (i := 2) rfl) trivial
  have h6 := Run.snoc h5 ⟨⟨rfl, .exit (p := 2) 7 ⟨by decide, rfl, rfl, by decide,
    nofun⟩ rfl⟩, fun p ip he => by obtain ⟨rfl, -⟩ := KthreadEvent.iput.inj he; rfl⟩
  exact ⟨_, _, exits_safely h6, List.mem_append_right _ (List.mem_singleton.2 rfl), rfl⟩

/-- A kernel thread whose function returns : `kexit` passes the null pointer to `iput`, which
faults, and there is no parent to wait for it. -/
theorem kthread_exit_faults : ∃ h st, Run (KthreadState.Boot 0) (KthreadStep 0) h st ∧
    st.kthread 1 = true ∧ .iput 1 none ∈ h ∧ st.halted = true ∧
    (st.life.slot 1).parent = none := by
  have h0 : Run (KthreadState.Boot 0) (KthreadStep 0) [] bootKthread := .start bootKthread_boot
  have h1 := h0.snoc ⟨rfl, .create (j := 1) rfl⟩
  have h2 := h1.snoc ⟨rfl, .life (.dispatch (i := 1) rfl) trivial⟩
  have h3 := h2.snoc ⟨rfl, .exitFaults (p := 1) 0 ⟨by decide, rfl, rfl, by decide,
    fun _ => rfl⟩ rfl⟩
  exact ⟨_, _, h3, rfl, List.mem_append_right _ (List.mem_singleton.2 rfl), rfl, rfl⟩

end Xv6Plus
