import Xv6Plus.Proc
import Xv6Plus.File
import Xv6Plus.Signal
import Xv6Plus.Kthread

/-!
# Processes as a whole : `kernel/proc.c` and `kernel/exec.c`

`Proc` and `Machine` have the memory of the processes. Here `allocproc`, `freeproc`, `kfork`,
`kthread_create` and `kexec` are given with all that they change : the memory, the descriptors
and the files they refer to, the current directories with the reference counts of their inodes,
the pids and the signal state. The path that `kexec` looks up leads to an entry of the inode table
or to none.
-/

namespace Xv6Plus

/-- The signal fields of `struct proc`. -/
structure Signals where
  pendingSignals : ℕ
  signalHandlersValid : ℕ
  signalHandlers : ℕ → ℕ
  sigTrapframe : Trapframe
  sigTrapframeValid : Bool

def initSignals : Signals := ⟨0, 0, fun _ => 0, ⟨0, 0, 0, 0, 0, fun _ => 0⟩, false⟩

/-- The fields of `struct proc` beside its memory and its descriptors. -/
structure ProcInfo where
  pid : ℤ
  parent : Option ℕ
  killed : Bool
  xstate : ℤ
  isKthread : Bool
  /-- `p->cwd`, an entry of the inode table. -/
  cwd : Option ℕ
  name : List UInt8
  signals : Signals

/-- What `freeproc` leaves in the slot. -/
def ProcInfo.free (x : ProcInfo) : ProcInfo :=
  { x with
    pid := 0
    parent := none
    killed := false
    xstate := 0
    isKthread := false
    name := []
    signals := initSignals }

/-- `safestrcpy` into an array of `n` bytes. -/
def safestrcpy (s : List UInt8) (n : ℕ) : List UInt8 := s.take (n - 1)

structure Sys where
  machine : Machine
  files : FileSys
  info : ℕ → ProcInfo
  nextpid : ℤ
  inodeRef : InodeRefs

namespace Sys

/-- Code over the memory. -/
def onPhys {α : Type} (x : Kern Phys α) : Kern Sys α :=
  zoom (fun st => st.machine.phys)
    (fun t st => { st with machine := { st.machine with phys := t } }) x

/-- Code over the open files. -/
def onFiles {α : Type} (x : Kern FileSys α) : Kern Sys α :=
  zoom Sys.files (fun t st => { st with files := t }) x

def setProc (i : ℕ) (p : Proc) : Kern Sys Unit :=
  modify fun st => { st with machine :=
    { st.machine with proc := Function.update st.machine.proc i p } }

def setInfo (i : ℕ) (x : ProcInfo) : Kern Sys Unit :=
  modify fun st => { st with info := Function.update st.info i x }

def allocpid : Kern Sys ℤ := do
  let st ← get
  modify fun st => { st with nextpid := st.nextpid + 1 }
  pure st.nextpid

/-- `freeproc`, which leaves out the page table of a kernel thread. -/
def freeproc (i : ℕ) : Kern Sys Unit := do
  let st ← get
  let p := st.machine.proc i
  let p ← onPhys (Xv6Plus.freeproc
    { p with pagetable := if (st.info i).isKthread then 0 else p.pagetable })
  setProc i p
  setInfo i (st.info i).free

/-- `allocproc`, from the slot `i` on. -/
def allocprocFrom : ℕ → ℕ → Kern Sys (Option ℕ)
  | 0, _ => pure none
  | n + 1, i => do
    let st ← get
    if (st.machine.proc i).state = .unused then
      let pid ← allocpid
      let (p, ok) ← onPhys (allocprocFound st.machine.trampolinePa (st.machine.proc i))
      setProc i p
      if ok then
        setInfo i { st.info i with pid := pid, signals := initSignals }
        pure (some i)
      else
        -- `allocprocFound` has given back the memory
        setInfo i (st.info i).free
        pure none
    else
      allocprocFrom n (i + 1)

def idup (ip : Option ℕ) : Kern Sys Unit := do
  let st ← get
  match st.inodeRef.idup ip with
  | .ok ref => modify fun st => { st with inodeRef := ref }
  | .error e => throw e

def iput (ip : Option ℕ) : Kern Sys Unit := do
  let st ← get
  match st.inodeRef.iput ip with
  | .ok ref => modify fun st => { st with inodeRef := ref }
  | .error e => throw e

/-- `kfork`, by the process `i`. -/
def kfork (i : ℕ) : Kern Sys ℤ := do
  let st ← get
  if (st.info i).isKthread then throw "kfork from kthread"
  else
    match ← allocprocFrom nProc 0 with
    | none => pure (-1)
    | some j =>
      let st ← get
      let p := st.machine.proc i
      let np := st.machine.proc j
      let r ← onPhys (uvmcopy p.pagetable np.pagetable p.sz)
      if r < 0 then
        freeproc j
        pure (-1)
      else
        -- `*(np->trapframe) = *(p->trapframe)`, and `a0` is cleared
        onPhys (moveBytes np.trapframe p.trapframe 288)
        onPhys (store64 (np.trapframe + 112) 0)
        onFiles (forkFiles i j nOfile 0)
        idup (st.info i).cwd
        setProc j { np with sz := p.sz, state := .live }
        setInfo j { st.info j with
          cwd := (st.info i).cwd
          name := safestrcpy (st.info i).name 16
          parent := some i
          signals := { initSignals with
            signalHandlers := (st.info i).signals.signalHandlers
            signalHandlersValid := (st.info i).signals.signalHandlersValid } }
        pure (st.info j).pid

/-- `kthread_create`. The function of the thread is left out. -/
def kthreadCreate (name : List UInt8) : Kern Sys (Option ℕ) := do
  match ← allocprocFrom nProc 0 with
  | none => pure none
  | some j =>
    let st ← get
    let p := st.machine.proc j
    onPhys (modify fun s => s.setMem (memset s.mem p.trapframe 0 288))
    setProc j { p with sz := 0, state := .live }
    setInfo j { st.info j with isKthread := true, name := safestrcpy name 16 }
    pure (some j)

/-- The loop of `kexec` that finds the name of the program in its path. -/
def lastElem (last : List UInt8) : List UInt8 → List UInt8
  | [] => last
  | c :: s => lastElem (if c = '/'.toUInt8 then s else last) s

/-- `kexec`, by the process `i`. The lookup of the path takes a reference to the inode, which is
dropped when the program has been loaded or on the way out. -/
def kexec (namei : List UInt8 → Option (ℕ × ExecFile)) (i : ℕ) (path : List UInt8)
    (argv : List (List UInt8)) : Kern Sys ℤ := do
  let st ← get
  if (st.info i).isKthread then throw "exit from kthread"
  else
    match namei path with
    | none => pure (-1)
    | some (ip, file) =>
      idup (some ip)
      let (r, p) ← onPhys
        (Xv6Plus.kexec st.machine.trampolinePa (st.machine.proc i) file argv)
      iput (some ip)
      if r < 0 then pure r
      else
        setProc i p
        setInfo i { st.info i with
          name := safestrcpy (lastElem path path) 16
          signals := initSignals }
        pure r

end Sys

end Xv6Plus
