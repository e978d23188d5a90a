import Xv6Plus.Slab
import Xv6Plus.Pipe

/-!
# Open files : `kernel/file.c` and the descriptors of `kernel/sysfile.c`

The table `ftable`, the descriptors `p->ofile` of every process and the pipes that open files
refer to. A `struct pipe` comes from `kmalloc` and goes back with `kmfree`; the two run on the
allocator's own state. The fields of a pipe are kept by its address.

What `sys_open` does before it allocates a file, and the `iput` that `fileclose` may end in,
belong to the inode layer : `openFile` gets the inode and `fileclose` returns the one to put.
`FileSys.log` records which files of pipes are opened and closed and when a pipe is freed.
-/

namespace Xv6Plus

abbrev nFile : ℕ := 100

abbrev nOfile : ℕ := 16

/-- `sizeof(struct pipe)`. -/
abbrev pipeBytes : ℕ := 552

/-- `FD_NONE`, `FD_PIPE`, `FD_INODE` and `FD_DEVICE`. -/
inductive FdType
  | none
  | pipe
  | inode
  | device
  deriving DecidableEq

/-- `struct file`; `pipe` and `ip` are addresses. -/
structure File where
  type : FdType
  ref : ℕ
  readable : Bool
  writable : Bool
  pipe : ℕ
  ip : ℕ
  off : ℕ
  major : ℤ

inductive FileEvent
  /-- The file `f` becomes an end of the pipe `r`. -/
  | opened (f r : ℕ)
  /-- The last reference to the file `f` of the pipe `r` is dropped. -/
  | closed (f r : ℕ)
  /-- `kmfree` of the pipe `r`. -/
  | freed (r : ℕ)
  deriving DecidableEq

structure FileSys where
  /-- `ftable.file`. -/
  file : ℕ → File
  /-- `ofile` of each slot of the process table. -/
  ofile : ℕ → ℕ → Option ℕ
  /-- The pipe at an address. -/
  pipe : ℕ → Pipe
  kmem : Kmem
  log : List FileEvent

namespace FileSys

def setFile (f : ℕ) (x : File) (s : FileSys) : FileSys :=
  { s with file := Function.update s.file f x }

/-- `p->ofile[fd] = o`. -/
def setFd (p fd : ℕ) (o : Option ℕ) (s : FileSys) : FileSys :=
  { s with ofile := Function.update s.ofile p (Function.update (s.ofile p) fd o) }

def setPipe (r : ℕ) (pi : Pipe) (s : FileSys) : FileSys :=
  { s with pipe := Function.update s.pipe r pi }

def setKmem (k : Kmem) (s : FileSys) : FileSys := { s with kmem := k }

def record (e : FileEvent) (s : FileSys) : FileSys := { s with log := s.log ++ [e] }

/-- The loop of `filealloc`. -/
def findFile (s : FileSys) : ℕ → ℕ → Option ℕ
  | 0, _ => none
  | n + 1, f => if (s.file f).ref = 0 then some f else s.findFile n (f + 1)

/-- The loop of `fdalloc`. -/
def findFd (s : FileSys) (p : ℕ) : ℕ → ℕ → Option ℕ
  | 0, _ => none
  | n + 1, fd => if s.ofile p fd = none then some fd else s.findFd p n (fd + 1)

/-- `argfd` : the descriptor and the file, `none` if there is none. -/
def argfd (s : FileSys) (p : ℕ) (fd : ℤ) : Option (ℕ × ℕ) :=
  if fd < 0 ∨ fd ≥ nOfile then none
  else (s.ofile p fd.toNat).map fun f => (fd.toNat, f)

/-- The number of descriptors of all processes that refer to the file. -/
def count (s : FileSys) (f : ℕ) : ℕ :=
  ((Finset.range nProc ×ˢ Finset.range nOfile).filter fun x => s.ofile x.1 x.2 = some f).card

end FileSys

open FileSys

def filealloc : Kern FileSys (Option ℕ) := do
  let s ← get
  match s.findFile nFile 0 with
  | none => pure none
  | some f =>
    modify (setFile f { s.file f with ref := 1 })
    pure (some f)

def filedup (f : ℕ) : Kern FileSys Unit := do
  let s ← get
  if (s.file f).ref < 1 then throw "filedup"
  else modify (setFile f { s.file f with ref := (s.file f).ref + 1 })

def pipeclose (r : ℕ) (writable : Bool) : Kern FileSys Unit := do
  modify fun s => s.setPipe r ((s.pipe r).pipeclose writable).1
  let s ← get
  if (s.pipe r).readopen = false ∧ (s.pipe r).writeopen = false then
    zoom FileSys.kmem setKmem (kmfree r pipeBytes)
    modify (record (.freed r))
  else pure ()

/-- `fileclose`; the result is the inode that is put. -/
def fileclose (f : ℕ) : Kern FileSys (Option ℕ) := do
  let s ← get
  let ff := s.file f
  if ff.ref < 1 then throw "fileclose"
  else if ff.ref - 1 > 0 then
    modify (setFile f { ff with ref := ff.ref - 1 })
    pure none
  else
    modify (setFile f { ff with ref := 0, type := .none })
    if ff.type = .pipe then
      modify (record (.closed f ff.pipe))
      pipeclose ff.pipe ff.writable
      pure none
    else if ff.type = .inode ∨ ff.type = .device then pure (some ff.ip)
    else pure none

/-- The assignments of `pipealloc` : the pipe at `r` with its two ends. -/
def makePipe (f0 f1 r : ℕ) (s : FileSys) : FileSys :=
  let s := s.setPipe r
    { s.pipe r with readopen := true, writeopen := true, nwrite := 0, nread := 0 }
  let s := (s.setFile f0 { s.file f0 with
    type := .pipe, readable := true, writable := false, pipe := r }).record (.opened f0 r)
  (s.setFile f1 { s.file f1 with
    type := .pipe, readable := false, writable := true, pipe := r }).record (.opened f1 r)

/-- `pipealloc`. The jump to `bad` is only taken while `pi` is null. -/
def pipealloc : Kern FileSys (Option (ℕ × ℕ)) := do
  match ← filealloc with
  | none => pure none
  | some f0 =>
    match ← filealloc with
    | none =>
      let _ ← fileclose f0
      pure none
    | some f1 =>
      let r ← zoom FileSys.kmem setKmem (kmalloc pipeBytes)
      if r = 0 then
        let _ ← fileclose f0
        let _ ← fileclose f1
        pure none
      else
        modify (makePipe f0 f1 r)
        pure (some (f0, f1))

def fdalloc (p f : ℕ) : Kern FileSys (Option ℕ) := do
  let s ← get
  match s.findFd p nOfile 0 with
  | none => pure none
  | some fd =>
    modify (setFd p fd (some f))
    pure (some fd)

def sysDup (p : ℕ) (fd : ℤ) : Kern FileSys ℤ := do
  let s ← get
  match s.argfd p fd with
  | none => pure (-1)
  | some (_, f) =>
    match ← fdalloc p f with
    | none => pure (-1)
    | some fd =>
      filedup f
      pure fd

/-- `sys_close`, with the inode that is put. -/
def sysClose (p : ℕ) (fd : ℤ) : Kern FileSys (ℤ × Option ℕ) := do
  let s ← get
  match s.argfd p fd with
  | none => pure (-1, none)
  | some (fd, f) =>
    modify (setFd p fd none)
    let ip ← fileclose f
    pure (0, ip)

/-- Undo both ends in `sys_pipe`. -/
def closeBoth (rf wf : ℕ) : Kern FileSys ℤ := do
  let _ ← fileclose rf
  let _ ← fileclose wf
  pure (-1)

/-- `sys_pipe`; `copied` tells whether both calls of `copyout` succeed. -/
def sysPipe (p : ℕ) (copied : Bool) : Kern FileSys ℤ := do
  match ← pipealloc with
  | none => pure (-1)
  | some (rf, wf) =>
    match ← fdalloc p rf with
    | none => closeBoth rf wf
    | some fd0 =>
      match ← fdalloc p wf with
      | none =>
        modify (setFd p fd0 none)
        closeBoth rf wf
      | some fd1 =>
        if copied then pure 0
        else
          modify fun s => (s.setFd p fd0 none).setFd p fd1 none
          closeBoth rf wf

/-- What `sys_open` knows of the inode when it allocates a file. -/
structure OpenInode where
  ip : ℕ
  device : Bool
  major : ℤ
  readable : Bool
  writable : Bool

/-- The assignments of `sys_open` to the new file. -/
def OpenInode.assign (x : OpenInode) (f : File) : File :=
  if x.device then
    { f with type := .device, major := x.major, ip := x.ip, readable := x.readable
             writable := x.writable }
  else
    { f with type := .inode, off := 0, ip := x.ip, readable := x.readable
             writable := x.writable }

/-- `sys_open` from `filealloc` on : the descriptor. -/
def openFile (p : ℕ) (x : OpenInode) : Kern FileSys (Option ℕ) := do
  match ← filealloc with
  | none => pure none
  | some f =>
    match ← fdalloc p f with
    | none =>
      let _ ← fileclose f
      pure none
    | some fd =>
      modify fun s => s.setFile f (x.assign (s.file f))
      pure (some fd)

/-- The loop over `ofile` in `kfork`. -/
def forkFiles (p np : ℕ) : ℕ → ℕ → Kern FileSys Unit
  | 0, _ => pure ()
  | n + 1, i => do
    let s ← get
    match s.ofile p i with
    | none => forkFiles p np n (i + 1)
    | some f =>
      filedup f
      modify (setFd np i (some f))
      forkFiles p np n (i + 1)

/-- The loop over `ofile` in `kexit`. -/
def exitFiles (p : ℕ) : ℕ → ℕ → Kern FileSys Unit
  | 0, _ => pure ()
  | n + 1, i => do
    let s ← get
    match s.ofile p i with
    | none => exitFiles p n (i + 1)
    | some f =>
      let _ ← fileclose f
      modify (setFd p i none)
      exitFiles p n (i + 1)

end Xv6Plus
