import Xv6Plus.Vm

/-!
# Processes and their memory : `kernel/proc.c`, `kernel/exec.c`, `kernel/sysproc.c`

The part of process management that allocates and frees memory : a slot of the process
table gets a trapframe page and a page table (`allocproc`), grows and shrinks (`sys_sbrk`),
is copied (`kfork`), gets a new image (`kexec`), exits and is freed.

Kernel threads, scheduling, signals, open files and the working directory are left out, and
so are the locks : every call is one step. An executable file is what `readi` returns for
it (`ExecFile`).
-/

namespace Xv6Plus

/-! ## Page tables of processes -/

def procFreepagetable (pagetable sz : ℕ) : Kern Phys Unit := do
  uvmunmap pagetable trampoline 1 false
  uvmunmap pagetable trapframe 1 false
  uvmfree pagetable sz

/-- `proc_pagetable`; `trampolinePa` is the address of `trampoline` (`trampoline.S`). -/
def procPagetable (trampolinePa : ℕ) (p : Proc) : Kern Phys ℕ := do
  let pagetable ← uvmcreate
  if pagetable = 0 then
    pure 0
  else
    let r ← mappages pagetable trampoline pgSize trampolinePa (pteR ||| pteX)
    if r < 0 then
      uvmfree pagetable 0
      pure 0
    else
      let r ← mappages pagetable trapframe pgSize p.trapframe (pteR ||| pteW)
      if r < 0 then
        uvmunmap pagetable trampoline 1 false
        uvmfree pagetable 0
        pure 0
      else
        pure pagetable

/-- A slot of the process table that is not in use. -/
def unusedProc : Proc := ⟨.unused, 0, 0, 0⟩

/-- `freeproc`; the returned value is the new contents of the slot. -/
def freeproc (p : Proc) : Kern Phys Proc := do
  if p.trapframe ≠ 0 then
    kfree p.trapframe
  if p.pagetable ≠ 0 then
    procFreepagetable p.pagetable p.sz
  pure unusedProc

/-- `allocproc` from the label `found` on, for a slot that is `UNUSED`; the slot and whether it
was set up. -/
def allocprocFound (trampolinePa : ℕ) (p : Proc) : Kern Phys (Proc × Bool) := do
  let tf ← kalloc
  let p := { p with state := .used, trapframe := tf }
  if tf = 0 then
    pure (← freeproc p, false)
  else
    let pagetable ← procPagetable trampolinePa p
    let p := { p with pagetable := pagetable }
    if pagetable = 0 then
      pure (← freeproc p, false)
    else
      pure (p, true)

/-! ## `sbrk` -/

/-- `sz + n`, in 64 bits, for an `int` `n`. -/
def addInt (sz : ℕ) (n : ℤ) : ℕ := ((sz + n) % 2 ^ 64).toNat

def growproc (p : Proc) (n : ℤ) : Kern Phys (ℤ × Proc) := do
  if n > 0 then
    let sz ← uvmalloc p.pagetable p.sz (addInt p.sz n) pteW
    if sz = 0 then pure (-1, p) else pure (0, { p with sz := sz })
  else if n < 0 then
    let sz ← uvmdealloc p.pagetable p.sz (addInt p.sz n)
    pure (0, { p with sz := sz })
  else
    pure (0, p)

/-- `sys_sbrk`; `eager` is `t == SBRK_EAGER`. The result is the old size, or `-1`. -/
def sysSbrk (p : Proc) (n : ℤ) (eager : Bool) : Kern Phys (ℤ × Proc) := do
  if eager ∨ n < 0 then
    let (r, p') ← growproc p n
    if r < 0 then pure (-1, p') else pure (p.sz, p')
  else if addInt p.sz n < p.sz then
    pure (-1, p)
  else
    pure (p.sz, { p with sz := addInt p.sz n })

/-! ## `exec` -/

/-- An executable file : the bytes that `readi` returns for an offset and a length. -/
structure ExecFile where
  read : ℕ → ℕ → List UInt8
  read_le : ∀ off n, (read off n).length ≤ n

/-- Bytes that were read into a variable. -/
def bytesAt (l : List UInt8) : Mem := fun i => l.getD i 0

def flags2perm (flags : ℕ) : ℕ :=
  (if flags &&& 1 ≠ 0 then pteX else 0) ||| (if flags &&& 2 ≠ 0 then pteW else 0)

/-- The loop of `loadseg` from the offset `i` on. -/
def loadsegLoop (pagetable va : ℕ) (file : ExecFile) (offset sz : ℕ) : ℕ → ℕ → Kern Phys ℤ
  | 0, _ => pure 0
  | turns + 1, i =>
    if i < sz then do
      let pa ← walkaddr pagetable (wrap64 (va + i))
      if pa = 0 then throw "loadseg: address should exist"
      else
        let n := min (sz - i) pgSize
        let bytes := file.read ((offset + i) % 2 ^ 32) n
        modify fun s => s.setMem (storeBytes s.mem pa bytes)
        if bytes.length ≠ n then pure (-1)
        else loadsegLoop pagetable va file offset sz turns ((i + pgSize) % 2 ^ 32)
    else pure 0

def loadseg (pagetable va : ℕ) (file : ExecFile) (offset sz : ℕ) : Kern Phys ℤ :=
  loadsegLoop pagetable va file offset sz (sz / pgSize + 1) 0

/-- The loop of `kexec` over `n` program headers from the offset `off` on; `false` is
`goto bad`, with the size at that point. -/
def loadProgram (pagetable : ℕ) (file : ExecFile) : ℕ → ℕ → ℕ → Kern Phys (Bool × ℕ)
  | 0, _, sz => pure (true, sz)
  | n + 1, off, sz =>
    let bytes := file.read (off % 2 ^ 32) 56
    let ph := bytesAt bytes
    if bytes.length ≠ 56 then pure (false, sz)
    -- `ph.type != ELF_PROG_LOAD`
    else if read32 ph 0 ≠ 1 then loadProgram pagetable file n (off + 56) sz
    else
      let flags := read32 ph 4
      let offset := read64 ph 8
      let vaddr := read64 ph 16
      let filesz := read64 ph 32
      let memsz := read64 ph 40
      if memsz < filesz then pure (false, sz)
      else if wrap64 (vaddr + memsz) < vaddr then pure (false, sz)
      else if vaddr % pgSize ≠ 0 then pure (false, sz)
      else do
        let sz1 ← uvmalloc pagetable sz (wrap64 (vaddr + memsz)) (flags2perm flags)
        if sz1 = 0 then
          pure (false, sz)
        else
          let r ← loadseg pagetable vaddr file (offset % 2 ^ 32) (filesz % 2 ^ 32)
          if r < 0 then pure (false, sz1)
          else loadProgram pagetable file n (off + 56) sz1

abbrev maxArg : ℕ := 32

/-- Copy the argument strings to the new stack; the stack pointer and `ustack`, or `none` for
`goto bad`. -/
def pushArgs (p : Proc) (pagetable stackbase : ℕ) :
    List (List UInt8) → ℕ → List ℕ → Kern Phys (Option (ℕ × List ℕ))
  | [], sp, ustack => pure (some (sp, ustack))
  | arg :: args, sp, ustack =>
    if ustack.length ≥ maxArg then pure none
    else do
      let sp := wrap64 (sp + 2 ^ 64 - (arg.length + 1))
      let sp := sp - sp % 16
      if sp < stackbase then
        pure none
      else
        let r ← copyout p pagetable sp (arg ++ [0])
        if r < 0 then pure none
        else pushArgs p pagetable stackbase args sp (ustack ++ [sp])

/-- The bytes of an array of 64-bit words. -/
def wordBytes (ws : List ℕ) : List UInt8 :=
  ws.flatMap fun w => (List.range 8).map fun i => UInt8.ofNat (w / 256 ^ i)

/-- The stack of the new image : two pages, the first of them the guard page, and the
arguments. The result is the size and the stack pointer, or `none` for `goto bad`, and the
size. -/
def buildStack (p : Proc) (pagetable sz : ℕ) (argv : List (List UInt8)) :
    Kern Phys (Option ℕ × ℕ) := do
  let sz := pgRoundUp sz
  let sz1 ← uvmalloc pagetable sz (wrap64 (sz + 2 * pgSize)) pteW
  if sz1 = 0 then
    pure (none, sz)
  else
    uvmclear pagetable (sz1 - 2 * pgSize)
    let stackbase := sz1 - pgSize
    match ← pushArgs p pagetable stackbase argv sz1 [] with
    | none => pure (none, sz1)
    | some (sp, ustack) =>
      let sp := wrap64 (sp + 2 ^ 64 - (ustack.length + 1) * 8)
      let sp := sp - sp % 16
      if sp < stackbase then
        pure (none, sz1)
      else
        let r ← copyout p pagetable sp (wordBytes (ustack ++ [0]))
        if r < 0 then pure (none, sz1) else pure (some sp, sz1)

/-- `kexec`, from the open file on. The result is `argc`, or `-1`. -/
def kexec (trampolinePa : ℕ) (p : Proc) (file : ExecFile) (argv : List (List UInt8)) :
    Kern Phys (ℤ × Proc) := do
  let bytes := file.read 0 64
  let elf := bytesAt bytes
  if bytes.length ≠ 64 then
    pure (-1, p)
  -- `elf.magic != ELF_MAGIC`
  else if read32 elf 0 ≠ 0x464C457F then
    pure (-1, p)
  else
    let pagetable ← procPagetable trampolinePa p
    if pagetable = 0 then
      pure (-1, p)
    else
      let (ok, sz) ← loadProgram pagetable file (readLE elf 56 2) (read64 elf 32) 0
      if ok = false then
        procFreepagetable pagetable sz
        pure (-1, p)
      else
        let (sp, sz) ← buildStack p pagetable sz argv
        match sp with
        | none =>
          procFreepagetable pagetable sz
          pure (-1, p)
        | some sp =>
          -- `p->trapframe->a1`, `epc` and `sp`
          store64 (p.trapframe + 120) sp
          store64 (p.trapframe + 24) (read64 elf 24)
          store64 (p.trapframe + 48) sp
          procFreepagetable p.pagetable p.sz
          pure (argv.length, { p with pagetable := pagetable, sz := sz })

/-! ## The process table -/

/-- The memory and the process table. -/
structure Machine where
  phys : Phys
  proc : ℕ → Proc
  /-- The address of `trampoline`, in the kernel's text. -/
  trampolinePa : ℕ

namespace Machine

/-- Code over the memory. -/
def onPhys {α : Type} (x : Kern Phys α) : Kern Machine α :=
  zoom Machine.phys (fun t m => { m with phys := t }) x

/-- Replace a slot of the process table. -/
def setProc (i : ℕ) (p : Proc) : Kern Machine Unit :=
  modify fun m => { m with proc := Function.update m.proc i p }

/-- `allocproc` : the index of the new process. -/
def allocprocFrom : ℕ → ℕ → Kern Machine (Option ℕ)
  | 0, _ => pure none
  | n + 1, i => do
    let m ← get
    if (m.proc i).state = .unused then
      let (p, ok) ← onPhys (allocprocFound m.trampolinePa (m.proc i))
      setProc i p
      pure (if ok then some i else none)
    else
      allocprocFrom n (i + 1)

def allocproc : Kern Machine (Option ℕ) := allocprocFrom nProc 0

/-- `kfork`, by the process `i`. -/
def kfork (i : ℕ) : Kern Machine ℤ := do
  match ← allocproc with
  | none => pure (-1)
  | some j =>
    let m ← get
    let p := m.proc i
    let np := m.proc j
    let r ← onPhys (uvmcopy p.pagetable np.pagetable p.sz)
    if r < 0 then
      let np ← onPhys (freeproc np)
      setProc j np
      pure (-1)
    else
      -- `*(np->trapframe) = *(p->trapframe)`, and `a0` is cleared
      onPhys (moveBytes np.trapframe p.trapframe 288)
      onPhys (store64 (np.trapframe + 112) 0)
      setProc j { np with sz := p.sz, state := .live }
      pure j

/-- A system call of the process `i` that changes its slot. -/
def procCall {α : Type} (i : ℕ) (x : Proc → Kern Phys (α × Proc)) : Kern Machine α := do
  let m ← get
  let (r, p) ← onPhys (x (m.proc i))
  setProc i p
  pure r

/-- `kexit`, for the memory : the process becomes a zombie. -/
def kexit (i : ℕ) : Kern Machine Unit := do
  let m ← get
  setProc i { m.proc i with state := .zombie }

/-- `kwait` finds the zombie `i` and frees it. -/
def reap (i : ℕ) : Kern Machine Unit := do
  let m ← get
  let p ← onPhys (freeproc (m.proc i))
  setProc i p

end Machine

end Xv6Plus
