import Xv6Plus.Kalloc

/-!
# Page tables : `kernel/vm.c`

A page table is a tree of pages of 512 entries of 64 bits (Sv39), kept in the memory that
the page allocator hands out. A leaf is at level 0 (a 4KB page) or at level 1 (a huge page
of 2MB). All functions here run over `Phys`, the same memory and allocator state as
`kalloc` and `kfree`, and read and write the entries in that memory.

A C pointer is an address and a null pointer is `none` or `0`. `while` loops get the number
of turns they can take; the turns are enough for every loop to end by its own condition.
`sfence_vma`, the TLB and the locks are left out.
-/

namespace Xv6Plus

/-! ## Entries and addresses (`kernel/riscv.h`, `kernel/memlayout.h`) -/

/-- `PTE_V`, valid. -/
abbrev pteV : ℕ := 1
abbrev pteR : ℕ := 2
abbrev pteW : ℕ := 4
abbrev pteX : ℕ := 8
/-- `PTE_U`, user can access. -/
abbrev pteU : ℕ := 16

def pa2pte (pa : ℕ) : ℕ := pa >>> 12 <<< 10

def pte2pa (pte : ℕ) : ℕ := pte >>> 10 <<< 12

def pteFlags (pte : ℕ) : ℕ := pte &&& 0x3FF

/-- `PX`, the index of `va` in a table of the level. -/
def px (level va : ℕ) : ℕ := va >>> (12 + 9 * level) &&& 0x1FF

abbrev maxVa : ℕ := 2 ^ 38

abbrev trampoline : ℕ := maxVa - pgSize

abbrev trapframe : ℕ := trampoline - pgSize

def levelPageSize (level : ℕ) : ℕ := pgSize <<< (level * 9)

/-- The value of a 64-bit sum or product. -/
def wrap64 (n : ℕ) : ℕ := n % 2 ^ 64

/-- A value stored in an `int` and then used as a `uint64`. -/
def throughInt (n : ℕ) : ℕ :=
  if n % 2 ^ 32 < 2 ^ 31 then n % 2 ^ 32 else n % 2 ^ 32 + (2 ^ 64 - 2 ^ 32)

/-- `*p`, for a pointer to a 64-bit word. -/
def load64 (p : ℕ) : Kern Phys ℕ := do
  let s ← get
  pure (read64 s.mem p)

/-- `*p = v`. -/
def store64 (p v : ℕ) : Kern Phys Unit := modify fun s => s.setMem (write64 s.mem p v)

/-- `memset(p, 0, PGSIZE)`. -/
def zeroPage (p : ℕ) : Kern Phys Unit := modify fun s => s.setMem (memset s.mem p 0 pgSize)

/-- `memmove(dst, src, n)`. -/
def moveBytes (dst src n : ℕ) : Kern Phys Unit :=
  modify fun s => s.setMem (memmove s.mem dst src n)

/-! ## Walking -/

/-- The loop of `walk_to_level` from the table `pagetable` of a level down. -/
def walkLoop (va : ℕ) (alloc : Bool) (stopLevel : ℕ) : ℕ → ℕ → Kern Phys (Option (ℕ × ℕ))
  -- the loop never passes level 0, as `stop_level` is not negative
  | 0, pagetable => pure (some (pagetable + 8 * px 0 va, 0))
  | level + 1, pagetable => do
    let pte := pagetable + 8 * px (level + 1) va
    if level + 1 = stopLevel then
      pure (some (pte, level + 1))
    else
      let e ← load64 pte
      if e &&& pteV ≠ 0 then
        if e &&& (pteR ||| pteW ||| pteX) ≠ 0 then
          pure (some (pte, level + 1))
        else
          walkLoop va alloc stopLevel level (pte2pa e)
      else if alloc = false then
        pure none
      else
        let next ← kalloc
        if next = 0 then
          pure none
        else
          zeroPage next
          store64 pte (pa2pte next ||| pteV)
          walkLoop va alloc stopLevel level next

/-- `walk_to_level` : the address of the entry for `va` and the level it is at. -/
def walkToLevel (pagetable va : ℕ) (alloc : Bool) (stopLevel : ℕ) :
    Kern Phys (Option (ℕ × ℕ)) :=
  if va ≥ maxVa then throw "walk"
  else if stopLevel > 2 then throw "walk level"
  else walkLoop va alloc stopLevel 2 pagetable

def walkWithLevel (pagetable va : ℕ) (alloc : Bool) : Kern Phys (Option (ℕ × ℕ)) :=
  walkToLevel pagetable va alloc 0

/-- `walk` : the address of the entry, `0` if there is none. -/
def walk (pagetable va : ℕ) (alloc : Bool) : Kern Phys ℕ := do
  match ← walkWithLevel pagetable va alloc with
  | none => pure 0
  | some (pte, _) => pure pte

def walkaddr (pagetable va : ℕ) : Kern Phys ℕ :=
  if va ≥ maxVa then pure 0
  else do
    match ← walkWithLevel pagetable va false with
    | none => pure 0
    | some (pte, level) =>
      let e ← load64 pte
      if e &&& pteV = 0 then pure 0
      else if e &&& pteU = 0 then pure 0
      else pure (pte2pa e + va % levelPageSize level)

/-! ## Mapping -/

/-- The mapping loops of `mappages_flags`, over pages of the size of a level. -/
def mapLoop (pagetable perm level : ℕ) : ℕ → ℕ → ℕ → Kern Phys ℤ
  | 0, _, _ => pure 0
  | n + 1, a, pa => do
    match ← walkToLevel pagetable a true level with
    | none => pure (-1)
    | some (pte, _) =>
      let e ← load64 pte
      if e &&& pteV ≠ 0 then throw "mappages: remap"
      else
        store64 pte (pa2pte pa ||| perm ||| pteV)
        mapLoop pagetable perm level n (a + levelPageSize level) (pa + levelPageSize level)

/-- `mappages_flags`; `huge` is the bit `MAP_HUGE` of `flags`. -/
def mappagesFlags (pagetable va size pa perm : ℕ) (huge : Bool) : Kern Phys ℤ :=
  if size = 0 then throw "mappages: size"
  else if huge then
    if va % hugePgSize ≠ 0 ∨ pa % hugePgSize ≠ 0 ∨ size % hugePgSize ≠ 0 then
      throw "mappages: huge align"
    else mapLoop pagetable perm 1 (size / hugePgSize) va pa
  else if va % pgSize ≠ 0 then throw "mappages: va not aligned"
  else if size % pgSize ≠ 0 then throw "mappages: size not aligned"
  else mapLoop pagetable perm 0 (size / pgSize) va pa

def mappages (pagetable va size pa perm : ℕ) : Kern Phys ℤ :=
  mappagesFlags pagetable va size pa perm false

def uvmcreate : Kern Phys ℕ := do
  let pagetable ← kalloc
  if pagetable = 0 then
    pure 0
  else
    zeroPage pagetable
    pure pagetable

/-! ## Huge pages -/

/-- The copying loop of `split_huge_page`, from the page `i` on; `none` for `goto fail`. The
returned number is `allocated`. -/
def splitPagesLoop (pa flags l0 scratch : ℕ) : ℕ → ℕ → Kern Phys (Bool × ℕ)
  | 0, i => pure (true, i)
  | n + 1, i => do
    let page ← kalloc
    if page = 0 then
      pure (false, i)
    else
      moveBytes page (pa + i * pgSize) pgSize
      store64 (scratch + 8 * i) page
      store64 (l0 + 8 * i) (pa2pte page ||| flags)
      splitPagesLoop pa flags l0 scratch n (i + 1)

/-- The loops that free every page of a table of 64-bit words, from the word `i` on; `decode`
gives the address of the page. -/
def freeEach (decode : ℕ → ℕ) (table : ℕ) : ℕ → ℕ → Kern Phys Unit
  | 0, _ => pure ()
  | n + 1, i => do
    let word ← load64 (table + 8 * i)
    kfree (decode word)
    freeEach decode table n (i + 1)

def splitHugePage (pagetable va : ℕ) : Kern Phys ℤ := do
  let va := va - va % hugePgSize
  match ← walkWithLevel pagetable va false with
  | none => pure (-1)
  | some (pte, level) =>
    let e ← load64 pte
    if level ≠ 1 ∨ e &&& pteV = 0 then
      pure (-1)
    else
      let pa := pte2pa e
      let flags := pteFlags e
      let l0 ← kalloc
      if l0 = 0 then
        pure (-1)
      else
        zeroPage l0
        let scratch ← kalloc
        if scratch = 0 then
          kfree l0
          pure (-1)
        else
          let (done, allocated) ← splitPagesLoop pa flags l0 scratch 512 0
          if done then
            store64 pte (pa2pte l0 ||| pteV)
            kfreeHuge pa
            kfree scratch
            pure 0
          else
            freeEach id scratch allocated 0
            kfree l0
            kfree scratch
            pure (-1)

/-! ## Unmapping and freeing -/

/-- The loop of `uvmunmap` at the address `a`. -/
def unmapLoop (pagetable stop : ℕ) (doFree : Bool) : ℕ → ℕ → Kern Phys Unit
  | 0, _ => pure ()
  | turns + 1, a =>
    if a < stop then do
      match ← walkWithLevel pagetable a false with
      | none => unmapLoop pagetable stop doFree turns (a + pgSize)
      | some (pte, level) =>
        let e ← load64 pte
        if e &&& pteV = 0 then
          unmapLoop pagetable stop doFree turns (a + pgSize)
        else
          let leafSize := levelPageSize level
          let blockStart := a - a % leafSize
          let blockEnd := blockStart + leafSize
          if level > 0 ∧ (blockStart ≠ a ∨ blockEnd > stop) then
            let r ← splitHugePage pagetable blockStart
            if r ≠ 0 then throw "uvmunmap split"
            else unmapLoop pagetable stop doFree turns a
          else
            if doFree then
              if level = 0 then kfree (pte2pa e)
              else if level = 1 then kfreeHuge (pte2pa e)
              else throw "uvmunmap lvl"
            store64 pte 0
            unmapLoop pagetable stop doFree turns (if level > 0 then blockEnd else a + pgSize)
    else pure ()

/-- `uvmunmap`. A turn of the loop moves on by a page or splits a huge page, after which the
next turn moves on. -/
def uvmunmap (pagetable va npages : ℕ) (doFree : Bool) : Kern Phys Unit :=
  if va % pgSize ≠ 0 then throw "uvmunmap: not aligned"
  else unmapLoop pagetable (wrap64 (va + npages * pgSize)) doFree (2 * npages + 1) va

def uvmdealloc (pagetable oldsz newsz : ℕ) : Kern Phys ℕ :=
  if newsz ≥ oldsz then pure oldsz
  else do
    if pgRoundUp newsz < pgRoundUp oldsz then
      let npages := throughInt ((pgRoundUp oldsz - pgRoundUp newsz) / pgSize)
      uvmunmap pagetable (pgRoundUp newsz) npages true
    pure newsz

/-- The loop of `uvmalloc` at the address `a`. -/
def uvmallocLoop (pagetable oldsz newsz xperm : ℕ) : ℕ → ℕ → Kern Phys ℕ
  | 0, _ => pure newsz
  | turns + 1, a =>
    if a < newsz then do
      let mem ← kalloc
      if mem = 0 then
        let _ ← uvmdealloc pagetable a oldsz
        pure 0
      else
        zeroPage mem
        let r ← mappages pagetable a pgSize mem (pteR ||| pteU ||| xperm)
        if r ≠ 0 then
          kfree mem
          let _ ← uvmdealloc pagetable a oldsz
          pure 0
        else
          uvmallocLoop pagetable oldsz newsz xperm turns (a + pgSize)
    else pure newsz

def uvmalloc (pagetable oldsz newsz xperm : ℕ) : Kern Phys ℕ :=
  if newsz < oldsz then pure oldsz
  else
    uvmallocLoop pagetable (pgRoundUp oldsz) newsz xperm (newsz / pgSize + 1) (pgRoundUp oldsz)

/-- The loop of `freewalk` over the entries from `i` on; `freeChild` is the recursive call. -/
def freewalkLoop (freeChild : ℕ → Kern Phys Unit) (pagetable : ℕ) : ℕ → ℕ → Kern Phys Unit
  | 0, _ => pure ()
  | n + 1, i => do
    let pte ← load64 (pagetable + 8 * i)
    if pte &&& pteV ≠ 0 ∧ pte &&& (pteR ||| pteW ||| pteX) = 0 then
      freeChild (pte2pa pte)
      store64 (pagetable + 8 * i) 0
    else if pte &&& pteV ≠ 0 then
      throw "freewalk: leaf"
    freewalkLoop freeChild pagetable n (i + 1)

/-- `freewalk`; the first argument bounds the depth of the recursion, and a page table has
three levels. -/
def freewalk : ℕ → ℕ → Kern Phys Unit
  | 0, _ => throw "freewalk: depth"
  | depth + 1, pagetable => do
    freewalkLoop (freewalk depth) pagetable 512 0
    kfree pagetable

def uvmfree (pagetable sz : ℕ) : Kern Phys Unit := do
  if sz > 0 then
    uvmunmap pagetable 0 (pgRoundUp sz / pgSize) true
  freewalk 3 pagetable

/-! ## Copying an address space -/

/-- The loop of `uvmcopy` at the address `i`; the returned address is where it stopped, with
`false` for `goto err`. -/
def uvmcopyLoop (old new sz : ℕ) : ℕ → ℕ → Kern Phys (Bool × ℕ)
  | 0, i => pure (true, i)
  | turns + 1, i =>
    if i < sz then do
      match ← walkWithLevel old i false with
      | none => uvmcopyLoop old new sz turns (i + pgSize)
      | some (pte, level) =>
        let e ← load64 pte
        if e &&& pteV = 0 then
          uvmcopyLoop old new sz turns (i + pgSize)
        else if level = 1 then
          let mem ← kallocHuge
          if mem = 0 then
            pure (false, i)
          else
            moveBytes mem (pte2pa e) hugePgSize
            let r ← mappagesFlags new i hugePgSize mem (pteFlags e) true
            if r ≠ 0 then
              kfreeHuge mem
              pure (false, i)
            else
              uvmcopyLoop old new sz turns (i + hugePgSize)
        else
          let mem ← kalloc
          if mem = 0 then
            pure (false, i)
          else
            moveBytes mem (pte2pa e) pgSize
            let r ← mappages new i pgSize mem (pteFlags e)
            if r ≠ 0 then
              kfree mem
              pure (false, i)
            else
              uvmcopyLoop old new sz turns (i + pgSize)
    else pure (true, i)

def uvmcopy (old new sz : ℕ) : Kern Phys ℤ := do
  let (done, i) ← uvmcopyLoop old new sz (sz / pgSize + 1) 0
  if done then
    pure 0
  else
    uvmunmap new 0 (pgRoundUp i / pgSize) true
    pure (-1)

def uvmclear (pagetable va : ℕ) : Kern Phys Unit := do
  let pte ← walk pagetable va false
  if pte = 0 then
    throw "uvmclear"
  else
    let e ← load64 pte
    store64 pte (e &&& (2 ^ 64 - 1 - pteU))

/-! ## Page faults -/

/-- The states of a slot of the process table. `RUNNABLE`, `RUNNING` and `SLEEPING` are one
state here, as scheduling is not modelled. -/
inductive ProcState where
  | unused
  | used
  | live
  | zombie
  deriving DecidableEq, Repr

/-- The fields of `struct proc` that memory management uses. -/
structure Proc where
  state : ProcState
  /-- `p->sz`, the size of the process memory. -/
  sz : ℕ
  /-- `p->pagetable`, `0` for none. -/
  pagetable : ℕ
  /-- `p->trapframe`, `0` for none. -/
  trapframe : ℕ

def ismapped (pagetable va : ℕ) : Kern Phys Bool := do
  let pte ← walk pagetable va false
  if pte = 0 then
    pure false
  else
    let e ← load64 pte
    pure (e &&& pteV != 0)

/-- `vmfault`, run by the process `p`. The argument `read` is not used by the code. -/
def vmfault (p : Proc) (pagetable va : ℕ) : Kern Phys ℕ :=
  if va ≥ p.sz then pure 0
  else do
    let va := pgRoundDown va
    if ← ismapped pagetable va then
      pure 0
    else
      let mem ← kalloc
      if mem = 0 then
        pure 0
      else
        zeroPage mem
        let r ← mappages p.pagetable va pgSize mem (pteW ||| pteU ||| pteR)
        if r ≠ 0 then
          kfree mem
          pure 0
        else
          pure mem

/-- The address for `va0` : `walkaddr`, and `vmfault` if that finds nothing. -/
def useraddr (p : Proc) (pagetable va0 : ℕ) : Kern Phys ℕ := do
  let pa0 ← walkaddr pagetable va0
  if pa0 = 0 then vmfault p pagetable va0 else pure pa0

/-! ## Copying between kernel and user -/

/-- Store the bytes `data` at `p`. -/
def storeBytes (m : Mem) (p : ℕ) (data : List UInt8) : Mem := fun x =>
  if p ≤ x ∧ x < p + data.length then data.getD (x - p) 0 else m x

/-- The `n` bytes at `p`. -/
def loadBytes (m : Mem) (p n : ℕ) : List UInt8 := (List.range n).map fun i => m (p + i)

/-- The loop of `copyout`; `src` is what is still to be copied. -/
def copyoutLoop (p : Proc) (pagetable : ℕ) : ℕ → ℕ → List UInt8 → Kern Phys ℤ
  | 0, _, _ => pure 0
  | turns + 1, dstva, src =>
    if src.length > 0 then
      let va0 := pgRoundDown dstva
      if va0 ≥ maxVa then pure (-1)
      else do
        let pa0 ← useraddr p pagetable va0
        if pa0 = 0 then
          pure (-1)
        else
          let pte ← walk pagetable va0 false
          -- a null `pte` is dereferenced
          if pte = 0 then throw "kerneltrap"
          else
            let e ← load64 pte
            if e &&& pteW = 0 then
              pure (-1)
            else
              let n := min (pgSize - (dstva - va0)) src.length
              modify fun s => s.setMem (storeBytes s.mem (pa0 + (dstva - va0)) (src.take n))
              copyoutLoop p pagetable turns (wrap64 (va0 + pgSize)) (src.drop n)
    else pure 0

/-- `copyout`, with the bytes at `src` as a list. -/
def copyout (p : Proc) (pagetable dstva : ℕ) (src : List UInt8) : Kern Phys ℤ :=
  copyoutLoop p pagetable src.length dstva src

/-- The loop of `copyin`; the bytes are those that were copied to `dst`. -/
def copyinLoop (p : Proc) (pagetable : ℕ) : ℕ → ℕ → ℕ → Kern Phys (ℤ × List UInt8)
  | 0, _, _ => pure (0, [])
  | turns + 1, srcva, len =>
    if len > 0 then do
      let va0 := pgRoundDown srcva
      let pa0 ← useraddr p pagetable va0
      if pa0 = 0 then
        pure (-1, [])
      else
        let n := min (pgSize - (srcva - va0)) len
        let s ← get
        let bytes := loadBytes s.mem (pa0 + (srcva - va0)) n
        let (r, rest) ← copyinLoop p pagetable turns (wrap64 (va0 + pgSize)) (len - n)
        pure (r, bytes ++ rest)
    else pure (0, [])

def copyin (p : Proc) (pagetable srcva len : ℕ) : Kern Phys (ℤ × List UInt8) :=
  copyinLoop p pagetable len srcva len

/-- The check of the 512 entries of `l0` in `vm_try_collapse`, from `i` on : the flags they
share, `none` if one stops the collapse. -/
def collapseFlags (l0 : ℕ) : ℕ → ℕ → ℕ → Kern Phys (Option ℕ)
  | 0, _, flags => pure (some flags)
  | n + 1, i, flags => do
    let entry ← load64 (l0 + 8 * i)
    if entry &&& pteV = 0 then pure none
    else if entry &&& pteU = 0 then pure none
    else if i = 0 then collapseFlags l0 n (i + 1) (pteFlags entry)
    else if pteFlags entry ≠ flags then pure none
    else collapseFlags l0 n (i + 1) flags

/-- Copy the pages of `l0` into the huge page, from `i` on. -/
def collapseCopy (l0 newPage : ℕ) : ℕ → ℕ → Kern Phys Unit
  | 0, _ => pure ()
  | n + 1, i => do
    let entry ← load64 (l0 + 8 * i)
    moveBytes (newPage + i * pgSize) (pte2pa entry) pgSize
    collapseCopy l0 newPage n (i + 1)

/-- `vm_try_collapse`, with the lock of `p` held. -/
def vmTryCollapse (p : Proc) (va : ℕ) : Kern Phys ℕ :=
  if p.pagetable = 0 then pure 0
  else if va % hugePgSize ≠ 0 then pure 0
  else if wrap64 (va + hugePgSize) > p.sz then pure 0
  else do
    match ← walkToLevel p.pagetable va false 1 with
    | none => pure 0
    | some (l1, _) =>
      let e ← load64 l1
      if e &&& pteV = 0 then pure 0
      else if e &&& (pteR ||| pteW ||| pteX) ≠ 0 then pure 0
      else
        let l0 := pte2pa e
        match ← collapseFlags l0 512 0 0 with
        | none => pure 0
        | some flags =>
          let newPage ← kallocHuge
          if newPage = 0 then
            pure 0
          else
            collapseCopy l0 newPage 512 0
            freeEach pte2pa l0 512 0
            kfree l0
            store64 l1 (pa2pte newPage ||| flags)
            pure 1

/-! ## Loads and stores of a process

The translation is that of the hardware, with the entries read from memory. A page fault
that is a load or a store runs `vmfault` (`usertrap` in `kernel/trap.c`); if that maps a page
the access is made again, else the process is killed. -/

/-- The page walk of the hardware : the leaf and its level. -/
def mmuWalk (m : Mem) (va level pagetable : ℕ) : Option (ℕ × ℕ) :=
  let e := read64 m (pagetable + 8 * px level va)
  if e &&& pteV = 0 then none
  else if e &&& (pteR ||| pteW ||| pteX) ≠ 0 then some (e, level)
  else
    match level with
    | 0 => none
    | level + 1 => mmuWalk m va level (pte2pa e)

/-- The physical address of a user access that needs the permission `perm`. -/
def mmu (m : Mem) (pagetable va perm : ℕ) : Option ℕ :=
  if va ≥ maxVa then none
  else
    match mmuWalk m va 2 pagetable with
    | none => none
    | some (e, level) =>
      if e &&& pteU = 0 ∨ e &&& perm = 0 then none
      else some (pte2pa e + va % levelPageSize level)

/-- An access of the process `p` at `va`, with the page fault it may take : the physical
address, `none` if the process is killed. -/
def userAccess (p : Proc) (va perm : ℕ) : Kern Phys (Option ℕ) := do
  let s ← get
  match mmu s.mem p.pagetable va perm with
  | some pa => pure (some pa)
  | none =>
    let r ← vmfault p p.pagetable va
    if r = 0 then
      pure none
    else
      let s ← get
      pure (mmu s.mem p.pagetable va perm)

/-- A load of a byte. -/
def userLoad (p : Proc) (va : ℕ) : Kern Phys (Option UInt8) := do
  match ← userAccess p va pteR with
  | none => pure none
  | some pa =>
    let s ← get
    pure (some (s.mem pa))

/-- A store of a byte; `false` if the process is killed. -/
def userStore (p : Proc) (va : ℕ) (b : UInt8) : Kern Phys Bool := do
  match ← userAccess p va pteW with
  | none => pure false
  | some pa =>
    modify fun s => s.setMem (storeBytes s.mem pa [b])
    pure true

end Xv6Plus
