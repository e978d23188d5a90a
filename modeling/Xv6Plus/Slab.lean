import Xv6Plus.Kalloc

/-!
# The slab allocator of `kernel/slab.c`

A cache hands out objects of one size from slabs. A slab is two pages of `kalloc` : one
for its header, a `struct slab` at the start of the page, and one for its objects. The
headers are read and written in the memory of the machine, so a page that `kalloc`
returns and the fields of a header are the same bytes.

The locks of the caches are left out : every function holds the lock of its cache from
its first line to its last.
-/

namespace Xv6Plus

/-- `struct slab`. -/
structure SlabHeader where
  next : ℕ
  mem : ℕ
  capacity : ℕ
  nrFree : ℕ
  freemap : ℕ

namespace Phys

/-- The header at the address `a`. -/
def slab (s : Phys) (a : ℕ) : SlabHeader where
  next := read64 s.mem a
  mem := read64 s.mem (a + 8)
  capacity := read32 s.mem (a + 16)
  nrFree := read32 s.mem (a + 20)
  freemap := read64 s.mem (a + 24)

def setSlabNext (s : Phys) (a v : ℕ) : Phys := s.setMem (write64 s.mem a v)

def setSlabMem (s : Phys) (a v : ℕ) : Phys := s.setMem (write64 s.mem (a + 8) v)

def setSlabCapacity (s : Phys) (a v : ℕ) : Phys := s.setMem (write32 s.mem (a + 16) v)

def setSlabNrFree (s : Phys) (a v : ℕ) : Phys := s.setMem (write32 s.mem (a + 20) v)

def setSlabFreemap (s : Phys) (a v : ℕ) : Phys := s.setMem (write64 s.mem (a + 24) v)

end Phys

def slabInit (a mem capacity : ℕ) (s : Phys) : Phys :=
  ((((s.setSlabNext a 0).setSlabMem a mem).setSlabCapacity a capacity).setSlabNrFree a
    capacity).setSlabFreemap a ((2 ^ 64 - 1) >>> (64 - capacity))

/-- Object `i` of the slab becomes live. The decrement is that of a `uint`. -/
def takeObject (a objSize i : ℕ) (s : Phys) : Phys :=
  let s := s.setSlabFreemap a (Nat.ldiff (s.slab a).freemap (2 ^ i))
  let s := s.setSlabNrFree a (((s.slab a).nrFree + (2 ^ 32 - 1)) % 2 ^ 32)
  s.setMem (memset s.mem ((s.slab a).mem + i * objSize) 0xAA objSize)

/-- The loop of `slab_alloc`, from the index `i` with `n` more to look at. -/
def slabAllocLoop (a objSize : ℕ) : ℕ → ℕ → Kern Phys ℕ
  | 0, _ => pure 0
  | n + 1, i => do
    let s ← get
    if (s.slab a).freemap.testBit i then do
      modify (takeObject a objSize i)
      pure ((s.slab a).mem + i * objSize)
    else slabAllocLoop a objSize n (i + 1)

def slabAlloc (a objSize : ℕ) : Kern Phys ℕ := do
  let s ← get
  if (s.slab a).nrFree = 0 then pure 0
  else slabAllocLoop a objSize (s.slab a).capacity 0

def slabFree (a obj objSize : ℕ) (s : Phys) : Phys :=
  let i := (obj - (s.slab a).mem) / objSize
  if i ≥ (s.slab a).capacity then s
  else if (s.slab a).freemap.testBit i then s
  else
    let s := s.setMem (memset s.mem obj 0xDD objSize)
    let s := s.setSlabFreemap a ((s.slab a).freemap ||| 2 ^ i)
    s.setSlabNrFree a (((s.slab a).nrFree + 1) % 2 ^ 32)

/-- The three lists of a cache. -/
inductive SlabList
  | partialList
  | fullList
  | emptyList
  deriving DecidableEq

/-- `struct kmem_cache` : the size of the objects and the heads of the three lists. -/
structure KmemCache where
  objSize : ℕ
  head : SlabList → ℕ

def KmemCache.setHead (c : KmemCache) (l : SlabList) (v : ℕ) : KmemCache :=
  { c with head := Function.update c.head l v }

@[simp] theorem KmemCache.setHead_objSize (c : KmemCache) (l : SlabList) (v : ℕ) :
    (c.setHead l v).objSize = c.objSize := rfl

@[simp] theorem KmemCache.setHead_head (c : KmemCache) (l : SlabList) (v : ℕ) :
    (c.setHead l v).head = Function.update c.head l v := rfl

/-- One cache with the memory its slabs are in. -/
structure CacheState where
  phys : Phys
  cache : KmemCache

namespace CacheState

def setPhys (p : Phys) (s : CacheState) : CacheState := { s with phys := p }

def setHead (s : CacheState) (l : SlabList) (v : ℕ) : CacheState :=
  { s with cache := s.cache.setHead l v }

/-- `s->next = c->l; c->l = s`. -/
def push (l : SlabList) (a : ℕ) (s : CacheState) : CacheState :=
  ({ s with phys := s.phys.setSlabNext a (s.cache.head l) } : CacheState).setHead l a

/-- Take the first slab of the list `l` off it and put it on `l'`. -/
def moveHead (l l' : SlabList) (s : CacheState) : CacheState :=
  push l' (s.cache.head l) (s.setHead l (s.phys.slab (s.cache.head l)).next)

/-- What a pointer to a slab pointer reads : the head of the list, or the link of a slab. -/
def readCell (s : CacheState) (l : SlabList) : Option ℕ → ℕ
  | none => s.cache.head l
  | some a => (s.phys.slab a).next

def writeCell (s : CacheState) (l : SlabList) (v : ℕ) : Option ℕ → CacheState
  | none => s.setHead l v
  | some a => { s with phys := s.phys.setSlabNext a v }

end CacheState

/-- A function of `kalloc.c` or of a single slab, called with a cache at hand. -/
def onPhys {α : Type} (x : Kern Phys α) : Kern CacheState α :=
  zoom CacheState.phys CacheState.setPhys x

/-- `kmem_cache_alloc` with a partial slab. -/
def allocPartial : Kern CacheState ℕ := do
  let s ← get
  let mem ← onPhys (slabAlloc (s.cache.head .partialList) s.cache.objSize)
  let s ← get
  if (s.phys.slab (s.cache.head .partialList)).nrFree = 0 then do
    modify (CacheState.moveHead .partialList .fullList)
    pure mem
  else pure mem

/-- `kmem_cache_alloc` with no partial but an empty slab. -/
def allocEmpty : Kern CacheState ℕ := do
  let s ← get
  let mem ← onPhys (slabAlloc (s.cache.head .emptyList) s.cache.objSize)
  let s ← get
  if (s.phys.slab (s.cache.head .emptyList)).nrFree = 0 then do
    modify (CacheState.moveHead .emptyList .fullList)
    pure mem
  else do
    modify (CacheState.moveHead .emptyList .partialList)
    pure mem

/-- `kmem_cache_alloc` with a new slab. -/
def allocNew : Kern CacheState ℕ := do
  let s ← get
  let a ← onPhys kalloc
  if a = 0 then pure 0
  else do
    let mem ← onPhys kalloc
    if mem = 0 then do
      onPhys (kfree a)
      pure 0
    else do
      onPhys (modify (slabInit a mem (min 64 (4096 / s.cache.objSize))))
      let obj ← onPhys (slabAlloc a s.cache.objSize)
      let s ← get
      if (s.phys.slab a).nrFree = 0 then do
        modify (CacheState.push .fullList a)
        pure obj
      else do
        modify (CacheState.push .partialList a)
        pure obj

def kmemCacheAlloc : Kern CacheState ℕ := do
  let s ← get
  if s.cache.head .partialList ≠ 0 then allocPartial
  else if s.cache.head .emptyList ≠ 0 then allocEmpty
  else allocNew

/-- The search of `kmem_cache_free` for the slab of `obj` along a list, `0` if the list
ends first. -/
def findSlab (obj objSize : ℕ) : ℕ → ℕ → Kern Phys ℕ
  | 0, _ => throw "findSlab"
  | n + 1, a => do
    let s ← get
    if a = 0 then pure 0
    else if obj ≥ (s.slab a).mem ∧ obj < (s.slab a).mem + (s.slab a).capacity * objSize then pure a
    else findSlab obj objSize n (s.slab a).next

/-- The search for the pointer to the slab `a` along a list. -/
def findCell (l : SlabList) (a : ℕ) : ℕ → Option ℕ → Kern CacheState (Option ℕ)
  | 0, _ => throw "findCell"
  | n + 1, pp => do
    let s ← get
    if s.readCell l pp = 0 ∨ s.readCell l pp = a then pure pp
    else findCell l a n (some (s.readCell l pp))

/-- Take the slab `a` out of the list `l`, wherever it stands, and put it on `l'`. -/
def relink (l l' : SlabList) (a : ℕ) : Kern CacheState Unit := do
  let pp ← findCell l a (nPages + 1) none
  let s ← get
  if s.readCell l pp = a then
    modify fun s => (s.writeCell l (s.phys.slab a).next pp).push l' a
  else pure ()

/-- `kmem_cache_free` for an object of the partial slab `a`. -/
def freePartial (obj a : ℕ) : Kern CacheState Unit := do
  let s ← get
  onPhys (modify (slabFree a obj s.cache.objSize))
  let s ← get
  if (s.phys.slab a).nrFree = (s.phys.slab a).capacity then relink .partialList .emptyList a
  else pure ()

/-- `kmem_cache_free` for an object of the full slab `a`. -/
def freeFull (obj a : ℕ) : Kern CacheState Unit := do
  let s ← get
  onPhys (modify (slabFree a obj s.cache.objSize))
  let s ← get
  if (s.phys.slab a).nrFree = 1 then relink .fullList .partialList a
  else if (s.phys.slab a).nrFree = (s.phys.slab a).capacity then relink .fullList .emptyList a
  else pure ()

/-- The loop over the empty slabs at the end of `kmem_cache_free`. It returns the slab it
stops at. -/
def trimLoop : ℕ → ℕ → ℕ → Kern Phys ℕ
  | 0, _, _ => throw "trimLoop"
  | n + 1, counter, pp => do
    let s ← get
    if pp ≠ 0 ∧ (s.slab pp).next ≠ 0 then
      if counter ≥ 1 then do
        let tofree := (s.slab pp).next
        modify fun s => s.setSlabNext pp (s.slab tofree).next
        let s ← get
        kfree (s.slab tofree).mem
        kfree tofree
        trimLoop n counter pp
      else trimLoop n (counter + 1) (s.slab pp).next
    else pure pp

/-- The end of `kmem_cache_free`. -/
def trim : Kern CacheState Unit := do
  let s ← get
  let pp ← onPhys (trimLoop (nPages + 2) 0 (s.cache.head .emptyList))
  if pp ≠ 0 then onPhys (modify fun s => s.setSlabNext pp 0) else pure ()

def kmemCacheFree (obj : ℕ) : Kern CacheState Unit := do
  let s ← get
  let a ← onPhys (findSlab obj s.cache.objSize (nPages + 1) (s.cache.head .partialList))
  if a ≠ 0 then do
    freePartial obj a
    trim
  else do
    let a ← onPhys (findSlab obj s.cache.objSize (nPages + 1) (s.cache.head .fullList))
    if a ≠ 0 then do
      freeFull obj a
      trim
    else pure ()

def assistSize (size : ℕ) : ℕ :=
  if size ≤ 64 then 64
  else if size ≤ 128 then 128
  else if size ≤ 256 then 256
  else if size ≤ 512 then 512
  else if size ≤ 1024 then 1024
  else if size ≤ 2048 then 2048
  else 0

/-- The memory with the array `kmem_caches`. -/
structure Kmem where
  phys : Phys
  caches : ℕ → KmemCache

namespace Kmem

def cacheState (s : Kmem) (i : ℕ) : CacheState := ⟨s.phys, s.caches i⟩

def setCacheState (i : ℕ) (c : CacheState) (s : Kmem) : Kmem :=
  ⟨c.phys, Function.update s.caches i c.cache⟩

def setPhys (p : Phys) (s : Kmem) : Kmem := { s with phys := p }

/-- The loop over `kmem_caches` for the cache of a size. -/
def findCache (s : Kmem) (asize : ℕ) : Option ℕ :=
  (List.range 6).find? fun i => (s.caches i).objSize = asize

end Kmem

/-- `kmalloc`. Without a cache of the size the null pointer is dereferenced. -/
def kmalloc (size : ℕ) : Kern Kmem ℕ :=
  if assistSize size = 0 then zoom Kmem.phys Kmem.setPhys kalloc
  else do
    let s ← get
    match s.findCache (assistSize size) with
    | some i => zoom (Kmem.cacheState · i) (Kmem.setCacheState i) kmemCacheAlloc
    | none => throw "null kmem_cache"

def kmfree (obj size : ℕ) : Kern Kmem Unit :=
  if assistSize size = 0 then zoom Kmem.phys Kmem.setPhys (kfree obj)
  else do
    let s ← get
    match s.findCache (assistSize size) with
    | some i => zoom (Kmem.cacheState · i) (Kmem.setCacheState i) (kmemCacheFree obj)
    | none => throw "null kmem_cache"

def kmemCacheInit (objSize : ℕ) : KmemCache := ⟨objSize, fun _ => 0⟩

def initAllSlabs (s : Kmem) : Kmem :=
  { s with caches := fun i =>
      match i with
      | 0 => kmemCacheInit 64
      | 1 => kmemCacheInit 128
      | 2 => kmemCacheInit 256
      | 3 => kmemCacheInit 512
      | 4 => kmemCacheInit 1024
      | 5 => kmemCacheInit 2048
      | _ => s.caches i }

end Xv6Plus
