import Xv6Plus.Kern
import Xv6Plus.Bytes
import Xv6Plus.Layout

/-!
# The page allocator of `kernel/kalloc.c`

A buddy system over `[KERNBASE, PHYSTOP)` that serves pages of 4KB and huge pages of 2MB.
The free blocks of an order are on a doubly linked list whose nodes (`struct run`) are
stored at the start of the blocks themselves, so the lists live in the memory the
allocator hands out, and `page_state` records for every page the order of the free block
that starts there, or `PAGE_STATE_ALLOC`.

The lock around each entry point is left out : a call is one step. `buddy.base` and
`buddy.limit` are set once by `kinit`, to `KERNBASE` and `PHYSTOP`, and are written as
these constants.
-/

namespace Xv6Plus

/-- Physical memory and the globals of the page allocator. -/
structure Phys where
  /-- The contents of memory. -/
  mem : Mem
  /-- `buddy.freelist` : the first free block of each order, `0` for none. -/
  freelist : ℕ → ℕ
  /-- `page_state`. -/
  pageState : ℕ → ℤ
  /-- `end`, the first address after the kernel (`kernel.ld`). -/
  kend : ℕ

abbrev minOrder : ℕ := 0
abbrev maxOrder : ℕ := 15
abbrev hugeOrder : ℕ := hugePgOrder

abbrev nPages : ℕ := 32768

abbrev pageStateAlloc : ℤ := -1

def orderSize (order : ℕ) : ℕ := pgSize <<< order

def paToIndex (pa : ℕ) : Kern Phys ℕ :=
  if pa < kernBase ∨ pa ≥ physTop then throw "pa_to_index"
  else pure ((pa - kernBase) / pgSize)

namespace Phys

/-- `r->next` of a `struct run`. -/
def next (s : Phys) (r : ℕ) : ℕ := read64 s.mem r

/-- `r->prev`. -/
def prev (s : Phys) (r : ℕ) : ℕ := read64 s.mem (r + 8)

def setNext (s : Phys) (r v : ℕ) : Phys := { s with mem := write64 s.mem r v }

def setPrev (s : Phys) (r v : ℕ) : Phys := { s with mem := write64 s.mem (r + 8) v }

def setOrder (s : Phys) (r v : ℕ) : Phys := { s with mem := write32 s.mem (r + 16) v }

def setFreelist (s : Phys) (order r : ℕ) : Phys :=
  { s with freelist := Function.update s.freelist order r }

def setPageState (s : Phys) (idx : ℕ) (v : ℤ) : Phys :=
  { s with pageState := Function.update s.pageState idx v }

def setMem (s : Phys) (m : Mem) : Phys := { s with mem := m }

section Fields

variable (s : Phys) (r v i : ℕ) (z : ℤ) (m : Mem)

@[simp] theorem setNext_mem : (s.setNext r v).mem = write64 s.mem r v := rfl
@[simp] theorem setNext_freelist : (s.setNext r v).freelist = s.freelist := rfl
@[simp] theorem setNext_pageState : (s.setNext r v).pageState = s.pageState := rfl
@[simp] theorem setNext_kend : (s.setNext r v).kend = s.kend := rfl
@[simp] theorem setPrev_mem : (s.setPrev r v).mem = write64 s.mem (r + 8) v := rfl
@[simp] theorem setPrev_freelist : (s.setPrev r v).freelist = s.freelist := rfl
@[simp] theorem setPrev_pageState : (s.setPrev r v).pageState = s.pageState := rfl
@[simp] theorem setPrev_kend : (s.setPrev r v).kend = s.kend := rfl
@[simp] theorem setOrder_mem : (s.setOrder r v).mem = write32 s.mem (r + 16) v := rfl
@[simp] theorem setOrder_freelist : (s.setOrder r v).freelist = s.freelist := rfl
@[simp] theorem setOrder_pageState : (s.setOrder r v).pageState = s.pageState := rfl
@[simp] theorem setOrder_kend : (s.setOrder r v).kend = s.kend := rfl
@[simp] theorem setFreelist_mem : (s.setFreelist r v).mem = s.mem := rfl
@[simp] theorem setFreelist_freelist :
    (s.setFreelist r v).freelist = Function.update s.freelist r v := rfl
@[simp] theorem setFreelist_pageState : (s.setFreelist r v).pageState = s.pageState := rfl
@[simp] theorem setFreelist_kend : (s.setFreelist r v).kend = s.kend := rfl
@[simp] theorem setPageState_mem : (s.setPageState i z).mem = s.mem := rfl
@[simp] theorem setPageState_freelist : (s.setPageState i z).freelist = s.freelist := rfl
@[simp] theorem setPageState_pageState :
    (s.setPageState i z).pageState = Function.update s.pageState i z := rfl
@[simp] theorem setPageState_kend : (s.setPageState i z).kend = s.kend := rfl
@[simp] theorem setMem_mem : (s.setMem m).mem = m := rfl
@[simp] theorem setMem_freelist : (s.setMem m).freelist = s.freelist := rfl
@[simp] theorem setMem_kend : (s.setMem m).kend = s.kend := rfl

end Fields

end Phys

/-- `if (r->next) r->next->prev = v;` -/
def setNextPrev (r v : ℕ) (s : Phys) : Phys :=
  if s.next r ≠ 0 then s.setPrev (s.next r) v else s

def listInsert (order r : ℕ) (s : Phys) : Phys :=
  let s := (s.setOrder r order).setPrev r 0
  let s := s.setNext r (s.freelist order)
  (setNextPrev r r s).setFreelist order r

/-- The first statement of `list_remove` : the predecessor of `r`, or the head of the list,
skips `r`. -/
def skipNode (order r : ℕ) (s : Phys) : Phys :=
  if s.prev r ≠ 0 then s.setNext (s.prev r) (s.next r)
  else if s.freelist order = r then s.setFreelist order (s.next r)
  else s

def listRemove (order r : ℕ) (s : Phys) : Phys :=
  let s := skipNode order r s
  let s := setNextPrev r (s.prev r) s
  (s.setPrev r 0).setNext r 0

/-- The address `buddy_free_locked` computes for the buddy of a block. -/
def buddyPa (pa order : ℕ) : ℕ := kernBase + ((pa - kernBase) ^^^ orderSize order)

/-- The loop of `buddy_free_locked`, with `n = MAX_ORDER - order` rounds left : merge the
block with its buddy while that is free as a whole. -/
def mergeLoop : ℕ → ℕ → ℕ → ℕ → Kern Phys (ℕ × ℕ × ℕ)
  | 0, pa, idx, order => pure (pa, idx, order)
  | n + 1, pa, idx, order =>
    if buddyPa pa order < kernBase ∨ buddyPa pa order + orderSize order > physTop then
      pure (pa, idx, order)
    else do
      let buddyIdx ← paToIndex (buddyPa pa order)
      let s ← get
      if s.pageState buddyIdx ≠ order then pure (pa, idx, order)
      else do
        modify (listRemove order (buddyPa pa order))
        modify fun s => s.setPageState buddyIdx pageStateAlloc
        let pa := if buddyPa pa order < pa then buddyPa pa order else pa
        let idx ← paToIndex pa
        mergeLoop n pa idx (order + 1)

def buddyFreeLocked (pa order : ℕ) : Kern Phys Unit :=
  if order > maxOrder then throw "buddy_free_locked order"
  else if pa % orderSize order ≠ 0 then throw "buddy_free_locked align"
  else do
    let idx ← paToIndex pa
    let s ← get
    if s.pageState idx ≠ pageStateAlloc then throw "buddy double free"
    else do
      let (pa, idx, order) ← mergeLoop (maxOrder - order) pa idx order
      modify (listInsert order pa)
      modify fun s => s.setPageState idx order

/-- The inner loop of `buddy_alloc_locked`, with `n = current - order` rounds left : the
upper half of the block goes back to its free list. -/
def splitLoop (order r : ℕ) : ℕ → Kern Phys Unit
  | 0 => pure ()
  | n + 1 => do
    modify (listInsert (order + n) (r + orderSize (order + n)))
    let idx ← paToIndex (r + orderSize (order + n))
    modify fun s => s.setPageState idx (order + n : ℕ)
    splitLoop order r n

/-- The outer loop of `buddy_alloc_locked`, with `n = MAX_ORDER + 1 - current` rounds left. -/
def allocLoop (order : ℕ) : ℕ → ℕ → Kern Phys ℕ
  | 0, _ => pure 0
  | n + 1, current => do
    let s ← get
    let r := s.freelist current
    if r = 0 then allocLoop order n (current + 1)
    else do
      modify (listRemove current r)
      let idx ← paToIndex r
      modify fun s => s.setPageState idx pageStateAlloc
      splitLoop order r (current - order)
      modify fun s => s.setMem (memset s.mem r 5 (orderSize order))
      pure r

def buddyAllocLocked (order : ℕ) : Kern Phys ℕ :=
  if order > maxOrder then throw "buddy_alloc_locked order"
  else allocLoop order (maxOrder + 1 - order) order

def kfree (pa : ℕ) : Kern Phys Unit := do
  let s ← get
  if pa % pgSize ≠ 0 ∨ pa < s.kend ∨ pa ≥ physTop then throw "kfree"
  else do
    modify fun s => s.setMem (memset s.mem pa 1 pgSize)
    buddyFreeLocked pa minOrder

def kalloc : Kern Phys ℕ := buddyAllocLocked minOrder

def kallocHuge : Kern Phys ℕ := buddyAllocLocked hugeOrder

def kfreeHuge (pa : ℕ) : Kern Phys Unit :=
  if pa % hugePgSize ≠ 0 ∨ pa < kernBase ∨ pa + hugePgSize > physTop then throw "kfree_huge"
  else do
    modify fun s => s.setMem (memset s.mem pa 1 hugePgSize)
    buddyFreeLocked pa hugeOrder

/-- The order `buddy_add_range` picks : the largest whose size divides `start` and fits. -/
def pickOrder (start stop : ℕ) : ℕ → ℕ
  | 0 => minOrder
  | order + 1 =>
    if start % orderSize (order + 1) = 0 ∧ start + orderSize (order + 1) ≤ stop then order + 1
    else pickOrder start stop order

/-- The loop of `buddy_add_range`. Each round adds at least one page, so `n` is a bound on
the rounds if there are at most `n` pages. -/
def addRangeLoop (stop : ℕ) : ℕ → ℕ → Kern Phys Unit
  | 0, _ => pure ()
  | n + 1, start =>
    if start + pgSize ≤ stop then do
      let order := pickOrder start stop maxOrder
      buddyFreeLocked start order
      addRangeLoop stop n (start + orderSize order)
    else pure ()

def buddyAddRange (start stop : ℕ) : Kern Phys Unit :=
  if start ≥ stop then pure ()
  else addRangeLoop (pgRoundDown stop) nPages (pgRoundUp start)

def kinit : Kern Phys Unit := do
  modify fun s => { s with freelist := fun _ => 0, pageState := fun _ => pageStateAlloc }
  let s ← get
  buddyAddRange (pgRoundUp s.kend) physTop

end Xv6Plus
