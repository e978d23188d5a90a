import Xv6Plus.SortedRing

/-!
# The user heap

`user/umalloc.c` : the allocator of the C library, over `sbrk`. A block starts with a header of
16 bytes, a pointer `s.ptr` and a size `s.size` in headers. All headers lie at multiples of 16
above the first break, except `base`, which lies below it; so two headers never overlap, and the
memory is modelled by the two fields as functions of the address of the header.

The kernel may refuse to move the break. `Sbrk` says when it does : the choice is free, except
that the heap stays within the memory `limit` of the machine.
-/

namespace Xv6Plus

/-- `sizeof(Header)`. -/
abbrev headerSize : ℕ := 16

/-- The part of a process the allocator uses. -/
structure UHeap where
  /-- The field `s.ptr` of the header at an address. -/
  ptr : ℕ → ℕ
  /-- The field `s.size`, a `uint`. -/
  size : ℕ → ℕ
  freep : ℕ
  /-- The end of the process memory, `p->sz`. -/
  brk : ℕ

namespace UHeap

def setPtr (h : UHeap) (a p : ℕ) : UHeap := { h with ptr := Function.update h.ptr a p }

def setSize (h : UHeap) (a n : ℕ) : UHeap := { h with size := Function.update h.size a n }

section Fields

variable (h : UHeap) (a n : ℕ)

@[simp] theorem setPtr_ptr : (h.setPtr a n).ptr = Function.update h.ptr a n := rfl

@[simp] theorem setPtr_size : (h.setPtr a n).size = h.size := rfl

@[simp] theorem setPtr_brk : (h.setPtr a n).brk = h.brk := rfl

@[simp] theorem setSize_ptr : (h.setSize a n).ptr = h.ptr := rfl

@[simp] theorem setSize_size : (h.setSize a n).size = Function.update h.size a n := rfl

@[simp] theorem setSize_brk : (h.setSize a n).brk = h.brk := rfl

@[simp] theorem setPtr_setPtr (m : ℕ) : (h.setPtr a m).setPtr a n = h.setPtr a n := by
  rw [setPtr, setPtr, setPtr]
  dsimp only
  rw [Function.update_idem]

theorem setPtr_comm {b : ℕ} (hab : a ≠ b) (m : ℕ) :
    (h.setPtr a n).setPtr b m = (h.setPtr b m).setPtr a n := by
  rw [setPtr, setPtr, setPtr, setPtr]
  dsimp only
  rw [Function.update_comm hab.symm]

theorem setPtr_setSize (b m : ℕ) : (h.setPtr a n).setSize b m = (h.setSize b m).setPtr a n := rfl

end Fields

end UHeap

/-- Where the program was loaded. -/
structure Layout where
  /-- `&base`. -/
  base : ℕ
  /-- The break before the first call. -/
  start : ℕ
  /-- The memory of the machine, 128 MB on `virt`. -/
  limit : ℕ
  base_pos : 0 < base
  base_le : base + headerSize ≤ start
  limit_le : limit ≤ 2 ^ 35

/-- The answers of the kernel to `sbrk`, by the break and the increment. -/
structure Sbrk (L : Layout) where
  grants : ℕ → ℤ → Bool
  bounded : ∀ brk n, grants brk n = true → brk + n ≤ (L.start + L.limit : ℕ)

/-- The conversion to `int`. -/
def toInt (n : ℕ) : ℤ := Int.bmod n (2 ^ 32)

namespace UHeap

variable {L : Layout}

/-- `sbrk` : `none` for `SBRK_ERROR`. A break below 0 is a large number for `uvmdealloc`, which
then leaves the process as it is. -/
def sbrk (k : Sbrk L) (n : ℤ) (h : UHeap) : Option ℕ × UHeap :=
  if k.grants h.brk n then
    (some h.brk, { h with brk := if h.brk + n < 0 then h.brk else (h.brk + n).toNat })
  else
    (none, h)

/-- The loop of `free`, for at most so many turns. -/
def freeSearch (h : UHeap) (bp : ℕ) : ℕ → ℕ → Option ℕ
  | 0, _ => none
  | n + 1, p =>
    if p < bp ∧ bp < h.ptr p then some p
    else if h.ptr p ≤ p ∧ (p < bp ∨ bp < h.ptr p) then some p
    else freeSearch h bp n (h.ptr p)

/-- The first half of the linking in `free` : the block and the one behind it. -/
def joinUpper (h : UHeap) (bp p : ℕ) : UHeap :=
  if bp + headerSize * h.size bp = h.ptr p then
    let h := h.setSize bp ((h.size bp + h.size (h.ptr p)) % 2 ^ 32)
    h.setPtr bp (h.ptr (h.ptr p))
  else
    h.setPtr bp (h.ptr p)

/-- The second half : the block in front and the block. -/
def joinLower (h : UHeap) (bp p : ℕ) : UHeap :=
  if p + headerSize * h.size p = bp then
    let h := h.setSize p ((h.size p + h.size bp) % 2 ^ 32)
    h.setPtr p (h.ptr bp)
  else
    h.setPtr p bp

/-- `free`, for at most `fuel` turns of its loop. -/
def free (fuel ap : ℕ) (h : UHeap) : Option UHeap := do
  let bp := ap - headerSize
  let p ← freeSearch h bp fuel h.freep
  some { joinLower (joinUpper h bp p) bp p with freep := p }

def morecore (k : Sbrk L) (fuel nu : ℕ) (h : UHeap) : Option (ℕ × UHeap) :=
  let nu := if nu < 4096 then 4096 else nu
  match sbrk k (toInt (nu * headerSize)) h with
  | (none, h) => some (0, h)
  | (some p, h) => do
    let h ← free fuel (p + headerSize) (h.setSize p nu)
    some (h.freep, h)

/-- `nunits`. The sum is a `size_t`. -/
def nunits (nbytes : ℕ) : ℕ := ((nbytes + headerSize - 1) / headerSize + 1) % 2 ^ 32

/-- The block of `malloc`, taken from the end of the free block `p` behind `prevp`. -/
def carve (nu prevp p : ℕ) (h : UHeap) : ℕ × UHeap :=
  if h.size p = nu then
    (p + headerSize, { h.setPtr prevp (h.ptr p) with freep := prevp })
  else
    let h := h.setSize p (h.size p - nu)
    let p := p + headerSize * h.size p
    (p + headerSize, { h.setSize p nu with freep := prevp })

/-- The loop of `malloc`, for at most so many turns. -/
def mallocLoop (k : Sbrk L) (fuel nu : ℕ) : ℕ → ℕ → ℕ → UHeap → Option (ℕ × UHeap)
  | 0, _, _, _ => none
  | n + 1, prevp, p, h =>
    if nu ≤ h.size p then
      some (carve nu prevp p h)
    else if p = h.freep then do
      let (p, h) ← morecore k fuel nu h
      if p = 0 then some (0, h) else mallocLoop k fuel nu n p (h.ptr p) h
    else
      mallocLoop k fuel nu n p (h.ptr p) h

/-- The first lines of `malloc` : the empty list. -/
def initBase (L : Layout) (h : UHeap) : UHeap :=
  if h.freep = 0 then { (h.setPtr L.base L.base).setSize L.base 0 with freep := L.base } else h

/-- `malloc`, for at most `fuel` turns of each loop. -/
def malloc (k : Sbrk L) (fuel nbytes : ℕ) (h : UHeap) : Option (ℕ × UHeap) :=
  let h := initBase L h
  mallocLoop k fuel (nunits nbytes) fuel h.freep (h.ptr h.freep) h

end UHeap

end Xv6Plus
