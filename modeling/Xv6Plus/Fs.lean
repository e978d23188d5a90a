import Xv6Plus.LogOps
import Xv6Plus.OnDisk
import Xv6Plus.Bio

/-!
# The file system : `kernel/fs.c`

Blocks, inodes, the inode table, file contents, directories and paths, on the log of `LogOps`. One
process runs at a time, so a lock that is held when it is taken is never released : `acquiresleep`
stops there.

A buffer that `log_write` has pinned is in the cache of the log. `writei` can also change a buffer
and release it without `log_write`, when the copy from the user fails half-way. Such contents are
in `stale` : `bread` returns them until the buffer is recycled.

What a copy to or from the user can do is an argument : the bytes of the destination that can be
written, and the bytes of the source that can be read. The copy stops at the first that cannot.
-/

namespace Xv6Plus

abbrev nInode : ℕ := 50

/-- An unsigned 32-bit sum. -/
def wrap32 (n : ℕ) : ℕ := n % 2 ^ 32

/-- `struct inode`; `din` is the copy of the disk inode, `locked` tells whether the sleep lock is
held. -/
structure Inode where
  dev : ℕ
  inum : ℕ
  ref : ℕ
  locked : Bool
  valid : Bool
  din : Dinode

structure Fs where
  sys : LogSys
  /-- Buffers that are cached but not pinned, and that the disk differs from. -/
  stale : ℕ → Option Block
  sb : Superblock
  itable : ℕ → Inode

/-! ## Strings of `kernel/string.c` -/

/-- `strncmp`; a string ends before its NUL. -/
def strncmp (p q : List UInt8) : ℕ → ℤ
  | 0 => 0
  | n + 1 =>
    if p.headD 0 ≠ 0 ∧ p.headD 0 = q.headD 0 then strncmp p.tail q.tail n
    else (p.headD 0).toNat - (q.headD 0).toNat

def namecmp (s t : List UInt8) : ℤ := strncmp s t dirSiz

/-! ## Copies -/

/-- The bytes that can be written from position `k` on, of `m` bytes. -/
def room (dst : ℕ → Bool) : ℕ → ℕ → ℕ
  | _, 0 => 0
  | k, m + 1 => if dst k then room dst (k + 1) m + 1 else 0

namespace Fs

/-- The contents of the buffer `bread` returns. -/
def view (s : Fs) : Disk := fun b => (s.stale b).getD (s.sys.log.bread b)

def setSys (t : LogSys) (s : Fs) : Fs := { s with sys := t }

def setInode (ip : ℕ) (x : Inode) (s : Fs) : Fs :=
  { s with itable := Function.update s.itable ip x }

/-- The copy of the disk inode gets new fields. -/
def setDin (ip : ℕ) (d : Dinode) (s : Fs) : Fs := s.setInode ip { s.itable ip with din := d }

/-- `bget` recycles the buffer of a block that is not pinned. -/
def evict (b : ℕ) (s : Fs) : Fs := { s with stale := Function.update s.stale b none }

/-! ## Transactions -/

def bread (b : ℕ) : Kern Fs Block := do
  let s ← get
  pure (s.view b)

/-- `log_write` of the buffer for the block `b` with new contents. -/
def logWrite (b : ℕ) (data : Block) : Kern Fs Unit := do
  zoom Fs.sys setSys (LogSys.logWrite b data)
  modify (evict b)

/-! ## Blocks -/

def bzero (b : ℕ) : Kern Fs Unit := logWrite b zeroBlock

/-- The inner loop of `balloc`, with the bits that are left : a free block from `b + bi` on. -/
def findFree (buf : Block) (size b : ℕ) : ℕ → ℕ → Option ℕ
  | 0, _ => none
  | k + 1, bi =>
    if b + bi < size then
      if bitAt buf bi = false then some bi else findFree buf size b k (bi + 1)
    else none

/-- The outer loop of `balloc`, with the rounds that are left. -/
def ballocLoop : ℕ → ℕ → Kern Fs ℕ
  | 0, _ => pure 0
  | k + 1, b => do
    let s ← get
    if b < s.sb.size then
      let buf ← bread (bBlock b s.sb)
      match findFree buf s.sb.size b bpb 0 with
      | some bi =>
        logWrite (bBlock b s.sb) (setBit buf bi)
        bzero (b + bi)
        pure (b + bi)
      | none => ballocLoop k (b + bpb)
    else pure 0

def balloc : Kern Fs ℕ := do
  let s ← get
  ballocLoop (s.sb.size / bpb + 1) 0

def bfree (b : ℕ) : Kern Fs Unit := do
  let s ← get
  let buf ← bread (bBlock b s.sb)
  if bitAt buf (b % bpb) = false then throw "freeing free block"
  else logWrite (bBlock b s.sb) (clearBit buf (b % bpb))

/-! ## Inodes -/

def inode (ip : ℕ) : Kern Fs Inode := do
  let s ← get
  pure (s.itable ip)

def iupdate (ip : ℕ) : Kern Fs Unit := do
  let s ← get
  let x := s.itable ip
  let buf ← bread (iBlock x.inum s.sb)
  logWrite (iBlock x.inum s.sb) (putDinode buf (x.inum % ipb) x.din)

/-- The loop of `iget`, with the entries that are left : the entry of the inode, or else the first
empty one. -/
def igetScan (s : Fs) (dev inum : ℕ) : ℕ → ℕ → Option ℕ → Option ℕ
  | 0, _, empty => empty
  | k + 1, ip, empty =>
    if (s.itable ip).ref > 0 ∧ (s.itable ip).dev = dev ∧ (s.itable ip).inum = inum then some ip
    else
      igetScan s dev inum k (ip + 1)
        (if empty = none ∧ (s.itable ip).ref = 0 then some ip else empty)

def iget (dev inum : ℕ) : Kern Fs ℕ := do
  let s ← get
  match s.igetScan dev inum nInode 0 none with
  | none => throw "iget: no inodes"
  | some ip =>
    let x := s.itable ip
    if x.ref > 0 then modify (setInode ip { x with ref := x.ref + 1 })
    else modify (setInode ip { x with dev := dev, inum := inum, ref := 1, valid := false })
    pure ip

def idup (ip : ℕ) : Kern Fs ℕ := do
  modify fun s => s.setInode ip { s.itable ip with ref := (s.itable ip).ref + 1 }
  pure ip

/-- `acquiresleep` of the lock of an inode. -/
def acquiresleep (ip : ℕ) : Kern Fs Unit := do
  let x ← inode ip
  if x.locked then throw "acquiresleep"
  else modify (setInode ip { x with locked := true })

/-- `releasesleep` of the lock of an inode. -/
def releasesleep (ip : ℕ) : Kern Fs Unit :=
  modify fun s => s.setInode ip { s.itable ip with locked := false }

def ilock (ip : ℕ) : Kern Fs Unit := do
  let x ← inode ip
  if x.ref < 1 then throw "ilock"
  else
    acquiresleep ip
    let s ← get
    let x := s.itable ip
    if x.valid = false then
      let buf ← bread (iBlock x.inum s.sb)
      let d := getDinode buf (x.inum % ipb)
      modify (setInode ip { x with din := d, valid := true })
      if d.type = 0 then throw "ilock: no type" else pure ()
    else pure ()

def iunlock (ip : ℕ) : Kern Fs Unit := do
  let x ← inode ip
  if x.locked = false ∨ x.ref < 1 then throw "iunlock"
  else releasesleep ip

/-! ## Inode content -/

/-- The block with index `bn` of the indirect block `addr` in `bmap`. -/
def bmapEntry (addr bn : ℕ) : Kern Fs ℕ := do
  let buf ← bread addr
  let x := read32 buf (4 * bn)
  if x = 0 then
    let x ← balloc
    if x ≠ 0 then
      logWrite addr (write32 buf (4 * bn) x)
      pure x
    else pure x
  else pure x

/-- An address of the inode, with a new block if it is zero. -/
def bmapAddr (ip n : ℕ) : Kern Fs ℕ := do
  let x ← inode ip
  if x.din.addrs n = 0 then
    let addr ← balloc
    if addr = 0 then pure 0
    else
      modify fun s => s.setDin ip ((s.itable ip).din.setAddr n addr)
      pure addr
  else pure (x.din.addrs n)

def bmap (ip bn : ℕ) : Kern Fs ℕ :=
  if bn < nDirect then bmapAddr ip bn
  else if bn - nDirect < nIndirect then do
    let addr ← bmapAddr ip nDirect
    if addr = 0 then pure 0 else bmapEntry addr (bn - nDirect)
  else throw "bmap: out of range"

/-- The loop of `itrunc` over the direct addresses, with the rounds that are left. -/
def truncDirect (ip : ℕ) : ℕ → ℕ → Kern Fs Unit
  | 0, _ => pure ()
  | k + 1, i => do
    let x ← inode ip
    if x.din.addrs i ≠ 0 then
      bfree (x.din.addrs i)
      modify fun s => s.setDin ip ((s.itable ip).din.setAddr i 0)
      truncDirect ip k (i + 1)
    else truncDirect ip k (i + 1)

/-- The loop of `itrunc` over the entries of the indirect block. -/
def truncEntries (buf : Block) : ℕ → ℕ → Kern Fs Unit
  | 0, _ => pure ()
  | k + 1, j =>
    if read32 buf (4 * j) ≠ 0 then do
      bfree (read32 buf (4 * j))
      truncEntries buf k (j + 1)
    else truncEntries buf k (j + 1)

/-- The second half of `itrunc`. -/
def truncIndirect (ip : ℕ) : Kern Fs Unit := do
  let x ← inode ip
  if x.din.addrs nDirect ≠ 0 then
    let buf ← bread (x.din.addrs nDirect)
    truncEntries buf nIndirect 0
    bfree (x.din.addrs nDirect)
    modify fun s => s.setDin ip ((s.itable ip).din.setAddr nDirect 0)
  else pure ()

def itrunc (ip : ℕ) : Kern Fs Unit := do
  truncDirect ip nDirect 0
  truncIndirect ip
  modify fun s => s.setDin ip { (s.itable ip).din with size := 0 }
  iupdate ip

def iput (ip : ℕ) : Kern Fs Unit := do
  let x ← inode ip
  if x.ref = 1 ∧ x.valid = true ∧ x.din.nlink = 0 then
    acquiresleep ip
    itrunc ip
    modify fun s => s.setDin ip { (s.itable ip).din with type := 0 }
    iupdate ip
    modify fun s => s.setInode ip { s.itable ip with valid := false }
    releasesleep ip
  modify fun s => s.setInode ip { s.itable ip with ref := (s.itable ip).ref - 1 }

def iunlockput (ip : ℕ) : Kern Fs Unit := do
  iunlock ip
  iput ip

/-- The loop of `readi`, with the result and the bytes that were delivered. -/
def readiLoop (ip : ℕ) (dst : ℕ → Bool) (n : ℕ) :
    ℕ → ℕ → ℕ → List UInt8 → Kern Fs (ℤ × List UInt8)
  | 0, _, tot, out => pure (tot, out)
  | k + 1, off, tot, out =>
    if tot < n then do
      let addr ← bmap ip (off / bSize)
      if addr = 0 then pure (tot, out)
      else
        let buf ← bread addr
        let m := min (n - tot) (bSize - off % bSize)
        let r := room dst tot m
        if r < m then pure (-1, out ++ getBytes buf (off % bSize) r)
        else readiLoop ip dst n k (off + m) (tot + m) (out ++ getBytes buf (off % bSize) m)
    else pure (tot, out)

def readi (ip : ℕ) (dst : ℕ → Bool) (off n : ℕ) : Kern Fs (ℤ × List UInt8) := do
  let x ← inode ip
  if off > x.din.size ∨ wrap32 (off + n) < off then pure (0, [])
  else
    let n := if wrap32 (off + n) > x.din.size then x.din.size - off else n
    readiLoop ip dst n n off 0 []

/-! ## Directories -/

/-- `readi` of one entry, with the panic if it is not read whole. -/
def readDirent (msg : String) (dp off : ℕ) : Kern Fs Dirent := do
  let r ← readi dp (fun _ => true) off direntSize
  if r.1 ≠ direntSize then throw msg else pure (Dirent.ofBytes r.2)

/-- The loop of `dirlookup` : the entry of the inode table and the offset. -/
def dirlookupLoop (dp : ℕ) (name : List UInt8) : ℕ → ℕ → Kern Fs (Option (ℕ × ℕ))
  | 0, _ => pure none
  | k + 1, off => do
    let x ← inode dp
    if off < x.din.size then
      let de ← readDirent "dirlookup read" dp off
      if de.inum = 0 then dirlookupLoop dp name k (off + direntSize)
      else if namecmp name de.name = 0 then
        let ip ← iget x.dev de.inum
        pure (some (ip, off))
      else dirlookupLoop dp name k (off + direntSize)
    else pure none

def dirlookup (dp : ℕ) (name : List UInt8) : Kern Fs (Option (ℕ × ℕ)) := do
  let x ← inode dp
  if x.din.type ≠ tDir then throw "dirlookup not DIR"
  else dirlookupLoop dp name (x.din.size / direntSize + 1) 0

end Fs

/-! ## Paths -/

/-- The character that separates the elements of a path. -/
abbrev slash : UInt8 := 47

/-- `skipelem` : the next element, and the path behind it. -/
def skipelem (path : List UInt8) : Option (List UInt8 × List UInt8) :=
  let path := path.dropWhile (· = slash)
  if path = [] then none
  else
    let name := (path.takeWhile (· ≠ slash)).take dirSiz
    some (name, (path.dropWhile (· ≠ slash)).dropWhile (· = slash))

namespace Fs

/-- The loop of `namex`, with the entry of the inode table and the last element. -/
def namexLoop (nameiparent : Bool) :
    ℕ → ℕ → List UInt8 → List UInt8 → Kern Fs (Option (ℕ × List UInt8))
  | 0, _, _, _ => pure none
  | k + 1, ip, path, name =>
    match skipelem path with
    | none => do
      if nameiparent then
        iput ip
        pure none
      else pure (some (ip, name))
    | some (name, path) => do
      ilock ip
      let x ← inode ip
      if x.din.type ≠ tDir then
        iunlockput ip
        pure none
      else if nameiparent ∧ path = [] then
        iunlock ip
        pure (some (ip, name))
      else
        match ← dirlookup ip name with
        | none =>
          iunlockput ip
          pure none
        | some (next, _) =>
          iunlockput ip
          namexLoop nameiparent k next path name

/-- `namex`, by a process whose current directory is `cwd`. -/
def namex (cwd : ℕ) (path : List UInt8) (nameiparent : Bool) :
    Kern Fs (Option (ℕ × List UInt8)) := do
  let ip ← if path.head? = some slash then iget rootDev rootIno else idup cwd
  namexLoop nameiparent (path.length + 1) ip path []

end Fs

end Xv6Plus
