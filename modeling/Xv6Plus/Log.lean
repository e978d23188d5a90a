import Xv6Plus.Bytes
import Xv6Plus.Writes

/-!
# The redo log of `kernel/log.c`

The disk is a function from block numbers to blocks. A block is the bytes at the offsets
below `BSIZE`; the layers that use one never look past that, and a block is always
written whole.

The log sees the buffer cache through `bread` and `bwrite`. A buffer that `log_write` has
pinned holds contents the disk does not have yet. A buffer that is not pinned agrees with
the disk, whether it is cached or not, so `cache` keeps the pinned ones only. Every
`bwrite` is recorded in `trace`, the sequence of writes a crash cuts off.
-/

namespace Xv6Plus

/-- `BSIZE`, bytes in a disk block. -/
abbrev bSize : ℕ := 1024

/-- `LOGBLOCKS`, the blocks the log has room for beside its header. -/
abbrev logBlocks : ℕ := 30

abbrev Block := Mem

abbrev Disk := ℕ → Block

/-- A 32-bit word as a C `int`. -/
def toInt32 (v : ℕ) : ℤ := if v < 2 ^ 31 then v else v - 2 ^ 32

/-- A C `int` as a 32-bit word. -/
def ofInt32 (z : ℤ) : ℕ := (z % 2 ^ 32).toNat

/-- `struct logheader`. -/
structure LogHeader where
  n : ℤ
  block : ℕ → ℕ

/-- The parts of `struct log` that `commit` and recovery use, with the disk below it. -/
structure LogState where
  disk : Disk
  cache : ℕ → Option Block
  start : ℕ
  lh : LogHeader
  trace : List (ℕ × Block)

/-- The field `n` of the header in a block. -/
def headN (b : Block) : ℤ := toInt32 (read32 b 0)

namespace LogState

/-- The contents of the buffer `bread` returns. -/
def bread (s : LogState) (blockno : ℕ) : Block := (s.cache blockno).getD (s.disk blockno)

/-- `bwrite` of a buffer with new contents. -/
def bwrite (s : LogState) (blockno : ℕ) (data : Block) : LogState :=
  { s with
    disk := Function.update s.disk blockno data
    cache := Function.update s.cache blockno ((s.cache blockno).map fun _ => data)
    trace := s.trace ++ [(blockno, data)] }

def bunpin (s : LogState) (blockno : ℕ) : LogState :=
  { s with cache := Function.update s.cache blockno none }

/-- One round of `install_trans`. -/
def installBlock (recovering : Bool) (tail : ℕ) (s : LogState) : LogState :=
  let s' := s.bwrite (s.lh.block tail) (s.bread (s.start + tail + 1))
  if recovering then s' else s'.bunpin (s.lh.block tail)

/-- The loop of `install_trans`, with the number of rounds that are left. -/
def installLoop (recovering : Bool) : ℕ → ℕ → LogState → LogState
  | 0, _, s => s
  | k + 1, tail, s => installLoop recovering k (tail + 1) (installBlock recovering tail s)

def installTrans (recovering : Bool) (s : LogState) : LogState :=
  installLoop recovering s.lh.n.toNat 0 s

def readHead (s : LogState) : LogState :=
  let buf := s.bread s.start
  { s with lh := ⟨headN buf, fun i =>
      if (i : ℤ) < headN buf then read32 buf (4 + 4 * i) else s.lh.block i⟩ }

end LogState

/-- The loop of `write_head` over the block numbers, on the contents of the buffer. -/
def putBlocks (block : ℕ → ℕ) : ℕ → ℕ → Block → Block
  | 0, _, b => b
  | k + 1, i, b => putBlocks block k (i + 1) (write32 b (4 + 4 * i) (block i))

namespace LogState

def writeHead (s : LogState) : LogState :=
  s.bwrite s.start
    (putBlocks s.lh.block s.lh.n.toNat 0 (write32 (s.bread s.start) 0 (ofInt32 s.lh.n)))

def clearHead (s : LogState) : LogState := { s with lh := { s.lh with n := 0 } }

def recoverFromLog (s : LogState) : LogState :=
  writeHead (clearHead (installTrans true (readHead s)))

/-- The loop of `write_log`. -/
def writeLogLoop : ℕ → ℕ → LogState → LogState
  | 0, _, s => s
  | k + 1, tail, s =>
    writeLogLoop k (tail + 1) (s.bwrite (s.start + tail + 1) (s.bread (s.lh.block tail)))

def writeLog (s : LogState) : LogState := writeLogLoop s.lh.n.toNat 0 s

def commit (s : LogState) : LogState :=
  if s.lh.n > 0 then
    writeHead (clearHead (installTrans false (writeHead (writeLog s))))
  else s

end LogState

end Xv6Plus
