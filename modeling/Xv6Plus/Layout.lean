import Mathlib

/-!
# Pages and the physical memory map

The constants of `kernel/riscv.h`, `kernel/memlayout.h` and `kernel/param.h` that several
modules use. Addresses are natural numbers
below `2 ^ 64`; the wrap of a 64-bit sum is written out where it can occur.
-/

namespace Xv6Plus

/-- `PGSIZE`, bytes in a page. -/
abbrev pgSize : ℕ := 4096

/-- The offset of an address in its page. -/
theorem mod_pgSize_lt (va : ℕ) : va % 4096 < 4096 := Nat.mod_lt va (by decide)

abbrev hugePgOrder : ℕ := 9

/-- `HUGEPGSIZE`, bytes in a huge page. -/
abbrev hugePgSize : ℕ := 4096 * 512

/-- `KERNBASE`, the first address of the memory. -/
abbrev kernBase : ℕ := 0x80000000

/-- `PHYSTOP`, the first address above the memory. -/
abbrev physTop : ℕ := 0x88000000

abbrev nProc : ℕ := 64

/-- `enum procstate`. -/
inductive RunState
  | unused
  | used
  | sleeping
  | runnable
  | running
  | zombie
  deriving DecidableEq, Repr

/-- `PGROUNDUP`, on 64-bit values. -/
def pgRoundUp (sz : ℕ) : ℕ := (sz + 4095) % 2 ^ 64 / 4096 * 4096

def pgRoundDown (a : ℕ) : ℕ := a / 4096 * 4096

theorem pgRoundUp_eq {sz : ℕ} (h : sz + 4095 < 2 ^ 64) :
    pgRoundUp sz = (sz + 4095) / 4096 * 4096 := by
  rw [pgRoundUp, Nat.mod_eq_of_lt h]

theorem pgRoundUp_mod (sz : ℕ) : pgRoundUp sz % 4096 = 0 := by
  unfold pgRoundUp
  omega

end Xv6Plus
