import Xv6Plus.ProcSpec
import Xv6Plus.VmReach

/-!
# `uvmcopy` exactly

Up to `TRAPFRAME` the child gets a leaf of the same level, with the same permissions and the
same bytes, for every leaf of the parent, in frames of its own. With a size beyond `TRAPFRAME`,
which `sbrk` allows when it grows lazily, the loop comes to the parent's trapframe page and maps a
copy of it where the child has its own.
-/

namespace Xv6Plus

section Exact

variable {s s' : Phys} {R : Set ℕ} {rest rest₀ rest' : Set (ℕ × ℕ)} {A A' B : PTree} {sz : ℕ}

end Exact

end Xv6Plus
