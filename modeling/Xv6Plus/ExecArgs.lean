import Xv6Plus.SysExec
import Xv6Plus.Grow

/-!
# The arguments of a program

After a successful `kexec` the new program finds its arguments : the register `a1` is the stack
pointer and points to the array of the `argc + 1` pointers, the last of them zero, and each pointer
to the bytes of its string. Strings and array lie side by side in the page of the stack, above a
guard page. A file that can be run without arguments can be run with every list of arguments for
which that page has room, and with no other.
-/

namespace Xv6Plus

/-- The pointer `i` of the array at `sp`. -/
def argPtr (U : View) (sp i : ℕ) : ℕ := read64 (contents U) (sp + 8 * i)

/-- The user pages `U` of a process of `sz` bytes have `argv` on the stack, the array at `sp`. -/
structure ArgsPassed (U : View) (sz sp : ℕ) (argv : List (List UInt8)) : Prop where
  aligned : sp % 16 = 0
  null : argPtr U sp argv.length = 0
  string : ∀ i arg, argv[i]? = some arg →
    loadBytes (contents U) (argPtr U sp i) (arg.length + 1) = arg ++ [0]
  /-- The page of the stack, which the user may read and write. -/
  stack : ∃ b, U (sz / 4096 - 1) = some (pteV ||| pteR ||| pteW ||| pteU, b)
  guard : ∃ fl b, U (sz / 4096 - 2) = some (fl, b) ∧ fl &&& pteU = 0
  pages : sz % 4096 = 0 ∧ 8192 ≤ sz
  array_in : sz - 4096 ≤ sp ∧ sp + 8 * (argv.length + 1) ≤ sz
  string_in : ∀ i arg, argv[i]? = some arg →
    sz - 4096 ≤ argPtr U sp i ∧ argPtr U sp i + (arg.length + 1) ≤ sz
  array_apart : ∀ i arg, argv[i]? = some arg → sp + 8 * (argv.length + 1) ≤ argPtr U sp i
  strings_apart : ∀ i j arg arg', argv[i]? = some arg → argv[j]? = some arg' → i ≠ j →
    Disjoint (Set.Ico (argPtr U sp i) (argPtr U sp i + (arg.length + 1)))
      (Set.Ico (argPtr U sp j) (argPtr U sp j + (arg'.length + 1)))

section Args

variable {A : PTree} {m C : Mem} {sz sp : ℕ} {argv : List (List UInt8)}

/-- What `kexec` leaves on the stack is what the program is to find. -/
theorem ArgStack.passed (h : ArgStack A m C sz sp argv) (hsz : sz ≤ trapframe) :
    ArgsPassed (A.view m) sz sp argv := by
  obtain ⟨⟨n, pa, rfl, hst⟩, hneed, -, rfl, hC⟩ := h
  have hlt := hst.lt
  have harray := stackNeed_array argv
  have halign := stackNeed_aligned argv
  have h64 : 4096 * (n + 2) < 2 ^ 64 := by
    simp only [trapframe, trampoline, maxVa, pgSize] at hsz
    omega
  -- the pointers are the addresses of the strings
  have hptr : ∀ i arg, argv[i]? = some arg → (argSlots (4096 * (n + 2)) argv)[i]? =
      some (argPtr (A.view m) (4096 * (n + 2) - stackNeed argv) i) := by
    intro i arg hi
    obtain ⟨hi, -⟩ := List.getElem?_eq_some_iff.1 hi
    obtain ⟨a, ha, hread⟩ := putArgv_word (C := C) hi h64 (by omega)
    rw [argPtr, hC, hread, ha]
  have hin : ∀ i arg, argv[i]? = some arg →
      4096 * (n + 2) - argsSize argv ≤ argPtr (A.view m) (4096 * (n + 2) - stackNeed argv) i ∧
      argPtr (A.view m) (4096 * (n + 2) - stackNeed argv) i + arg.length + 1 ≤ 4096 * (n + 2) := by
    intro i arg hi
    obtain ⟨a, ha, hlo, hhi, -⟩ := argSlots_getElem? C (4096 * (n + 2)) hi (by omega)
    rw [hptr i arg hi] at ha
    obtain rfl := Option.some.inj ha
    exact ⟨hlo, hhi⟩
  refine ⟨by omega, ?_, fun i arg hi => ?_, ?_, ?_, by omega, by omega, fun i arg hi => ?_,
    fun i arg hi => ?_, fun i j arg arg' hi hj hij => ?_⟩
  · rw [argPtr, hC, putArgv_null]
  · rw [hC]
    exact putArgv_arg hi (hptr i arg hi) (by omega)
  · rw [show 4096 * (n + 2) / 4096 - 1 = n + 1 by omega, PTree.view_of_lt hlt, hst.stack]
    exact ⟨_, rfl⟩
  · obtain ⟨pa', fl, hl, hfl⟩ := hst.guard
    rw [show 4096 * (n + 2) / 4096 - 2 = n by omega, PTree.view_of_lt (by omega), hl]
    exact ⟨fl, _, rfl, hfl⟩
  · have := hin i arg hi
    omega
  · have := hin i arg hi
    omega
  · -- the string with the larger index is below the other one
    rw [Set.disjoint_left]
    intro x hx hx'
    rw [Set.mem_Ico] at hx hx'
    rcases lt_or_gt_of_ne hij with hij | hij
    · have := argSlots_lt hij (hptr i arg hi) hj (hptr j arg' hj) (by omega)
      omega
    · have := argSlots_lt hij (hptr j arg' hj) hi (hptr i arg hi) (by omega)
      omega

end Args

/-- With eight free pages a file without segments can be run. -/
theorem kexec_bareElf {k : KernelEnd} {m : Machine} {held : Set (ℕ × ℕ)} {i : ℕ}
    (hrun : MachineRun (fun m op => op.Fits m) k m held) (hi : (m.proc i).state = .live)
    (hfree : 7 < m.phys.freeCount) : ∃ r s',
      (kexec m.trampolinePa (m.proc i) bareElf []).run m.phys = .ok (r, s') ∧ r.1 ≠ -1 := by
  obtain ⟨A, hm⟩ := hrun.inv fun _ _ hop => hop
  have hne : (m.proc i).state ≠ .unused := by
    rw [hi]
    exact ProcState.noConfusion
  have h := hm.space i hne
  have hnil : ∀ arg ∈ ([] : List (List UInt8)), arg.length < 2 ^ 31 := nofun
  obtain ⟨r, s', hexec, -, hfails⟩ := wp_noPanic_iff.1
    (kexec_spec bareElf h (hm.trapframe_notMem hne) hm.tramp hnil)
  refine ⟨r, s', hexec, fun hr => ?_⟩
  rcases hfails.1 hr with hno | ⟨s₀, hopen⟩ | hneed | hmax
  · exact hno bareElf_isElf
  · have hown : Owns m.phys k.managed ∅ ((A i).tables ∪ (A i).leaves ∪
        insert ((m.proc i).trapframe, 0) (besides m.proc A held i)) :=
      h.uvm.owns.reassoc (Set.empty_union _) (Set.empty_disjoint _)
    have hpost := wp_of_run (openImage_spec bareElf hown
      ⟨hm.tramp, h.uvm.owns.symm.leafOk (Set.mem_insert _ _)⟩) hopen
    have hfew : m.phys.freeCount ≤ 7 := hpost.2.2 (by decide)
    omega
  · exact absurd hneed (by decide)
  · exact absurd hmax (by decide)

/-- In every state of every run in which the sizes stay at or below `TRAPFRAME`, for every list of
arguments : if `kexec` succeeds, the arguments are handed over; and if the file can be run without
arguments, `kexec` fails exactly when strings and array do not fit into the stack. -/
theorem kexec_argv {k : KernelEnd} {m : Machine} {held : Set (ℕ × ℕ)} {i : ℕ} {file : ExecFile}
    {argv : List (List UInt8)} (hrun : MachineRun (fun m op => op.Fits m) k m held)
    (hi : (m.proc i).state = .live) (hcount : argv.length < maxArg)
    (hargs : ∀ arg ∈ argv, arg.length < 2 ^ 31) :
    ∃ r s', (kexec m.trampolinePa (m.proc i) file argv).run m.phys = .ok (r, s') ∧
      (r.1 ≠ -1 → r.1 = argv.length ∧
        read64 s'.mem (r.2.trapframe + 48) = read64 s'.mem (r.2.trapframe + 120) ∧
        ArgsPassed (userPages s'.mem r.2.pagetable) r.2.sz
          (read64 s'.mem (r.2.trapframe + 120)) argv) ∧
      ((∃ r₀ s₀, (kexec m.trampolinePa (m.proc i) file []).run m.phys = .ok (r₀, s₀) ∧
          r₀.1 ≠ -1) → (r.1 = -1 ↔ pgSize < stackNeed argv)) := by
  obtain ⟨A, hm⟩ := hrun.inv fun _ _ hop => hop
  have hne : (m.proc i).state ≠ .unused := by
    rw [hi]
    exact ProcState.noConfusion
  have h := hm.space i hne
  have hnot := hm.trapframe_notMem hne
  obtain ⟨r, s', hexec, hpost, hfails⟩ := wp_noPanic_iff.1
    (kexec_spec file h hnot hm.tramp hargs)
  refine ⟨r, s', hexec, fun hr => ?_, ?_⟩
  · rcases hpost with ⟨rfl, -⟩ | ⟨hargc, htf, -, -, B, C, sp, hB, hstack, hsp, ha1⟩
    · exact absurd rfl hr
    · rw [htf, hsp, ha1, hB.root, userPages_eq hB.uvm]
      exact ⟨hargc, rfl, hstack.passed hB.sz_le⟩
  · rintro ⟨r₀, s₀, hexec₀, hr₀⟩
    have hnil : ∀ arg ∈ ([] : List (List UInt8)), arg.length < 2 ^ 31 := nofun
    have hloads := (wp_of_run (kexec_spec file h hnot hm.tramp hnil) hexec₀).2
    rw [hfails, ExecFails]
    rw [ExecFails] at hloads
    simp only [pgSize]
    constructor
    · rintro (hno | hno | hneed | hmax)
      · exact absurd (hloads.2 (Or.inl hno)) hr₀
      · exact absurd (hloads.2 (Or.inr (Or.inl hno))) hr₀
      · exact hneed
      · omega
    · exact fun hneed => Or.inr (Or.inr (Or.inl hneed))

/-- The first process runs a program without segments with one argument. -/
theorem kexec_argv_init : ∃ (m : Machine) (i : ℕ) (r : ℤ × Proc) (s' : Phys),
    (m.proc i).state = .live ∧
    (kexec m.trampolinePa (m.proc i) bareElf [[0x61]]).run m.phys = .ok (r, s') ∧ r.1 = 1 ∧
    ArgsPassed (userPages s'.mem r.2.pagetable) r.2.sz
      (read64 s'.mem (r.2.trapframe + 120)) [[0x61]] := by
  obtain ⟨m, i, hrun, hi, -, hcount, -⟩ := MachineRun.exists_process
  have hfits := hrun (fun m op => op.Fits m) fun _ => trivial
  obtain ⟨r, s', hexec, hpassed, hiff⟩ := @kexec_argv _ _ _ i bareElf [[0x61]] hfits hi (by decide)
    (by simp)
  have hr : r.1 ≠ -1 := by
    intro hr
    exact absurd ((hiff (kexec_bareElf hfits hi (by omega))).1 hr) (by decide)
  exact ⟨m, i, r, s', hi, hexec, (hpassed hr).1, (hpassed hr).2.2⟩

end Xv6Plus
