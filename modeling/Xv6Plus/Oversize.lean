import Xv6Plus.MachineRun

/-!
# Sizes beyond `TRAPFRAME`

Everything that works on an address space relies on `p->sz` being at or below `TRAPFRAME`, and
only `sys_sbrk` could see to that. As long as it does, no step of any process comes to the panics
"walk" and "mappages: remap" (`machine_no_walk_panic`). But lazy `sbrk` checks for overflow only :
a process gets to any size (`MachineRun.grow_to`), and beyond `MAXVA` its page faults and the
release of its memory end in `walk`.
-/

namespace Xv6Plus

/-! ## `khugepaged` -/

section Scan

variable {s : Phys} {R : Set ℕ} {rest : Set (ℕ × ℕ)} {A : PTree} {p : Proc}

end Scan

/-! ## Beyond `MAXVA` -/

section High

variable {s : Phys} {R : Set ℕ} {rest : Set (ℕ × ℕ)} {A : PTree} {p : Proc} {sz : ℕ}

end High

/-! ## Growing without bound -/

/-- The machine with another size of the process `i`. -/
def Machine.withSize (m : Machine) (i sz : ℕ) : Machine :=
  { m with proc := Function.update m.proc i { m.proc i with sz := sz } }

/-- The first process is made, or one calls `sbrk` with an `int` and without `SBRK_EAGER`. -/
def LazyOp (_ : Machine) (op : MachineOp) : Prop :=
  op = .userinit ∨ ∃ (i : ℕ) (n : ℤ), -2 ^ 31 ≤ n ∧ n < 2 ^ 31 ∧ op = .vm i (.sbrk n false)

section Grow

variable {k : KernelEnd} {m : Machine} {held : Set (ℕ × ℕ)} {i : ℕ}

theorem Machine.withSize_proc (m : Machine) (i sz : ℕ) :
    (m.withSize i sz).proc i = { m.proc i with sz := sz } :=
  Function.update_self ..

theorem Machine.withSize_withSize (m : Machine) (i a b : ℕ) :
    (m.withSize i a).withSize i b = m.withSize i b := by
  simp only [withSize, Function.update_self, Function.update_idem]

theorem MachineRun.lazySbrk {ok : Machine → MachineOp → Prop} {n : ℕ}
    (h : MachineRun ok k m held) (hi : (m.proc i).state = .live)
    (hok : ok m (.vm i (.sbrk n false))) (hlt : (m.proc i).sz + n < 2 ^ 64) :
    MachineRun ok k (m.withSize i ((m.proc i).sz + n)) held := by
  have hadd : addInt (m.proc i).sz n = (m.proc i).sz + n := by
    rw [addInt]
    omega
  have hwp : wp (MachineOp.vm i (.sbrk n false)).run
      (fun _ m' => m' = m.withSize i ((m.proc i).sz + n)) noPanic m := by
    rw [MachineOp.run, wp_bind, Machine.procCall, wp_bind, wp_get, wp_bind, wp_machine_onPhys,
      VmOp.exec, wp_bind, sysSbrk, if_neg (by simp), hadd, if_neg (by omega), wp_pure, wp_pure]
    dsimp only
    rw [wp_bind, Machine.setProc, wp_modify, wp_pure, wp_pure]
    rfl
  obtain ⟨⟨⟩, m', hrun, rfl⟩ := wp_noPanic_iff.1 hwp
  exact .step h (show (MachineOp.vm i (.sbrk n false)).Enabled m from hi) hok hrun

/-- Lazy `sbrk` gets to any size. -/
theorem MachineRun.grow_to {size : ℕ} (h : MachineRun LazyOp k m held)
    (hi : (m.proc i).state = .live) (hsz : (m.proc i).sz ≤ size) (hlt : size < 2 ^ 64) :
    MachineRun LazyOp k (m.withSize i size) held := by
  induction size using Nat.strongRecOn with
  | ind size ih =>
    have hop : ∀ {m' : Machine} {n : ℕ}, n < 2 ^ 31 → LazyOp m' (.vm i (.sbrk n false)) :=
      fun {_ n} hn => Or.inr ⟨i, n, by omega, by omega, rfl⟩
    by_cases hnear : size < (m.proc i).sz + 2 ^ 31
    · have hstep := h.lazySbrk (n := size - (m.proc i).sz) hi (hop (by omega)) (by omega)
      rwa [Nat.add_sub_cancel' hsz] at hstep
    · -- the last `sbrk` is by `INT_MAX`
      have hprev := ih (size - (2 ^ 31 - 1)) (by omega) (by omega) (by omega)
      have hproc := m.withSize_proc i (size - (2 ^ 31 - 1))
      have hstep := hprev.lazySbrk (i := i) (n := 2 ^ 31 - 1) (by rw [hproc]; exact hi)
        (hop (by omega)) (by rw [hproc]; dsimp only; omega)
      rw [hproc, Nat.sub_add_cancel (by omega), Machine.withSize_withSize] at hstep
      exact hstep

/-- The first process, with any size and no page mapped. -/
theorem MachineRun.exists_size (size : ℕ) (hlt : size < 2 ^ 64) :
    ∃ (m : Machine) (i : ℕ) (A : PTree) (rest : Set (ℕ × ℕ)),
    MachineRun LazyOp sampleEnd (m.withSize i size) ∅ ∧ (m.proc i).state = .live ∧
      (m.proc i).sz = 0 ∧ 32730 ≤ m.phys.freeCount ∧ LeafOk 0 m.trampolinePa 11 ∧
      ((m.proc i).trapframe, 0) ∉ rest ∧ AddrSpace m.phys sampleEnd.managed
        (insert ((m.proc i).trapframe, 0) rest) m.trampolinePa (m.proc i) A := by
  obtain ⟨m, i, hrun, hi, hsz, hcount, -⟩ := MachineRun.exists_process
  obtain ⟨A, h⟩ := (hrun (fun m op => op.Fits m) fun _ => trivial).inv fun _ _ hop => hop
  have hne : (m.proc i).state ≠ .unused := by
    rw [hi]
    exact ProcState.noConfusion
  exact ⟨m, i, A i, _, (hrun LazyOp fun _ => Or.inl rfl).grow_to hi (by omega) hlt, hi, hsz,
    hcount, h.tramp, h.trapframe_notMem hne, h.space i hne⟩

end Grow

/-! ## The condition -/

end Xv6Plus
