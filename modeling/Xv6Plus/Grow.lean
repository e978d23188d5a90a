import Xv6Plus.Roles

/-!
# Eager growth

`growproc(n)` with `n > 0` adds the pages up to the new size at once. In every state of every run
in which the sizes stay at or below `TRAPFRAME` it either adds exactly these pages, cleared and
writable, or it returns `-1` and the process is as it was : the same pages in the same frames,
with the same bytes. Of the pages it took, only nodes of the page table stay taken.
-/

namespace Xv6Plus

/-- The user pages that the hardware finds, with their flags and bytes. -/
def userPages (m : Mem) (pagetable : ℕ) : View := fun v =>
  if v < topVpn then
    (translate m pagetable (4096 * v)).map fun x => (x.2, fun i => m (x.1 + i))
  else none

section Pages

variable {s s' : Phys} {R : Set ℕ} {rest : Set (ℕ × ℕ)} {A A' : PTree}

theorem userPages_eq (h : Uvm s R rest A) : userPages s.mem A.root = A.view s.mem := by
  funext v
  rw [userPages, PTree.view]
  split_ifs with hv
  · simp only [topVpn] at hv
    rw [translate_eq h.pt (by omega), Nat.mul_div_cancel_left _ (by omega), Nat.mul_mod_right,
      Option.map_map]
    rfl
  · rfl

theorem translate_congr (h : Uvm s R rest A) (h' : Uvm s' R rest A') (hroot : A'.root = A.root)
    (hlk : ∀ v, A'.lookup v = A.lookup v) (va : ℕ) :
    translate s'.mem A.root va = translate s.mem A.root va := by
  by_cases hva : va < 2 ^ 38
  · rw [translate_eq h.pt hva, ← hroot, translate_eq h'.pt hva, hlk]
  · rw [translate, translate, if_pos (not_lt.1 hva), if_pos (not_lt.1 hva)]

/-- If the user pages keep their frames, a page that was free is free or has become a table. -/
theorem Uvm.free_or_table (h : Uvm s R rest A) (h' : Uvm s' R rest A')
    (hlk : ∀ v, A'.lookup v = A.lookup v) {i : ℕ} (hi : i ∈ s.freePages) :
    i ∈ s'.freePages ∨ (kernBase + pgSize * i, 0) ∈ A'.tables := by
  have hx : kernBase + pgSize * i ∈ region s.free := hi
  have hnot := Set.disjoint_left.1 h.owns.buddy.apart hx
  have hR : kernBase + pgSize * i ∈ R := h.owns.buddy.free_subset hx
  rw [← h'.owns.buddy.cover] at hR
  rcases hR with hfree | ⟨b, hb, hspan⟩
  · exact Or.inl hfree
  rcases hb with (hb | hb) | hb
  · obtain ⟨hb0, L, q, ht⟩ := hb
    have hpage := h'.pt.table_page ht
    rw [mem_span, hb0] at hspan
    refine Or.inr ⟨rfl, L, q, ?_⟩
    rwa [show kernBase + pgSize * i = b.1 by simp only [kernBase, pgSize] at hspan ⊢; omega]
  · -- the frame of a user page was one before
    obtain ⟨v, hv, hf⟩ := h'.exists_mapped ⟨b, hb, hspan⟩ (by simp only [kernBase, pgSize]; omega)
    have hfr : A.frameOf v = kernBase + pgSize * i := by
      rw [← hf, PTree.frameOf, PTree.frameOf, hlk]
    have hmem : v ∈ A.mapped := ⟨hv.1, by rw [← hlk]; exact hv.2⟩
    refine absurd ?_ hnot
    rw [← hfr]
    exact region_mono (fun b hb => Or.inl (Or.inr hb)) (h.frame_page hmem).2.2
  · exact absurd ⟨b, Or.inr hb, hspan⟩ hnot

end Pages

/-- What `growproc(n)` has done, for `n > 0`. -/
def EagerGrowth (s : Phys) (p : Proc) (n : ℤ) (r : ℤ × Proc) (s' : Phys) : Prop :=
  (r = (-1, p) ∧ userPages s'.mem p.pagetable = userPages s.mem p.pagetable ∧
      (∀ va, translate s'.mem p.pagetable va = translate s.mem p.pagetable va) ∧
      ∀ i ∈ s.freePages, i ∈ s'.freePages ∨
        ∃ L, IsNode s'.mem p.pagetable L (kernBase + pgSize * i)) ∨
    (r = (0, { p with sz := (p.sz + n).toNat }) ∧ ∀ v, userPages s'.mem p.pagetable v =
      if pgRoundUp p.sz ≤ 4096 * v ∧ 4096 * v < pgRoundUp (p.sz + n).toNat then
        some (pteV ||| pteR ||| pteW ||| pteU, fun _ => 0)
      else userPages s.mem p.pagetable v)

/-- A failed eager growth undoes itself, in every state of every run in which the sizes stay at or
below `TRAPFRAME`; one that succeeds adds exactly the pages up to the new size. -/
theorem growproc_undone {k : KernelEnd} {m : Machine} {held : Set (ℕ × ℕ)} {i : ℕ} {n : ℤ}
    (hrun : MachineRun (fun m op => op.Fits m) k m held) (hi : (m.proc i).state = .live)
    (hn : 0 < n) (hfit : (m.proc i).sz + n ≤ trapframe) :
    ∃ r s', (growproc (m.proc i) n).run m.phys = .ok (r, s') ∧
      EagerGrowth m.phys (m.proc i) n r s' := by
  obtain ⟨A, hm⟩ := hrun.inv fun _ _ hop => hop
  have h := hm.space i (by rw [hi]; exact ProcState.noConfusion)
  obtain ⟨r, s', hexec, A', h', hk, hpost⟩ := wp_noPanic_iff.1 (growproc_grow_spec h hn hfit)
  have hsize : sbrkSize (m.proc i).sz n = ((m.proc i).sz + n).toNat := by
    rw [sbrkSize, if_pos (by omega)]
  have hroot : (m.proc i).pagetable = A'.root := by
    rcases hpost with ⟨rfl, -⟩ | ⟨rfl, -⟩ <;> exact h'.root
  have hold : userPages m.phys.mem (m.proc i).pagetable = (A i).view m.phys.mem := by
    rw [h.root, userPages_eq h.uvm]
  have hnew : userPages s'.mem (m.proc i).pagetable = A'.view s'.mem := by
    rw [hroot, userPages_eq h'.uvm]
  refine ⟨r, s', hexec, ?_⟩
  rcases hpost with ⟨rfl, hview, hlk⟩ | ⟨rfl, hview⟩
  · refine Or.inl ⟨rfl, by rw [hnew, hold, hview], fun va => ?_, fun j hj => ?_⟩
    · rw [h.root]
      exact translate_congr h.uvm h'.uvm (hroot.symm.trans h.root) hlk va
    · refine (h.uvm.free_or_table h'.uvm hlk hj).imp id fun ht => ?_
      obtain ⟨L, q, ht⟩ := PTree.mem_tables.1 ht
      rw [hroot]
      exact ⟨L, (isNode_iff h'.uvm.pt).2 ⟨q, ht⟩⟩
  · rw [hsize] at hview
    refine Or.inr ⟨by rw [hsize], fun v => ?_⟩
    rw [hnew, hold, hview, pgRoundUp_pages h.sz_le, pgRoundUp_pages (Int.toNat_le.2 hfit)]
    exact if_congr (by omega) rfl rfl

/-- The first process grows by a page. -/
theorem growproc_undone_init : ∃ (m : Machine) (i : ℕ), (m.proc i).state = .live ∧
    ∃ r s', (growproc (m.proc i) 4096).run m.phys = .ok (r, s') ∧
      EagerGrowth m.phys (m.proc i) 4096 r s' := by
  obtain ⟨m, i, hrun, hi, hsz, -⟩ := MachineRun.exists_process
  exact ⟨m, i, hi, growproc_undone (hrun (fun m op => op.Fits m) fun _ => trivial) hi (by decide)
    (by rw [hsz]; decide)⟩

end Xv6Plus
