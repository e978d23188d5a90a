import Xv6Plus.MachineRun

/-!
# Giving memory back

`sbrk` with a negative `n` unmaps the pages from the new size on. Where the new size lies
inside a huge page, `uvmunmap` has to split that page first, for which it needs a table, a
scratch page and 512 pages for the copies : `split_huge_page` gives up with less than 514 free
pages, and `uvmunmap` panics. In all other cases `sbrk` returns.
-/

namespace Xv6Plus

/-- Giving back the pages from `lo` to `hi` cuts a huge page in two. -/
def CutsHuge (A : PTree) (lo hi : ℕ) : Prop :=
  lo < hi ∧ lo % 512 ≠ 0 ∧ ∃ pa fl, A.ent 1 (lo / 512) = .leaf pa fl

section Shrink

variable {s : Phys} {R : Set ℕ} {rest : Set (ℕ × ℕ)} {tramp : ℕ} {p : Proc} {A : PTree} {n : ℤ}
  {lo c : ℕ} {eager : Bool}

/-- Only the huge page at the new end can be in the way. -/
theorem AddrSpace.straddling_eq (h : AddrSpace s R rest tramp p A)
    (hc : ¬CutsHuge A lo (pages p.sz)) : A.straddling lo (pages p.sz) = ∅ := by
  refine Set.eq_empty_of_forall_notMem ?_
  rintro k ⟨⟨pa, fl, he⟩, ⟨v, h1, h2, rfl⟩, hends⟩
  have hend := h.uvm.huge_below h.below _ _ _ he
  refine hc ⟨by omega, by omega, pa, fl, ?_⟩
  rw [show lo / 512 = v / 512 by omega]
  exact he

end Shrink

end Xv6Plus
