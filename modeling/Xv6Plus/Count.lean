import Mathlib

/-!
# Counting over a table

Several counters of the kernel say how many entries of a table refer to something. `tally`
adds up what each entry contributes, and `tally_update` is what one changed entry does to it.
-/

namespace Xv6Plus

variable {α : Type} {n p : ℕ} {f : ℕ → α} {v : α} {g : α → ℕ}

/-- The contributions of the first `n` entries of a table. -/
def tally (n : ℕ) (f : ℕ → α) (g : α → ℕ) : ℕ := ∑ i ∈ Finset.range n, g (f i)

theorem tally_update (hp : p < n) :
    tally n (Function.update f p v) g + g (f p) = tally n f g + g v := by
  have hmem : p ∈ Finset.range n := Finset.mem_range.2 hp
  have hrest : ∑ i ∈ (Finset.range n).erase p, g (Function.update f p v i) =
      ∑ i ∈ (Finset.range n).erase p, g (f i) :=
    Finset.sum_congr rfl fun i hi => by rw [Function.update_of_ne (Finset.ne_of_mem_erase hi)]
  unfold tally
  rw [← Finset.add_sum_erase _ _ hmem, ← Finset.add_sum_erase _ (fun i => g (f i)) hmem, hrest,
    Function.update_self]
  omega

theorem le_tally (hp : p < n) : g (f p) ≤ tally n f g :=
  Finset.single_le_sum (f := fun i => g (f i)) (fun _ _ => Nat.zero_le _) (Finset.mem_range.2 hp)

theorem tally_eq_zero (h : ∀ i < n, g (f i) = 0) : tally n f g = 0 :=
  Finset.sum_eq_zero fun i hi => h i (Finset.mem_range.1 hi)

end Xv6Plus
