import Mathlib

/-!
# Sets of bits

A word as the set of its bits below 64, with what the C idioms for clearing and for
setting one bit do to the set.
-/

namespace Xv6Plus

/-- The set bits of a 64-bit word. -/
def bits (v : ℕ) : Finset ℕ := (Finset.range 64).filter fun i => v.testBit i

/-- The number of set bits. -/
def popcount (v : ℕ) : ℕ := (bits v).card

variable {v i j : ℕ}

theorem mem_bits : i ∈ bits v ↔ i < 64 ∧ v.testBit i := by
  rw [bits, Finset.mem_filter, Finset.mem_range]

theorem testBit_clear (v i j : ℕ) :
    (Nat.ldiff v (2 ^ j)).testBit i = (v.testBit i && !decide (j = i)) := by
  rw [Nat.testBit_ldiff, Nat.testBit_two_pow]

theorem testBit_set (v i j : ℕ) : (v ||| 2 ^ j).testBit i = (v.testBit i || decide (j = i)) := by
  rw [Nat.testBit_or, Nat.testBit_two_pow]

theorem popcount_clear (hj : j < 64) (h : v.testBit j) :
    popcount (Nat.ldiff v (2 ^ j)) + 1 = popcount v := by
  have he : bits (Nat.ldiff v (2 ^ j)) = (bits v).erase j := by
    ext i
    rw [Finset.mem_erase, mem_bits, mem_bits, testBit_clear]
    simp only [Bool.and_eq_true, Bool.not_eq_true', decide_eq_false_iff_not]
    exact ⟨fun ⟨hi, hv, hne⟩ => ⟨Ne.symm hne, hi, hv⟩, fun ⟨hne, hi, hv⟩ => ⟨hi, hv, Ne.symm hne⟩⟩
  rw [popcount, he, popcount, Finset.card_erase_add_one (mem_bits.2 ⟨hj, h⟩)]

theorem popcount_set (hj : j < 64) (h : ¬v.testBit j) :
    popcount (v ||| 2 ^ j) = popcount v + 1 := by
  have he : bits (v ||| 2 ^ j) = insert j (bits v) := by
    ext i
    rw [Finset.mem_insert, mem_bits, mem_bits, testBit_set]
    simp only [Bool.or_eq_true, decide_eq_true_eq]
    constructor
    · rintro ⟨hi, hv | rfl⟩
      · exact .inr ⟨hi, hv⟩
      · exact .inl rfl
    · rintro (rfl | ⟨hi, hv⟩)
      · exact ⟨hj, .inr rfl⟩
      · exact ⟨hi, .inl hv⟩
  rw [popcount, he, popcount, Finset.card_insert_of_notMem fun hm => h (mem_bits.1 hm).2]

theorem testBit_low {n : ℕ} (hn : n ≤ 64) (i : ℕ) :
    ((2 ^ 64 - 1) >>> (64 - n)).testBit i = decide (i < n) := by
  rw [Nat.testBit_shiftRight, Nat.testBit_two_pow_sub_one]
  exact decide_eq_decide.2 (by omega)

theorem lt_of_testBit_low {n : ℕ} (hn : n ≤ 64) (h : ((2 ^ 64 - 1) >>> (64 - n)).testBit i) :
    i < n := by
  rwa [testBit_low hn, decide_eq_true_eq] at h

theorem popcount_low {n : ℕ} (hn : n ≤ 64) : popcount ((2 ^ 64 - 1) >>> (64 - n)) = n := by
  have he : bits ((2 ^ 64 - 1) >>> (64 - n)) = Finset.range n := by
    ext i
    rw [mem_bits, testBit_low hn, decide_eq_true_eq, Finset.mem_range]
    omega
  rw [popcount, he, Finset.card_range]

/-- If only the low `n` bits are set, they are all set exactly if there are `n` of them. -/
theorem popcount_eq_iff {n : ℕ} (hn : n ≤ 64) (hlow : ∀ i, v.testBit i → i < n) :
    popcount v = n ↔ ∀ i < n, v.testBit i := by
  have hsub : bits v ⊆ Finset.range n := fun i hi => Finset.mem_range.2 (hlow i (mem_bits.1 hi).2)
  constructor
  · intro hc i hi
    have he : bits v = Finset.range n :=
      Finset.eq_of_subset_of_card_le hsub (by rw [Finset.card_range]; exact hc.ge)
    exact (mem_bits.1 (he ▸ Finset.mem_range.2 hi)).2
  · intro hall
    have he : bits v = Finset.range n := hsub.antisymm fun i hi => by
      have hi' := Finset.mem_range.1 hi
      exact mem_bits.2 ⟨by omega, hall i hi'⟩
    rw [popcount, he, Finset.card_range]

theorem exists_testBit (h : popcount v ≠ 0) : ∃ i, v.testBit i := by
  obtain ⟨i, hi⟩ := Finset.card_ne_zero.1 h
  exact ⟨i, (mem_bits.1 hi).2⟩

theorem popcount_le (v : ℕ) : popcount v ≤ 64 := by
  have h := Finset.card_filter_le (Finset.range 64) fun i => v.testBit i
  rwa [Finset.card_range] at h

theorem lt_of_low {n : ℕ} (hn : n ≤ 64) (hlow : ∀ i, v.testBit i → i < n) : v < 2 ^ 64 := by
  refine Nat.lt_pow_two_of_testBit v fun i hi => ?_
  by_contra hne
  have := hlow i (by simpa using hne)
  omega

end Xv6Plus
