import Mathlib

/-!
# Byte memory

A memory is a byte for every address. Integers of `n` bytes are stored with the least
significant byte first (`readLE`, `writeLE`), and `memset` and `memmove` are the C
library's. What a read returns depends on the bytes it covers only (`readLE_congr`), so
frame conditions are stated with `Set.EqOn` on address ranges.
-/

namespace Xv6Plus

/-- A byte for every address. -/
abbrev Mem := ℕ → UInt8

/-- The `n`-byte integer at `a`, least significant byte first. -/
def readLE (m : Mem) (a : ℕ) : ℕ → ℕ
  | 0 => 0
  | n + 1 => (m a).toNat + 256 * readLE m (a + 1) n

/-- Store `v` in the `n` bytes at `a`, least significant byte first. -/
def writeLE (m : Mem) (a n v : ℕ) : Mem := fun x =>
  if a ≤ x ∧ x < a + n then UInt8.ofNat (v / 256 ^ (x - a)) else m x

/-- Fill the `n` bytes at `a` with `c`. -/
def memset (m : Mem) (a : ℕ) (c : UInt8) (n : ℕ) : Mem := fun x =>
  if a ≤ x ∧ x < a + n then c else m x

/-- Copy the `n` bytes at `src` to `dst`. The ranges may overlap. -/
def memmove (m : Mem) (dst src n : ℕ) : Mem := fun x =>
  if dst ≤ x ∧ x < dst + n then m (src + (x - dst)) else m x

/-- The 64-bit word at `a`. -/
def read64 (m : Mem) (a : ℕ) : ℕ := readLE m a 8

/-- Store a 64-bit word at `a`. -/
def write64 (m : Mem) (a v : ℕ) : Mem := writeLE m a 8 v

/-- The 32-bit word at `a`. -/
def read32 (m : Mem) (a : ℕ) : ℕ := readLE m a 4

/-- Store a 32-bit word at `a`. -/
def write32 (m : Mem) (a v : ℕ) : Mem := writeLE m a 4 v

variable {m m' : Mem} {a b n k v : ℕ}

/-! ## Reads -/

theorem readLE_congr : ∀ {n a : ℕ}, Set.EqOn m m' (Set.Ico a (a + n)) →
    readLE m a n = readLE m' a n
  | 0, _, _ => rfl
  | n + 1, a, h => by
    have hhead : m a = m' a := h ⟨le_refl _, by omega⟩
    have htail : Set.EqOn m m' (Set.Ico (a + 1) (a + 1 + n)) := by
      intro x hx
      refine h ⟨?_, ?_⟩
      · have := hx.1
        omega
      · have := hx.2
        omega
    rw [readLE, readLE, hhead, readLE_congr htail]

/-- Equal bytes at two places read as the same. -/
theorem readLE_shift : ∀ {n a b : ℕ}, (∀ i < n, m (a + i) = m' (b + i)) →
    readLE m a n = readLE m' b n
  | 0, _, _, _ => rfl
  | n + 1, a, b, h => by
    have hhead : m a = m' b := h 0 (Nat.succ_pos n)
    have htail : readLE m (a + 1) n = readLE m' (b + 1) n := readLE_shift fun i hi => by
      have := h (i + 1) (by omega)
      rwa [← Nat.add_assoc, ← Nat.add_assoc, Nat.add_right_comm a, Nat.add_right_comm b] at this
    rw [readLE, readLE, hhead, htail]

theorem readLE_lt (m : Mem) : ∀ n a : ℕ, readLE m a n < 256 ^ n
  | 0, _ => by simp [readLE]
  | n + 1, a => by
    have ih := readLE_lt m n (a + 1)
    have hb : (m a).toNat < 256 := (m a).toNat_lt
    rw [readLE, pow_succ]
    omega

/-- Bytes that are the digits of `v` read back as `v`. -/
theorem readLE_of_digits : ∀ {n a v : ℕ},
    (∀ i < n, m (a + i) = UInt8.ofNat (v / 256 ^ i)) → readLE m a n = v % 256 ^ n
  | 0, _, _, _ => by simp [readLE, Nat.mod_one]
  | n + 1, a, v, h => by
    have hhead : (m a).toNat = v % 256 := by
      have := h 0 (by omega)
      rw [Nat.add_zero, pow_zero, Nat.div_one] at this
      rw [this]
      simp
    have htail : readLE m (a + 1) n = v / 256 % 256 ^ n := by
      refine readLE_of_digits fun i hi => ?_
      have := h (i + 1) (by omega)
      rw [pow_succ', ← Nat.div_div_eq_div_mul] at this
      rw [← this]
      congr 1
      omega
    rw [readLE, hhead, htail, pow_succ', Nat.mod_mul]

theorem writeLE_of_lt {x : ℕ} (h : x < a) : writeLE m a n v x = m x :=
  if_neg (by omega)

theorem writeLE_of_ge {x : ℕ} (h : a + n ≤ x) : writeLE m a n v x = m x :=
  if_neg (by omega)

theorem writeLE_eqOn {S : Set ℕ} (h : ∀ x ∈ S, x < a ∨ a + n ≤ x) :
    Set.EqOn (writeLE m a n v) m S := fun x hx =>
  (h x hx).elim writeLE_of_lt writeLE_of_ge

theorem readLE_writeLE_same (m : Mem) (a n v : ℕ) :
    readLE (writeLE m a n v) a n = v % 256 ^ n := by
  refine readLE_of_digits fun i hi => ?_
  rw [writeLE, if_pos (by omega), Nat.add_sub_cancel_left]

theorem readLE_writeLE_ne (h : b + k ≤ a ∨ a + n ≤ b) :
    readLE (writeLE m a n v) b k = readLE m b k := by
  refine readLE_congr (writeLE_eqOn fun x hx => ?_)
  have h1 := hx.1
  have h2 := hx.2
  omega

theorem read64_write64_same (m : Mem) (a : ℕ) (h : v < 2 ^ 64) :
    read64 (write64 m a v) a = v := by
  rw [read64, write64, readLE_writeLE_same]
  exact Nat.mod_eq_of_lt (by norm_num at h ⊢; exact h)

theorem read64_write64_ne (h : b + 8 ≤ a ∨ a + 8 ≤ b) :
    read64 (write64 m a v) b = read64 m b :=
  readLE_writeLE_ne h

theorem read64_write32_ne (h : b + 8 ≤ a ∨ a + 4 ≤ b) :
    read64 (write32 m a v) b = read64 m b :=
  readLE_writeLE_ne h

theorem read32_write32_same (m : Mem) (a : ℕ) (h : v < 2 ^ 32) :
    read32 (write32 m a v) a = v := by
  rw [read32, write32, readLE_writeLE_same]
  exact Nat.mod_eq_of_lt (by norm_num at h ⊢; exact h)

theorem read32_write32_ne (h : b + 4 ≤ a ∨ a + 4 ≤ b) :
    read32 (write32 m a v) b = read32 m b :=
  readLE_writeLE_ne h

theorem read32_write64_ne (h : b + 4 ≤ a ∨ a + 8 ≤ b) :
    read32 (write64 m a v) b = read32 m b :=
  readLE_writeLE_ne h

theorem read64_lt (m : Mem) (a : ℕ) : read64 m a < 2 ^ 64 := by
  have := readLE_lt m 8 a
  norm_num at this ⊢
  exact this

theorem read64_congr (h : Set.EqOn m m' (Set.Ico a (a + 8))) : read64 m a = read64 m' a :=
  readLE_congr h

theorem read32_congr (h : Set.EqOn m m' (Set.Ico a (a + 4))) : read32 m a = read32 m' a :=
  readLE_congr h

theorem write64_eqOn {S : Set ℕ} (h : ∀ x ∈ S, x < a ∨ a + 8 ≤ x) :
    Set.EqOn (write64 m a v) m S :=
  writeLE_eqOn h

theorem write32_eqOn {S : Set ℕ} (h : ∀ x ∈ S, x < a ∨ a + 4 ≤ x) :
    Set.EqOn (write32 m a v) m S :=
  writeLE_eqOn h

/-! ## Block operations -/

theorem memset_eqOn {c : UInt8} {S : Set ℕ} (h : ∀ x ∈ S, x < a ∨ a + n ≤ x) :
    Set.EqOn (memset m a c n) m S := by
  intro x hx
  have := h x hx
  exact if_neg (by omega)

theorem memset_apply {c : UInt8} {x : ℕ} (h1 : a ≤ x) (h2 : x < a + n) :
    memset m a c n x = c :=
  if_pos ⟨h1, h2⟩

theorem memmove_eqOn {src : ℕ} {S : Set ℕ} (h : ∀ x ∈ S, x < a ∨ a + n ≤ x) :
    Set.EqOn (memmove m a src n) m S := by
  intro x hx
  have := h x hx
  exact if_neg (by omega)

theorem memmove_apply {src i : ℕ} (h : i < n) :
    memmove m a src n (a + i) = m (src + i) := by
  rw [memmove, if_pos (by omega), Nat.add_sub_cancel_left]

theorem read64_memset_zero {x : ℕ} (h1 : a ≤ x) (h2 : x + 8 ≤ a + n) :
    read64 (memset m a 0 n) x = 0 := by
  have h := readLE_of_digits (m := memset m a 0 n) (n := 8) (a := x) (v := 0) fun i hi => by
    rw [memset_apply (by omega) (by omega)]
    simp
  rw [read64, h, Nat.zero_mod]

end Xv6Plus
