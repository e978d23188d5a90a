import Mathlib

/-!
# Tilings by dyadic blocks

A block is a pair of a start and an order. It spans `u · 2 ^ order` addresses, `u` being
the smallest size, and is aligned if its size divides its start. Two aligned blocks are
nested or disjoint (`span_subset_of_meet`). `Tiles u A R` says that the blocks of `A` are
aligned, pairwise disjoint and cover `R` exactly; a block can be put in, taken out, cut
into its halves, and two halves joined (`Tiles.insert`, `Tiles.erase`, `Tiles.split`,
`Tiles.merge`).

A tiling is coalesced up to the order `M` if no block of order `M` or less is missing
although both its halves are there. A region has at most one coalesced tiling : its blocks
are the maximal aligned blocks inside the region (`Tiles.mem_iff_maximal`).
-/

namespace Xv6Plus

/-- The addresses of a block. -/
def span (u : ℕ) (b : ℕ × ℕ) : Set ℕ :=
  Set.Ico b.1 (b.1 + u * 2 ^ b.2)

/-- The blocks of `A` are aligned, pairwise disjoint, and cover exactly `R`. -/
structure Tiles (u : ℕ) (A : Set (ℕ × ℕ)) (R : Set ℕ) : Prop where
  aligned : ∀ b ∈ A, u * 2 ^ b.2 ∣ b.1
  disjoint : ∀ b ∈ A, ∀ c ∈ A, b ≠ c → Disjoint (span u b) (span u c)
  cover : ∀ x, x ∈ R ↔ ∃ b ∈ A, x ∈ span u b

/-- No two halves of a block of order at most `M` are both in `A`. -/
def Coalesced (u M : ℕ) (A : Set (ℕ × ℕ)) : Prop :=
  ∀ a o, o < M → u * 2 ^ (o + 1) ∣ a → (a, o) ∈ A → (a + u * 2 ^ o, o) ∉ A

/-- An aligned block inside `R` that is not half of a larger one, up to the order `M`. -/
def MaximalIn (u M : ℕ) (R : Set ℕ) (b : ℕ × ℕ) : Prop :=
  b.2 ≤ M ∧ u * 2 ^ b.2 ∣ b.1 ∧ span u b ⊆ R ∧
    ∀ c : ℕ × ℕ, c.2 ≤ M → u * 2 ^ c.2 ∣ c.1 → span u c ⊆ R → span u b ⊆ span u c → c = b

section Spans

variable {u : ℕ} {b c : ℕ × ℕ} {x : ℕ}

theorem mem_span : x ∈ span u b ↔ b.1 ≤ x ∧ x < b.1 + u * 2 ^ b.2 :=
  Iff.rfl

theorem size_pos (hu : 0 < u) (o : ℕ) : 0 < u * 2 ^ o :=
  Nat.mul_pos hu (Nat.pos_of_ne_zero (by simp))

theorem size_succ (u o : ℕ) : u * 2 ^ (o + 1) = u * 2 ^ o + u * 2 ^ o := by
  rw [pow_succ]
  ring

theorem start_mem_span (hu : 0 < u) (b : ℕ × ℕ) : b.1 ∈ span u b :=
  ⟨le_refl _, Nat.lt_add_of_pos_right (size_pos hu b.2)⟩

/-- An aligned block that meets one of at least its order lies inside it. -/
theorem span_subset_of_meet (hb : u * 2 ^ b.2 ∣ b.1) (hc : u * 2 ^ c.2 ∣ c.1)
    (hle : b.2 ≤ c.2) (hxb : x ∈ span u b) (hxc : x ∈ span u c) : span u b ⊆ span u c := by
  obtain ⟨kb, hkb⟩ := hb
  obtain ⟨kc, hkc⟩ := hc
  obtain ⟨d, hd⟩ := Nat.exists_eq_add_of_le hle
  have hsz : u * 2 ^ c.2 = u * 2 ^ b.2 * 2 ^ d := by rw [hd, pow_add]; ring
  rw [hsz, mul_assoc] at hkc
  rw [mem_span] at hxb hxc
  rw [hsz] at hxc
  -- in units of the smaller size, the larger block starts at `2 ^ d * kc`
  have hlo : 2 ^ d * kc < kb + 1 := by
    have : u * 2 ^ b.2 * (2 ^ d * kc) < u * 2 ^ b.2 * (kb + 1) := by
      rw [mul_add, mul_one]
      omega
    exact Nat.lt_of_mul_lt_mul_left this
  have hhi : kb < 2 ^ d * kc + 2 ^ d := by
    have : u * 2 ^ b.2 * kb < u * 2 ^ b.2 * (2 ^ d * kc + 2 ^ d) := by
      rw [mul_add]
      omega
    exact Nat.lt_of_mul_lt_mul_left this
  have h1 : u * 2 ^ b.2 * (2 ^ d * kc) ≤ u * 2 ^ b.2 * kb := Nat.mul_le_mul_left _ (by omega)
  have h2 : u * 2 ^ b.2 * (kb + 1) ≤ u * 2 ^ b.2 * (2 ^ d * kc + 2 ^ d) :=
    Nat.mul_le_mul_left _ (by omega)
  rw [mul_add, mul_one, mul_add] at h2
  intro y hy
  rw [mem_span] at hy ⊢
  rw [hsz]
  omega

theorem order_le_of_subset (hu : 0 < u) (h : span u b ⊆ span u c) : b.2 ≤ c.2 := by
  by_contra hlt
  have hlt : c.2 + 1 ≤ b.2 := by omega
  have hpow : u * 2 ^ (c.2 + 1) ≤ u * 2 ^ b.2 :=
    Nat.mul_le_mul_left _ (Nat.pow_le_pow_right (by omega) hlt)
  have h1 := size_pos hu c.2
  have h2 := size_succ u c.2
  have hfst := h (start_mem_span hu b)
  have hlast := h (show b.1 + u * 2 ^ b.2 - 1 ∈ span u b by rw [mem_span]; omega)
  rw [mem_span] at hfst hlast
  omega

/-- Aligned blocks of one order that meet are equal. -/
theorem eq_of_meet (hu : 0 < u) (hb : u * 2 ^ b.2 ∣ b.1) (hc : u * 2 ^ c.2 ∣ c.1)
    (ho : b.2 = c.2) (hxb : x ∈ span u b) (hxc : x ∈ span u c) : b = c := by
  have h1 := span_subset_of_meet hb hc ho.le hxb hxc (start_mem_span hu b)
  have h2 := span_subset_of_meet hc hb ho.ge hxc hxb (start_mem_span hu c)
  exact Prod.ext (le_antisymm h2.1 h1.1) ho

/-- The two halves of a block make up its span. -/
theorem span_succ (a o : ℕ) : span u (a, o + 1) = span u (a, o) ∪ span u (a + u * 2 ^ o, o) := by
  ext x
  have := size_succ u o
  simp only [Set.mem_union, mem_span]
  omega

theorem disjoint_halves (a o : ℕ) : Disjoint (span u (a, o)) (span u (a + u * 2 ^ o, o)) := by
  rw [Set.disjoint_left]
  intro x h1 h2
  rw [mem_span] at h1 h2
  dsimp only at h1 h2
  omega

theorem dvd_of_succ_dvd {a o : ℕ} (h : u * 2 ^ (o + 1) ∣ a) : u * 2 ^ o ∣ a :=
  (Nat.mul_dvd_mul_left u (pow_dvd_pow 2 (Nat.le_succ o))).trans h

theorem dvd_upper {a o : ℕ} (h : u * 2 ^ (o + 1) ∣ a) : u * 2 ^ o ∣ a + u * 2 ^ o :=
  Nat.dvd_add (dvd_of_succ_dvd h) (dvd_refl _)

/-- An aligned block is the lower or the upper half of an aligned block of the next order. -/
theorem lower_or_upper {a o : ℕ} (h : u * 2 ^ o ∣ a) :
    u * 2 ^ (o + 1) ∣ a ∨ ∃ a', a = a' + u * 2 ^ o ∧ u * 2 ^ (o + 1) ∣ a' := by
  obtain ⟨k, rfl⟩ := h
  rcases Nat.even_or_odd' k with ⟨j, rfl | rfl⟩
  · exact Or.inl ⟨j, by rw [pow_succ]; ring⟩
  · exact Or.inr ⟨u * 2 ^ o * (2 * j), by ring, ⟨j, by rw [pow_succ]; ring⟩⟩

end Spans

/-- A block whose buddy is not there may be added. -/
theorem Coalesced.insert {u M a o : ℕ} {A : Set (ℕ × ℕ)} (hu : 0 < u) (h : Coalesced u M A)
    (hlo : o < M → u * 2 ^ (o + 1) ∣ a → (a + u * 2 ^ o, o) ∉ A)
    (hup : o < M → ∀ a', a = a' + u * 2 ^ o → u * 2 ^ (o + 1) ∣ a' → (a', o) ∉ A) :
    Coalesced u M (insert (a, o) A) := by
  intro c p hp hal hc hc'
  have hpos := size_pos hu p
  simp only [Set.mem_insert_iff, Prod.mk.injEq] at hc hc'
  rcases hc with ⟨rfl, rfl⟩ | hc
  · rcases hc' with hc' | hc'
    · omega
    · exact hlo hp hal hc'
  · rcases hc' with ⟨hca, rfl⟩ | hc'
    · exact hup hp c hca.symm hal hc
    · exact h c p hp hal hc hc'

namespace Tiles

variable {u M : ℕ} {A : Set (ℕ × ℕ)} {R : Set ℕ} {b : ℕ × ℕ}

theorem empty (u : ℕ) : Tiles u ∅ ∅ where
  aligned := by simp
  disjoint := by simp
  cover := by simp

theorem span_subset (h : Tiles u A R) (hb : b ∈ A) : span u b ⊆ R := fun x hx =>
  (h.cover x).2 ⟨b, hb, hx⟩

/-- At most one block of a tiling holds a given address. -/
theorem eq_of_mem (h : Tiles u A R) {c : ℕ × ℕ} {x : ℕ} (hb : b ∈ A) (hc : c ∈ A)
    (hxb : x ∈ span u b) (hxc : x ∈ span u c) : b = c := by
  by_contra hne
  exact Set.disjoint_left.1 (h.disjoint b hb c hc hne) hxb hxc

theorem insert (h : Tiles u A R) (hb : u * 2 ^ b.2 ∣ b.1) (hd : Disjoint (span u b) R) :
    Tiles u (insert b A) (span u b ∪ R) where
  aligned := by
    rintro c (rfl | hc)
    · exact hb
    · exact h.aligned c hc
  disjoint := by
    rintro c (rfl | hc) d (rfl | hd') hne
    · exact absurd rfl hne
    · exact hd.mono_right (h.span_subset hd')
    · exact (hd.mono_right (h.span_subset hc)).symm
    · exact h.disjoint c hc d hd' hne
  cover := by
    intro x
    simp only [Set.mem_union, Set.mem_insert_iff, exists_eq_or_imp, h.cover x]

theorem erase (h : Tiles u A R) (hb : b ∈ A) : Tiles u (A \ {b}) (R \ span u b) where
  aligned c hc := h.aligned c hc.1
  disjoint c hc d hd := h.disjoint c hc.1 d hd.1
  cover := by
    intro x
    constructor
    · rintro ⟨hR, hx⟩
      obtain ⟨c, hc, hxc⟩ := (h.cover x).1 hR
      refine ⟨c, ⟨hc, ?_⟩, hxc⟩
      rintro rfl
      exact hx hxc
    · rintro ⟨c, ⟨hc, hne⟩, hxc⟩
      refine ⟨(h.cover x).2 ⟨c, hc, hxc⟩, fun hxb => hne ?_⟩
      exact h.eq_of_mem hc hb hxc hxb

/-- Putting back what was taken out, possibly in other pieces. -/
theorem congr_region {R' : Set ℕ} (h : Tiles u A R) (hR : R = R') : Tiles u A R' :=
  hR ▸ h

theorem split {a o : ℕ} (h : Tiles u A R) (hb : (a, o + 1) ∈ A) :
    Tiles u (Insert.insert (a, o) (Insert.insert (a + u * 2 ^ o, o) (A \ {(a, o + 1)}))) R := by
  have hal := h.aligned _ hb
  have hsub := h.span_subset hb
  have hspan := span_succ (u := u) a o
  have hup := ((h.erase hb).insert (b := (a + u * 2 ^ o, o)) (dvd_upper hal) (by
    rw [hspan]
    exact Set.disjoint_sdiff_right.mono_left Set.subset_union_right))
  have hlo := hup.insert (b := (a, o)) (dvd_of_succ_dvd hal) (by
    rw [Set.disjoint_union_right]
    refine ⟨disjoint_halves a o, ?_⟩
    rw [hspan]
    exact Set.disjoint_sdiff_right.mono_left Set.subset_union_left)
  refine hlo.congr_region ?_
  rw [← Set.union_assoc, ← hspan]
  exact Set.union_sdiff_cancel hsub

theorem merge {a o : ℕ} (hu : 0 < u) (h : Tiles u A R) (hal : u * 2 ^ (o + 1) ∣ a)
    (hlo : (a, o) ∈ A) (hup : (a + u * 2 ^ o, o) ∈ A) :
    Tiles u (Insert.insert (a, o + 1) ((A \ {(a, o)}) \ {(a + u * 2 ^ o, o)})) R := by
  have hne : (a + u * 2 ^ o, o) ≠ (a, o) := by
    have := size_pos hu o
    simp only [ne_eq, Prod.mk.injEq, and_true]
    omega
  have hspan := span_succ (u := u) a o
  have h2 := (h.erase hlo).erase (b := (a + u * 2 ^ o, o)) ⟨hup, hne⟩
  have hR : (R \ span u (a, o)) \ span u (a + u * 2 ^ o, o) = R \ span u (a, o + 1) := by
    rw [Set.sdiff_sdiff, hspan]
  rw [hR] at h2
  refine (h2.insert (b := (a, o + 1)) hal Set.disjoint_sdiff_right).congr_region ?_
  refine Set.union_sdiff_cancel ?_
  rw [hspan]
  exact Set.union_subset (h.span_subset hlo) (h.span_subset hup)

/-! ## The coalesced tiling of a region -/

/-- In a coalesced tiling every aligned block inside the region lies in one of the tiles. -/
theorem exists_tile_of_subset (hu : 0 < u) (h : Tiles u A R) (hco : Coalesced u M A) :
    ∀ {o a : ℕ}, o ≤ M → u * 2 ^ o ∣ a → span u (a, o) ⊆ R →
      ∃ c ∈ A, span u (a, o) ⊆ span u c
  | 0, a, _, hal, hR => by
    obtain ⟨c, hc, hx⟩ := (h.cover a).1 (hR (start_mem_span hu (a, 0)))
    exact ⟨c, hc, span_subset_of_meet hal (h.aligned c hc) (Nat.zero_le _)
      (start_mem_span hu (a, 0)) hx⟩
  | o + 1, a, ho, hal, hR => by
    rw [span_succ, Set.union_subset_iff] at hR
    obtain ⟨c, hc, hsc⟩ := exists_tile_of_subset hu h hco (by omega) (dvd_of_succ_dvd hal) hR.1
    obtain ⟨d, hd, hsd⟩ := exists_tile_of_subset hu h hco (by omega) (dvd_upper hal) hR.2
    have hc0 := order_le_of_subset hu hsc
    have hd0 := order_le_of_subset hu hsd
    have hxc := hsc (start_mem_span hu (a, o))
    have hxd := hsd (start_mem_span hu (a + u * 2 ^ o, o))
    have hxa : a ∈ span u (a, o + 1) := start_mem_span hu (a, o + 1)
    have hxb : a + u * 2 ^ o ∈ span u (a, o + 1) := by
      rw [span_succ]
      exact Or.inr (start_mem_span hu (a + u * 2 ^ o, o))
    -- a tile of order above `o` meets the block and has at least its order
    rcases Nat.lt_or_ge o c.2 with hlt | hge
    · exact ⟨c, hc, span_subset_of_meet hal (h.aligned c hc) hlt hxa hxc⟩
    rcases Nat.lt_or_ge o d.2 with hlt | hge'
    · exact ⟨d, hd, span_subset_of_meet hal (h.aligned d hd) hlt hxb hxd⟩
    -- otherwise the tiles are the two halves themselves
    have hce : (a, o) = c := eq_of_meet hu (dvd_of_succ_dvd hal) (h.aligned c hc)
      (le_antisymm hc0 hge) (start_mem_span hu (a, o)) hxc
    have hde : (a + u * 2 ^ o, o) = d := eq_of_meet hu (dvd_upper hal) (h.aligned d hd)
      (le_antisymm hd0 hge') (start_mem_span hu (a + u * 2 ^ o, o)) hxd
    exact absurd (hde ▸ hd) (hco a o (by omega) hal (hce ▸ hc))

/-- The tiles of a coalesced tiling are the maximal blocks of its region. -/
theorem mem_iff_maximal (hu : 0 < u) (h : Tiles u A R) (hco : Coalesced u M A)
    (hM : ∀ c ∈ A, c.2 ≤ M) (b : ℕ × ℕ) : b ∈ A ↔ MaximalIn u M R b := by
  constructor
  · intro hb
    refine ⟨hM b hb, h.aligned b hb, h.span_subset hb, fun c hcM hal hcR hbc => ?_⟩
    obtain ⟨d, hd, hcd⟩ := h.exists_tile_of_subset hu hco hcM hal hcR
    have hmem := start_mem_span hu b
    obtain rfl : d = b := h.eq_of_mem hd hb (hcd (hbc hmem)) hmem
    have ho := le_antisymm (order_le_of_subset hu hcd) (order_le_of_subset hu hbc)
    exact eq_of_meet hu hal (h.aligned d hd) ho (hbc hmem) hmem
  · rintro ⟨hbM, hal, hbR, hmax⟩
    obtain ⟨c, hc, hbc⟩ := h.exists_tile_of_subset hu hco hbM hal hbR
    rw [← hmax c (hM c hc) (h.aligned c hc) (h.span_subset hc) hbc]
    exact hc

end Tiles

end Xv6Plus
