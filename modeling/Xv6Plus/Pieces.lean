import Mathlib

/-!
# An interval cut into pieces

`Pieces S len lo hi` : the pieces `[a, a + len a)` for `a ∈ S` are not empty, do not overlap and
cover exactly `[lo, hi)`. A piece can be cut in two, two neighbours can be joined, and a piece
can be added at the end.
-/

namespace Xv6Plus

/-- The pieces that start at the points of `S` make up `[lo, hi)`. -/
structure Pieces (S : Set ℕ) (len : ℕ → ℕ) (lo hi : ℕ) : Prop where
  pos : ∀ a ∈ S, 0 < len a
  apart : ∀ a ∈ S, ∀ b ∈ S, a < b → a + len a ≤ b
  cover : ∀ x, lo ≤ x ∧ x < hi ↔ ∃ a ∈ S, a ≤ x ∧ x < a + len a

namespace Pieces

variable {S S' : Set ℕ} {len len' : ℕ → ℕ} {lo hi a b k : ℕ}

theorem empty (len : ℕ → ℕ) (lo : ℕ) : Pieces ∅ len lo lo where
  pos a ha := ha.elim
  apart a ha := ha.elim
  cover x := ⟨fun h => by omega, fun ⟨_, ha, _⟩ => ha.elim⟩

theorem bounds (h : Pieces S len lo hi) (ha : a ∈ S) : lo ≤ a ∧ a + len a ≤ hi := by
  have hpos := h.pos a ha
  have h1 := (h.cover a).2 ⟨a, ha, by omega, by omega⟩
  have h2 := (h.cover (a + len a - 1)).2 ⟨a, ha, by omega, by omega⟩
  omega

theorem congr (h : Pieces S len lo hi) (he : ∀ a ∈ S, len' a = len a) : Pieces S len' lo hi where
  pos a ha := by
    rw [he a ha]
    exact h.pos a ha
  apart a ha b hb hab := by
    rw [he a ha]
    exact h.apart a ha b hb hab
  cover x := by
    rw [h.cover]
    refine exists_congr fun a => and_congr_right fun ha => ?_
    rw [he a ha]

theorem append (h : Pieces S len lo hi) (hle : lo ≤ hi) (hk : 0 < k) (hlen : len' hi = k)
    (he : ∀ a ∈ S, len' a = len a) : Pieces (insert hi S) len' lo (hi + k) where
  pos a ha := by
    rcases ha with rfl | ha
    · omega
    · rw [he a ha]
      exact h.pos a ha
  apart a ha b hb hab := by
    rcases ha with rfl | ha <;> rcases hb with rfl | hb
    · omega
    · have := h.bounds hb
      omega
    · rw [he a ha]
      exact (h.bounds ha).2
    · rw [he a ha]
      exact h.apart a ha b hb hab
  cover x := by
    constructor
    · intro hx
      by_cases hxh : x < hi
      · obtain ⟨a, ha, h1, h2⟩ := (h.cover x).1 ⟨hx.1, hxh⟩
        exact ⟨a, Or.inr ha, h1, by rw [he a ha]; exact h2⟩
      · exact ⟨hi, Or.inl rfl, by omega, by omega⟩
    · rintro ⟨a, rfl | ha, h1, h2⟩
      · omega
      · rw [he a ha] at h2
        have := (h.cover x).2 ⟨a, ha, h1, h2⟩
        omega

theorem split (h : Pieces S len lo hi) (ha : a ∈ S) (hk : 0 < k) (hlt : k < len a)
    (hlow : len' a = k) (hhigh : len' (a + k) = len a - k)
    (he : ∀ b ∈ S, b ≠ a → len' b = len b) : Pieces (insert (a + k) S) len' lo hi := by
  have hnew : a + k ∉ S := fun hc => by
    have := h.apart a ha _ hc (by omega)
    omega
  have hle : ∀ b ∈ S, len' b ≤ len b := by
    intro b hb
    by_cases hba : b = a
    · rw [hba]
      omega
    · exact (he b hb hba).le
  refine ⟨?_, ?_, fun x => ?_⟩
  · rintro b (rfl | hb)
    · omega
    · by_cases hba : b = a
      · rw [hba]
        omega
      · rw [he b hb hba]
        exact h.pos b hb
  · rintro b (rfl | hb) c (rfl | hc) hbc
    · omega
    · have := h.apart a ha c hc (by omega)
      omega
    · by_cases hba : b = a
      · rw [hba]
        omega
      · rw [he b hb hba]
        rcases Nat.lt_or_gt_of_ne hba with hlt | hgt
        · have := h.apart b hb a ha hlt
          omega
        · have := h.apart a ha b hb hgt
          omega
    · have := h.apart b hb c hc hbc
      have := hle b hb
      omega
  · rw [h.cover]
    constructor
    · rintro ⟨b, hb, h1, h2⟩
      by_cases hba : b = a
      · subst hba
        by_cases hx : x < b + k
        · exact ⟨b, Or.inr hb, h1, by omega⟩
        · exact ⟨b + k, Or.inl rfl, by omega, by omega⟩
      · exact ⟨b, Or.inr hb, h1, by rw [he b hb hba]; exact h2⟩
    · rintro ⟨b, rfl | hb, h1, h2⟩
      · exact ⟨a, ha, by omega, by omega⟩
      · exact ⟨b, hb, h1, by have := hle b hb; omega⟩

theorem join (h : Pieces S len lo hi) (ha : a ∈ S) (hb : b ∈ S) (hab : a + len a = b)
    (hlen : len' a = len a + len b) (he : ∀ c ∈ S, c ≠ a → c ≠ b → len' c = len c) :
    Pieces (S \ {b}) len' lo hi := by
  have hpa := h.pos a ha
  have hpb := h.pos b hb
  refine ⟨?_, ?_, fun x => ?_⟩
  · rintro c ⟨hc, hcb⟩
    by_cases hca : c = a
    · rw [hca]
      omega
    · rw [he c hc hca hcb]
      exact h.pos c hc
  · rintro c ⟨hc, hcb⟩ d ⟨hd, hdb⟩ hcd
    rw [Set.mem_singleton_iff] at hcb hdb
    by_cases hca : c = a
    · subst hca
      have h1 := h.apart c hc d hd hcd
      have h2 := h.apart b hb d hd (by omega)
      omega
    · rw [he c hc hca hcb]
      exact h.apart c hc d hd hcd
  · rw [h.cover]
    constructor
    · rintro ⟨c, hc, h1, h2⟩
      by_cases hca : c = a
      · subst hca
        exact ⟨c, ⟨hc, fun h' => by rw [Set.mem_singleton_iff] at h'; omega⟩, h1, by omega⟩
      · by_cases hcb : c = b
        · subst hcb
          exact ⟨a, ⟨ha, fun h' => by rw [Set.mem_singleton_iff] at h'; omega⟩, by omega, by omega⟩
        · exact ⟨c, ⟨hc, hcb⟩, h1, by rw [he c hc hca hcb]; exact h2⟩
    · rintro ⟨c, ⟨hc, hcb⟩, h1, h2⟩
      by_cases hca : c = a
      · subst hca
        by_cases hx : x < b
        · exact ⟨c, hc, h1, by omega⟩
        · exact ⟨b, hb, by omega, by omega⟩
      · exact ⟨c, hc, h1, by rw [he c hc hca hcb] at h2; exact h2⟩

end Pieces

end Xv6Plus
