import Mathlib

/-!
# Queues in a ring

A queue is the sequence of everything that was ever put in, and the number of elements that
were taken out. The elements in between stand in a ring of `C` places, each at its position
in the sequence modulo `C`.
-/

namespace Xv6Plus

section Ring

variable {α : Type} {C d : ℕ} {data : ℕ → α} {l : List α}

/-- The elements of `l` from the position `d` on stand in the ring `data`. -/
def RingHolds (C : ℕ) (data : ℕ → α) (d : ℕ) (l : List α) : Prop :=
  ∀ k x, d ≤ k → l[k]? = some x → data (k % C) = x

theorem ringHolds_nil (C : ℕ) (data : ℕ → α) : RingHolds C data 0 [] := by
  intro k x _ hx
  simp at hx

/-- Two positions less than `C` apart have different places. -/
theorem mod_ne_of_lt {k n : ℕ} (hkn : k < n) (hn : n < k + C) : k % C ≠ n % C := by
  intro heq
  have h0 : (n - k) % C = 0 := Nat.sub_mod_eq_zero_of_mod_eq heq.symm
  rw [Nat.mod_eq_of_lt (by omega)] at h0
  omega

/-- Putting an element in, when there is a free place. -/
theorem RingHolds.push (h : RingHolds C data d l) (hfit : l.length < d + C) (x : α) :
    RingHolds C (Function.update data (l.length % C) x) d (l ++ [x]) := by
  intro k y hk hy
  by_cases hkl : k < l.length
  · rw [List.getElem?_append_left hkl] at hy
    rw [Function.update_of_ne (mod_ne_of_lt hkl (by omega)), h k y hk hy]
  · have hlen := (List.getElem?_eq_some_iff.1 hy).1
    rw [List.length_append, List.length_singleton] at hlen
    obtain rfl : k = l.length := by omega
    rw [List.getElem?_concat_length, Option.some_inj] at hy
    rw [Function.update_self, hy]

theorem RingHolds.drop {d' : ℕ} (h : RingHolds C data d l) (hd : d ≤ d') :
    RingHolds C data d' l :=
  fun k x hk hx => h k x (Nat.le_trans hd hk) hx

theorem RingHolds.shrink {l' : List α} (h : RingHolds C data d (l ++ l')) :
    RingHolds C data d l :=
  fun k x hk hx => h k x hk (by
    rw [List.getElem?_append_left (List.getElem?_eq_some_iff.1 hx).1, hx])

theorem RingHolds.head (h : RingHolds C data d l) (hd : d < l.length) :
    l.take (d + 1) = l.take d ++ [data (d % C)] := by
  rw [List.take_add_one, List.getElem?_eq_getElem hd, Option.toList_some,
    h d _ (Nat.le_refl d) (List.getElem?_eq_getElem hd)]

end Ring

end Xv6Plus
