import Mathlib

/-!
# Circular lists through a head

A circular doubly linked list lives in its nodes, one of which is the head. `Seg s a l b` says
that following `next` from `a` meets the nodes `l` and then `b`, and that every `prev` on the way
leads back; a circle is a segment from the head to itself. `Seg.unlink` and `Seg.pushFront` say
what the C idioms for taking a node out and for putting one behind the head do, and `Seg.scan_next`
and `Seg.scan_prev` what the loops over the list find.
-/

namespace Xv6Plus

/-- The link fields of the nodes. -/
structure Links (α : Type) where
  next : α → α
  prev : α → α

section Circle

variable {α : Type} {s s' : Links α} {a b c x : α} {l l₁ l₂ : List α}

/-- From `a` the links lead through `l` to `b`, and back. -/
def Seg (s : Links α) : α → List α → α → Prop
  | a, [], b => s.next a = b ∧ s.prev b = a
  | a, x :: l, b => s.next a = x ∧ s.prev x = a ∧ Seg s x l b

namespace Seg

theorem append : Seg s a (l₁ ++ x :: l₂) b ↔ Seg s a l₁ x ∧ Seg s x l₂ b := by
  induction l₁ generalizing a with
  | nil => exact and_assoc.symm
  | cons y l₁ ih => simp only [List.cons_append, Seg, ih, and_assoc]

/-- Only the links of the nodes on the way matter. -/
theorem congr (h : Seg s a l b) (hnext : ∀ y ∈ a :: l, s'.next y = s.next y)
    (hprev : ∀ y ∈ l ++ [b], s'.prev y = s.prev y) : Seg s' a l b := by
  induction l generalizing a with
  | nil =>
    refine ⟨?_, ?_⟩
    · rw [hnext a List.mem_cons_self, h.1]
    · rw [hprev b (by simp), h.2]
  | cons y l ih =>
    obtain ⟨hn, hp, ht⟩ := h
    refine ⟨?_, ?_, ih ht (fun z hz => hnext z (List.mem_cons_of_mem _ hz)) fun z hz =>
      hprev z (List.mem_cons_of_mem _ hz)⟩
    · rw [hnext a List.mem_cons_self, hn]
    · rw [hprev y (by simp), hp]

theorem prev_mem (h : Seg s a l b) : s.prev b ∈ a :: l := by
  induction l generalizing a with
  | nil => simp [h.2]
  | cons y l ih => exact List.mem_cons_of_mem _ (ih h.2.2)

theorem next_mem (h : Seg s a l b) : s.next a ∈ l ++ [b] := by
  cases l with
  | nil => simp [h.1]
  | cons y l => simp [h.1]

theorem reverse (h : Seg s a l b) : Seg ⟨s.prev, s.next⟩ b l.reverse a := by
  induction l generalizing a with
  | nil => exact ⟨h.2, h.1⟩
  | cons x l ih =>
    rw [List.reverse_cons]
    exact append.2 ⟨ih h.2.2, h.2.1, h.1⟩

end Seg

variable [DecidableEq α]

/-- `b->next->prev = b->prev; b->prev->next = b->next`. -/
def Links.unlink (s : Links α) (b : α) : Links α :=
  let s := { s with prev := Function.update s.prev (s.next b) (s.prev b) }
  { s with next := Function.update s.next (s.prev b) (s.next b) }

/-- `b->next = head.next; b->prev = &head; head.next->prev = b; head.next = b`. -/
def Links.pushFront (s : Links α) (head b : α) : Links α :=
  let s := { s with next := Function.update s.next b (s.next head) }
  let s := { s with prev := Function.update s.prev b head }
  let s := { s with prev := Function.update s.prev (s.next head) b }
  { s with next := Function.update s.next head b }

/-- `for (a = …; a != stop; a = f(a))`, until a node passes the test. -/
def scan (f : α → α) (stop : α) (test : α → Bool) : ℕ → α → Option α
  | 0, _ => none
  | n + 1, a =>
    if a = stop then none else if test a then some a else scan f stop test n (f a)

namespace Seg

/-- Two segments that meet in `b`, once `b` is passed over. -/
theorem relink (h₁ : Seg s a l₁ b) (h₂ : Seg s b l₂ c) (hnd : (a :: (l₁ ++ b :: l₂)).Nodup)
    (hc : c ∉ l₁ ++ b :: l₂) (hnext : s'.next = Function.update s.next (s.prev b) (s.next b))
    (hprev : s'.prev = Function.update s.prev (s.next b) (s.prev b)) :
    Seg s' a (l₁ ++ l₂) c := by
  induction l₁ generalizing a with
  | nil =>
    have hb : s.prev b = a := h₁.2
    rw [hb] at hnext hprev
    have hna : s'.next a = s.next b := by rw [hnext, Function.update_self]
    have hpb : s'.prev (s.next b) = a := by rw [hprev, Function.update_self]
    cases l₂ with
    | nil => exact ⟨by rw [hna, h₂.1], by rw [← h₂.1, hpb]⟩
    | cons q l =>
      obtain ⟨hq, -, ht⟩ := h₂
      refine ⟨by rw [hna, hq], by rw [← hq, hpb], ht.congr (fun y hy => ?_) fun y hy => ?_⟩
      · rw [hnext]
        refine Function.update_of_ne ?_ _ _
        rintro rfl
        simp only [List.nil_append, List.nodup_cons, List.mem_cons, not_or] at hnd hy
        tauto
      · rw [hprev, hq]
        refine Function.update_of_ne ?_ _ _
        rintro rfl
        simp only [List.nil_append, List.nodup_cons, List.mem_cons, List.mem_append,
          not_or] at hnd hc hy
        tauto
  | cons x l ih =>
    obtain ⟨hn, hp, ht⟩ := h₁
    have hnd' := List.nodup_cons.1 hnd
    have hc' : c ∉ l ++ b :: l₂ := fun h => hc (List.mem_cons_of_mem _ h)
    refine ⟨?_, ?_, ih ht hnd'.2 hc'⟩
    · rw [hnext, Function.update_of_ne, hn]
      intro heq
      have hmem := ht.prev_mem
      rw [← heq] at hmem
      exact hnd'.1 (by
        rw [List.cons_append]
        rcases List.mem_cons.1 hmem with h | h
        · simp [h]
        · simp [h])
    · rw [hprev, Function.update_of_ne, hp]
      intro heq
      have hmem := h₂.next_mem
      rw [← heq] at hmem
      rcases List.mem_append.1 hmem with h | h
      · exact (List.nodup_cons.1 hnd'.2).1 (by simp [h])
      · exact hc (by simp [List.mem_singleton.1 h])

theorem unlink (h : Seg s a (l₁ ++ b :: l₂) a) (hnd : (a :: (l₁ ++ b :: l₂)).Nodup) :
    Seg (s.unlink b) a (l₁ ++ l₂) a := by
  obtain ⟨h₁, h₂⟩ := append.1 h
  have hne : b ≠ s.next b := by
    have hmem := h₂.next_mem
    intro heq
    rw [← heq] at hmem
    rcases List.mem_append.1 hmem with hb | hb
    · have hnd' := (List.nodup_append.1 (List.nodup_cons.1 hnd).2).2.1
      exact (List.nodup_cons.1 hnd').1 hb
    · exact (List.nodup_cons.1 hnd).1 (by simp [List.mem_singleton.1 hb])
  refine relink h₁ h₂ hnd (List.nodup_cons.1 hnd).1 ?_ rfl
  show Function.update s.next (Function.update s.prev (s.next b) (s.prev b) b) (s.next b) = _
  rw [Function.update_of_ne hne]

theorem pushFront (h : Seg s a l a) (hnd : (a :: l).Nodup) (hb : b ∉ a :: l) :
    Seg (s.pushFront a b) a (b :: l) a := by
  have hab : a ≠ b := fun heq => hb (by simp [heq])
  have hmem := h.next_mem
  have hnb : s.next a ≠ b := by
    intro heq
    rw [heq] at hmem
    rcases List.mem_append.1 hmem with h | h
    · exact hb (List.mem_cons_of_mem _ h)
    · exact hb (by simp [List.mem_singleton.1 h])
  have hnext : (s.pushFront a b).next =
      Function.update (Function.update s.next b (s.next a)) a b := rfl
  have hprev : (s.pushFront a b).prev =
      Function.update (Function.update s.prev b a) (s.next a) b := by
    show Function.update (Function.update s.prev b a)
      (Function.update s.next b (s.next a) a) b = _
    rw [Function.update_of_ne hab]
  have hnextb : (s.pushFront a b).next b = s.next a := by
    rw [hnext, Function.update_of_ne (Ne.symm hab), Function.update_self]
  have hprevn : (s.pushFront a b).prev (s.next a) = b := by rw [hprev, Function.update_self]
  refine ⟨by rw [hnext, Function.update_self], ?_, ?_⟩
  · rw [hprev, Function.update_of_ne (Ne.symm hnb), Function.update_self]
  · cases l with
    | nil =>
      have hna : s.next a = a := h.1
      rw [hna] at hnextb hprevn
      exact ⟨hnextb, hprevn⟩
    | cons q l =>
      obtain ⟨hq, -, ht⟩ := h
      refine ⟨by rw [hnextb, hq], by rw [← hq, hprevn], ht.congr (fun y hy => ?_) fun y hy => ?_⟩
      · have hya : y ≠ a := fun heq => (List.nodup_cons.1 hnd).1 (heq ▸ hy)
        have hyb : y ≠ b := fun heq => hb (List.mem_cons_of_mem _ (heq ▸ hy))
        rw [hnext, Function.update_of_ne hya, Function.update_of_ne hyb]
      · have hyq : y ≠ q := by
          rintro rfl
          simp only [List.nodup_cons, List.mem_cons, List.mem_append, not_or] at hnd hy
          tauto
        have hyb : y ≠ b := by
          rintro rfl
          simp only [List.mem_cons, List.mem_append, not_or] at hb hy
          tauto
        rw [hprev, hq, Function.update_of_ne hyq, Function.update_of_ne hyb]

/-- The loop along `next` tests the nodes in order. -/
theorem scan_next {n : ℕ} {test : α → Bool} (h : Seg s a l c) (hc : c ∉ l) (hn : l.length < n) :
    scan s.next c test n (s.next a) = l.find? test := by
  induction l generalizing a n with
  | nil =>
    obtain ⟨n, rfl⟩ : ∃ m, n = m + 1 := ⟨n - 1, by simp at hn; omega⟩
    rw [scan, if_pos h.1, List.find?_nil]
  | cons x l ih =>
    obtain ⟨n, rfl⟩ : ∃ m, n = m + 1 := ⟨n - 1, by simp at hn; omega⟩
    have hxc : x ≠ c := fun heq => hc (by simp [heq])
    rw [h.1, scan, if_neg hxc]
    by_cases hx : test x = true
    · rw [if_pos hx, List.find?_cons_of_pos hx]
    · rw [if_neg hx, List.find?_cons_of_neg hx]
      exact ih h.2.2 (fun hm => hc (List.mem_cons_of_mem _ hm)) (by simpa using hn)

end Seg

end Circle

end Xv6Plus
