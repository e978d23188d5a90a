import Mathlib

/-!
# Linked lists threaded through their nodes

An intrusive list lives in its nodes : `next` and `prev` read the link fields of a node,
and `0` is the null pointer. `DList next prev v p l` says that following `next` from `p`
meets exactly the nodes `l` and then null, and that each node's `prev` is the node before
it, `v` for the first. Being such a list is a fact about the links of the nodes of `l`
only (`DList.congr`), which makes it a frame condition. `DList.insert` and `DList.remove`
say what the C idioms for pushing a node and for unlinking one from the middle do.
`SList` is the same for lists with forward links only.
-/

namespace Xv6Plus

variable {next prev next' prev' : ℕ → ℕ}

theorem getLastD_mem {l : List ℕ} {v : ℕ} (h : l ≠ []) : l.getLastD v ∈ l := by
  rw [List.getLastD_eq_getLast?, List.getLast?_eq_some_getLast h]
  exact List.getLast_mem h

/-- From `p`, whose predecessor is `v`, the doubly linked nodes are `l`. -/
def DList (next prev : ℕ → ℕ) : ℕ → ℕ → List ℕ → Prop
  | _, p, [] => p = 0
  | v, p, a :: l => p = a ∧ a ≠ 0 ∧ prev a = v ∧ DList next prev a (next a) l

namespace DList

theorem congr : ∀ {l : List ℕ} {v p : ℕ}, DList next prev v p l →
    (∀ a ∈ l, next' a = next a) → (∀ a ∈ l, prev' a = prev a) → DList next' prev' v p l
  | [], _, _, h, _, _ => h
  | a :: l, v, p, ⟨hp, ha, hv, ht⟩, hn, hpr => by
    refine ⟨hp, ha, ?_, ?_⟩
    · rw [hpr a (by simp), hv]
    · rw [hn a (by simp)]
      exact ht.congr (fun b hb => hn b (by simp [hb])) fun b hb => hpr b (by simp [hb])

theorem ne_zero : ∀ {l : List ℕ} {v p a : ℕ}, DList next prev v p l → a ∈ l → a ≠ 0
  | b :: l, _, _, _, ⟨_, hb, _, ht⟩, ha => by
    rcases List.mem_cons.1 ha with rfl | ha
    · exact hb
    · exact ht.ne_zero ha

/-- The list is empty exactly when its head is null. -/
theorem eq_nil_iff {l : List ℕ} {v p : ℕ} (h : DList next prev v p l) : l = [] ↔ p = 0 := by
  cases l with
  | nil => exact ⟨fun _ => h, fun _ => rfl⟩
  | cons a l => simp [h.1, h.2.1]

theorem head_mem {l : List ℕ} {v p : ℕ} (h : DList next prev v p l) (hp : p ≠ 0) : p ∈ l := by
  cases l with
  | nil => exact absurd h hp
  | cons a l => simp [h.1]

/-- The successor of a node is null or another node of the list. -/
theorem next_mem : ∀ {l : List ℕ} {v p a : ℕ}, DList next prev v p l → a ∈ l → next a ≠ 0 →
    next a ∈ l
  | b :: l, _, _, a, ⟨_, _, _, ht⟩, ha, hne => by
    rcases List.mem_cons.1 ha with rfl | ha
    · exact List.mem_cons_of_mem _ (ht.head_mem hne)
    · exact List.mem_cons_of_mem _ (ht.next_mem ha hne)

/-- The predecessor of a node is the one before the list, or another node of it. -/
theorem prev_mem : ∀ {l : List ℕ} {v p a : ℕ}, DList next prev v p l → a ∈ l →
    prev a = v ∨ prev a ∈ l
  | b :: l, v, _, a, ⟨_, _, hv, ht⟩, ha => by
    rcases List.mem_cons.1 ha with rfl | ha
    · exact Or.inl hv
    · rcases ht.prev_mem ha with h | h
      · exact Or.inr (by simp [h])
      · exact Or.inr (List.mem_cons_of_mem _ h)

theorem insert {l : List ℕ} {r p : ℕ} (h : DList next prev 0 p l) (hr : r ≠ 0)
    (hnd : l.Nodup) (hnr : next' r = p) (hpr : prev' r = 0) (hn : ∀ a ∈ l, next' a = next a)
    (hp : ∀ a ∈ l, prev' a = if a = p then r else prev a) :
    DList next' prev' 0 r (r :: l) := by
  refine ⟨rfl, hr, hpr, ?_⟩
  rw [hnr]
  cases l with
  | nil => exact h
  | cons a l =>
    obtain ⟨rfl, ha, -, ht⟩ := h
    have hal := (List.nodup_cons.1 hnd).1
    refine ⟨rfl, ha, ?_, ?_⟩
    · rw [hp p (by simp), if_pos rfl]
    · rw [hn p (by simp)]
      refine ht.congr (fun b hb => hn b (by simp [hb])) fun b hb => ?_
      rw [hp b (by simp [hb]), if_neg]
      rintro rfl
      exact hal hb

/-- The predecessor of a node is the last node before it. -/
theorem prev_eq_getLastD : ∀ {l₁ : List ℕ} {l₂ : List ℕ} {r v p : ℕ},
    DList next prev v p (l₁ ++ r :: l₂) → prev r = l₁.getLastD v
  | [], _, _, _, _, h => h.2.2.1
  | a :: l₁, l₂, r, v, p, h => by
    have ih : prev r = l₁.getLastD a := prev_eq_getLastD h.2.2.2
    rw [ih]
    cases l₁ <;> rfl

theorem prev_ne {l : List ℕ} {r p : ℕ} (h : DList next prev 0 p l) (hnd : l.Nodup)
    (hr : r ∈ l) : prev r ≠ r := by
  have hr0 := h.ne_zero hr
  obtain ⟨l₁, l₂, rfl⟩ := List.append_of_mem hr
  rw [prev_eq_getLastD h]
  intro he
  cases l₁ with
  | nil => exact hr0 he.symm
  | cons a l₁ =>
    have hmem : (a :: l₁).getLastD 0 ∈ a :: l₁ := getLastD_mem (by simp)
    rw [he] at hmem
    exact (List.nodup_append.1 hnd).2.2 r hmem r (by simp) rfl

/-- Only the first node has no predecessor. -/
theorem head_of_prev_eq_zero {l : List ℕ} {r p : ℕ} (h : DList next prev 0 p l) (hr : r ∈ l)
    (hp : prev r = 0) : p = r := by
  obtain ⟨l₁, l₂, rfl⟩ := List.append_of_mem hr
  rw [prev_eq_getLastD h] at hp
  cases l₁ with
  | nil => exact h.1
  | cons a l₁ =>
    have hmem : (a :: l₁).getLastD 0 ∈ a :: l₁ := getLastD_mem (by simp)
    exact absurd hp (h.ne_zero (List.mem_append_left _ hmem))

theorem remove_aux : ∀ {l₁ : List ℕ} {l₂ : List ℕ} {r v p : ℕ},
    DList next prev v p (l₁ ++ r :: l₂) → (l₁ ++ r :: l₂).Nodup → v ∉ l₁ ++ r :: l₂ →
    (∀ a ∈ l₁ ++ l₂, next' a = if a = prev r then next r else next a) →
    (∀ a ∈ l₁ ++ l₂, prev' a = if a = next r then prev r else prev a) →
    DList next' prev' v (if l₁ = [] then next r else p) (l₁ ++ l₂)
  | [], l₂, r, v, p, h, hnd, hv, hn, hp => by
    obtain ⟨rfl, -, hpv, ht⟩ := h
    simp only [List.nil_append, if_true] at hn hp hnd hv ⊢
    cases l₂ with
    | nil => exact ht
    | cons b l₂ =>
      obtain ⟨hb, hb0, -, ht⟩ := ht
      have hnb : ∀ a ∈ b :: l₂, next' a = next a := by
        intro a ha
        rw [hn a ha, if_neg]
        rintro rfl
        exact hv (by rw [← hpv]; exact List.mem_cons_of_mem _ ha)
      refine ⟨hb, hb0, ?_, ?_⟩
      · rw [hp b (by simp), if_pos hb.symm, hpv]
      · rw [hnb b (by simp)]
        refine ht.congr (fun a ha => hnb a (by simp [ha])) fun a ha => ?_
        rw [hp a (by simp [ha]), if_neg]
        rintro rfl
        rw [hb] at ha
        exact (List.nodup_cons.1 (List.nodup_cons.1 hnd).2).1 ha
  | c :: l₁, l₂, r, v, p, h, hnd, hv, hn, hp => by
    have hprev := prev_eq_getLastD h
    obtain ⟨rfl, hc, hpv, ht⟩ := h
    simp only [List.cons_append, List.nodup_cons, List.mem_cons, not_or] at hnd hv
    have hcr : p ≠ r := fun he => hnd.1 (by simp [he])
    have ih := remove_aux ht hnd.2 hnd.1
      (fun a ha => hn a (List.mem_cons_of_mem _ ha)) fun a ha => hp a (List.mem_cons_of_mem _ ha)
    rw [if_neg (by simp)]
    refine ⟨rfl, hc, ?_, ?_⟩
    · rw [hp p (by simp), if_neg, hpv]
      -- the successor of `r` is null or comes after it, so it is not `p`
      rintro rfl
      rcases ht.next_mem (a := r) (by simp) hc with hmem
      exact hnd.1 hmem
    · cases l₁ with
      | nil =>
        simp only [List.getLastD_cons, List.getLastD_nil] at hprev
        rw [hn p (by simp), if_pos hprev.symm]
        simpa using ih
      | cons d l₁ =>
        rw [hn p (by simp), if_neg]
        · simpa using ih
        · rw [hprev]
          intro he
          rw [List.getLastD_cons] at he
          have hmem : p ∈ d :: l₁ := by
            rw [he]
            exact getLastD_mem (by simp)
          exact hnd.1 (List.mem_append_left _ hmem)

/-- Unlink `r` : its neighbours point at each other, and the head moves if `r` was first. -/
theorem remove {l : List ℕ} {r p : ℕ} (h : DList next prev 0 p l) (hnd : l.Nodup)
    (hr : r ∈ l) (hn : ∀ a ∈ l, a ≠ r → next' a = if a = prev r then next r else next a)
    (hp : ∀ a ∈ l, a ≠ r → prev' a = if a = next r then prev r else prev a) :
    DList next' prev' 0 (if prev r = 0 then next r else p) (l.erase r) := by
  obtain ⟨l₁, l₂, rfl⟩ := List.append_of_mem hr
  have hr1 : r ∉ l₁ := fun hm => by
    have := (List.nodup_append.1 hnd).2.2 r hm r (by simp)
    exact this rfl
  have hr2 : r ∉ l₂ := fun hm => by
    have := (List.nodup_append.1 hnd).2.1
    exact (List.nodup_cons.1 this).1 hm
  have hne : ∀ a ∈ l₁ ++ l₂, a ≠ r := by
    rintro a ha rfl
    rcases List.mem_append.1 ha with hm | hm
    · exact hr1 hm
    · exact hr2 hm
  have hmem : ∀ a ∈ l₁ ++ l₂, a ∈ l₁ ++ r :: l₂ := by
    intro a ha
    simp only [List.mem_append, List.mem_cons] at ha ⊢
    tauto
  have h0 : 0 ∉ l₁ ++ r :: l₂ := fun hm => h.ne_zero hm rfl
  have hrem := remove_aux h hnd h0 (fun a ha => hn a (hmem a ha) (hne a ha))
    fun a ha => hp a (hmem a ha) (hne a ha)
  rw [List.erase_append_right _ hr1, List.erase_cons_head]
  have hiff : l₁ = [] ↔ prev r = 0 := by
    rw [prev_eq_getLastD h]
    cases l₁ with
    | nil => simp
    | cons a l₁ =>
      simp only [reduceCtorEq, false_iff]
      exact h.ne_zero (List.mem_append_left _ (getLastD_mem (by simp)))
  simpa only [hiff] using hrem

end DList

/-! ## Singly linked lists -/

/-- From `p` the pointers `next` lead through the nodes `l` to null. -/
def SList (next : ℕ → ℕ) : ℕ → List ℕ → Prop
  | p, [] => p = 0
  | p, a :: l => p = a ∧ a ≠ 0 ∧ SList next (next a) l

theorem erase_middle {l₁ l₂ : List ℕ} {a b : ℕ} (h : (l₁ ++ b :: a :: l₂).Nodup) :
    (l₁ ++ b :: a :: l₂).erase a = l₁ ++ b :: l₂ := by
  have ha₁ : a ∉ l₁ := fun ha => (List.nodup_append.1 h).2.2 a ha a (by simp) rfl
  have hab : b ≠ a := by
    rintro rfl
    exact absurd (List.nodup_append.1 h).2.1 (by simp)
  rw [List.erase_append_right _ ha₁, List.erase_cons_tail (by simpa using hab),
    List.erase_cons_head]

namespace SList

theorem congr : ∀ {l : List ℕ} {p : ℕ}, SList next p l → (∀ a ∈ l, next' a = next a) →
    SList next' p l
  | [], _, h, _ => h
  | a :: l, p, ⟨hp, ha, h⟩, he => by
    refine ⟨hp, ha, ?_⟩
    rw [he a List.mem_cons_self]
    exact h.congr fun b hb => he b (List.mem_cons_of_mem _ hb)

/-- The nodes are determined by the links. -/
theorem unique : ∀ {l l' : List ℕ} {p : ℕ}, SList next p l → SList next p l' → l = l'
  | [], [], _, _, _ => rfl
  | [], b :: l', _, h, ⟨hb, hne, _⟩ => absurd (hb.symm.trans h) hne
  | a :: l, [], _, ⟨ha, hne, _⟩, h => absurd (ha.symm.trans h) hne
  | a :: l, b :: l', _, ⟨ha, _, h⟩, ⟨hb, _, h'⟩ => by
    obtain rfl := ha.symm.trans hb
    rw [h.unique h']

theorem exists_cons {l : List ℕ} {p : ℕ} (h : SList next p l) (hp : p ≠ 0) :
    ∃ t, l = p :: t ∧ SList next (next p) t := by
  cases l with
  | nil => exact absurd h hp
  | cons a t =>
    obtain ⟨rfl, -, ht⟩ := h
    exact ⟨t, rfl, ht⟩

theorem push {l : List ℕ} {p a : ℕ} (h : SList next p l) (ha : a ≠ 0) (hal : a ∉ l) :
    SList (Function.update next a p) a (a :: l) := by
  refine ⟨rfl, ha, ?_⟩
  rw [Function.update_self]
  exact h.congr fun b hb => Function.update_of_ne (ne_of_mem_of_not_mem hb hal) _ _

/-- Making the node before `a` point past it takes `a` out. -/
theorem unlink {a b : ℕ} : ∀ {l₁ l₂ : List ℕ} {p : ℕ}, SList next p (l₁ ++ b :: a :: l₂) →
    (l₁ ++ b :: a :: l₂).Nodup → SList (Function.update next b (next a)) p (l₁ ++ b :: l₂)
  | [], l₂, p, ⟨hp, hb, _, _, h⟩, hnd => by
    refine ⟨hp, hb, ?_⟩
    rw [Function.update_self]
    refine h.congr fun c hc => Function.update_of_ne ?_ _ _
    rintro rfl
    exact (List.nodup_cons.1 hnd).1 (List.mem_cons_of_mem _ hc)
  | c :: l₁, l₂, p, ⟨hp, hc, h⟩, hnd => by
    have hne : c ≠ b := by
      rintro rfl
      exact (List.nodup_cons.1 hnd).1 (List.mem_append_right _ List.mem_cons_self)
    refine ⟨hp, hc, ?_⟩
    rw [Function.update_of_ne hne]
    exact unlink h (List.nodup_cons.1 hnd).2

theorem suffix : ∀ {l₁ l₂ : List ℕ} {a p : ℕ}, SList next p (l₁ ++ a :: l₂) →
    SList next (next a) l₂
  | [], _, _, _, h => h.2.2
  | _ :: _, _, _, _, h => suffix h.2.2

end SList

end Xv6Plus
