import Mathlib

/-!
# Circular lists in ascending order

A circular list kept in order : `next` leads from each node to the next larger one, and from
the largest back to the least. `SortedRing N next` says so of the finite set `N` of nodes.
`SortedRing.insert` and `SortedRing.remove` are the two changes of links such a list allows.

A walk along the list may start anywhere. `ringDist N p q` counts its steps from `p` to `q`;
every step but the one that leaves `q` brings it down by one (`SortedRing.dist_next`), which
bounds every search (`SortedRing.seek`).
-/

namespace Xv6Plus

variable {α : Type*} [LinearOrder α] {N : Finset α} {next next' : α → α} {a b c p q : α}

/-- `next` runs through `N` in ascending order, and from the largest node to the least. -/
structure SortedRing (N : Finset α) (next : α → α) : Prop where
  mem : ∀ a ∈ N, next a ∈ N
  step : ∀ a ∈ N, (a < next a ∧ ∀ c ∈ N, c ≤ a ∨ next a ≤ c) ∨
    ((∀ c ∈ N, c ≤ a) ∧ ∀ c ∈ N, next a ≤ c)

/-- A new node `b` belongs between `p` and its successor `n`. -/
def Place (n p b : α) : Prop := (p < b ∧ b < n) ∨ (n ≤ p ∧ (p < b ∨ b < n))

instance (n p b : α) : Decidable (Place n p b) := inferInstanceAs (Decidable (_ ∨ _))

/-- The number of steps from `p` to `q`. -/
def ringDist (N : Finset α) (p q : α) : ℕ :=
  if p ≤ q then {c ∈ N | p < c ∧ c ≤ q}.card else {c ∈ N | p < c ∨ c ≤ q}.card

/-- The walk along `next` to a node with the property `stop`. -/
def seek (stop : α → Prop) [DecidablePred stop] (next : α → α) : ℕ → α → Option α
  | 0, _ => none
  | n + 1, p => if stop p then some p else seek stop next n (next p)

omit [LinearOrder α] in
theorem seek_mono {stop : α → Prop} [DecidablePred stop] {n m : ℕ} (hle : n ≤ m)
    (h : seek stop next n p = some q) : seek stop next m p = some q := by
  induction n generalizing m p with
  | zero => cases h
  | succ n ih =>
    obtain ⟨m, rfl⟩ := Nat.exists_eq_add_of_le' (show 1 ≤ m by omega)
    rw [seek] at h ⊢
    split_ifs at h ⊢
    · exact h
    · exact ih (by omega) h

theorem ringDist_self : ringDist N p p = 0 := by
  rw [ringDist, if_pos le_rfl, Finset.card_eq_zero, Finset.filter_eq_empty_iff]
  rintro c - ⟨h1, h2⟩
  exact absurd h1 h2.not_gt

theorem ringDist_lt (hp : p ∈ N) : ringDist N p q < N.card := by
  rw [ringDist]
  split_ifs with h <;> refine Finset.card_lt_card (Finset.filter_ssubset.2 ⟨p, hp, ?_⟩)
  · exact fun hc => lt_irrefl p hc.1
  · rintro (hc | hc)
    · exact lt_irrefl p hc
    · exact h hc

namespace SortedRing

theorem congr (h : SortedRing N next) (he : ∀ a ∈ N, next' a = next a) : SortedRing N next' where
  mem a ha := by
    rw [he a ha]
    exact h.mem a ha
  step a ha := by
    rw [he a ha]
    exact h.step a ha

theorem singleton (h : next a = a) : SortedRing {a} next where
  mem b hb := by
    obtain rfl := Finset.mem_singleton.1 hb
    rw [h]
    exact hb
  step b hb := by
    obtain rfl := Finset.mem_singleton.1 hb
    refine Or.inr ⟨fun c hc => (Finset.mem_singleton.1 hc).le, fun c hc => ?_⟩
    rw [h, Finset.mem_singleton.1 hc]

theorem dist_next (h : SortedRing N next) (hp : p ∈ N) (hq : q ∈ N) (hne : p ≠ q) :
    ringDist N p q = ringDist N (next p) q + 1 := by
  have hn := h.mem p hp
  have hcard : ∀ {s t : Finset α}, next p ∉ t → s = insert (next p) t → s.card = t.card + 1 := by
    rintro s t hnot rfl
    exact Finset.card_insert_of_notMem hnot
  have hself : ∀ {r : α → Prop} [DecidablePred r], ¬r (next p) → next p ∉ {c ∈ N | r c} :=
    fun hr hc => hr (Finset.mem_filter.1 hc).2
  rw [ringDist, ringDist]
  rcases h.step p hp with ⟨hlt, hbetween⟩ | ⟨hmax, hmin⟩
  · have hafter : ∀ c ∈ N, p < c ↔ c = next p ∨ next p < c := by
      intro c hc
      refine ⟨fun hpc => ?_, ?_⟩
      · exact ((hbetween c hc).resolve_left hpc.not_ge).eq_or_lt.imp Eq.symm id
      · rintro (rfl | hc')
        · exact hlt
        · exact hlt.trans hc'
    by_cases hpq : p ≤ q
    · have hnq : next p ≤ q := (hbetween q hq).resolve_left (hpq.lt_of_ne hne).not_ge
      rw [if_pos hpq, if_pos hnq]
      refine hcard (hself fun hc => lt_irrefl _ hc.1) ?_
      ext c
      simp only [Finset.mem_filter, Finset.mem_insert]
      constructor
      · rintro ⟨hc, hpc, hcq⟩
        exact ((hafter c hc).1 hpc).imp id fun h' => ⟨hc, h', hcq⟩
      · rintro (rfl | ⟨hc, h1, h2⟩)
        · exact ⟨hn, hlt, hnq⟩
        · exact ⟨hc, hlt.trans h1, h2⟩
    · have hnq : ¬next p ≤ q := fun hc => hpq (hlt.le.trans hc)
      rw [if_neg hpq, if_neg hnq]
      refine hcard (hself ?_) ?_
      · rintro (hc | hc)
        · exact lt_irrefl _ hc
        · exact hnq hc
      ext c
      simp only [Finset.mem_filter, Finset.mem_insert]
      constructor
      · rintro ⟨hc, hpc | hcq⟩
        · exact ((hafter c hc).1 hpc).imp id fun h' => ⟨hc, Or.inl h'⟩
        · exact Or.inr ⟨hc, Or.inr hcq⟩
      · rintro (rfl | ⟨hc, h1 | h1⟩)
        · exact ⟨hn, Or.inl hlt⟩
        · exact ⟨hc, Or.inl (hlt.trans h1)⟩
        · exact ⟨hc, Or.inr h1⟩
  · -- from the largest node to the least
    have hpq : ¬p ≤ q := fun hc => hne (le_antisymm hc (hmax q hq))
    rw [if_neg hpq, if_pos (hmin q hq)]
    refine hcard (hself fun hc => lt_irrefl _ hc.1) ?_
    ext c
    simp only [Finset.mem_filter, Finset.mem_insert]
    constructor
    · rintro ⟨hc, hpc | hcq⟩
      · exact absurd hpc (hmax c hc).not_gt
      · exact ((hmin c hc).eq_or_lt.imp Eq.symm id).imp id fun h' => ⟨hc, h', hcq⟩
    · rintro (rfl | ⟨hc, -, h2⟩)
      · exact ⟨hn, Or.inr (hmin q hq)⟩
      · exact ⟨hc, Or.inr h2⟩

theorem eq_of_dist (h : SortedRing N next) (hp : p ∈ N) (hq : q ∈ N) (hd : ringDist N p q = 0) :
    p = q := by
  by_contra hne
  have := h.dist_next hp hq hne
  omega

/-- The way from behind a node round to it passes all of them. -/
theorem dist_next_self (h : SortedRing N next) (hp : p ∈ N) :
    ringDist N (next p) p + 1 = N.card := by
  have hn := h.mem p hp
  rw [← Finset.card_erase_add_one hn, ringDist]
  congr 1
  rcases h.step p hp with ⟨hlt, hbetween⟩ | ⟨hmax, hmin⟩
  · rw [if_neg hlt.not_ge]
    congr 1
    ext c
    simp only [Finset.mem_filter, Finset.mem_erase]
    constructor
    · rintro ⟨hc, h1 | h1⟩
      · exact ⟨h1.ne', hc⟩
      · exact ⟨(h1.trans_lt hlt).ne, hc⟩
    · rintro ⟨hne, hc⟩
      exact ⟨hc, (hbetween c hc).symm.imp (fun h1 => h1.lt_of_ne hne.symm) id⟩
  · rw [if_pos (hmin p hp)]
    congr 1
    ext c
    simp only [Finset.mem_filter, Finset.mem_erase]
    constructor
    · rintro ⟨hc, h1, -⟩
      exact ⟨h1.ne', hc⟩
    · rintro ⟨hne, hc⟩
      exact ⟨hc, (hmin c hc).lt_of_ne hne.symm, hmax c hc⟩

theorem iterate_mem (h : SortedRing N next) (hp : p ∈ N) (i : ℕ) : next^[i] p ∈ N := by
  induction i with
  | zero => exact hp
  | succ i ih =>
    rw [Function.iterate_succ_apply']
    exact h.mem _ ih

/-- The nodes are what `next` reaches from any one of them. -/
theorem mem_iff (h : SortedRing N next) (hp : p ∈ N) : q ∈ N ↔ ∃ i, next^[i] p = q := by
  constructor
  · intro hq
    generalize hd : ringDist N p q = d
    induction d generalizing p with
    | zero => exact ⟨0, h.eq_of_dist hp hq hd⟩
    | succ d ih =>
      have hne : p ≠ q := by
        rintro rfl
        rw [ringDist_self] at hd
        omega
      have := h.dist_next hp hq hne
      obtain ⟨i, hi⟩ := ih (h.mem p hp) (by omega)
      exact ⟨i + 1, hi⟩
  · rintro ⟨i, rfl⟩
    exact h.iterate_mem hp i

/-- A search that can succeed does so on its way round. -/
theorem seek {stop : α → Prop} [DecidablePred stop] (h : SortedRing N next) {n : ℕ} (hp : p ∈ N)
    (hq : q ∈ N) (hs : stop q) (hn : N.card ≤ n) :
    ∃ r ∈ N, Xv6Plus.seek stop next n p = some r ∧ stop r := by
  have hd : ringDist N p q < n := (ringDist_lt hp).trans_le hn
  clear hn
  induction n generalizing p with
  | zero => omega
  | succ n ih =>
    rw [Xv6Plus.seek]
    by_cases hstop : stop p
    · exact ⟨p, hp, if_pos hstop, hstop⟩
    · have hne : p ≠ q := fun hc => hstop (hc ▸ hs)
      have := h.dist_next hp hq hne
      rw [if_neg hstop]
      exact ih (h.mem p hp) (by omega)

theorem exists_place (h : SortedRing N next) (hp : p ∈ N) (hb : b ∉ N) :
    ∃ q ∈ N, Place (next q) q b := by
  by_cases hlow : ∃ c ∈ N, c < b
  · -- behind the largest of the smaller nodes
    obtain ⟨c, hc, hcb⟩ := hlow
    obtain ⟨q, hq, hmax⟩ := Finset.exists_max_image {c ∈ N | c < b} id
      ⟨c, Finset.mem_filter.2 ⟨hc, hcb⟩⟩
    obtain ⟨hqN, hqb⟩ := Finset.mem_filter.1 hq
    refine ⟨q, hqN, ?_⟩
    rcases h.step q hqN with ⟨hlt, -⟩ | ⟨-, hmin⟩
    · refine Or.inl ⟨hqb, lt_of_not_ge fun hc => ?_⟩
      have hne : next q ≠ b := fun he => hb (he ▸ h.mem q hqN)
      exact hlt.not_ge (hmax _ (Finset.mem_filter.2 ⟨h.mem q hqN, hc.lt_of_ne hne⟩))
    · exact Or.inr ⟨hmin q hqN, Or.inl hqb⟩
  · -- behind the largest node, as the new least one
    obtain ⟨q, hq, hmax⟩ := Finset.exists_max_image N id ⟨p, hp⟩
    have hlt : b < next q := by
      refine lt_of_le_of_ne (le_of_not_gt fun hc => hlow ⟨_, h.mem q hq, hc⟩) ?_
      rintro rfl
      exact hb (h.mem q hq)
    exact ⟨q, hq, Or.inr ⟨hmax _ (h.mem q hq), Or.inr hlt⟩⟩

/-- The places there are : between two neighbours, above all nodes and below all nodes. -/
theorem place_cases (h : SortedRing N next) (hp : p ∈ N) (hplace : Place (next p) p b) :
    (p < b ∧ b < next p ∧ ∀ c ∈ N, c ≤ p ∨ next p ≤ c) ∨
      ((∀ c ∈ N, c ≤ p) ∧ (∀ c ∈ N, next p ≤ c) ∧ (p < b ∨ b < next p)) := by
  rcases h.step p hp with ⟨hlt, hbetween⟩ | ⟨hmax, hmin⟩
  · obtain ⟨h1, h2⟩ := hplace.resolve_right fun hc => hlt.not_ge hc.1
    exact Or.inl ⟨h1, h2, hbetween⟩
  · exact Or.inr ⟨hmax, hmin, hplace.elim (fun hc => Or.inl hc.1) And.right⟩

/-- A place is between no other two neighbours. -/
theorem place_apart (h : SortedRing N next) (hp : p ∈ N) (hplace : Place (next p) p b) (ha : a ∈ N)
    (hap : a ≠ p) : (a < next a ∧ (b ≤ a ∨ next a ≤ b) ∧ ∀ c ∈ N, c ≤ a ∨ next a ≤ c) ∨
      ((b ≤ a ∧ ∀ c ∈ N, c ≤ a) ∧ next a ≤ b ∧ ∀ c ∈ N, next a ≤ c) := by
  rcases h.place_cases hp hplace with ⟨hpb, hbn, hbetween⟩ | ⟨hmax, hmin, hb⟩ <;>
    rcases h.step a ha with ⟨hlt, hbetween'⟩ | ⟨hmax', hmin'⟩
  · refine Or.inl ⟨hlt, ?_, hbetween'⟩
    rcases hbetween a ha with hap' | hna
    · exact Or.inr (((hbetween' p hp).resolve_left (hap'.lt_of_ne hap).not_ge).trans hpb.le)
    · exact Or.inl (hbn.le.trans hna)
  · have hna := (hbetween a ha).resolve_left fun hc => hap (le_antisymm hc (hmax' p hp))
    exact Or.inr ⟨⟨hbn.le.trans hna, hmax'⟩, (hmin' p hp).trans hpb.le, hmin'⟩
  · refine Or.inl ⟨hlt, ?_, hbetween'⟩
    rcases hb with hb | hb
    · exact Or.inr ((hmax _ (h.mem a ha)).trans hb.le)
    · exact Or.inl (hb.le.trans (hmin a ha))
  · exact absurd (le_antisymm (hmax a ha) (hmax' p hp)) hap

theorem insert (h : SortedRing N next) (hp : p ∈ N) (hplace : Place (next p) p b)
    (hnb : next' b = next p) (hnp : next' p = b)
    (he : ∀ c ∈ N, c ≠ p → c ≠ b → next' c = next c) : SortedRing (insert b N) next' where
  mem a ha := by
    by_cases hap : a = p
    · rw [hap, hnp]
      exact Finset.mem_insert_self b N
    by_cases hab : a = b
    · rw [hab, hnb]
      exact Finset.mem_insert_of_mem (h.mem p hp)
    · have haN := Finset.mem_of_mem_insert_of_ne ha hab
      rw [he a haN hap hab]
      exact Finset.mem_insert_of_mem (h.mem a haN)
  step a ha := by
    simp only [Finset.forall_mem_insert]
    by_cases hap : a = p
    · rw [hap, hnp]
      rcases h.place_cases hp hplace with ⟨h1, h2, hbetween⟩ | ⟨hmax, hmin, h1 | h1⟩
      · exact Or.inl ⟨h1, Or.inr le_rfl, fun c hc => (hbetween c hc).imp id h2.le.trans⟩
      · exact Or.inl ⟨h1, Or.inr le_rfl, fun c hc => Or.inl (hmax c hc)⟩
      · exact Or.inr ⟨⟨h1.le.trans (hmin p hp), hmax⟩, le_rfl, fun c hc => h1.le.trans (hmin c hc)⟩
    by_cases hab : a = b
    · rw [hab, hnb]
      rcases h.place_cases hp hplace with ⟨h1, h2, hbetween⟩ | ⟨hmax, hmin, h1 | h1⟩
      · exact Or.inl ⟨h2, Or.inl le_rfl, fun c hc => (hbetween c hc).imp (·.trans h1.le) id⟩
      · exact Or.inr ⟨⟨le_rfl, fun c hc => (hmax c hc).trans h1.le⟩, (hmin p hp).trans h1.le, hmin⟩
      · exact Or.inl ⟨h1, Or.inl le_rfl, fun c hc => Or.inr (hmin c hc)⟩
    · have haN := Finset.mem_of_mem_insert_of_ne ha hab
      rw [he a haN hap hab]
      exact h.place_apart hp hplace haN hap

theorem remove (h : SortedRing N next) (hp : p ∈ N) (hq : next p = q) (hpq : p ≠ q)
    (hnp : next' p = next q) (he : ∀ c ∈ N, c ≠ p → c ≠ q → next' c = next c) :
    SortedRing (N.erase q) next' := by
  have hqN : q ∈ N := hq ▸ h.mem p hp
  have hsucc : ∀ a ∈ N, next a = q → a = p := by
    intro a ha haq
    by_contra hne
    have h1 := h.dist_next ha hp hne
    have h2 := h.dist_next_self hp
    have h3 := ringDist_lt (q := p) ha
    rw [haq, ← hq] at h1
    omega
  have hnext : ∀ a ∈ N, a ≠ q → next' a = if a = p then next q else next a := by
    intro a ha haq
    split_ifs with hap
    · rw [hap, hnp]
    · exact he a ha hap haq
  have hnq : next q ≠ q := fun hc => hpq (hsucc q hqN hc).symm
  refine ⟨fun a ha => ?_, fun a ha => ?_⟩ <;> obtain ⟨haq, haN⟩ := Finset.mem_erase.1 ha <;>
    rw [hnext a haN haq]
  · split_ifs with hap
    · exact Finset.mem_erase.2 ⟨hnq, h.mem q hqN⟩
    · exact Finset.mem_erase.2 ⟨fun hc => hap (hsucc a haN hc), h.mem a haN⟩
  · split_ifs with hap
    · subst hap
      have hstep := h.step a haN
      rw [hq] at hstep
      rcases hstep with ⟨h1, h2⟩ | ⟨h1, h2⟩ <;> rcases h.step q hqN with ⟨h3, h4⟩ | ⟨h3, h4⟩
      · refine Or.inl ⟨h1.trans h3, fun c hc => ?_⟩
        obtain ⟨hcq, hc⟩ := Finset.mem_erase.1 hc
        rcases h2 c hc with h5 | h5
        · exact Or.inl h5
        · exact Or.inr ((h4 c hc).resolve_left fun h6 => hcq (le_antisymm h6 h5))
      · refine Or.inr ⟨fun c hc => ?_, fun c hc => h4 c (Finset.mem_of_mem_erase hc)⟩
        obtain ⟨hcq, hc⟩ := Finset.mem_erase.1 hc
        exact (h2 c hc).resolve_right fun h5 => hcq (le_antisymm (h3 c hc) h5)
      · refine Or.inr ⟨fun c hc => h1 c (Finset.mem_of_mem_erase hc), fun c hc => ?_⟩
        obtain ⟨hcq, hc⟩ := Finset.mem_erase.1 hc
        exact (h4 c hc).resolve_left fun h5 => hcq (le_antisymm h5 (h2 c hc))
      · exact absurd (le_antisymm (h3 a haN) (h2 a haN)) haq
    · refine (h.step a haN).imp ?_ ?_
      · rintro ⟨h1, h2⟩
        exact ⟨h1, fun c hc => h2 c (Finset.mem_of_mem_erase hc)⟩
      · rintro ⟨h1, h2⟩
        exact ⟨fun c hc => h1 c (Finset.mem_of_mem_erase hc),
          fun c hc => h2 c (Finset.mem_of_mem_erase hc)⟩

end SortedRing

end Xv6Plus
