import Xv6Plus.VmReach

/-!
# Mapping a range

`mappages` and `mappages_flags` with `MAP_HUGE` map a range page by page, and a walk on the
way may add tables. On every address of the part that got mapped the translation is the one
asked for, and on every other address it is what it was (`mappages_exact`).
-/

namespace Xv6Plus

/-! ## One turn and the rest -/

theorem mapLoop_succ (pagetable perm level n a pa : ℕ) :
    mapLoop pagetable perm level (n + 1) a pa = (do
      let r ← mapLoop pagetable perm level 1 a pa
      if r = 0 then
        mapLoop pagetable perm level n (a + levelPageSize level) (pa + levelPageSize level)
      else
        pure r) := by
  rw [mapLoop, mapLoop, bind_assoc]
  refine bind_congr fun r => ?_
  cases r with
  | none =>
    rw [pure_bind, if_neg (by decide)]
  | some x =>
    dsimp only
    rw [bind_assoc]
    refine bind_congr fun e => ?_
    split_ifs with hv
    · rfl
    · rw [bind_assoc]
      refine bind_congr fun _ => ?_
      rw [mapLoop, pure_bind, if_pos rfl]

/-- The slot `k` of the level is empty, and no leaf is above it. -/
def PTree.Vacant (A : PTree) (L k : ℕ) : Prop :=
  A.ent L k = .absent ∧ ∀ L' b f, L < L' → A.ent L' (512 ^ L * k / 512 ^ L') ≠ .leaf b f

section Range

variable {s : Phys} {R : Set ℕ} {frame : Set (ℕ × ℕ)} {A A₁ : PTree} {L k n pa fl perm w : ℕ}

/-- The lookups after the tables over a vacant slot were added and a leaf was put there. -/
theorem PTree.Grows.lookup_put (hg : A.Grows A₁) (hok : A₁.Ok) (hL : L < 2)
    (hv : A.Vacant L k) (habs : A₁.ent L k = .absent) :
    (A₁.put L k (.leaf pa fl) noKids).lookup w =
      if w / 512 ^ L = k then some (pa + 4096 * (w % 512 ^ L), fl) else A.lookup w := by
  have hold : ∀ q, A₁.ent L k ≠ .table q := by
    rw [habs]
    exact fun _ => Entry.noConfusion
  rcases (by omega : L = 0 ∨ L = 1) with rfl | rfl
  · rw [pow_zero, Nat.div_one, Nat.mod_one, Nat.mul_zero, Nat.add_zero]
    split_ifs with hw
    · subst hw
      refine lookup_page (fun b f he => ?_) put_same
      rw [put_noKids hok (by omega) hold (by omega), hg.leaf_iff] at he
      refine hv.2 1 b f (by omega) ?_
      rw [pow_zero, Nat.one_mul, pow_one]
      exact he
    · rw [lookup_set_page_ne hw, hg.lookup]
  · rw [pow_one]
    split_ifs with hw
    · rw [lookup_huge (by rw [hw]; exact put_same)]
    · rw [lookup_set_huge_ne hok hold hw, hg.lookup]

theorem PTree.Vacant.put {k' : ℕ} (h : A.Vacant L k') (hg : A.Grows A₁) (hok : A₁.Ok) (hL : L < 2)
    (habs : A₁.ent L k = .absent) (hsame : A₁.ent L k' = A.ent L k') (hne : k' ≠ k) :
    (A₁.put L k (.leaf pa fl) noKids).Vacant L k' := by
  have hold : ∀ q, A₁.ent L k ≠ .table q := by
    rw [habs]
    exact fun _ => Entry.noConfusion
  refine ⟨?_, fun L' b f hL' he => ?_⟩
  · rw [put_noKids hok (by omega) hold (by omega), hsame]
    exact h.1
  · rw [put_noKids hok (by omega) hold (by omega), hg.leaf_iff] at he
    exact h.2 L' b f hL' he

/-- After mapping `n` slots from `k` on : the first `m` of them are mapped, all of them or as
many as there was memory for tables, and every other lookup is as it was. -/
def MapRangePost (s : Phys) (R : Set ℕ) (frame : Set (ℕ × ℕ)) (A : PTree) (L k pa fl n : ℕ)
    (r : ℤ) (s' : Phys) : Prop :=
  ∃ A' m, A'.root = A.root ∧ PT s' R frame A' ∧ Keeps frame s s' ∧
    (r = 0 ∧ m = n ∨ r = -1 ∧ m < n ∧ s'.free = ∅) ∧
    ∀ w, A'.lookup w = if 512 ^ L * k ≤ w ∧ w < 512 ^ L * (k + m) then
      some (pa + 4096 * (w - 512 ^ L * k), fl) else A.lookup w

/-- The first slot and the slots after it, of `P` pages each. -/
theorem range_succ {P m : ℕ} (hP : 0 < P) (x : Option (ℕ × ℕ)) :
    (if P * (k + 1) ≤ w ∧ w < P * (k + 1 + m) then
        some (pa + 4096 * P + 4096 * (w - P * (k + 1)), fl)
      else if w / P = k then some (pa + 4096 * (w % P), fl) else x) =
      if P * k ≤ w ∧ w < P * (k + (m + 1)) then some (pa + 4096 * (w - P * k), fl) else x := by
  have hdiv : w / P = k ↔ P * k ≤ w ∧ w < P * k + P := by
    rw [Nat.div_eq_iff hP, mul_comm k P]
    omega
  have hmul : P * (k + 1) = P * k + P ∧ P * (k + 1 + m) = P * k + P + P * m ∧
      P * (k + (m + 1)) = P * k + P + P * m := ⟨by ring, by ring, by ring⟩
  rw [hmul.1, hmul.2.1, hmul.2.2]
  by_cases hrest : P * k + P ≤ w ∧ w < P * k + P + P * m
  · rw [if_pos hrest, if_pos (by omega),
      show pa + 4096 * P + 4096 * (w - (P * k + P)) = pa + 4096 * (w - P * k) by omega]
  · rw [if_neg hrest]
    by_cases hk : w / P = k
    · have hw := Nat.div_add_mod w P
      rw [hk] at hw
      rw [if_pos hk, if_pos (by rw [hdiv] at hk; omega), show w % P = w - P * k by omega]
    · rw [if_neg hk, if_neg (by rw [hdiv] at hk; omega)]

theorem levelPageSize_eq (L : ℕ) : levelPageSize L = 4096 * 512 ^ L := by
  rw [levelPageSize, Nat.shiftLeft_eq, mul_comm L 9, pow_mul]
  rfl

theorem mapLoop_spec (hL : L < 2) (hperm : PermOk perm) : ∀ {n k pa : ℕ} {s : Phys} {A : PTree},
    PT s R frame A → (∀ j < n, A.Vacant L (k + j)) → 512 ^ L * (k + n) ≤ 2 ^ 26 →
    pa % (4096 * 512 ^ L) = 0 → pa + 4096 * 512 ^ L * n ≤ 2 ^ 64 →
    wp (mapLoop A.root perm L n (4096 * 512 ^ L * k) pa)
      (MapRangePost s R frame A L k pa (perm ||| pteV) n) noPanic s
  | 0, k, pa, s, A, h, _, _, _, _ => by
    rw [mapLoop, wp_pure]
    exact ⟨A, 0, rfl, h, .refl _ _, Or.inl ⟨rfl, rfl⟩,
      fun w => by rw [Nat.add_zero, if_neg (by omega)]⟩
  | n + 1, k, pa, s, A, h, hfree, hend, hal, hpa => by
    have hP : 512 ^ L = 1 ∨ 512 ^ L = 512 := by
      rcases (by omega : L = 0 ∨ L = 1) with rfl | rfl
      · exact Or.inl (pow_zero _)
      · exact Or.inr (pow_one _)
    have hv : 4096 * 512 ^ L * k / 4096 = 512 ^ L * k := by
      rw [mul_assoc, Nat.mul_div_cancel_left _ (by omega)]
    have hk : 512 ^ L * k / 512 ^ L = k := Nat.mul_div_cancel_left _ (by positivity)
    obtain ⟨habs, hup⟩ := hfree 0 (by omega)
    rw [Nat.add_zero] at habs hup
    have hl : LeafOk L pa (perm ||| pteV) := by
      refine hperm.leafOk hal ?_
      rcases hP with hP | hP <;> rw [hP] at hpa <;> omega
    have hva : 4096 * 512 ^ L * k < 2 ^ 38 := by
      rcases hP with hP | hP <;> rw [hP] at hend ⊢ <;> omega
    rw [mapLoop_succ, wp_bind]
    refine wp_post (mapLoop_one_spec h hva hL hl (by rw [hv, hk]; exact habs)
      (by rw [hv]; exact fun L' b f hL' => hup L' b f hL')) ?_
    rintro r s₁ ⟨A₁, hok, hg, hsame, hkeep, hr⟩
    rw [hv, hk] at hr
    rcases hr with ⟨rfl, hempty, hpt⟩ | ⟨rfl, hpt⟩
    · rw [if_neg (by decide), wp_pure]
      refine ⟨A₁, 0, hg.root, hpt, hkeep, Or.inr ⟨rfl, by omega, hempty⟩, fun w => ?_⟩
      rw [Nat.add_zero, if_neg (by omega), hg.lookup]
    · have hsameL : ∀ j, A₁.ent L j = A.ent L j := fun j => hsame L j (Or.inl le_rfl)
      have habs₁ : A₁.ent L k = .absent := by rw [hsameL, habs]
      rw [if_pos rfl, levelPageSize_eq,
        show 4096 * 512 ^ L * k + 4096 * 512 ^ L = 4096 * 512 ^ L * (k + 1) by ring]
      have hpa' : pa + 4096 * 512 ^ L + 4096 * 512 ^ L * n ≤ 2 ^ 64 := by
        rcases hP with hP | hP <;> rw [hP] at hpa ⊢ <;> omega
      have hnext := mapLoop_spec hL hperm (n := n) (k := k + 1) hpt
        (fun j hj => (show A.Vacant L (k + 1 + j) by
          rw [Nat.add_assoc, Nat.add_comm 1 j]
          exact hfree (j + 1) (by omega)).put hg hok hL habs₁ (hsameL _) (by omega))
        (by rwa [show k + 1 + n = k + (n + 1) by omega])
        (by rw [Nat.add_mod_right]; exact hal) hpa'
      rw [PTree.put_root, hg.root] at hnext
      refine wp_post hnext ?_
      rintro r' s₂ ⟨A₂, m, hroot, hpt₂, hkeep₂, hr, hlook⟩
      refine ⟨A₂, m + 1, hroot.trans hg.root, hpt₂, hkeep.trans hkeep₂, ?_, fun w => ?_⟩
      · rcases hr with ⟨rfl, rfl⟩ | ⟨rfl, hlt, hempty⟩
        · exact Or.inl ⟨rfl, rfl⟩
        · exact Or.inr ⟨rfl, by omega, hempty⟩
      · rw [hlook, hg.lookup_put hok hL (by simpa using hfree 0 (by omega)) habs₁]
        exact range_succ (by omega) _

/-! ## The whole call -/

/-- The size of the pages that `mappages_flags` maps. -/
def mapUnit (huge : Bool) : ℕ := if huge then hugePgSize else pgSize

/-- Nothing is in the way of a mapping of the range : no page of it is mapped, for huge pages
the entries at level 1 are empty. -/
def PTree.RangeFree (A : PTree) (huge : Bool) (va size : ℕ) : Prop :=
  ∀ x, va ≤ x → x < va + size →
    if huge then A.ent 1 (x / hugePgSize) = .absent else A.lookup (x / pgSize) = none

theorem PTree.Vacant.page (hok : A.Ok) (h : A.lookup w = none) : A.Vacant 0 w := by
  obtain ⟨h0, h1⟩ := lookup_none h hok
  refine ⟨h0, fun L' b f hL' he => ?_⟩
  obtain ⟨p, hp⟩ := hok.up L' _ (by rw [he]; exact Entry.noConfusion)
  rw [pow_zero, Nat.one_mul] at he
  rcases (by have := hp.level_le; omega : L' = 1 ∨ L' = 2) with rfl | rfl
  · rw [pow_one] at he
    exact h1 b f he
  · exact hok.top _ _ _ he

theorem PTree.Vacant.huge (hok : A.Ok) (h : A.ent 1 k = .absent) : A.Vacant 1 k := by
  refine ⟨h, fun L' b f hL' he => ?_⟩
  obtain ⟨p, hp⟩ := hok.up L' _ (by rw [he]; exact Entry.noConfusion)
  obtain rfl : L' = 2 := by
    have := hp.level_le
    omega
  exact hok.top _ _ _ he

/-- The translations after `done` bytes of the range have been mapped. -/
def MapsExactly (s s' : Phys) (root va pa fl done : ℕ) : Prop :=
  ∀ x, translate s'.mem root x =
    if va ≤ x ∧ x < va + done then some (pa + (x - va), fl) else translate s.mem root x

/-- After mapping a range in pages of the size `unit` : the whole of it is mapped, or whole
pages from its start on and the memory is used up. -/
def MapExactPost (s : Phys) (R : Set ℕ) (frame : Set (ℕ × ℕ)) (A : PTree)
    (unit va size pa fl : ℕ) (r : ℤ) (s' : Phys) : Prop :=
  ∃ A' done, PT s' R frame A' ∧ A'.root = A.root ∧ Keeps frame s s' ∧
    (r = 0 ∧ done = size ∨ r = -1 ∧ done < size ∧ done % unit = 0 ∧ s'.free = ∅) ∧
    MapsExactly s s' A.root va pa fl done

/-- From slots to addresses. -/
theorem MapRangePost.exact {r : ℤ} {s' : Phys} (h : PT s R frame A)
    (hend : 512 ^ L * (k + n) ≤ 2 ^ 26) (hpost : MapRangePost s R frame A L k pa fl n r s') :
    MapExactPost s R frame A (4096 * 512 ^ L) (4096 * 512 ^ L * k) (4096 * 512 ^ L * n) pa fl
      r s' := by
  obtain ⟨A', m, hroot, h', hk, hr, hlook⟩ := hpost
  have hle : m ≤ n := by
    rcases hr with ⟨-, hm⟩ | ⟨-, hm, -⟩ <;> omega
  have hm := (Nat.mul_le_mul_left (512 ^ L) (Nat.add_le_add_left hle k)).trans hend
  refine ⟨A', 4096 * 512 ^ L * m, h', hroot, hk, ?_, fun x => ?_⟩
  · rcases hr with ⟨rfl, rfl⟩ | ⟨rfl, hlt, hempty⟩
    · exact Or.inl ⟨rfl, rfl⟩
    · exact Or.inr ⟨rfl, Nat.mul_lt_mul_of_pos_left hlt (by positivity), Nat.mul_mod_right _ _,
        hempty⟩
  · rw [show 4096 * 512 ^ L * k = 4096 * (512 ^ L * k) by ring,
      show 4096 * 512 ^ L * m = 4096 * (512 ^ L * m) by ring]
    rw [Nat.mul_add] at hm hlook
    generalize 512 ^ L * k = v at *
    generalize 512 ^ L * m = c at *
    by_cases hx : x < 2 ^ 38
    · rw [← hroot, translate_eq h' hx, hlook, hroot, translate_eq h hx]
      by_cases hc : v ≤ x / 4096 ∧ x / 4096 < v + c
      · rw [if_pos hc, if_pos (by omega), Option.map_some,
          show pa + 4096 * (x / 4096 - v) + x % 4096 = pa + (x - 4096 * v) by omega]
      · rw [if_neg hc, if_neg (by omega)]
    · rw [if_neg (by omega), translate, translate, if_pos (not_lt.1 hx), if_pos (not_lt.1 hx)]

theorem mapLoop_exact {va size : ℕ} (h : PT s R frame A) (hL : L < 2) (hperm : PermOk perm)
    (hva : va % (4096 * 512 ^ L) = 0) (hsz : size % (4096 * 512 ^ L) = 0)
    (hpa : pa % (4096 * 512 ^ L) = 0) (hend : va + size ≤ 2 ^ 38) (hpaend : pa + size ≤ 2 ^ 64)
    (hfree : ∀ x, va ≤ x → x < va + size → A.Vacant L (x / (4096 * 512 ^ L))) :
    wp (mapLoop A.root perm L (size / (4096 * 512 ^ L)) va pa)
      (MapExactPost s R frame A (4096 * 512 ^ L) va size pa (perm ||| pteV)) noPanic s := by
  have hpos : 0 < 4096 * 512 ^ L := by positivity
  obtain ⟨k, rfl⟩ := Nat.dvd_of_mod_eq_zero hva
  obtain ⟨n, rfl⟩ := Nat.dvd_of_mod_eq_zero hsz
  have hslots : 512 ^ L * (k + n) ≤ 2 ^ 26 := by
    rw [← Nat.mul_add, mul_assoc] at hend
    omega
  rw [Nat.mul_div_cancel_left _ hpos]
  refine wp_post (mapLoop_spec hL hperm h (fun j hj => ?_) hslots hpa hpaend) fun r s' hpost =>
    hpost.exact h hslots
  have hx := hfree (4096 * 512 ^ L * (k + j)) (Nat.mul_le_mul_left _ (by omega)) (by
    rw [← Nat.mul_add]
    exact Nat.mul_lt_mul_of_pos_left (by omega) hpos)
  rwa [Nat.mul_div_cancel_left _ hpos] at hx

end Range

/-- `mappages` (`huge = false`) and `mappages_flags` with `MAP_HUGE`, on a range that is free :
every address `va + d` of the part that is mapped is translated to `pa + d` with exactly
`perm | PTE_V`, all others are translated as before, and the part is the whole range or, if
the memory for a table is missing, a part from the start. -/
theorem mappages_exact {s : Phys} {R : Set ℕ} {frame : Set (ℕ × ℕ)} {A : PTree} {huge : Bool}
    {va size pa perm : ℕ} (h : PT s R frame A) (hsize : size ≠ 0)
    (hva : va % mapUnit huge = 0) (hsz : size % mapUnit huge = 0) (hpa : pa % mapUnit huge = 0)
    (hend : va + size ≤ maxVa) (hpaend : pa + size ≤ 2 ^ 64) (hperm : PermOk perm)
    (hfree : A.RangeFree huge va size) :
    wp (mappagesFlags A.root va size pa perm huge)
      (MapExactPost s R frame A (mapUnit huge) va size pa (perm ||| pteV)) noPanic s := by
  rw [mappagesFlags, if_neg hsize]
  cases huge with
  | true =>
    rw [if_pos rfl, if_neg fun hc => hc.elim (· hva) fun hc => hc.elim (· hpa) (· hsz)]
    exact mapLoop_exact h (by omega) hperm hva hsz hpa hend hpaend fun x h1 h2 =>
      .huge h.ok (hfree x h1 h2)
  | false =>
    have hva' : va % pgSize = 0 := hva
    have hsz' : size % pgSize = 0 := hsz
    rw [if_neg (by decide), if_neg (not_not.2 hva'), if_neg (not_not.2 hsz')]
    exact mapLoop_exact h (by omega) hperm hva hsz hpa hend hpaend fun x h1 h2 =>
      .page h.ok (hfree x h1 h2)

/-- Two pages on the two sides of a two-megabyte boundary are mapped beside the pages of a
process. -/
theorem mappages_exact_sample : ∃ s frame r s',
    (mappagesFlags (sampleTree true).root 4190208 8192 0x10000000 6 false).run s = .ok (r, s') ∧
      MapExactPost s sampleEnd.managed frame (sampleTree true) 4096 4190208 8192 0x10000000 7
        r s' := by
  obtain ⟨s, -, h⟩ := exists_sample true ∅ (by simp)
  have hfree : (sampleTree true).RangeFree false 4190208 8192 := by
    intro x h1 h2
    simp only [Bool.false_eq_true, if_false, pgSize]
    refine PTree.lookup_absent (fun b f he => ?_) ?_
    · rcases sampleTree_leaf.1 he with ⟨-, hq, -⟩ | ⟨hL, -⟩ | ⟨hL, -⟩ | ⟨hL, -⟩ <;> omega
    · simp only [sampleTree, topVpn]
      rw [if_neg (by omega), if_neg (by omega), if_neg (by omega)]
  obtain ⟨r, s', hrun, hpost⟩ := wp_noPanic_iff.1 (@mappages_exact s _ _ _ false _ _ 0x10000000 6
    h.uvm.pt (by decide) (by decide) (by decide) (by decide) (by decide) (by decide)
    ⟨by decide, by decide⟩ hfree)
  exact ⟨s, _, r, s', hrun, hpost⟩

end Xv6Plus
