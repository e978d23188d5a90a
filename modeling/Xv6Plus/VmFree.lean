import Xv6Plus.VmUser

/-!
# Freeing a page table

`freewalk` frees the tables of a tree without leaves, the tables below an entry before the
table that holds it. `uvmfree` unmaps all user pages first, so that it gives back
everything the address space held.
-/

namespace Xv6Plus

namespace PTree

variable {A : PTree} {L q p i : ℕ} {m : Mem}

/-- The `q'`-th table of level `L'` is below the `q`-th of level `L`, or is that table. -/
def Below (L q L' q' : ℕ) : Prop := L' ≤ L ∧ q' / 512 ^ (L - L') = q

/-- The pages of the tables below the `q`-th table of level `L`, with that table. -/
def subTables (A : PTree) (L q : ℕ) : Set (ℕ × ℕ) :=
  {b | b.2 = 0 ∧ ∃ L' q', Below L q L' q' ∧ A.IsTable L' q' b.1}

/-- The tables below the entries from `i` on of the `q`-th table of level `L + 1`. -/
def restTables (A : PTree) (L q i : ℕ) : Set (ℕ × ℕ) :=
  {b | ∃ j, i ≤ j ∧ j < 512 ∧ b ∈ A.subTables L (512 * q + j)}

/-- The memory holds the tables of `restTables`. -/
def RepRest (A : PTree) (m : Mem) (L q i : ℕ) : Prop :=
  ∀ j, i ≤ j → j < 512 → ∀ L' q' p, Below L (512 * q + j) L' q' → A.IsTable L' q' p →
    ∀ x < 512, read64 m (p + 8 * x) = (A.ent L' (512 * q' + x)).bits

/-- The memory holds the tables of `subTables`. -/
def RepSub (A : PTree) (m : Mem) (L q : ℕ) : Prop :=
  ∀ L' q' p, Below L q L' q' → A.IsTable L' q' p →
    ∀ x < 512, read64 m (p + 8 * x) = (A.ent L' (512 * q' + x)).bits

theorem below_self : Below L q L q := ⟨le_rfl, by rw [Nat.sub_self, pow_zero, Nat.div_one]⟩

theorem below_succ {L' q' : ℕ} : Below (L + 1) q L' q' ↔
    (L' = L + 1 ∧ q' = q) ∨ ∃ j < 512, Below L (512 * q + j) L' q' := by
  constructor
  · rintro ⟨hL, hq⟩
    rcases Nat.lt_or_ge L L' with h | h
    · obtain rfl : L' = L + 1 := by omega
      rw [Nat.sub_self, pow_zero, Nat.div_one] at hq
      exact Or.inl ⟨rfl, hq⟩
    · right
      rw [show L + 1 - L' = L - L' + 1 by omega, pow_succ, ← Nat.div_div_eq_div_mul] at hq
      exact ⟨q' / 512 ^ (L - L') % 512, Nat.mod_lt _ (by omega), h, by omega⟩
  · rintro (⟨rfl, rfl⟩ | ⟨j, hj, hL, hq⟩)
    · exact below_self
    · refine ⟨by omega, ?_⟩
      rw [show L + 1 - L' = L - L' + 1 by omega, pow_succ, ← Nat.div_div_eq_div_mul, hq]
      omega

theorem subTables_succ (ht : A.IsTable (L + 1) q p) :
    A.subTables (L + 1) q = insert (p, 0) (A.restTables L q 0) := by
  ext ⟨a, o⟩
  constructor
  · rintro ⟨rfl, L', q', hb, h⟩
    rcases below_succ.1 hb with ⟨rfl, rfl⟩ | ⟨j, hj, hb⟩
    · exact Or.inl (Prod.ext (h.unique ht) rfl)
    · exact Or.inr ⟨j, by omega, hj, rfl, L', q', hb, h⟩
  · rintro (h | ⟨j, _, hj, ho, L', q', hb, h⟩)
    · obtain ⟨rfl, rfl⟩ := Prod.mk.inj h
      exact ⟨rfl, L + 1, q, below_self, ht⟩
    · exact ⟨ho, L', q', below_succ.2 (Or.inr ⟨j, hj, hb⟩), h⟩

theorem subTables_zero (ht : A.IsTable 0 q p) : A.subTables 0 q = {(p, 0)} := by
  ext ⟨a, o⟩
  constructor
  · rintro ⟨rfl, L', q', ⟨hL, hq⟩, h⟩
    obtain rfl : L' = 0 := by omega
    rw [Nat.sub_self, pow_zero, Nat.div_one] at hq
    subst hq
    exact Prod.ext (h.unique ht) rfl
  · intro h
    obtain ⟨rfl, rfl⟩ := Prod.mk.inj h
    exact ⟨rfl, 0, q, below_self, ht⟩

theorem restTables_step (hi : i < 512) :
    A.restTables L q i = A.subTables L (512 * q + i) ∪ A.restTables L q (i + 1) := by
  ext b
  constructor
  · rintro ⟨j, h1, h2, hb⟩
    rcases Nat.eq_or_lt_of_le h1 with rfl | h1
    · exact Or.inl hb
    · exact Or.inr ⟨j, h1, h2, hb⟩
  · rintro (hb | ⟨j, h1, h2, hb⟩)
    · exact ⟨i, le_rfl, hi, hb⟩
    · exact ⟨j, by omega, h2, hb⟩

theorem restTables_end : A.restTables L q 512 = ∅ := by
  ext b
  simp only [restTables, Set.mem_ofPred_eq, Set.mem_empty_iff_false, iff_false]
  rintro ⟨j, h1, h2, _⟩
  omega

theorem below_unique {q₁ q₂ L' q' : ℕ} (h₁ : Below L q₁ L' q') (h₂ : Below L q₂ L' q') :
    q₁ = q₂ :=
  h₁.2.symm.trans h₂.2

/-- Tables below different entries are different. -/
theorem subTables_disjoint (hok : A.Ok) :
    Disjoint (A.subTables L (512 * q + i)) (A.restTables L q (i + 1)) := by
  rw [Set.disjoint_left]
  rintro b ⟨_, L₁, q₁, hb₁, h₁⟩ ⟨j, h, _, _, L₂, q₂, hb₂, h₂⟩
  obtain ⟨rfl, rfl⟩ := hok.inj _ _ _ _ _ h₁ h₂
  have := below_unique hb₁ hb₂
  omega

/-- The table itself is not below one of its entries. -/
theorem notMem_restTables (hok : A.Ok) (ht : A.IsTable (L + 1) q p) :
    (p, 0) ∉ A.restTables L q i := by
  rintro ⟨j, _, _, _, L', q', hb, h⟩
  obtain ⟨rfl, _⟩ := hok.inj _ _ _ _ _ h ht
  have := hb.1
  omega

/-- Below an entry that is no table there are no tables. -/
theorem subTables_empty (hok : A.Ok) (hL : L < 2) (h : ∀ t, A.ent (L + 1) q ≠ .table t) :
    A.subTables L q = ∅ := by
  -- climbing from a table below leads to the entry
  have hclimb : ∀ d L' q' t, L = L' + d → q' / 512 ^ d = q → ¬A.IsTable L' q' t := by
    intro d
    induction d with
    | zero =>
      rintro L' q' t rfl hq ht
      rw [pow_zero, Nat.div_one] at hq
      subst hq
      rcases ht with ⟨hL', _⟩ | ⟨_, he⟩
      · omega
      · exact h t he
    | succ d ih =>
      rintro L' q' t hLd hq ht
      rcases ht with ⟨hL', _⟩ | ⟨_, he⟩
      · omega
      · obtain ⟨t', ht'⟩ := hok.up (L' + 1) q' (by rw [he]; exact Entry.noConfusion)
        refine ih (L' + 1) (q' / 512) t' (by omega) ?_ ht'
        rw [← hq, pow_succ', Nat.div_div_eq_div_mul]
  refine Set.eq_empty_of_forall_notMem ?_
  rintro b ⟨_, L', q', ⟨hle, hq⟩, ht⟩
  exact hclimb (L - L') L' q' b.1 (by omega) hq ht

end PTree

/-! ## `freewalk` -/

section Freewalk

variable {R : Set ℕ} {A : PTree}

/-- A table of level 0 without leaves : the loop finds nothing. -/
theorem freewalkLoop_leafless {f : ℕ → Kern Phys Unit} {q p : ℕ} {s : Phys} {E : String → Prop}
    (hrep : A.RepSub s.mem 0 q) (ht : A.IsTable 0 q p) (hok : A.Ok)
    (hno : ∀ L k pa fl, A.ent L k ≠ .leaf pa fl) : ∀ {n i : ℕ}, n + i = 512 →
    wp (freewalkLoop f p n i) (fun _ s' => s' = s) E s
  | 0, i, _ => by
    rw [freewalkLoop, wp_pure]
  | n + 1, i, hn => by
    have hword := hrep 0 q p PTree.below_self ht i (by omega)
    have habs : A.ent 0 (512 * q + i) = .absent := by
      cases he : A.ent 0 (512 * q + i) with
      | absent => rfl
      | table t => exact absurd he (hok.bottom _ t)
      | leaf pa fl => exact absurd he (hno _ _ _ _)
    rw [freewalkLoop, wp_bind, wp_load64, hword, habs, if_neg (fun hc => absent_valid hc.1),
      if_neg absent_valid]
    exact freewalkLoop_leafless hrep ht hok hno (by omega)

/-- The loop over the entries of a table above level 0; the recursive call frees the tables
below an entry. -/
theorem freewalkLoop_spec {L q p : ℕ} (hL : L < 2) (hok : A.Ok)
    (hno : ∀ L k pa fl, A.ent L k ≠ .leaf pa fl) (ht : A.IsTable (L + 1) q p)
    (ih : ∀ {q' t : ℕ} {frame : Set (ℕ × ℕ)} {s : Phys}, A.IsTable L q' t →
      A.RepSub s.mem L q' → Owns s R (A.subTables L q') frame →
      wp (freewalk (L + 1) t) (fun _ s' => Owns s' R ∅ frame ∧ Keeps frame s s') noPanic s) :
    ∀ {n i : ℕ} {frame : Set (ℕ × ℕ)} {s : Phys}, n + i = 512 → A.RepRest s.mem L q i →
      (∀ j, i ≤ j → j < 512 → read64 s.mem (p + 8 * j) = (A.ent (L + 1) (512 * q + j)).bits) →
      Owns s R (insert (p, 0) (A.restTables L q i)) frame →
      wp (freewalkLoop (freewalk (L + 1)) p n i)
        (fun _ s' => Owns s' R {(p, 0)} frame ∧ Keeps frame s s') noPanic s
  | 0, i, frame, s, hn, _, _, hown => by
    obtain rfl : i = 512 := by omega
    rw [PTree.restTables_end, insert_empty_eq] at hown
    rw [freewalkLoop, wp_pure]
    exact ⟨hown, .refl _ _⟩
  | n + 1, i, frame, s, hn, hrest, hwords, hown => by
    have hi : i < 512 := by omega
    rw [freewalkLoop, wp_bind, wp_load64, hwords i le_rfl hi]
    cases he : A.ent (L + 1) (512 * q + i) with
    | leaf pa fl => exact absurd he (hno _ _ _ _)
    | absent =>
      have hemp : A.subTables L (512 * q + i) = ∅ :=
        PTree.subTables_empty hok hL (by rw [he]; exact fun _ => Entry.noConfusion)
      rw [PTree.restTables_step hi, hemp, Set.empty_union] at hown
      rw [if_neg (fun hc => absent_valid hc.1), if_neg absent_valid]
      exact freewalkLoop_spec hL hok hno ht ih (by omega)
        (fun j hj => hrest j (by omega)) (fun j hj => hwords j (by omega)) hown
    | table t =>
      have htt : A.IsTable L (512 * q + i) t := PTree.isTable_of_ent hL he
      -- the tables below this entry on their own
      have hsub : Owns s R (A.subTables L (512 * q + i))
          (insert (p, 0) (A.restTables L q (i + 1)) ∪ frame) := by
        have hp := PTree.notMem_restTables (i := i) hok ht
        rw [PTree.restTables_step hi] at hown hp
        have hd := hown.apart
        rw [Set.disjoint_insert_left, Set.disjoint_union_left] at hd
        refine hown.reassoc ?_ ?_
        · rw [← Set.union_assoc, Set.union_insert]
        · rw [Set.disjoint_union_right, Set.disjoint_insert_right]
          exact ⟨⟨fun hc => hp (Or.inl hc), PTree.subTables_disjoint hok⟩, hd.2.1⟩
      have hrepsub : A.RepSub s.mem L (512 * q + i) := fun L' q' t' hb ht' =>
        hrest i le_rfl hi L' q' t' hb ht'
      have hpage := hown.page (Set.mem_insert _ _)
      have htsub : (t, 0) ∈ A.subTables L (512 * q + i) := ⟨rfl, L, _, PTree.below_self, htt⟩
      have htpage : t % 4096 = 0 := (hsub.page htsub).1
      rw [if_pos ⟨table_valid t, table_rwx t⟩, table_pa htpage, wp_bind]
      refine wp_post (ih htt hrepsub hsub) ?_
      rintro _ s₁ ⟨hown₁, hk₁⟩
      -- the entry is cleared
      have hown₁' : Owns s₁ R (insert (p, 0) (A.restTables L q (i + 1))) frame := by
        refine hown₁.reassoc (Set.empty_union _).symm ?_
        have hd := hown.apart
        rw [PTree.restTables_step hi, Set.disjoint_insert_left, Set.disjoint_union_left] at hd
        rw [Set.disjoint_insert_left]
        exact ⟨hd.1, hd.2.2⟩
      obtain ⟨hown₂, hk₂⟩ := hown₁'.store_block (Set.mem_insert _ _)
        (write64_span (v := 0) (Nat.le_add_right p (8 * i)) (by omega))
      rw [wp_bind, wp_store64]
      have hp := PTree.notMem_restTables (i := i + 1) hok ht
      rw [Set.insert_sdiff_self_of_notMem hp] at hk₂
      refine wp_post (freewalkLoop_spec hL hok hno ht ih (by omega) ?_ ?_ hown₂) ?_
      · intro j hj hj' L' q' t' hb ht' x hx
        have hmem : (t', 0) ∈ A.restTables L q (i + 1) := ⟨j, hj, hj', rfl, L', q', hb, ht'⟩
        rw [hk₂.read64 (Or.inl hmem) (by omega) (by omega),
          hk₁.read64 (Or.inl (Or.inr hmem)) (by omega) (by omega)]
        exact hrest j (by omega) hj' L' q' t' hb ht' x hx
      · intro j hj hj'
        rw [Phys.setMem_mem, read64_write64_ne (by omega),
          hk₁.read64 (Or.inl (Set.mem_insert _ _)) (by omega) (by omega)]
        exact hwords j (by omega) hj'
      · rintro _ s₃ ⟨hown₃, hk₃⟩
        exact ⟨hown₃, ((hk₁.mono Set.subset_union_right).trans
          (hk₂.mono Set.subset_union_right)).trans hk₃⟩

theorem freewalk_spec (hok : A.Ok) (hno : ∀ L k pa fl, A.ent L k ≠ .leaf pa fl) :
    ∀ {L q p : ℕ} {frame : Set (ℕ × ℕ)} {s : Phys}, A.IsTable L q p → A.RepSub s.mem L q →
    Owns s R (A.subTables L q) frame →
    wp (freewalk (L + 1) p) (fun _ s' => Owns s' R ∅ frame ∧ Keeps frame s s') noPanic s
  | 0, q, p, frame, s, ht, hrep, hown => by
    rw [freewalk, wp_bind]
    refine wp_post (freewalkLoop_leafless hrep ht hok hno (by omega)) ?_
    rintro _ s' rfl
    rw [PTree.subTables_zero ht] at hown
    refine wp_post (hown.kfree_spec rfl) ?_
    rintro _ s' ⟨hown', hk⟩
    rw [Set.sdiff_self] at hown'
    exact ⟨hown', hk.mono Set.subset_union_right⟩
  | L + 1, q, p, frame, s, ht, hrep, hown => by
    have hL := ht.level_le
    rw [PTree.subTables_succ ht] at hown
    rw [freewalk, wp_bind]
    refine wp_post (freewalkLoop_spec (by omega) hok hno ht (freewalk_spec hok hno) (by omega)
      ?_ ?_ hown) ?_
    · intro j _ hj L' q' t hb ht'
      exact hrep L' q' t (PTree.below_succ.2 (Or.inr ⟨j, hj, hb⟩)) ht'
    · intro j _ hj
      exact hrep (L + 1) q p PTree.below_self ht j hj
    · rintro _ s₁ ⟨hown₁, hk₁⟩
      refine wp_post (hown₁.kfree_spec rfl) ?_
      rintro _ s₂ ⟨hown₂, hk₂⟩
      rw [Set.sdiff_self] at hown₂
      exact ⟨hown₂, hk₁.trans (hk₂.mono Set.subset_union_right)⟩

/-! ## `uvmfree` -/

variable {s : Phys} {rest : Set (ℕ × ℕ)} {sz : ℕ}

theorem PTree.IsTable.below_root (hok : A.Ok) : ∀ {d L q p : ℕ}, L + d = 2 → A.IsTable L q p →
    PTree.Below 2 0 L q
  | 0, L, q, p, hd, h => by
    rcases h with ⟨rfl, rfl, _⟩ | ⟨hL, _⟩
    · exact PTree.below_self
    · omega
  | d + 1, L, q, p, hd, h => by
    rcases h with ⟨hL, _⟩ | ⟨hL, he⟩
    · omega
    · obtain ⟨t, ht⟩ := hok.up (L + 1) q (by rw [he]; exact Entry.noConfusion)
      have hup := (below_root (d := d) (L := L + 1) hok (by omega) ht).2
      refine ⟨by omega, ?_⟩
      rw [show 2 - L = 2 - (L + 1) + 1 by omega, pow_succ', ← Nat.div_div_eq_div_mul]
      exact hup

theorem PTree.subTables_root (hok : A.Ok) : A.subTables 2 0 = A.tables := by
  ext ⟨a, o⟩
  constructor
  · rintro ⟨ho, L, q, _, h⟩
    exact ⟨ho, L, q, h⟩
  · rintro ⟨ho, L, q, h⟩
    have hL := h.level_le
    exact ⟨ho, L, q, h.below_root (d := 2 - L) hok (by omega), h⟩

/-- An address space with no user pages and nothing at the top has no leaves. -/
theorem Uvm.no_leaves (h : Uvm s R rest A) (hview : ∀ v, A.view s.mem v = none)
    (htop : ∀ k, topVpn ≤ k → A.ent 0 k = .absent) : ∀ L k pa fl, A.ent L k ≠ .leaf pa fl := by
  intro L k pa fl he
  obtain ⟨p, hp⟩ := h.pt.ok.up L k (by rw [he]; exact Entry.noConfusion)
  rcases (by have := hp.level_le; omega : L = 0 ∨ L = 1 ∨ L = 2) with rfl | rfl | rfl
  · by_cases hk : k < topVpn
    · have hnone := hview k
      rw [PTree.view_eq_none hk, PTree.lookup_page hp.not_leaf he] at hnone
      cases hnone
    · rw [htop k (by omega)] at he
      cases he
  · exact h.huge_view he (j := 0) (by omega) (hview _)
  · exact h.pt.ok.top _ _ _ he

theorem Uvm.freewalk_spec (h : Uvm s R rest A) (hview : ∀ v, A.view s.mem v = none)
    (htop : ∀ k, topVpn ≤ k → A.ent 0 k = .absent) :
    wp (freewalk 3 A.root) (fun _ s' => Owns s' R ∅ rest ∧ Keeps rest s s') noPanic s := by
  have hno := h.no_leaves hview htop
  have hleaves : A.leaves = ∅ := by
    refine Set.eq_empty_of_forall_notMem ?_
    rintro b ⟨L, k, ⟨⟨fl, he⟩, _⟩, _⟩
    exact hno L k _ fl he
  have hown := h.pt.owns
  rw [hleaves, Set.empty_union, ← PTree.subTables_root h.pt.ok] at hown
  exact Xv6Plus.freewalk_spec h.pt.ok hno A.root_isTable
    (fun L q p _ ht => h.pt.rep L q p ht) hown

/-- `uvmfree` with the way to split huge pages as a parameter. -/
def uvmfreeWith (split : ℕ → ℕ → Kern Phys ℤ) (pagetable sz : ℕ) : Kern Phys Unit := do
  if sz > 0 then
    uvmunmapWith split pagetable 0 (pgRoundUp sz / pgSize) true
  freewalk 3 pagetable

theorem uvmfree_eq (pagetable sz : ℕ) :
    uvmfree pagetable sz = uvmfreeWith splitHugePage pagetable sz := by
  rw [uvmfree, uvmfreeWith, uvmunmap_eq]

/-- Everything the address space held is given back; no huge page is split for it. -/
theorem uvmfreeWith_spec (split : ℕ → ℕ → Kern Phys ℤ) (h : Uvm s R rest A)
    (hsz : sz ≤ trapframe) (hbelow : ∀ v, pages sz ≤ v → A.view s.mem v = none)
    (htop : ∀ k, topVpn ≤ k → A.ent 0 k = .absent) :
    wp (uvmfreeWith split A.root sz) (fun _ s' => Owns s' R ∅ rest ∧ Keeps rest s s')
      noPanic s := by
  rw [uvmfreeWith]
  dsimp only
  rw [wp_ite]
  refine ⟨fun _ => ?_, fun hz => ?_⟩
  · have hle := pages_le hsz
    have hns : NoStraddle A 0 (0 + pages sz) := by
      intro k b f he
      have hne := h.huge_view he (j := 511) (by omega)
      by_contra hc
      exact hne (hbelow _ (by omega))
    rw [wp_bind, pgRoundUp_pages hsz, Nat.mul_div_cancel_left _ (by norm_num)]
    refine wp_post (uvmunmapWith_spec 0 h (by omega) (Or.inr hns.straddling_eq)
      (Or.inr (Or.inl hns.straddling_eq))) ?_
    rintro _ s₁ ⟨A₁, -, hu, -⟩
    rw [← hu.top.root]
    refine wp_post (hu.uvm.freewalk_spec (fun v => ?_) fun k hk => ?_) ?_
    · rw [hu.view]
      split_ifs with hc
      · rfl
      · exact hbelow v (by omega)
    · rw [hu.top.top k hk]
      exact htop k hk
    · rintro _ s₂ ⟨hown, hk⟩
      exact ⟨hown, hu.keeps.trans hk⟩
  · obtain rfl : sz = 0 := by omega
    exact h.freewalk_spec (fun v => hbelow v (Nat.zero_le v)) htop

theorem uvmfree_spec (h : Uvm s R rest A) (hsz : sz ≤ trapframe)
    (hbelow : ∀ v, pages sz ≤ v → A.view s.mem v = none)
    (htop : ∀ k, topVpn ≤ k → A.ent 0 k = .absent) :
    wp (uvmfree A.root sz) (fun _ s' => Owns s' R ∅ rest ∧ Keeps rest s s') noPanic s := by
  rw [uvmfree_eq]
  exact uvmfreeWith_spec _ h hsz hbelow htop

end Freewalk

end Xv6Plus
