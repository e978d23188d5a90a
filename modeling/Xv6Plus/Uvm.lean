import Xv6Plus.VmWalk

/-!
# User memory

`Uvm s R rest A` : the page table `A` owns its tables and the frames of its user leaves,
each mapped at one place, and `rest` is what everybody else holds. What the process sees
is `view` : for each user page its flags and bytes. Two page tables can differ in their
tables and in which pages are huge and still have the same view, so the functions of
`kernel/vm.c` are specified by what they do to the view.

The two pages at the top of the address space, the trapframe and the trampoline, are
mapped in every page table but are not user memory.
-/

namespace Xv6Plus

/-- The number of user pages; `TRAPFRAME` is the address of the page after them. -/
abbrev topVpn : ℕ := 67108862

/-- What the pages of a process hold, by page number. -/
abbrev View := ℕ → Option (ℕ × (Fin 4096 → UInt8))

namespace PTree

/-- The leaf at `L`, `k` maps user pages only. -/
def User (L k : ℕ) : Prop := 512 ^ L * (k + 1) ≤ topVpn

/-- The user leaf at `L`, `k` maps the block at `pa`. -/
def OwnLeaf (A : PTree) (L k pa : ℕ) : Prop := (∃ fl, A.ent L k = .leaf pa fl) ∧ User L k

/-- The blocks mapped by user leaves. -/
def leaves (A : PTree) : Set (ℕ × ℕ) := {b | ∃ L k, A.OwnLeaf L k b.1 ∧ b.2 = 9 * L}

/-- The flags and the bytes of the user page `v`. -/
def view (A : PTree) (m : Mem) (v : ℕ) : Option (ℕ × (Fin 4096 → UInt8)) :=
  if v < topVpn then (A.lookup v).map fun x => (x.2, fun i => m (x.1 + i)) else none

variable {A A' : PTree} {L k p L' k' v v' pa fl : ℕ} {e : Entry} {kids : ℕ → Entry} {m m' : Mem}

theorem user_zero : User 0 k ↔ k < topVpn := by
  simp only [User, topVpn]
  omega

theorem user_one : User 1 k ↔ 512 * k + 512 ≤ topVpn := by
  simp only [User, topVpn]
  omega

/-! ## Leaves and lookups after a `put` -/

theorem ownLeaf_put : (A.put L k e kids).OwnLeaf L' k' pa ↔
    (L' = L ∧ k' = k ∧ (∃ fl, e = .leaf pa fl) ∧ User L k) ∨
    (L' + 1 = L ∧ k' / 512 = k ∧ (∃ fl, kids (k' % 512) = .leaf pa fl) ∧ User L' k') ∨
    (¬(L' = L ∧ k' = k) ∧ ¬(L' + 1 = L ∧ k' / 512 = k) ∧ A.OwnLeaf L' k' pa) := by
  unfold OwnLeaf
  by_cases hc : L' = L ∧ k' = k
  · obtain ⟨rfl, rfl⟩ := hc
    rw [put_same]
    simp
  · by_cases hk : L' + 1 = L ∧ k' / 512 = k
    · obtain ⟨rfl, rfl⟩ := hk
      rw [put_kid rfl rfl]
      simp
    · rw [put_other hc hk]
      constructor
      · exact fun h => Or.inr (Or.inr ⟨hc, hk, h⟩)
      · rintro (⟨h1, h2, _⟩ | ⟨h1, h2, _⟩ | ⟨_, _, h⟩)
        · exact absurd ⟨h1, h2⟩ hc
        · exact absurd ⟨h1, h2⟩ hk
        · exact h

/-- The same in the place of an entry that is no table. -/
theorem ownLeaf_set (hok : A.Ok) (hL : L ≤ 2) (hold : ∀ q, A.ent L k ≠ .table q) :
    (A.put L k e noKids).OwnLeaf L' k' pa ↔
    (L' = L ∧ k' = k ∧ (∃ fl, e = .leaf pa fl) ∧ User L k) ∨
    (¬(L' = L ∧ k' = k) ∧ A.OwnLeaf L' k' pa) := by
  unfold OwnLeaf
  by_cases hc : L' = L ∧ k' = k
  · obtain ⟨rfl, rfl⟩ := hc
    rw [put_same]
    simp
  · rw [put_noKids hok hL hold hc]
    constructor
    · exact fun h => Or.inr ⟨hc, h⟩
    · rintro (⟨h1, h2, _⟩ | ⟨_, h⟩)
      · exact absurd ⟨h1, h2⟩ hc
      · exact h

theorem leaves_add (pa fl : ℕ) (hok : A.Ok) (hL : L ≤ 2) (habs : A.ent L k = .absent)
    (hu : User L k) :
    (A.put L k (.leaf pa fl) noKids).leaves = insert (pa, 9 * L) A.leaves := by
  have hold : ∀ q, A.ent L k ≠ .table q := by
    rw [habs]
    exact fun _ => Entry.noConfusion
  ext ⟨a, o⟩
  constructor
  · rintro ⟨L', k', h, ho⟩
    rw [ownLeaf_set hok hL hold] at h
    rcases h with ⟨rfl, rfl, ⟨fl', h⟩, _⟩ | ⟨_, h⟩
    · left
      rw [Entry.leaf.inj h |>.1, ← ho]
    · exact Or.inr ⟨L', k', h, ho⟩
  · rintro (h | ⟨L', k', h, ho⟩)
    · obtain ⟨rfl, rfl⟩ := Prod.mk.inj h
      exact ⟨L, k, (ownLeaf_set hok hL hold).2 (Or.inl ⟨rfl, rfl, ⟨fl, rfl⟩, hu⟩), rfl⟩
    · refine ⟨L', k', (ownLeaf_set hok hL hold).2 (Or.inr ⟨?_, h⟩), ho⟩
      rintro ⟨rfl, rfl⟩
      obtain ⟨⟨fl', hfl⟩, _⟩ := h
      rw [habs] at hfl
      cases hfl

theorem leaves_remove (hok : A.Ok) (hL : L ≤ 2) (he : A.ent L k = .leaf pa fl) (hu : User L k)
    (hinj : ∀ k', A.OwnLeaf L k' pa → k' = k) :
    (A.put L k .absent noKids).leaves = A.leaves \ {(pa, 9 * L)} := by
  have hold : ∀ q, A.ent L k ≠ .table q := by
    rw [he]
    exact fun _ => Entry.noConfusion
  ext ⟨a, o⟩
  constructor
  · rintro ⟨L', k', h, ho⟩
    rw [ownLeaf_set hok hL hold] at h
    rcases h with ⟨_, _, ⟨fl', h⟩, _⟩ | ⟨hne, h⟩
    · cases h
    · refine ⟨⟨L', k', h, ho⟩, fun heq => hne ?_⟩
      obtain ⟨rfl, rfl⟩ := Prod.mk.inj heq
      have hLL : L' = L := by omega
      subst hLL
      exact ⟨rfl, hinj k' h⟩
  · rintro ⟨⟨L', k', h, ho⟩, hne⟩
    refine ⟨L', k', (ownLeaf_set hok hL hold).2 (Or.inr ⟨?_, h⟩), ho⟩
    rintro ⟨rfl, rfl⟩
    obtain ⟨⟨fl', hfl⟩, _⟩ := h
    rw [he] at hfl
    refine hne ?_
    rw [Set.mem_singleton_iff, Entry.leaf.inj hfl |>.1, ← ho]

/-- The two pages at the top are not user leaves. -/
theorem leaves_top (hok : A.Ok) (hL : L ≤ 2) (hold : ∀ q, A.ent L k ≠ .table q)
    (hu : ¬User L k) : (A.put L k e noKids).leaves = A.leaves := by
  ext ⟨a, o⟩
  constructor
  · rintro ⟨L', k', h, ho⟩
    rw [ownLeaf_set hok hL hold] at h
    rcases h with ⟨_, _, _, h⟩ | ⟨_, h⟩
    · exact absurd h hu
    · exact ⟨L', k', h, ho⟩
  · rintro ⟨L', k', h, ho⟩
    refine ⟨L', k', (ownLeaf_set hok hL hold).2 (Or.inr ⟨?_, h⟩), ho⟩
    rintro ⟨rfl, rfl⟩
    exact hu h.2

theorem Grows.leaves (h : A.Grows A') : A'.leaves = A.leaves := by
  ext b
  simp only [PTree.leaves, OwnLeaf, h.leaf_iff]

theorem lookup_eq_some : A.lookup v = some (pa, fl) ↔
    (∃ b, A.ent 1 (v / 512) = .leaf b fl ∧ pa = b + 4096 * (v % 512)) ∨
    ((∀ b f, A.ent 1 (v / 512) ≠ .leaf b f) ∧ A.ent 0 v = .leaf pa fl) := by
  cases h1 : A.ent 1 (v / 512) <;> cases h0 : A.ent 0 v <;>
    simp [lookup, h1, h0, eq_comm, and_comm]

/-- A lookup depends on the leaves only. -/
theorem lookup_congr (h1 : ∀ b f, A'.ent 1 (v / 512) = .leaf b f ↔ A.ent 1 (v / 512) = .leaf b f)
    (h0 : ∀ b f, A'.ent 0 v = .leaf b f ↔ A.ent 0 v = .leaf b f) : A'.lookup v = A.lookup v := by
  ext ⟨pa, fl⟩
  rw [lookup_eq_some, lookup_eq_some]
  simp only [ne_eq, h1, h0]

theorem Grows.lookup (h : A.Grows A') : A'.lookup v = A.lookup v :=
  lookup_congr (fun _ _ => h.leaf_iff) fun _ _ => h.leaf_iff

theorem lookup_set_page_ne {v' : ℕ} (hne : v' ≠ v) :
    (A.put 0 v e noKids).lookup v' = A.lookup v' := by
  refine lookup_congr (fun b f => ?_) fun b f => ?_
  · rw [put_other (by omega) (by omega)]
  · rw [put_other (by omega) (by omega)]

theorem lookup_set_huge_ne (hok : A.Ok) (hold : ∀ q, A.ent 1 k ≠ .table q) (hne : v / 512 ≠ k) :
    (A.put 1 k e noKids).lookup v = A.lookup v := by
  refine lookup_congr (fun b f => ?_) fun b f => ?_
  · rw [put_noKids hok (by omega) hold (by omega)]
  · rw [put_noKids hok (by omega) hold (by omega)]

/-- The page found is a page of an owned block. -/
theorem lookup_leaf (h : A.lookup v = some (pa, fl)) (hv : v < topVpn)
    (hhuge : ∀ k pa fl, A.ent 1 k = .leaf pa fl → User 1 k) :
    ∃ L ≤ 1, ∃ b, A.OwnLeaf L (v / 512 ^ L) b ∧ pa = b + 4096 * (v % 512 ^ L) := by
  rw [lookup_eq_some] at h
  rcases h with ⟨b, he, rfl⟩ | ⟨_, he⟩
  · refine ⟨1, le_rfl, b, ?_, by rw [pow_one]⟩
    rw [pow_one]
    exact ⟨⟨fl, he⟩, hhuge _ _ _ he⟩
  · refine ⟨0, by omega, pa, ?_, by omega⟩
    rw [pow_zero, Nat.div_one]
    exact ⟨⟨fl, he⟩, user_zero.2 hv⟩

theorem lookup_block (h : A.lookup v = some (pa, fl)) (hv : v < topVpn)
    (hhuge : ∀ k pa fl, A.ent 1 k = .leaf pa fl → User 1 k) :
    ∃ L b, (b, 9 * L) ∈ A.leaves ∧ b ≤ pa ∧ pa + 4096 ≤ b + 4096 * 2 ^ (9 * L) := by
  obtain ⟨L, hL, b, hown, rfl⟩ := lookup_leaf h hv hhuge
  refine ⟨L, b, ⟨L, _, hown, rfl⟩, by omega, ?_⟩
  have hlt : v % 512 ^ L < 512 ^ L := Nat.mod_lt _ (by positivity)
  rw [pow_mul, show 2 ^ 9 = 512 from rfl]
  omega

theorem view_of_lt (hv : v < topVpn) :
    A.view m v = (A.lookup v).map fun x => (x.2, fun i : Fin 4096 => m (x.1 + i)) :=
  if_pos hv

theorem view_of_ge (hv : topVpn ≤ v) : A.view m v = none := if_neg (by omega)

theorem view_eq_none (hv : v < topVpn) : A.view m v = none ↔ A.lookup v = none := by
  rw [view_of_lt hv, Option.map_eq_none_iff]

/-- The same leaves and the same bytes give the same view. -/
theorem view_congr (hl : v < topVpn → A'.lookup v = A.lookup v)
    (hm : ∀ pa fl, v < topVpn → A.lookup v = some (pa, fl) →
      ∀ i < 4096, m' (pa + i) = m (pa + i)) : A'.view m' v = A.view m v := by
  unfold view
  split_ifs with hv
  · rw [hl hv]
    cases hlk : A.lookup v with
    | none => rfl
    | some x =>
      rw [Option.map_some, Option.map_some]
      congr 2
      funext i
      exact hm x.1 x.2 hv hlk i i.isLt
  · rfl

theorem lookup_keeps {s s' : Phys} (hhuge : ∀ k pa fl, A.ent 1 k = .leaf pa fl → User 1 k)
    (hk : Keeps A.leaves s s') : ∀ v pa fl, v < topVpn → A.lookup v = some (pa, fl) →
    ∀ i < 4096, s'.mem (pa + i) = s.mem (pa + i) := by
  intro v pa fl hv hl i hi
  obtain ⟨L, b, hb, h1, h2⟩ := lookup_block hl hv hhuge
  refine hk.mem ⟨_, hb, ?_⟩
  simp only [mem_span, pgSize]
  omega

/-- The view depends on the memory of the leaves only. -/
theorem view_keeps {s s' : Phys} (hhuge : ∀ k pa fl, A.ent 1 k = .leaf pa fl → User 1 k)
    (hk : Keeps A.leaves s s') : A.view s'.mem = A.view s.mem := by
  funext v
  exact view_congr (fun _ => rfl) (lookup_keeps hhuge hk v)

end PTree

theorem PTree.lookup_apart {s : Phys} {R : Set ℕ} {own frame : Set (ℕ × ℕ)} {A : PTree}
    (hown : Owns s R own frame) (hsub : A.leaves ⊆ own)
    (hinj : ∀ L k k' pa, A.OwnLeaf L k pa → A.OwnLeaf L k' pa → k = k')
    (hhuge : ∀ k pa fl, A.ent 1 k = .leaf pa fl → User 1 k) {v v' pa pa' fl fl' : ℕ}
    (hv : v < topVpn) (hv' : v' < topVpn) (hne : v ≠ v') (hl : A.lookup v = some (pa, fl))
    (hl' : A.lookup v' = some (pa', fl')) : pa + 4096 ≤ pa' ∨ pa' + 4096 ≤ pa := by
  obtain ⟨L, hL, b, hleaf, rfl⟩ := PTree.lookup_leaf hl hv hhuge
  obtain ⟨L', hL', b', hleaf', rfl⟩ := PTree.lookup_leaf hl' hv' hhuge
  have hlt : v % 512 ^ L < 512 ^ L := Nat.mod_lt _ (by positivity)
  have hlt' : v' % 512 ^ L' < 512 ^ L' := Nat.mod_lt _ (by positivity)
  have hpow : ∀ L, 2 ^ (9 * L) = 512 ^ L := fun L => by
    rw [pow_mul]
    norm_num
  by_contra hc
  -- a common byte makes the two blocks the same
  have heq : (b, 9 * L) = (b', 9 * L') := by
    refine hown.eq_of_mem (x := max (b + 4096 * (v % 512 ^ L)) (b' + 4096 * (v' % 512 ^ L')))
      (hsub ⟨L, _, hleaf, rfl⟩) (hsub ⟨L', _, hleaf', rfl⟩) ?_ ?_
    · rw [mem_span]
      simp only [hpow]
      omega
    · rw [mem_span]
      simp only [hpow]
      omega
  obtain ⟨rfl, hLL⟩ := Prod.mk.inj heq
  obtain rfl : L = L' := by omega
  have hk := hinj L _ _ _ hleaf hleaf'
  rcases (by omega : L = 0 ∨ L = 1) with rfl | rfl
  · rw [pow_zero, Nat.div_one, Nat.div_one] at hk
    exact hne hk
  · rw [pow_one] at hk hc
    omega

/-! ## Address spaces -/

/-- The page table `A` with its user memory, beside the blocks `rest` of everybody else. -/
structure Uvm (s : Phys) (R : Set ℕ) (rest : Set (ℕ × ℕ)) (A : PTree) : Prop where
  pt : PT s R (A.leaves ∪ rest) A
  apart : Disjoint A.leaves rest
  /-- A block is mapped by one leaf. -/
  inj : ∀ L k k' pa, A.OwnLeaf L k pa → A.OwnLeaf L k' pa → k = k'
  /-- Huge pages are below the trapframe. -/
  huge : ∀ k pa fl, A.ent 1 k = .leaf pa fl → PTree.User 1 k

namespace Uvm

variable {s s' : Phys} {R : Set ℕ} {rest rest' : Set (ℕ × ℕ)} {A A' : PTree}
  {L k p v pa fl o r : ℕ} {m : Mem}

theorem owns (h : Uvm s R rest A) : Owns s R (A.tables ∪ A.leaves) rest := by
  refine h.pt.owns.reassoc (by rw [Set.union_assoc]) ?_
  rw [Set.disjoint_union_left]
  exact ⟨h.pt.owns.apart.mono_right Set.subset_union_right, h.apart⟩

theorem of_owns (hown : Owns s' R (A.tables ∪ A.leaves) rest') (h : Uvm s R rest A)
    (hk : Keeps A.tables s s') : Uvm s' R rest' A := by
  have hd := hown.apart
  rw [Set.disjoint_union_left] at hd
  refine ⟨h.pt.of_keeps ?_ hk, hd.2, h.inj, h.huge⟩
  refine hown.reassoc (by rw [Set.union_assoc]) ?_
  rw [Set.disjoint_union_right]
  exact ⟨h.pt.owns.apart.mono_right Set.subset_union_left, hd.1⟩

theorem view_keeps (h : Uvm s R rest A) (hk : Keeps A.leaves s s') :
    A.view s'.mem = A.view s.mem :=
  PTree.view_keeps h.huge hk

/-- What is there after an allocation of the order `o` : nothing new, or a block more among
the rest. -/
def AllocPost (s : Phys) (R : Set ℕ) (rest : Set (ℕ × ℕ)) (A : PTree) (o r : ℕ) (s' : Phys) :
    Prop :=
  (r = 0 ∧ s' = s ∧ ∀ b ∈ s.free, b.2 < o) ∨
    (r ≠ 0 ∧ (r, o) ∉ rest ∧ Uvm s' R (insert (r, o) rest) A ∧
      Keeps (A.tables ∪ A.leaves ∪ rest) s s')

theorem allocPost (h : Uvm s R rest A)
    (hr : Owns.AllocPost s R rest (A.tables ∪ A.leaves) o r s') : AllocPost s R rest A o r s' := by
  rcases hr with hr | ⟨hne, hnot, hown, hk⟩
  · exact Or.inl hr
  · rw [Set.union_comm] at hk
    exact Or.inr ⟨hne, hnot, of_owns hown.symm h
      (hk.mono (Set.subset_union_left.trans Set.subset_union_left)), hk⟩

theorem kalloc_spec (h : Uvm s R rest A) : wp kalloc (AllocPost s R rest A 0) noPanic s :=
  wp_post h.owns.symm.kalloc_spec fun _ _ hr => h.allocPost hr

theorem kallocHuge_spec (h : Uvm s R rest A) :
    wp kallocHuge (AllocPost s R rest A 9) noPanic s :=
  wp_post h.owns.symm.kallocHuge_spec fun _ _ hr => h.allocPost hr

theorem kfree_spec {a : ℕ} (h : Uvm s R rest A) (hb : (a, 0) ∈ rest) :
    wp (kfree a) (fun _ s' => Uvm s' R (rest \ {(a, 0)}) A ∧
      Keeps (A.tables ∪ A.leaves ∪ rest \ {(a, 0)}) s s') noPanic s := by
  refine wp_post (h.owns.symm.kfree_spec hb) fun _ s' ⟨hown, hk⟩ => ?_
  rw [Set.union_comm] at hk
  exact ⟨of_owns hown.symm h (hk.mono (Set.subset_union_left.trans Set.subset_union_left)), hk⟩

theorem kfreeHuge_spec {a : ℕ} (h : Uvm s R rest A) (hb : (a, 9) ∈ rest) :
    wp (kfreeHuge a) (fun _ s' => Uvm s' R (rest \ {(a, 9)}) A ∧
      Keeps (A.tables ∪ A.leaves ∪ rest \ {(a, 9)}) s s') noPanic s := by
  refine wp_post (h.owns.symm.kfreeHuge_spec hb) fun _ s' ⟨hown, hk⟩ => ?_
  rw [Set.union_comm] at hk
  exact ⟨of_owns hown.symm h (hk.mono (Set.subset_union_left.trans Set.subset_union_left)), hk⟩

theorem store_block {b : ℕ × ℕ} (h : Uvm s R rest A) (hb : b ∈ rest)
    (hm : Set.EqOn m s.mem (span 4096 b)ᶜ) :
    Uvm (s.setMem m) R rest A ∧
      Keeps (A.tables ∪ A.leaves ∪ rest \ {b}) s (s.setMem m) := by
  obtain ⟨hown, hk⟩ := h.owns.symm.store_block hb hm
  rw [Set.union_comm] at hk
  exact ⟨of_owns hown.symm h (hk.mono (Set.subset_union_left.trans Set.subset_union_left)), hk⟩

theorem lookup_apart (h : Uvm s R rest A) {v v' pa pa' fl fl' : ℕ} (hv : v < topVpn)
    (hv' : v' < topVpn) (hne : v ≠ v') (hl : A.lookup v = some (pa, fl))
    (hl' : A.lookup v' = some (pa', fl')) : pa + 4096 ≤ pa' ∨ pa' + 4096 ≤ pa :=
  PTree.lookup_apart h.owns Set.subset_union_right h.inj h.huge hv hv' hne hl hl'

theorem huge_view {b f : ℕ} (h : Uvm s R rest A) (he : A.ent 1 k = .leaf b f) {j : ℕ}
    (hj : j < 512) : A.view s.mem (512 * k + j) ≠ none := by
  have hu := PTree.user_one.1 (h.huge k b f he)
  have he' : A.ent 1 ((512 * k + j) / 512) = .leaf b f := by
    rw [show (512 * k + j) / 512 = k by omega]
    exact he
  rw [Ne, PTree.view_eq_none (by simp only [topVpn] at hu ⊢; omega), PTree.lookup_huge he']
  exact Option.some_ne_none _

/-- A physical page is mapped once, so no more pages are mapped than the machine has. -/
theorem mapped_le (h : Uvm s R rest A) (lo : ℕ) {w : ℕ} (hw : w ≤ topVpn)
    (hmap : ∀ v, lo ≤ v → v < w → A.view s.mem v ≠ none) : w - lo ≤ 32768 := by
  have hlk : ∀ v, ∃ pa, lo ≤ v → v < w → ∃ fl, A.lookup v = some (pa, fl) := by
    intro v
    by_cases hv : lo ≤ v ∧ v < w
    · have hne := hmap v hv.1 hv.2
      rw [Ne, PTree.view_eq_none (by omega)] at hne
      obtain ⟨x, hx⟩ := Option.ne_none_iff_exists'.1 hne
      exact ⟨x.1, fun _ _ => ⟨x.2, hx⟩⟩
    · exact ⟨0, fun h1 h2 => absurd ⟨h1, h2⟩ hv⟩
  choose pa hpa using hlk
  -- the frame of a page is a page of the memory
  have hframe : ∀ v, lo ≤ v → v < w → pa v % 4096 = 0 ∧ 2147483648 ≤ pa v ∧
      pa v + 4096 ≤ 2281701376 := by
    intro v h1 h2
    obtain ⟨fl, hl⟩ := hpa v h1 h2
    obtain ⟨L, hL, b, hown, he⟩ := PTree.lookup_leaf hl (by omega) h.huge
    have hb : (b, 9 * L) ∈ A.tables ∪ A.leaves := Or.inr ⟨L, _, hown, rfl⟩
    have hmem := h.owns.mem_own hb
    rcases (by omega : L = 0 ∨ L = 1) with rfl | rfl
    · norm_num at hmem he
      omega
    · norm_num at hmem he
      omega
  have hcard := Finset.card_le_card_of_injOn (s := Finset.Ico lo w) (t := Finset.range 32768)
    (fun v => (pa v - 2147483648) / 4096) (fun v hv => ?_) fun v hv v' hv' heq => ?_
  · rw [Nat.card_Ico, Finset.card_range] at hcard
    exact hcard
  · rw [Finset.coe_Ico] at hv
    have := hframe v hv.1 hv.2
    simp only [Finset.coe_range, Set.mem_Iio]
    omega
  · rw [Finset.coe_Ico] at hv hv'
    by_contra hne
    obtain ⟨fl, hl⟩ := hpa v hv.1 hv.2
    obtain ⟨fl', hl'⟩ := hpa v' hv'.1 hv'.2
    have := h.lookup_apart (hv.2.trans_le hw) (hv'.2.trans_le hw) hne hl hl'
    have h1 := hframe v hv.1 hv.2
    have h2 := hframe v' hv'.1 hv'.2
    dsimp only at heq
    omega

/-! ## Changing the leaves -/

theorem grows {A₁ : PTree} (h : Uvm s R rest A) (hg : A.Grows A₁)
    (hpt : PT s' R (A.leaves ∪ rest) A₁) : Uvm s' R rest A₁ := by
  have hl := hg.leaves
  refine ⟨by rw [hl]; exact hpt, by rw [hl]; exact h.apart, fun L k k' pa h1 h2 => ?_,
    fun k pa fl he => h.huge k pa fl (hg.leaf_iff.1 he)⟩
  simp only [PTree.OwnLeaf, hg.leaf_iff] at h1 h2
  exact h.inj L k k' pa h1 h2

/-- A block of the rest is mapped by a new leaf. -/
theorem add_leaf {A₁ : PTree} (h : Uvm s R (insert (pa, 9 * L) rest) A)
    (hnot : (pa, 9 * L) ∉ rest) (hg : A.Grows A₁) (hok : A₁.Ok) (habs : A₁.ent L k = .absent)
    (hL : L < 2) (hu : PTree.User L k) (hpt : PT s' R (A.leaves ∪ insert (pa, 9 * L) rest)
      (A₁.put L k (.leaf pa fl) PTree.noKids)) :
    Uvm s' R rest (A₁.put L k (.leaf pa fl) PTree.noKids) := by
  have hold : ∀ q, A₁.ent L k ≠ .table q := by
    rw [habs]
    exact fun _ => Entry.noConfusion
  have hleaves := PTree.leaves_add pa fl hok (by omega) habs hu
  rw [hg.leaves] at hleaves
  have hnew : (pa, 9 * L) ∉ A.leaves := fun hin =>
    Set.disjoint_left.1 h.apart hin (Set.mem_insert _ _)
  refine ⟨?_, ?_, ?_, ?_⟩
  · rw [hleaves, Set.insert_union, ← Set.union_insert]
    exact hpt
  · rw [hleaves, Set.disjoint_insert_left]
    exact ⟨hnot, h.apart.mono_right (Set.subset_insert _ _)⟩
  · intro L' k₁ k₂ pa' h₁ h₂
    rw [PTree.ownLeaf_set hok (by omega) hold] at h₁ h₂
    simp only [PTree.OwnLeaf, hg.leaf_iff] at h₁ h₂
    -- a second leaf of the new block would be one of `A`
    have hclash : ∀ k', A.OwnLeaf L k' pa → False := fun k' hk' => hnew ⟨L, k', hk', rfl⟩
    rcases h₁ with ⟨rfl, rfl, ⟨_, he₁⟩, _⟩ | ⟨_, h₁⟩ <;>
      rcases h₂ with ⟨hL₂, rfl, ⟨_, he₂⟩, _⟩ | ⟨_, h₂⟩
    · rfl
    · obtain ⟨rfl, _⟩ := Entry.leaf.inj he₁
      exact (hclash k₂ h₂).elim
    · obtain ⟨rfl, _⟩ := Entry.leaf.inj he₂
      subst hL₂
      exact (hclash k₁ h₁).elim
    · exact h.inj L' k₁ k₂ pa' h₁ h₂
  · intro k' pa' fl' he
    by_cases hc : 1 = L ∧ k' = k
    · obtain ⟨rfl, rfl⟩ := hc
      exact hu
    · rw [PTree.put_noKids hok (by omega) hold hc] at he
      exact h.huge k' pa' fl' (hg.leaf_iff.1 he)

theorem remove_leaf (h : Uvm s R rest A) (he : A.ent L k = .leaf pa fl) (hL : L < 2)
    (hu : PTree.User L k) (hpt : PT s' R ((A.leaves ∪ rest) \ {(pa, 9 * L)})
      (A.put L k .absent PTree.noKids)) : Uvm s' R rest (A.put L k .absent PTree.noKids) := by
  have hok := h.pt.ok
  have hold : ∀ q, A.ent L k ≠ .table q := by
    rw [he]
    exact fun _ => Entry.noConfusion
  have hown : A.OwnLeaf L k pa := ⟨⟨fl, he⟩, hu⟩
  have hleaves := PTree.leaves_remove hok (by omega) he hu fun k' hk' => h.inj L k' k pa hk' hown
  have hnot : (pa, 9 * L) ∉ rest := Set.disjoint_left.1 h.apart ⟨L, k, hown, rfl⟩
  refine ⟨?_, ?_, ?_, ?_⟩
  · rw [hleaves]
    rw [Set.union_sdiff_distrib, Set.sdiff_singleton_eq_self hnot] at hpt
    exact hpt
  · rw [hleaves]
    exact h.apart.mono_left Set.sdiff_subset
  · intro L' k₁ k₂ pa' h₁ h₂
    rw [PTree.ownLeaf_set hok (by omega) hold] at h₁ h₂
    rcases h₁ with ⟨_, _, ⟨_, he₁⟩, _⟩ | ⟨_, h₁⟩
    · cases he₁
    · rcases h₂ with ⟨_, _, ⟨_, he₂⟩, _⟩ | ⟨_, h₂⟩
      · cases he₂
      · exact h.inj L' k₁ k₂ pa' h₁ h₂
  · intro k' pa' fl' he'
    by_cases hc : 1 = L ∧ k' = k
    · obtain ⟨rfl, rfl⟩ := hc
      rw [PTree.put_same] at he'
      cases he'
    · rw [PTree.put_noKids hok (by omega) hold hc] at he'
      exact h.huge k' pa' fl' he'

/-- A page at the top is mapped or unmapped. -/
theorem set_top {A₁ : PTree} {e : Entry} (h : Uvm s R rest A) (hg : A.Grows A₁) (hok : A₁.Ok)
    (hk : topVpn ≤ k) (hpt : PT s' R (A.leaves ∪ rest) (A₁.put 0 k e PTree.noKids)) :
    Uvm s' R rest (A₁.put 0 k e PTree.noKids) := by
  have hu : ¬PTree.User 0 k := by
    rw [PTree.user_zero]
    omega
  have hold : ∀ q, A₁.ent 0 k ≠ .table q := hok.bottom k
  have hleaves : (A₁.put 0 k e PTree.noKids).leaves = A.leaves := by
    rw [PTree.leaves_top hok (by omega) hold hu, hg.leaves]
  refine ⟨?_, ?_, ?_, ?_⟩
  · rw [hleaves]
    exact hpt
  · rw [hleaves]
    exact h.apart
  · intro L' k₁ k₂ pa' h₁ h₂
    rw [PTree.ownLeaf_set hok (by omega) hold] at h₁ h₂
    simp only [PTree.OwnLeaf, hg.leaf_iff] at h₁ h₂
    rcases h₁ with ⟨_, _, _, h₁⟩ | ⟨_, h₁⟩
    · exact absurd h₁ hu
    · rcases h₂ with ⟨_, _, _, h₂⟩ | ⟨_, h₂⟩
      · exact absurd h₂ hu
      · exact h.inj L' k₁ k₂ pa' h₁ h₂
  · intro k' pa' fl' he
    rw [PTree.put_noKids hok (by omega) hold (by omega)] at he
    exact h.huge k' pa' fl' (hg.leaf_iff.1 he)

end Uvm

end Xv6Plus
