import Xv6Plus.Owns
import Xv6Plus.Vm

/-!
# Page tables as trees

The memory of a page table represents a tree (`PTree`) : at each level and index there is
no entry, a link to a table of the level below, or a leaf. `Rep` reads the tree off the
memory, and every change the code makes to a page table is one `put`, which replaces an
entry together with the table below it. `PT` adds that the tables are pages the page
table owns.

Indices are page numbers : the entry of the page `v` at level `L` has the index
`v / 512 ^ L`.
-/

namespace Xv6Plus

/-! ## The encoding of entries -/

theorem pa2pte_or {pa fl : ℕ} (hf : fl < 1024) : pa2pte pa ||| fl = pa / 4096 * 1024 + fl := by
  rw [pa2pte, ← Nat.shiftLeft_add_eq_or_of_lt (i := 10) hf, Nat.shiftRight_eq_div_pow,
    Nat.shiftLeft_eq]

theorem pte2pa_bits {pa fl : ℕ} (ha : pa % 4096 = 0) (hf : fl < 1024) :
    pte2pa (pa / 4096 * 1024 + fl) = pa := by
  rw [pte2pa, Nat.shiftRight_eq_div_pow, Nat.shiftLeft_eq]
  omega

theorem pteFlags_bits {x fl : ℕ} (hf : fl < 1024) : pteFlags (x * 1024 + fl) = fl := by
  rw [pteFlags, show 0x3FF = 2 ^ 10 - 1 from rfl, Nat.and_two_pow_sub_one_eq_mod]
  omega

/-- A test of flags does not see the address. -/
theorem bits_and {x fl mask : ℕ} (hf : fl < 1024) (hm : mask < 1024) :
    (x * 1024 + fl) &&& mask = fl &&& mask := by
  refine Nat.eq_of_testBit_eq fun i => ?_
  rw [Nat.testBit_and, Nat.testBit_and, show x * 1024 = 2 ^ 10 * x by ring,
    Nat.testBit_two_pow_mul_add x hf]
  split_ifs with hi
  · rfl
  · have hpow : 2 ^ 10 ≤ 2 ^ i := Nat.pow_le_pow_right (by omega) (by omega)
    have hz : mask.testBit i = false := Nat.testBit_lt_two_pow (hm.trans_le hpow)
    rw [hz, Bool.and_false, Bool.and_false]

theorem px_eq (L va : ℕ) : px L va = va / 4096 / 512 ^ L % 512 := by
  rw [px, show 0x1FF = 2 ^ 9 - 1 from rfl, Nat.and_two_pow_sub_one_eq_mod,
    Nat.shiftRight_eq_div_pow, pow_add, Nat.div_div_eq_div_mul, pow_mul]
  norm_num

theorem levelPageSize_zero : levelPageSize 0 = 4096 := rfl

theorem levelPageSize_one : levelPageSize 1 = 2097152 := rfl

/-! ## Trees -/

/-- An entry of a table. -/
inductive Entry where
  /-- Not valid. -/
  | absent
  /-- A link to the table at `pa`. -/
  | table (pa : ℕ)
  /-- A mapping to `pa`. -/
  | leaf (pa flags : ℕ)
  deriving DecidableEq

/-- The 64-bit word of an entry. -/
def Entry.bits : Entry → ℕ
  | .absent => 0
  | .table pa => pa / 4096 * 1024 + 1
  | .leaf pa flags => pa / 4096 * 1024 + flags

/-- A page table : the address of its root, and the entry at each level and index. -/
structure PTree where
  root : ℕ
  ent : ℕ → ℕ → Entry

/-- A leaf of the level is a mapping of an aligned page with flags that make it a leaf. -/
structure LeafOk (L pa flags : ℕ) : Prop where
  aligned : pa % (4096 * 512 ^ L) = 0
  lt : pa < 2 ^ 64
  flags_lt : flags < 1024
  valid : flags &&& 1 ≠ 0
  rwx : flags &&& 14 ≠ 0

namespace PTree

/-- The `q`-th table of level `L` is the page `p`. -/
def IsTable (A : PTree) (L q p : ℕ) : Prop :=
  (L = 2 ∧ q = 0 ∧ p = A.root) ∨ (L < 2 ∧ A.ent (L + 1) q = .table p)

/-- What every page table the kernel builds keeps. -/
structure Ok (A : PTree) : Prop where
  /-- An entry is in a table. -/
  up : ∀ L k, A.ent L k ≠ .absent → ∃ p, A.IsTable L (k / 512) p
  /-- Level 0 has no tables below. -/
  bottom : ∀ k p, A.ent 0 k ≠ .table p
  /-- There are no leaves of 1GB. -/
  top : ∀ k pa fl, A.ent 2 k ≠ .leaf pa fl
  leaves : ∀ L k pa fl, A.ent L k = .leaf pa fl → LeafOk L pa fl
  /-- A page is a table at one place only. -/
  inj : ∀ L q L' q' p, A.IsTable L q p → A.IsTable L' q' p → L = L' ∧ q = q'
  /-- Nothing is mapped at or above `MAXVA`. -/
  low : ∀ k, 256 ≤ k → A.ent 2 k = .absent

/-- The memory holds the tree. -/
def Rep (A : PTree) (m : Mem) : Prop :=
  ∀ L q p, A.IsTable L q p → ∀ j < 512, read64 m (p + 8 * j) = (A.ent L (512 * q + j)).bits

/-- The pages of the tables. -/
def tables (A : PTree) : Set (ℕ × ℕ) := {b | b.2 = 0 ∧ ∃ L q, A.IsTable L q b.1}

/-- The physical page of the page `v`, and the flags. -/
def lookup (A : PTree) (v : ℕ) : Option (ℕ × ℕ) :=
  match A.ent 1 (v / 512) with
  | .leaf pa fl => some (pa + 4096 * (v % 512), fl)
  | _ =>
    match A.ent 0 v with
    | .leaf pa fl => some (pa, fl)
    | _ => none

/-- Replace the entry at `L`, `k` by `e` and what is below it by `kids`. -/
def put (A : PTree) (L k : ℕ) (e : Entry) (kids : ℕ → Entry) : PTree where
  root := A.root
  ent L' k' :=
    if L' = L ∧ k' = k then e
    else if L' + 1 = L ∧ k' / 512 = k then kids (k' % 512)
    else A.ent L' k'

/-- No entries. -/
def noKids : ℕ → Entry := fun _ => .absent

variable {A : PTree} {L k q p L' k' q' v pa fl : ℕ} {e : Entry} {kids : ℕ → Entry} {m m' : Mem}

@[simp] theorem put_root : (A.put L k e kids).root = A.root := rfl

theorem put_same : (A.put L k e kids).ent L k = e := if_pos ⟨rfl, rfl⟩

theorem put_kid (hL : L' + 1 = L) (hk : k' / 512 = k) :
    (A.put L k e kids).ent L' k' = kids (k' % 512) := by
  rw [put]
  dsimp only
  rw [if_neg (by omega), if_pos ⟨hL, hk⟩]

theorem put_other (h : ¬(L' = L ∧ k' = k)) (h' : ¬(L' + 1 = L ∧ k' / 512 = k)) :
    (A.put L k e kids).ent L' k' = A.ent L' k' := by
  rw [put]
  dsimp only
  rw [if_neg h, if_neg h']

theorem IsTable.level_le (h : A.IsTable L q p) : L ≤ 2 := by
  rcases h with ⟨rfl, _⟩ | ⟨h, _⟩ <;> omega

theorem IsTable.unique {p' : ℕ} (h : A.IsTable L q p) (h' : A.IsTable L q p') : p = p' := by
  rcases h with ⟨rfl, rfl, rfl⟩ | ⟨hL, he⟩ <;> rcases h' with ⟨hL', hq', hp'⟩ | ⟨hL', he'⟩
  · exact hp'.symm
  · omega
  · omega
  · rw [he] at he'
    exact Entry.table.inj he'

theorem root_isTable (A : PTree) : A.IsTable 2 0 A.root := Or.inl ⟨rfl, rfl, rfl⟩

theorem isTable_of_ent (hL : L < 2) (h : A.ent (L + 1) q = .table p) : A.IsTable L q p :=
  Or.inr ⟨hL, h⟩

/-- Below an entry that is no table there is nothing. -/
theorem Ok.absent_below (h : A.Ok) (hL : L < 2) (hk : ∀ p, A.ent (L + 1) (k / 512) ≠ .table p) :
    A.ent L k = .absent := by
  by_contra hne
  obtain ⟨p, ⟨hL', _⟩ | ⟨_, hp⟩⟩ := h.up L k hne
  · omega
  · exact hk p hp

/-! ## The tables after a `put` -/

/-- What a `put` needs : a table holds the entry, and neither the old nor the new entries
below are tables. -/
structure Puts (A : PTree) (L k : ℕ) (e : Entry) (kids : ℕ → Entry) (p : ℕ) : Prop where
  table : A.IsTable L (k / 512) p
  kids_eq : ∀ j q, kids j ≠ .table q
  old_kids : ∀ k' q, L = 2 → k' / 512 = k → A.ent 1 k' ≠ .table q
  no_kids : (∀ q, e ≠ .table q) → ∀ j, kids j = .absent
  level : ∀ q, e = .table q → 0 < L
  leaf : ∀ pa fl, e = .leaf pa fl → L < 2 ∧ LeafOk L pa fl
  kids_leaf : ∀ j < 512, ∀ pa fl, kids j = .leaf pa fl → L = 1 ∧ LeafOk 0 pa fl
  low : L = 2 → k < 256

theorem isTable_put (h : A.Puts L k e kids p) {t : ℕ} :
    (A.put L k e kids).IsTable L' q' t ↔
      (L' + 1 = L ∧ q' = k ∧ e = .table t) ∨ (¬(L' + 1 = L ∧ q' = k) ∧ A.IsTable L' q' t) := by
  have hle := h.table.level_le
  unfold IsTable
  by_cases hc : L' + 1 = L ∧ q' = k
  · obtain ⟨hL, rfl⟩ := hc
    subst hL
    rw [put_same]
    have h2 : L' ≠ 2 := by omega
    have h2' : L' < 2 := by omega
    simp [h2, h2']
  · by_cases hk : L' + 1 + 1 = L ∧ q' / 512 = k
    · rw [put_kid hk.1 hk.2]
      have hL2 : L = 2 := by omega
      have hL0 : L' = 0 := by omega
      subst hL0
      have h1 := h.kids_eq (q' % 512) t
      have h2 := h.old_kids q' t hL2 hk.2
      simp [h1, h2, hL2]
    · rw [put_other hc hk]
      exact ⟨fun ht => Or.inr ⟨hc, ht⟩,
        fun ht => ht.elim (fun h => absurd ⟨h.1, h.2.1⟩ hc) And.right⟩

theorem Ok.put (h : A.Ok) (hp : A.Puts L k e kids p) (hfresh : ∀ t, e = .table t →
    ∀ L' q', A.IsTable L' q' t → L' + 1 = L ∧ q' = k) : (A.put L k e kids).Ok where
  up L' k' hne := by
    by_cases hc : L' = L ∧ k' = k
    · obtain ⟨rfl, rfl⟩ := hc
      exact ⟨p, (isTable_put hp).2 (Or.inr ⟨by omega, hp.table⟩)⟩
    · by_cases hk : L' + 1 = L ∧ k' / 512 = k
      · rw [put_kid hk.1 hk.2] at hne
        by_cases he : ∃ t, e = .table t
        · obtain ⟨t, ht⟩ := he
          exact ⟨t, (isTable_put hp).2 (Or.inl ⟨hk.1, hk.2, ht⟩)⟩
        · exact absurd (hp.no_kids (fun q hq => he ⟨q, hq⟩) _) hne
      · rw [put_other hc hk] at hne
        obtain ⟨t, ht⟩ := h.up L' k' hne
        exact ⟨t, (isTable_put hp).2 (Or.inr ⟨hk, ht⟩)⟩
  bottom k' t ht := by
    by_cases hc : 0 = L ∧ k' = k
    · obtain ⟨rfl, rfl⟩ := hc
      rw [put_same] at ht
      exact absurd (hp.level t ht) (by omega)
    · by_cases hk : 0 + 1 = L ∧ k' / 512 = k
      · rw [put_kid hk.1 hk.2] at ht
        exact hp.kids_eq _ _ ht
      · rw [put_other hc hk] at ht
        exact h.bottom k' t ht
  top k' pa fl ht := by
    have hle := hp.table.level_le
    by_cases hc : 2 = L ∧ k' = k
    · obtain ⟨rfl, rfl⟩ := hc
      rw [put_same] at ht
      exact absurd (hp.leaf pa fl ht).1 (by omega)
    · rw [put_other hc (by omega)] at ht
      exact h.top k' pa fl ht
  leaves L' k' pa fl ht := by
    by_cases hc : L' = L ∧ k' = k
    · obtain ⟨rfl, rfl⟩ := hc
      rw [put_same] at ht
      exact (hp.leaf pa fl ht).2
    · by_cases hk : L' + 1 = L ∧ k' / 512 = k
      · rw [put_kid hk.1 hk.2] at ht
        obtain ⟨hL, hlo⟩ := hp.kids_leaf _ (Nat.mod_lt _ (by omega)) pa fl ht
        have hL' : L' = 0 := by omega
        rw [hL']
        exact hlo
      · rw [put_other hc hk] at ht
        exact h.leaves L' k' pa fl ht
  inj L₁ q₁ L₂ q₂ t h₁ h₂ := by
    rw [isTable_put hp] at h₁ h₂
    rcases h₁ with ⟨hL₁, hq₁, he₁⟩ | ⟨hn₁, h₁⟩ <;> rcases h₂ with ⟨hL₂, hq₂, he₂⟩ | ⟨hn₂, h₂⟩
    · omega
    · exact absurd (hfresh t he₁ L₂ q₂ h₂) hn₂
    · exact absurd (hfresh t he₂ L₁ q₁ h₁) hn₁
    · exact h.inj L₁ q₁ L₂ q₂ t h₁ h₂
  low k' hk' := by
    have hle := hp.table.level_le
    by_cases hc : 2 = L ∧ k' = k
    · have := hp.low hc.1.symm
      omega
    · rw [put_other hc (by omega)]
      exact h.low k' hk'

theorem Rep.put (hrep : A.Rep m) (hok : A.Ok) (hp : A.Puts L k e kids p)
    (hword : read64 m' (p + 8 * (k % 512)) = e.bits)
    (hsame : ∀ L' q' t, A.IsTable L' q' t → ¬(L' + 1 = L ∧ q' = k) → ∀ j < 512,
      ¬(t = p ∧ j = k % 512) → read64 m' (t + 8 * j) = read64 m (t + 8 * j))
    (hkids : ∀ t, e = .table t → ∀ j < 512, read64 m' (t + 8 * j) = (kids j).bits) :
    (A.put L k e kids).Rep m' := by
  intro L' q' t ht j hj
  rw [isTable_put hp] at ht
  rcases ht with ⟨hL, rfl, ht⟩ | ⟨hn, ht⟩
  · rw [put_kid hL (by omega), hkids t ht j hj, show (512 * q' + j) % 512 = j by omega]
  · by_cases hc : t = p ∧ j = k % 512
    · obtain ⟨rfl, rfl⟩ := hc
      obtain ⟨rfl, rfl⟩ := hok.inj _ _ _ _ _ ht hp.table
      rw [show 512 * (k / 512) + k % 512 = k by omega, put_same, hword]
    · have hne : ¬(L' = L ∧ 512 * q' + j = k) := by
        rintro ⟨rfl, rfl⟩
        have hq : (512 * q' + j) / 512 = q' := by omega
        refine hc ⟨ht.unique ?_, by omega⟩
        rw [← hq]
        exact hp.table
      rw [hsame L' q' t ht hn j hj hc, put_other hne (by omega), hrep L' q' t ht j hj]

theorem mem_tables {a : ℕ} : (a, 0) ∈ A.tables ↔ ∃ L q, A.IsTable L q a := by
  simp [tables]

/-- The tables of a changed tree, up to the table at the changed entry. -/
theorem mem_tables_put (hp : A.Puts L k e kids p) {b : ℕ × ℕ} :
    b ∈ (A.put L k e kids).tables ↔ b.2 = 0 ∧ (e = .table b.1 ∧ 0 < L ∨
      ∃ L' q', A.IsTable L' q' b.1 ∧ ¬(L' + 1 = L ∧ q' = k)) := by
  refine and_congr_right fun _ => ?_
  constructor
  · rintro ⟨L', q', h⟩
    rw [isTable_put hp] at h
    rcases h with ⟨hL, _, he⟩ | ⟨hn, h⟩
    · exact Or.inl ⟨he, by omega⟩
    · exact Or.inr ⟨L', q', h, hn⟩
  · rintro (⟨he, hL⟩ | ⟨L', q', h, hn⟩)
    · exact ⟨L - 1, k, (isTable_put hp).2 (Or.inl ⟨by omega, rfl, he⟩)⟩
    · exact ⟨L', q', (isTable_put hp).2 (Or.inr ⟨hn, h⟩)⟩

/-- If the entry was no table, the tables stay. -/
theorem isTable_ne (hL : L ≤ 2) (hold : ∀ q, A.ent L k ≠ .table q) (h : A.IsTable L' q' p) :
    ¬(L' + 1 = L ∧ q' = k) := by
  rintro ⟨rfl, rfl⟩
  rcases h with ⟨hL', _⟩ | ⟨_, h⟩
  · omega
  · exact hold _ h

theorem tables_put_same (hp : A.Puts L k e kids p) (hold : ∀ q, A.ent L k ≠ .table q)
    (he : ∀ q, e ≠ .table q) : (A.put L k e kids).tables = A.tables := by
  ext b
  rw [mem_tables_put hp]
  refine and_congr_right fun _ => ?_
  constructor
  · rintro (⟨h, _⟩ | ⟨L', q', h, _⟩)
    · exact absurd h (he _)
    · exact ⟨L', q', h⟩
  · rintro ⟨L', q', h⟩
    exact Or.inr ⟨L', q', h, isTable_ne hp.table.level_le hold h⟩

theorem tables_put_link {t : ℕ} (hp : A.Puts L k (.table t) kids p)
    (hold : ∀ q, A.ent L k ≠ .table q) :
    (A.put L k (.table t) kids).tables = insert (t, 0) A.tables := by
  have hpos := hp.level t rfl
  ext ⟨a, o⟩
  rw [mem_tables_put hp, Set.mem_insert_iff]
  constructor
  · rintro ⟨rfl, ⟨h, _⟩ | ⟨L', q', h, _⟩⟩
    · exact Or.inl (by rw [Entry.table.inj h])
    · exact Or.inr ⟨rfl, L', q', h⟩
  · rintro (h | ⟨rfl, L', q', h⟩)
    · obtain ⟨rfl, rfl⟩ := Prod.mk.inj h
      exact ⟨rfl, Or.inl ⟨rfl, hpos⟩⟩
    · exact ⟨rfl, Or.inr ⟨L', q', h, isTable_ne hp.table.level_le hold h⟩⟩

theorem tables_put_unlink {t : ℕ} (hok : A.Ok) (hp : A.Puts L k e kids p) (hL : 0 < L)
    (hold : A.ent L k = .table t) (he : ∀ q, e ≠ .table q) :
    (A.put L k e kids).tables = A.tables \ {(t, 0)} := by
  have hle := hp.table.level_le
  have ht : A.IsTable (L - 1) k t := by
    refine isTable_of_ent (by omega) ?_
    rw [Nat.sub_add_cancel hL]
    exact hold
  ext ⟨a, o⟩
  rw [mem_tables_put hp, Set.mem_sdiff, Set.mem_singleton_iff]
  constructor
  · rintro ⟨rfl, ⟨h, _⟩ | ⟨L', q', h, hn⟩⟩
    · exact absurd h (he _)
    · refine ⟨⟨rfl, L', q', h⟩, ?_⟩
      rintro hat
      obtain ⟨rfl, _⟩ := Prod.mk.inj hat
      have := hok.inj _ _ _ _ _ h ht
      omega
  · rintro ⟨⟨rfl, L', q', h⟩, hne⟩
    refine ⟨rfl, Or.inr ⟨L', q', h, ?_⟩⟩
    rintro ⟨rfl, rfl⟩
    exact hne (congrArg (·, 0) (h.unique ht))

end PTree

/-! ## Page tables that own their tables -/

theorem Entry.bits_lt {e : Entry} (ht : ∀ pa, e = .table pa → pa < 2 ^ 32)
    (hl : ∀ pa fl, e = .leaf pa fl → pa < 2 ^ 64 ∧ fl < 1024) : e.bits < 2 ^ 64 := by
  cases e with
  | absent => exact Nat.two_pow_pos 64
  | table pa =>
    have := ht pa rfl
    simp only [Entry.bits]
    omega
  | leaf pa fl =>
    have := hl pa fl rfl
    simp only [Entry.bits]
    omega

/-- The page table `A` is in the memory, in pages of its own. -/
structure PT (s : Phys) (R : Set ℕ) (frame : Set (ℕ × ℕ)) (A : PTree) : Prop where
  owns : Owns s R A.tables frame
  ok : A.Ok
  rep : A.Rep s.mem

namespace PT

variable {s s' : Phys} {R : Set ℕ} {frame : Set (ℕ × ℕ)} {A : PTree} {L k q p t : ℕ}
  {e : Entry} {kids : ℕ → Entry}

theorem table_page (h : PT s R frame A) (ht : A.IsTable L q p) :
    p % 4096 = 0 ∧ 2147483648 ≤ p ∧ p + 4096 ≤ 2281701376 :=
  h.owns.page (PTree.mem_tables.2 ⟨L, q, ht⟩)

/-- Two words of tables are the same word or do not overlap. -/
theorem words_apart (h : PT s R frame A) {L' q' p' j j' : ℕ} (ht : A.IsTable L q p)
    (ht' : A.IsTable L' q' p') (hj : j < 512) (hj' : j' < 512) (hne : ¬(p' = p ∧ j' = j)) :
    p' + 8 * j' + 8 ≤ p + 8 * j ∨ p + 8 * j + 8 ≤ p' + 8 * j' := by
  have hp := h.table_page ht
  have hp' := h.table_page ht'
  omega

/-- Writing an entry that is no table in the place of one that is none. -/
theorem set (h : PT s R frame A) (hp : A.Puts L k e PTree.noKids p)
    (hold : ∀ q, A.ent L k ≠ .table q) (he : ∀ q, e ≠ .table q) :
    PT (s.setMem (write64 s.mem (p + 8 * (k % 512)) e.bits)) R frame (A.put L k e PTree.noKids) ∧
      Keeps frame s (s.setMem (write64 s.mem (p + 8 * (k % 512)) e.bits)) := by
  have hk : k % 512 < 512 := Nat.mod_lt _ (by omega)
  have hmem : (p, 0) ∈ A.tables := PTree.mem_tables.2 ⟨L, _, hp.table⟩
  obtain ⟨hown, hkeep⟩ := h.owns.store (WritesOwn.of_block hmem
    (write64_span (v := e.bits) (Nat.le_add_right p (8 * (k % 512))) (by omega)))
  have hbits : e.bits < 2 ^ 64 := Entry.bits_lt (fun q hq => absurd hq (he q))
    fun pa fl hl => ⟨(hp.leaf pa fl hl).2.lt, (hp.leaf pa fl hl).2.flags_lt⟩
  refine ⟨⟨?_, h.ok.put hp fun t ht => absurd ht (he t), ?_⟩, hkeep⟩
  · rw [PTree.tables_put_same hp hold he]
    exact hown
  · refine h.rep.put h.ok hp (read64_write64_same _ _ hbits) ?_ fun t ht => absurd ht (he t)
    intro L' q' t ht _ j hj hne
    exact read64_write64_ne (h.words_apart hp.table ht hk hj hne)

/-- A page of the frame that holds the entries `kids` becomes the table at `L`, `k`. -/
theorem link (h : PT s R (insert (t, 0) frame) A) (ht : (t, 0) ∉ frame)
    (hp : A.Puts L k (.table t) kids p) (hold : ∀ q, A.ent L k ≠ .table q)
    (hkids : ∀ j < 512, read64 s.mem (t + 8 * j) = (kids j).bits) :
    PT (s.setMem (write64 s.mem (p + 8 * (k % 512)) (Entry.table t).bits)) R frame
        (A.put L k (.table t) kids) ∧
      Keeps frame s (s.setMem (write64 s.mem (p + 8 * (k % 512)) (Entry.table t).bits)) := by
  have hk : k % 512 < 512 := Nat.mod_lt _ (by omega)
  have hmem : (p, 0) ∈ A.tables := PTree.mem_tables.2 ⟨L, _, hp.table⟩
  have hnot : (t, 0) ∉ A.tables := fun hin =>
    Set.disjoint_left.1 h.owns.apart hin (Set.mem_insert _ _)
  have hown : Owns s R (insert (t, 0) A.tables) frame := by
    refine h.owns.reassoc ?_ ?_
    · rw [Set.insert_union, Set.union_insert]
    · rw [Set.disjoint_insert_left]
      exact ⟨ht, h.owns.apart.mono_right (Set.subset_insert _ _)⟩
  have htp := hown.page (Set.mem_insert _ _)
  have hpp := h.table_page hp.table
  have hne : t ≠ p := by
    rintro rfl
    exact hnot hmem
  obtain ⟨hown', hkeep⟩ := hown.store
    (WritesOwn.of_block (Set.mem_insert_of_mem _ hmem)
      (write64_span (v := (Entry.table t).bits) (Nat.le_add_right p (8 * (k % 512)))
        (by omega)))
  have hbits : (Entry.table t).bits < 2 ^ 64 := by
    simp only [Entry.bits]
    omega
  have hfresh : ∀ t', Entry.table t = .table t' → ∀ L' q', A.IsTable L' q' t' →
      L' + 1 = L ∧ q' = k := by
    intro t' ht' L' q' hq'
    obtain rfl := Entry.table.inj ht'
    exact absurd (PTree.mem_tables.2 ⟨L', q', hq'⟩) hnot
  refine ⟨⟨?_, h.ok.put hp hfresh, ?_⟩, hkeep⟩
  · rw [PTree.tables_put_link hp hold]
    exact hown'
  · refine h.rep.put h.ok hp (read64_write64_same _ _ hbits) ?_ ?_
    · intro L' q' t' ht' _ j hj hne
      exact read64_write64_ne (h.words_apart hp.table ht' hk hj hne)
    · intro t' ht' j hj
      obtain rfl := Entry.table.inj ht'
      rw [Phys.setMem_mem, read64_write64_ne (by omega), hkids j hj]

/-- The table at `L`, `k` has been given up, and `e` is written in its place. -/
theorem unlink {s₀ : Phys} (h : PT s₀ R frame A) {frame' : Set (ℕ × ℕ)}
    (hown : Owns s R (A.tables \ {(t, 0)}) frame') (hkeep : Keeps (A.tables \ {(t, 0)}) s₀ s)
    (hp : A.Puts L k e PTree.noKids p) (hL : 0 < L) (hold : A.ent L k = .table t)
    (he : ∀ q, e ≠ .table q) :
    PT (s.setMem (write64 s.mem (p + 8 * (k % 512)) e.bits)) R frame'
        (A.put L k e PTree.noKids) ∧
      Keeps frame' s (s.setMem (write64 s.mem (p + 8 * (k % 512)) e.bits)) := by
  have hk : k % 512 < 512 := Nat.mod_lt _ (by omega)
  have hle := hp.table.level_le
  have ht : A.IsTable (L - 1) k t := by
    refine PTree.isTable_of_ent (by omega) ?_
    rw [Nat.sub_add_cancel hL]
    exact hold
  -- a table other than the one given up is still owned, and its page is unchanged
  have hother : ∀ L' q' t', A.IsTable L' q' t' → ¬(L' + 1 = L ∧ q' = k) →
      (t', 0) ∈ A.tables \ {(t, 0)} := by
    intro L' q' t' ht' hn
    refine ⟨PTree.mem_tables.2 ⟨L', q', ht'⟩, fun heq => hn ?_⟩
    obtain ⟨rfl, _⟩ := Prod.mk.inj heq
    have := h.ok.inj _ _ _ _ _ ht' ht
    omega
  have hmem := hother L _ p hp.table (by omega)
  obtain ⟨hown', hkeep'⟩ := hown.store (WritesOwn.of_block hmem
    (write64_span (v := e.bits) (Nat.le_add_right p (8 * (k % 512))) (by omega)))
  have hbits : e.bits < 2 ^ 64 := Entry.bits_lt (fun q hq => absurd hq (he q))
    fun pa fl hl => ⟨(hp.leaf pa fl hl).2.lt, (hp.leaf pa fl hl).2.flags_lt⟩
  refine ⟨⟨?_, h.ok.put hp fun t ht => absurd ht (he t), ?_⟩, hkeep'⟩
  · rw [PTree.tables_put_unlink h.ok hp hL hold he]
    exact hown'
  · refine h.rep.put h.ok hp (read64_write64_same _ _ hbits) ?_ fun t ht => absurd ht (he t)
    intro L' q' t' ht' hn j hj hne
    have hpg := h.table_page ht'
    rw [Phys.setMem_mem, read64_write64_ne (h.words_apart hp.table ht' hk hj hne)]
    exact hkeep.read64 (hother L' q' t' ht' hn) (by omega) (by omega)

end PT

end Xv6Plus
