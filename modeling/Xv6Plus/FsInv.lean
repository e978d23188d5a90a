import Xv6Plus.Fs

/-!
# The state between the functions of the file system

`Fs.node` is what a user sees of an inode : its type, its links and its contents. `FsInv` says that
the disk and the inode table represent that : files have all their blocks, directories have whole
entries, an entry of the table that is valid agrees with the disk, and an inode without links is
only there while someone refers to it.

The specifications of `iget`, `idup`, `ilock` and `iunlock` follow. `Quiet` is what they, and path
lookup, keep : the nodes, and the references that others hold.
-/

namespace Xv6Plus

/-- The inode `i` is in use. -/
def Live (sb : Superblock) (D : ℕ → Dinode) (i : ℕ) : Prop :=
  1 ≤ i ∧ i < sb.ninodes ∧ (D i).type ≠ 0

instance (sb : Superblock) (D : ℕ → Dinode) (i : ℕ) : Decidable (Live sb D i) :=
  inferInstanceAs (Decidable (_ ∧ _ ∧ _))

/-- A file, a directory or a device. -/
structure Node where
  type : ℕ
  major : ℕ
  minor : ℕ
  nlink : ℕ
  data : List UInt8

def nodeOf (view : Disk) (d : Dinode) : Node :=
  ⟨d.type, d.major, d.minor, d.nlink, fileBytes view d⟩

/-- The entry `k` of a directory. -/
def direntAt (data : List UInt8) (k : ℕ) : Dirent :=
  Dirent.ofBytes ((data.drop (16 * k)).take 16)

/-- All blocks of the file are there. -/
structure Whole (view : Disk) (d : Dinode) : Prop where
  size_le : d.size ≤ 268 * 1024
  slot : ∀ bn, 1024 * bn < d.size → slotAddr view d (blkSlot bn) ≠ 0

/-- The entries of a directory are whole and name inodes. -/
structure DirOk (sb : Superblock) (data : List UInt8) : Prop where
  size : data.length % 16 = 0
  inum : ∀ k, 16 * k < data.length → (direntAt data k).inum < sb.ninodes

namespace Fs

/-- The inodes on the disk. -/
def inodes (s : Fs) : ℕ → Dinode := dinodeAt s.view s.sb

def node (s : Fs) (i : ℕ) : Option Node :=
  if Live s.sb s.inodes i then some (nodeOf s.view (s.inodes i)) else none

/-- The references to the inode `i`. -/
def refs (s : Fs) (i : ℕ) : ℕ := tally nInode s.itable fun x => if x.inum = i then x.ref else 0

/-- The entries of the table whose lock is held. -/
def locks (s : Fs) : Set ℕ := {e | e < nInode ∧ (s.itable e).locked = true}

/-- The entry `e` of the table has the inode `i`. -/
def Holds (s : Fs) (e i : ℕ) : Prop :=
  e < nInode ∧ 0 < (s.itable e).ref ∧ (s.itable e).inum = i

end Fs

/-- The inode table. -/
structure TableOk (s : Fs) : Prop where
  entry : ∀ e i, s.Holds e i → (s.itable e).dev = rootDev ∧ 1 ≤ i ∧ i < s.sb.ninodes
  once : ∀ e e' i, s.Holds e i → s.Holds e' i → e = e'
  valid : ∀ e i, s.Holds e i → (s.itable e).valid = true →
    Live s.sb s.inodes i ∧ (s.itable e).din = s.inodes i
  free : ∀ e < nInode, (s.itable e).ref = 0 → (s.itable e).locked = false

structure FsInv (s : Fs) : Prop where
  root : rootIno < s.sb.ninodes
  whole : ∀ i, Live s.sb s.inodes i → Whole s.view (s.inodes i)
  dirs : ∀ i n, s.node i = some n → n.type = tDir → DirOk s.sb n.data
  table : TableOk s
  orphan : ∀ i n, s.node i = some n → n.nlink = 0 →
    ∃ e, s.Holds e i ∧ (s.itable e).valid = true

section Table

variable {s s' s'' : Fs} {e e' i j : ℕ} {x : Inode}

theorem length_data (view : Disk) (d : Dinode) : (nodeOf view d).data.length = d.size := by
  simp [nodeOf, fileBytes]

theorem Fs.node_eq_some {n : Node} :
    s.node i = some n ↔ Live s.sb s.inodes i ∧ nodeOf s.view (s.inodes i) = n := by
  rw [node]
  split_ifs with hl
  · simp [hl]
  · simp [hl]

theorem Fs.node_of_live (hl : Live s.sb s.inodes i) :
    s.node i = some (nodeOf s.view (s.inodes i)) :=
  if_pos hl

theorem Fs.node_eq_none : s.node i = none ↔ ¬Live s.sb s.inodes i := by
  rw [node]
  split_ifs with hl <;> simp [hl]

theorem TableOk.ref_eq (h : TableOk s) (he : s.Holds e i) : (s.itable e).ref = s.refs i := by
  rw [Fs.refs, tally, Finset.sum_eq_single_of_mem e (Finset.mem_range.2 he.1)]
  · rw [if_pos he.2.2]
  · intro e' he' hne
    split_ifs with hi
    · by_contra h0
      exact hne (h.once e' e i ⟨Finset.mem_range.1 he', Nat.pos_of_ne_zero h0, hi⟩ he)
    · rfl

theorem TableOk.refs_pos (h : TableOk s) (he : s.Holds e i) : 0 < s.refs i := by
  rw [← h.ref_eq he]
  exact he.2.1

theorem Fs.exists_holds (h : 0 < s.refs i) : ∃ e, s.Holds e i := by
  by_contra hno
  rw [not_exists] at hno
  refine h.ne' (tally_eq_zero fun e he => ?_)
  split_ifs with hi
  · by_contra h0
    exact hno e ⟨he, Nat.pos_of_ne_zero h0, hi⟩
  · rfl

theorem Fs.Holds.unique (he : s.Holds e i) (he' : s.Holds e j) : i = j := he.2.2.symm.trans he'.2.2

/-- An inode in use that nobody refers to has a link. -/
theorem FsInv.linked (h : FsInv s) {n : Node} (hn : s.node i = some n) (h0 : s.refs i = 0) :
    n.nlink ≠ 0 := by
  intro hlink
  obtain ⟨e, he, -⟩ := h.orphan i n hn hlink
  exact (h.table.refs_pos he).ne' h0

/-- The copy of the disk inode in the table. -/
theorem FsInv.din {n : Node} (h : FsInv s) (he : s.Holds e i) (hv : (s.itable e).valid = true)
    (hn : s.node i = some n) :
    (s.itable e).din = s.inodes i ∧ Live s.sb s.inodes i ∧ nodeOf s.view (s.inodes i) = n :=
  ⟨(h.table.valid e i he hv).2, Fs.node_eq_some.1 hn⟩

/-! ## Changes of the table -/

@[simp] theorem Fs.wp_bread {b : ℕ} {E : String → Prop} {Q : Block → Fs → Prop} :
    wp (bread b) Q E s ↔ Q (s.view b) s := by
  rw [bread, wp_bind, wp_get, wp_pure]

@[simp] theorem Fs.wp_inode {E : String → Prop} {Q : Inode → Fs → Prop} :
    wp (inode e) Q E s ↔ Q (s.itable e) s := by
  rw [inode, wp_bind, wp_get, wp_pure]

@[simp] theorem Fs.setInode_view : (s.setInode e x).view = s.view := rfl

@[simp] theorem Fs.setInode_sb : (s.setInode e x).sb = s.sb := rfl

theorem Fs.setInode_self : (s.setInode e x).itable e = x := Function.update_self ..

theorem Fs.setInode_of_ne (h : e' ≠ e) : (s.setInode e x).itable e' = s.itable e' :=
  Function.update_of_ne h ..

theorem Fs.setInode_setInode {y : Inode} :
    (s.setInode e y).setInode e x = s.setInode e x := by
  simp only [Fs.setInode, Function.update_idem]

theorem Fs.holds_setInode (he : e < nInode) : (s.setInode e x).Holds e' j ↔
    if e' = e then 0 < x.ref ∧ x.inum = j else s.Holds e' j := by
  rw [Fs.Holds]
  split_ifs with h
  · subst h
    rw [Fs.setInode_self]
    exact and_iff_right he
  · rw [Fs.setInode_of_ne h]
    exact Iff.rfl

theorem Fs.refs_setInode (he : e < nInode) (j : ℕ) :
    (s.setInode e x).refs j + (if (s.itable e).inum = j then (s.itable e).ref else 0) =
      s.refs j + if x.inum = j then x.ref else 0 :=
  tally_update he

theorem Fs.locks_setInode (he : e < nInode) :
    (s.setInode e x).locks = if x.locked = true then insert e s.locks else s.locks \ {e} := by
  ext e'
  by_cases h : e' = e
  · subst h
    have hself := Fs.setInode_self (s := s) (e := e') (x := x)
    split_ifs with hx <;> simp [Fs.locks, hself, hx, he]
  · have hne := Fs.setInode_of_ne (s := s) (x := x) h
    split_ifs with hx <;> simp [Fs.locks, hne, h]

theorem TableOk.keep (h : TableOk s) (he : s.Holds e i) (hx : 0 < x.ref ∧ x.inum = i)
    (hdev : x.dev = (s.itable e).dev)
    (hv : x.valid = true → Live s.sb s.inodes i ∧ x.din = s.inodes i) :
    TableOk (s.setInode e x) ∧ ∀ e' j, (s.setInode e x).Holds e' j ↔ s.Holds e' j := by
  have hiff : ∀ e' j, (s.setInode e x).Holds e' j ↔ s.Holds e' j := by
    intro e' j
    rw [Fs.holds_setInode he.1]
    split_ifs with h'
    · subst h'
      constructor
      · rintro ⟨-, hj⟩
        rw [← hj, hx.2]
        exact he
      · intro hj
        rw [he.unique hj] at hx
        exact hx
    · exact Iff.rfl
  refine ⟨⟨?_, ?_, ?_, ?_⟩, hiff⟩
  · intro e' j h'
    rw [hiff] at h'
    by_cases hee : e' = e
    · subst hee
      rw [Fs.setInode_self, hdev]
      exact h.entry e' j h'
    · rw [Fs.setInode_of_ne hee]
      exact h.entry e' j h'
  · intro e' e'' j h1 h2
    exact h.once e' e'' j ((hiff _ _).1 h1) ((hiff _ _).1 h2)
  · intro e' j h' hval
    rw [hiff] at h'
    by_cases hee : e' = e
    · subst hee
      rw [Fs.setInode_self] at hval ⊢
      obtain rfl := he.unique h'
      exact hv hval
    · rw [Fs.setInode_of_ne hee] at hval ⊢
      exact h.valid e' j h' hval
  · intro e' he' h0
    by_cases hee : e' = e
    · subst hee
      rw [Fs.setInode_self] at h0
      omega
    · rw [Fs.setInode_of_ne hee] at h0 ⊢
      exact h.free e' he' h0

theorem FsInv.setInode (h : FsInv s) (ht : TableOk (s.setInode e x))
    (ho : ∀ i n, s.node i = some n → n.nlink = 0 →
      ∃ e', (s.setInode e x).Holds e' i ∧ ((s.setInode e x).itable e').valid = true) :
    FsInv (s.setInode e x) :=
  ⟨h.root, h.whole, h.dirs, ht, ho⟩

end Table

namespace Fs

/-- Only the table changes, and who refers to an inode keeps it. -/
structure Quiet (s s' : Fs) : Prop where
  inv : FsInv s'
  sys : s'.sys = s.sys
  stale : s'.stale = s.stale
  sb : s'.sb = s.sb
  stays : ∀ e i, s.Holds e i →
    s'.Holds e i ∧ ((s.itable e).valid = true → (s'.itable e).valid = true)

section Quiet

variable {s s' s'' : Fs} {e e' i j : ℕ} {x : Inode} {E : String → Prop}

theorem Quiet.refl (h : FsInv s) : Quiet s s := ⟨h, rfl, rfl, rfl, fun _ _ he => ⟨he, id⟩⟩

theorem Quiet.trans (h : Quiet s s') (h' : Quiet s' s'') : Quiet s s'' := by
  refine ⟨h'.inv, h'.sys.trans h.sys, h'.stale.trans h.stale, h'.sb.trans h.sb, fun e i he => ?_⟩
  obtain ⟨h1, h2⟩ := h.stays e i he
  obtain ⟨h3, h4⟩ := h'.stays e i h1
  exact ⟨h3, h4 ∘ h2⟩

theorem view_congr (hsys : s'.sys = s.sys) (hstale : s'.stale = s.stale) : s'.view = s.view := by
  ext1 b
  simp only [Fs.view, hsys, hstale]

theorem inodes_congr (hview : s'.view = s.view) (hsb : s'.sb = s.sb) : s'.inodes = s.inodes := by
  rw [Fs.inodes, Fs.inodes, hview, hsb]

theorem node_congr (hview : s'.view = s.view) (hsb : s'.sb = s.sb) : s'.node = s.node := by
  ext1 i
  simp only [Fs.node, inodes_congr hview hsb, hview, hsb]

theorem Quiet.view (h : Quiet s s') : s'.view = s.view := view_congr h.sys h.stale

theorem Quiet.inodes (h : Quiet s s') : s'.inodes = s.inodes := inodes_congr h.view h.sb

theorem Quiet.node (h : Quiet s s') : s'.node = s.node := node_congr h.view h.sb

/-- A change of an entry that keeps its inode. -/
theorem Quiet.keep (h : FsInv s) (he : s.Holds e i) (hx : 0 < x.ref ∧ x.inum = i)
    (hdev : x.dev = (s.itable e).dev)
    (hv : x.valid = true → Live s.sb s.inodes i ∧ x.din = s.inodes i)
    (hmono : (s.itable e).valid = true → x.valid = true) :
    Quiet s (s.setInode e x) ∧ (s.setInode e x).Holds e i := by
  obtain ⟨ht, hiff⟩ := h.table.keep he hx hdev hv
  have hstays : ∀ e' j, s.Holds e' j → (s.setInode e x).Holds e' j ∧
      ((s.itable e').valid = true → ((s.setInode e x).itable e').valid = true) := by
    intro e' j h'
    refine ⟨(hiff e' j).2 h', ?_⟩
    by_cases hee : e' = e
    · subst hee
      rwa [setInode_self]
    · rw [setInode_of_ne hee]
      exact id
  refine ⟨⟨h.setInode ht fun j n hn h0 => ?_, rfl, rfl, rfl, hstays⟩, (hiff e i).2 he⟩
  obtain ⟨e', h1, h2⟩ := h.orphan j n hn h0
  exact ⟨e', (hstays e' j h1).1, (hstays e' j h1).2 h2⟩

/-! ## `iget` and `idup` -/

/-- A new reference to the inode `i`. -/
structure Took (s : Fs) (i e : ℕ) (s' : Fs) : Prop where
  quiet : Quiet s s'
  holds : s'.Holds e i
  refs : s'.refs = Function.update s.refs i (s.refs i + 1)
  locks : s'.locks = s.locks

theorem refs_keep (h : TableOk s) (he : s.Holds e i) (hx : x.inum = i) :
    (s.setInode e x).refs = Function.update s.refs i x.ref := by
  ext j
  have hj := refs_setInode (s := s) (x := x) he.1 j
  rw [he.2.2, hx, h.ref_eq he] at hj
  by_cases hji : j = i
  · subst hji
    rw [if_pos rfl, if_pos rfl] at hj
    rw [Function.update_self]
    omega
  · rw [if_neg (Ne.symm hji), if_neg (Ne.symm hji)] at hj
    rw [Function.update_of_ne hji]
    exact Nat.add_right_cancel hj

theorem locks_keep (he : e < nInode) (hx : x.locked = (s.itable e).locked) :
    (s.setInode e x).locks = s.locks := by
  rw [locks_setInode he, hx]
  split_ifs with hl
  · exact Set.insert_eq_of_mem ⟨he, hl⟩
  · exact Set.sdiff_singleton_eq_self fun h => hl h.2

theorem Took.of_holds (h : FsInv s) (he : s.Holds e i)
    (hx : x = { s.itable e with ref := (s.itable e).ref + 1 }) : Took s i e (s.setInode e x) := by
  have hinum : x.inum = i := hx ▸ he.2.2
  have href : x.ref = s.refs i + 1 := by
    rw [hx, ← h.table.ref_eq he]
  obtain ⟨hq, hh⟩ := Quiet.keep h he ⟨href ▸ Nat.succ_pos _, hinum⟩ (hx ▸ rfl)
    (hx ▸ h.table.valid e i he) (hx ▸ id)
  refine ⟨hq, hh, ?_, locks_keep he.1 (hx ▸ rfl)⟩
  rw [refs_keep h.table he hinum, href]

theorem idup_spec (h : FsInv s) (he : s.Holds e i) :
    wp (idup e) (fun r s' => r = e ∧ Took s i e s') E s := by
  rw [idup, wp_bind, wp_modify, wp_pure]
  exact ⟨rfl, Took.of_holds h he rfl⟩

/-- The entry `y` has the inode `inum`. -/
def Matches (s : Fs) (dev inum y : ℕ) : Prop :=
  (s.itable y).ref > 0 ∧ (s.itable y).dev = dev ∧ (s.itable y).inum = inum

theorem igetScan_spec (s : Fs) (dev inum : ℕ) : ∀ k ip empty,
    (∀ y, empty = some y → y < ip ∧ (s.itable y).ref = 0) →
    match igetScan s dev inum k ip empty with
    | some y => y < ip + k ∧ (s.Matches dev inum y ∨ ((s.itable y).ref = 0 ∧
        ∀ z, ip ≤ z → z < ip + k → ¬s.Matches dev inum z))
    | none => empty = none ∧ ∀ z, ip ≤ z → z < ip + k → (s.itable z).ref ≠ 0
  | 0, ip, empty, h => by
    rw [igetScan]
    cases empty with
    | none => exact ⟨rfl, fun z h1 h2 => by omega⟩
    | some y => exact ⟨(h y rfl).1, Or.inr ⟨(h y rfl).2, fun z h1 h2 => by omega⟩⟩
  | k + 1, ip, empty, h => by
    rw [igetScan]
    split_ifs with hm hemp
    · exact ⟨by omega, Or.inl hm⟩
    · have ih := igetScan_spec s dev inum k (ip + 1) (some ip) fun y hy => by
        obtain rfl := Option.some.inj hy
        exact ⟨Nat.lt_succ_self _, hemp.2⟩
      generalize igetScan s dev inum k (ip + 1) (some ip) = r at ih
      cases r with
      | none => cases ih.1
      | some y =>
        refine ⟨by omega, ih.2.imp_right fun hr => ⟨hr.1, fun z h1 h2 => ?_⟩⟩
        obtain rfl | hz := Nat.eq_or_lt_of_le h1
        · exact hm
        · exact hr.2 z hz (by omega)
    · have ih := igetScan_spec s dev inum k (ip + 1) empty fun y hy =>
        ⟨(h y hy).1.trans (Nat.lt_succ_self _), (h y hy).2⟩
      generalize igetScan s dev inum k (ip + 1) empty = r at ih
      cases r with
      | none =>
        refine ⟨ih.1, fun z h1 h2 => ?_⟩
        obtain rfl | hz := Nat.eq_or_lt_of_le h1
        · exact fun h0 => hemp ⟨ih.1, h0⟩
        · exact ih.2 z hz (by omega)
      | some y =>
        refine ⟨by omega, ih.2.imp_right fun hr => ⟨hr.1, fun z h1 h2 => ?_⟩⟩
        obtain rfl | hz := Nat.eq_or_lt_of_le h1
        · exact hm
        · exact hr.2 z hz (by omega)

/-- An entry that is free takes the inode `i`. -/
theorem Took.fresh (h : FsInv s) (he : e < nInode) (h0 : (s.itable e).ref = 0)
    (hi : 1 ≤ i ∧ i < s.sb.ninodes) (hr : s.refs i = 0) :
    Took s i e (s.setInode e
      { s.itable e with dev := rootDev, inum := i, ref := 1, valid := false }) := by
  generalize hx : { s.itable e with dev := rootDev, inum := i, ref := 1, valid := false } = x
  have hnot : ∀ j, ¬s.Holds e j := fun j hj => hj.2.1.ne' h0
  have hno : ∀ e', ¬s.Holds e' i := fun e' he' => (h.table.refs_pos he').ne' hr
  have hstays : ∀ e' j, s.Holds e' j → (s.setInode e x).Holds e' j ∧
      ((s.itable e').valid = true → ((s.setInode e x).itable e').valid = true) := by
    intro e' j h'
    have hee : e' ≠ e := fun h => hnot j (h ▸ h')
    rw [holds_setInode he, if_neg hee, setInode_of_ne hee]
    exact ⟨h', id⟩
  have hholds : ∀ e' j, (s.setInode e x).Holds e' j →
      (e' = e ∧ j = i) ∨ (e' ≠ e ∧ s.Holds e' j) := by
    intro e' j h'
    rw [holds_setInode he] at h'
    split_ifs at h' with hee
    · subst hx
      exact Or.inl ⟨hee, h'.2.symm⟩
    · exact Or.inr ⟨hee, h'⟩
  have ht : TableOk (s.setInode e x) := by
    refine ⟨?_, ?_, ?_, ?_⟩
    · intro e' j h'
      obtain ⟨rfl, rfl⟩ | ⟨hee, h'⟩ := hholds e' j h'
      · subst hx
        rw [setInode_self]
        exact ⟨rfl, hi⟩
      · rw [setInode_of_ne hee]
        exact h.table.entry e' j h'
    · intro e' e'' j h1 h2
      obtain ⟨rfl, rfl⟩ | ⟨hee, h1⟩ := hholds e' j h1
      · obtain ⟨rfl, -⟩ | ⟨-, h2⟩ := hholds e'' _ h2
        · rfl
        · exact absurd h2 (hno e'')
      · obtain ⟨-, rfl⟩ | ⟨-, h2⟩ := hholds e'' j h2
        · exact absurd h1 (hno e')
        · exact h.table.once e' e'' j h1 h2
    · intro e' j h' hv
      obtain ⟨rfl, -⟩ | ⟨hee, h'⟩ := hholds e' j h'
      · subst hx
        rw [setInode_self] at hv
        cases hv
      · rw [setInode_of_ne hee] at hv ⊢
        exact h.table.valid e' j h' hv
    · intro e' he' hr0
      by_cases hee : e' = e
      · subst hee hx
        rw [setInode_self] at hr0
        cases hr0
      · rw [setInode_of_ne hee] at hr0 ⊢
        exact h.table.free e' he' hr0
  refine ⟨⟨h.setInode ht fun j n hn hl => ?_, rfl, rfl, rfl, hstays⟩, ?_, ?_, ?_⟩
  · obtain ⟨e', h1, h2⟩ := h.orphan j n hn hl
    exact ⟨e', (hstays e' j h1).1, (hstays e' j h1).2 h2⟩
  · subst hx
    rw [holds_setInode he, if_pos rfl]
    exact ⟨Nat.one_pos, rfl⟩
  · ext j
    have hj := refs_setInode (s := s) (x := x) he j
    subst hx
    simp only [h0, ite_self, Nat.add_zero] at hj
    by_cases hji : j = i
    · subst hji
      rw [Function.update_self, hj, if_pos rfl]
    · rw [Function.update_of_ne hji, hj, if_neg (Ne.symm hji), Nat.add_zero]
  · exact locks_keep he (hx ▸ rfl)

/-- The inode table is full. -/
def Full (s : Fs) : Prop := ∀ e < nInode, (s.itable e).ref ≠ 0

theorem iget_spec (h : FsInv s) (hi : 1 ≤ i ∧ i < s.sb.ninodes)
    (hE : s.Full → E "iget: no inodes") :
    wp (iget rootDev i) (fun e s' => Took s i e s') E s := by
  rw [iget, wp_bind, wp_get]
  have hscan := igetScan_spec s rootDev i nInode 0 none fun y hy => by cases hy
  generalize igetScan s rootDev i nInode 0 none = r at hscan
  cases r with
  | none => exact (wp_throw _).2 (hE fun e he => hscan.2 e (Nat.zero_le _) (by omega))
  | some y =>
    obtain ⟨hy, hm⟩ := hscan
    rw [Nat.zero_add] at hy
    simp only
    rw [wp_ite]
    refine ⟨fun hpos => ?_, fun hneg => ?_⟩
    · rw [wp_bind, wp_modify, wp_pure]
      have hm : s.Matches rootDev i y := hm.resolve_right fun h0 => hpos.ne' h0.1
      exact Took.of_holds h ⟨hy, hm.1, hm.2.2⟩ rfl
    · rw [wp_bind, wp_modify, wp_pure]
      obtain ⟨h0, hno⟩ := hm.resolve_left fun hm => hneg hm.1
      refine Took.fresh h hy h0 hi ?_
      by_contra hr
      obtain ⟨e, he⟩ := exists_holds (Nat.pos_of_ne_zero hr)
      exact hno e (Nat.zero_le _) (by have := he.1; omega)
        ⟨he.2.1, (h.table.entry e i he).1, he.2.2⟩

/-! ## `ilock` and `iunlock` -/

/-- The lock of the entry `e` with the inode `i` is held. -/
structure Locked (s : Fs) (e i : ℕ) (s' : Fs) : Prop where
  quiet : Quiet s s'
  holds : s'.Holds e i
  valid : (s'.itable e).valid = true
  refs : s'.refs = s.refs
  locks : s'.locks = insert e s.locks

theorem refs_same (h : TableOk s) (he : s.Holds e i) (hx : x.inum = i)
    (hr : x.ref = (s.itable e).ref) : (s.setInode e x).refs = s.refs := by
  rw [refs_keep h he hx, hr, h.ref_eq he, Function.update_eq_self]

theorem ilock_spec (h : FsInv s) (he : s.Holds e i) (hno : s.node i = none → E "ilock: no type")
    (hlock : e ∈ s.locks → E "acquiresleep") :
    wp (ilock e) (fun _ s' => Locked s e i s') E s := by
  rw [ilock, wp_bind, wp_inode, if_neg (by have := he.2.1; omega), wp_bind, acquiresleep, wp_bind,
    wp_inode]
  split_ifs with hl
  · exact (wp_throw _).2 (hlock ⟨he.1, hl⟩)
  rw [wp_modify, wp_bind, wp_get]
  simp only [setInode_self, setInode_sb]
  have hlocked : ∀ x : Inode, x.locked = true → (s.setInode e x).locks = insert e s.locks :=
    fun x hx => by rw [locks_setInode he.1, if_pos hx]
  by_cases hv : (s.itable e).valid = true
  · rw [if_neg (by simp [hv]), wp_pure]
    obtain ⟨hq, hh⟩ := Quiet.keep (x := { s.itable e with locked := true }) h he he.2 rfl
      (h.table.valid e i he) id
    refine ⟨hq, hh, ?_, refs_same h.table he he.2.2 rfl, hlocked _ rfl⟩
    rw [setInode_self]
    exact hv
  · rw [if_pos (by simpa using hv), wp_bind, wp_bread, wp_bind, wp_modify]
    have hd : getDinode (s.view (iBlock (s.itable e).inum s.sb)) ((s.itable e).inum % ipb) =
        s.inodes i := by
      rw [he.2.2]
      rfl
    rw [setInode_view, hd, setInode_setInode]
    rw [wp_ite]
    refine ⟨fun h0 => (wp_throw _).2 (hno ?_), fun hne => ?_⟩
    · rw [node_eq_none]
      exact fun hl => hl.2.2 h0
    · rw [wp_pure]
      obtain ⟨-, h1, h2⟩ := h.table.entry e i he
      obtain ⟨hq, hh⟩ := Quiet.keep
        (x := { s.itable e with locked := true, din := s.inodes i, valid := true }) h he he.2 rfl
        (fun _ => ⟨⟨h1, h2, hne⟩, rfl⟩) fun _ => rfl
      refine ⟨hq, hh, ?_, refs_same h.table he he.2.2 rfl, hlocked _ rfl⟩
      rw [setInode_self]

theorem iunlock_spec (h : FsInv s) (he : s.Holds e i) (hl : e ∈ s.locks) :
    wp (iunlock e) (fun _ s' => Quiet s s' ∧ s'.refs = s.refs ∧ s'.locks = s.locks \ {e}) E s := by
  rw [iunlock, wp_bind, wp_inode, if_neg, releasesleep, wp_modify]
  · obtain ⟨hq, -⟩ := Quiet.keep (x := { s.itable e with locked := false }) h he he.2 rfl
      (h.table.valid e i he) id
    exact ⟨hq, refs_same h.table he he.2.2 rfl, by rw [locks_setInode he.1]; rfl⟩
  · rintro (h1 | h1)
    · rw [hl.2] at h1
      cases h1
    · have := he.2.1
      omega

end Quiet

end Fs

end Xv6Plus
