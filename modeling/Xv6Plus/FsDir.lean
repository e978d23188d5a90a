import Xv6Plus.FsFile
import Xv6Plus.FsIput
import Xv6Plus.Dirents

/-!
# Directories

`dirlookup` reads the entries of a directory in order, finds the first one with the name and takes a
reference to its inode.
-/

namespace Xv6Plus

namespace Fs

/-- The entry `dp` of the table has the directory `d`, which is `nd`. -/
structure DirAt (s : Fs) (dp d : ℕ) (nd : Node) : Prop where
  holds : s.Holds dp d
  valid : (s.itable dp).valid = true
  node : s.node d = some nd
  dir : nd.type = tDir

section Read

variable {s : Fs} {dp d k : ℕ} {nd : Node} {name : List UInt8} {E : String → Prop}

theorem DirAt.ok (hd : s.DirAt dp d nd) (h : FsInv s) : DirOk s.sb nd.data :=
  h.dirs d nd hd.node hd.dir

theorem DirAt.size (hd : s.DirAt dp d nd) (h : FsInv s) :
    (s.itable dp).din.size = nd.data.length := by
  obtain ⟨hdin, -, hnd⟩ := h.din hd.holds hd.valid hd.node
  rw [hdin, ← hnd, length_data]

theorem DirAt.type (hd : s.DirAt dp d nd) (h : FsInv s) : (s.itable dp).din.type = tDir := by
  obtain ⟨hdin, -, hnd⟩ := h.din hd.holds hd.valid hd.node
  rw [hdin, ← hd.dir, ← hnd]
  rfl

theorem DirAt.length_le (hd : s.DirAt dp d nd) (h : FsInv s) : nd.data.length ≤ 268 * 1024 := by
  obtain ⟨-, hl, hnd⟩ := h.din hd.holds hd.valid hd.node
  rw [← hnd, length_data]
  exact (h.whole d hl).size_le

/-- An entry of the directory names an inode or none. -/
theorem DirAt.inum_lt {de : Dirent} (hd : s.DirAt dp d nd) (h : FsInv s)
    (hk : (dirents nd.data)[k]? = some de) : de.inum < s.sb.ninodes := by
  rw [getElem?_dirents] at hk
  split_ifs at hk with hlt
  obtain rfl := Option.some.inj hk
  exact (hd.ok h).inum k (by omega)

theorem readDirent_spec {msg : String} (h : FsInv s) (hd : s.DirAt dp d nd)
    (hk : 16 * k < nd.data.length) :
    wp (readDirent msg dp (16 * k)) (fun de s' => s' = s ∧ (dirents nd.data)[k]? = some de)
      E s := by
  have hlen := hd.length_le h
  have hmod := (hd.ok h).size
  rw [readDirent, wp_bind]
  refine wp_post (readi_spec h hd.holds hd.valid hd.node (by omega)
    (show direntSize < 2 ^ 32 by decide)) ?_
  rintro r s' ⟨rfl, rfl⟩
  have hpart : readPart (fun _ => true) nd.data (16 * k) direntSize =
      (16, (nd.data.drop (16 * k)).take 16) := by
    have hmin : min direntSize (nd.data.length - 16 * k) = 16 := by
      simp only [direntSize]
      omega
    rw [readPart, if_pos ⟨by omega, by simp only [direntSize]; omega⟩]
    simp only [hmin, room_true, if_true]
    rfl
  rw [hpart, if_neg (by simp), wp_pure, getElem?_dirents, if_pos (by omega)]
  exact ⟨rfl, rfl⟩

/-- What `dirlookup` returns : the first entry with the name, with a reference to its inode. -/
def Looked (s : Fs) (nd : Node) (name : List UInt8) (r : Option (ℕ × ℕ)) (s' : Fs) : Prop :=
  (r = none ∧ s' = s ∧ Absent (dirents nd.data) name) ∨
    ∃ k de e, r = some (e, 16 * k) ∧ FoundAt (dirents nd.data) name k de ∧ Took s de.inum e s'

theorem dirlookupLoop_spec (h : FsInv s) (hd : s.DirAt dp d nd)
    (hE : ¬Absent (dirents nd.data) name → s.Full → E "iget: no inodes") :
    ∀ {n k : ℕ}, nd.data.length / 16 < n + k →
    (∀ j < k, ∀ de, (dirents nd.data)[j]? = some de → ¬de.Named name) →
    wp (dirlookupLoop dp name n (16 * k)) (Looked s nd name) E s
  | 0, k, hn, hno => by
    rw [dirlookupLoop, wp_pure]
    refine .inl ⟨rfl, rfl, absent_iff.2 fun j de hj => hno j ?_ de hj⟩
    have := (List.getElem?_eq_some_iff.1 hj).1
    rw [length_dirents] at this
    omega
  | n + 1, k, hn, hno => by
    rw [dirlookupLoop, wp_bind, wp_inode, hd.size h, wp_ite]
    refine ⟨fun hlt => ?_, fun hge => ?_⟩
    · rw [wp_bind]
      refine wp_post (readDirent_spec h hd hlt) ?_
      rintro de s' ⟨hs, hk⟩
      obtain rfl := hs.symm
      have hnext : ¬de.Named name → ∀ j < k + 1, ∀ de', (dirents nd.data)[j]? = some de' →
          ¬de'.Named name := by
        intro hde j hj de' hj'
        rcases Nat.lt_succ_iff_lt_or_eq.1 hj with hj | rfl
        · exact hno j hj de' hj'
        · obtain rfl := Option.some.inj (hk.symm.trans hj')
          exact hde
      have hrest : ¬de.Named name →
          wp (dirlookupLoop dp name n (16 * k + direntSize)) (Looked s nd name) E s :=
        fun hde => dirlookupLoop_spec h hd hE (k := k + 1) (by omega) (hnext hde)
      rw [wp_ite]
      refine ⟨fun h0 => hrest fun hde => hde.1 h0, fun h0 => ?_⟩
      rw [wp_ite, namecmp_eq_zero]
      refine ⟨fun hname => ?_, fun hname => hrest fun hde => hname hde.2⟩
      rw [wp_bind, (h.table.entry dp d hd.holds).1]
      refine wp_post (iget_spec h ⟨Nat.one_le_iff_ne_zero.2 h0, hd.inum_lt h hk⟩
        (hE fun habs => absent_iff.1 habs k de hk ⟨h0, hname⟩)) fun e s' ht => ?_
      rw [wp_pure]
      exact .inr ⟨k, de, e, rfl, ⟨hk, ⟨h0, hname⟩, hno⟩, ht⟩
    · rw [wp_pure]
      refine .inl ⟨rfl, rfl, absent_iff.2 fun j de hj => hno j ?_ de hj⟩
      have := (List.getElem?_eq_some_iff.1 hj).1
      rw [length_dirents] at this
      omega

theorem dirlookup_spec (h : FsInv s) (hd : s.DirAt dp d nd)
    (hE : ¬Absent (dirents nd.data) name → s.Full → E "iget: no inodes") :
    wp (dirlookup dp name) (Looked s nd name) E s := by
  rw [dirlookup, wp_bind, wp_inode, hd.type h, if_neg (by simp), hd.size h]
  exact dirlookupLoop_spec h hd hE (k := 0) (by simp only [direntSize]; omega)
    fun j hj => absurd hj (Nat.not_lt_zero j)

end Read

end Fs

end Xv6Plus
