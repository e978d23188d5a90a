import Xv6Plus.FsInv

/-!
# Dropping a reference

`iput` drops a reference to an inode. With the last reference to an inode without links it frees the
inode and its blocks; otherwise the disk stays as it is.
-/

namespace Xv6Plus

namespace Fs

/-- An inode in use without links. -/
def Orphan (s : Fs) (i : ℕ) : Prop := ∃ n, s.node i = some n ∧ n.nlink = 0

/-- A reference to the inode `i` has been dropped, and the disk is as it was. -/
structure Put (s : Fs) (i : ℕ) (s' : Fs) : Prop where
  inv : FsInv s'
  sb : s'.sb = s.sb
  refs : s'.refs = Function.update s.refs i (s.refs i - 1)
  locks : s'.locks = s.locks
  stays : ∀ e j, s.Holds e j → (j = i → 2 ≤ s.refs i) →
    s'.Holds e j ∧ ((s.itable e).valid = true → (s'.itable e).valid = true)
  sys : s'.sys = s.sys
  stale : s'.stale = s.stale

section Iput

variable {s : Fs} {E : String → Prop} {e i : ℕ} {x : Inode}

/-- The last reference is dropped, and the entry of the table is free. -/
theorem last_put (h : FsInv s) (he : s.Holds e i) (hl : e ∉ s.locks) (hr : s.refs i = 1)
    (hno : ¬s.Orphan i) (hx : x = { s.itable e with ref := 0 }) :
    Put s i (s.setInode e x) := by
  have hlocked : (s.itable e).locked = false := by
    by_contra hne
    exact hl ⟨he.1, by simpa using hne⟩
  have hholds : ∀ e' j, (s.setInode e x).Holds e' j ↔ e' ≠ e ∧ s.Holds e' j := by
    intro e' j
    rw [holds_setInode he.1]
    split_ifs with hee
    · refine iff_of_false (fun h' => ?_) fun h' => h'.1 hee
      rw [hx] at h'
      exact lt_irrefl 0 h'.1
    · rw [and_iff_right hee]
  have hstays : ∀ e' j, s.Holds e' j → e' ≠ e → (s.setInode e x).Holds e' j ∧
      ((s.itable e').valid = true → ((s.setInode e x).itable e').valid = true) := by
    intro e' j h' hee
    rw [setInode_of_ne hee]
    exact ⟨(hholds e' j).2 ⟨hee, h'⟩, id⟩
  have ht : TableOk (s.setInode e x) := by
    refine ⟨?_, ?_, ?_, ?_⟩
    · intro e' j h'
      obtain ⟨hee, h'⟩ := (hholds e' j).1 h'
      rw [setInode_of_ne hee]
      exact h.table.entry e' j h'
    · intro e' e'' j h1 h2
      exact h.table.once e' e'' j ((hholds e' j).1 h1).2 ((hholds e'' j).1 h2).2
    · intro e' j h' hv
      obtain ⟨hee, h'⟩ := (hholds e' j).1 h'
      rw [setInode_of_ne hee] at hv ⊢
      exact h.table.valid e' j h' hv
    · intro e' he' h0
      by_cases hee : e' = e
      · rw [hee, setInode_self, hx]
        exact hlocked
      · rw [setInode_of_ne hee] at h0 ⊢
        exact h.table.free e' he' h0
  have hinv : FsInv (s.setInode e x) := by
    refine h.setInode ht fun j n hn h0 => ?_
    obtain ⟨e', h1, h2⟩ := h.orphan j n hn h0
    have hee : e' ≠ e := by
      rintro rfl
      obtain rfl := he.unique h1
      exact hno ⟨n, hn, h0⟩
    exact ⟨e', (hstays e' j h1 hee).1, (hstays e' j h1 hee).2 h2⟩
  refine ⟨hinv, rfl, ?_, locks_keep he.1 (hx ▸ rfl), fun e' j h' h2 => hstays e' j h' ?_, rfl, rfl⟩
  · rw [refs_keep h.table he (hx ▸ he.2.2), hr, hx]
  · rintro rfl
    have := h2 (he.unique h').symm
    omega

/-- One of several references is dropped. -/
theorem one_put (h : FsInv s) (he : s.Holds e i) (hr : s.refs i ≠ 1)
    (hx : x = { s.itable e with ref := s.refs i - 1 }) : Put s i (s.setInode e x) := by
  have hpos := h.table.refs_pos he
  have href : x.ref = s.refs i - 1 := by rw [hx]
  have hinum : x.inum = i := hx ▸ he.2.2
  obtain ⟨hq, -⟩ := Quiet.keep h he ⟨by omega, hinum⟩ (hx ▸ rfl) (hx ▸ h.table.valid e i he)
    (hx ▸ id)
  refine ⟨hq.inv, rfl, ?_, locks_keep he.1 (hx ▸ rfl), fun e' j h' _ => hq.stays e' j h', rfl, rfl⟩
  rw [refs_keep h.table he hinum, href]

theorem iput_keep (h : FsInv s) (he : s.Holds e i) (hl : s.refs i = 1 → e ∉ s.locks)
    (hno : ¬(s.refs i = 1 ∧ s.Orphan i)) : wp (iput e) (fun _ s' => Put s i s') E s := by
  have href := h.table.ref_eq he
  have hnot : ¬((s.itable e).ref = 1 ∧ (s.itable e).valid = true ∧
      (s.itable e).din.nlink = 0) := by
    rintro ⟨h1, hv, h0⟩
    obtain ⟨hlive, hdin⟩ := h.table.valid e i he hv
    rw [hdin] at h0
    exact hno ⟨href ▸ h1, _, node_of_live hlive, h0⟩
  rw [iput, wp_bind, wp_inode, if_neg hnot, wp_modify]
  by_cases hr : s.refs i = 1
  · exact last_put h he (hl hr) hr (fun hor => hno ⟨hr, hor⟩) (by rw [href, hr])
  · exact one_put h he hr (by rw [href])

end Iput

end Fs

end Xv6Plus
