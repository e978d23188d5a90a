import Xv6Plus.FsInv

/-!
# Reading files

`Stored σ v c` says that the blocks in the slots `σ` have the bytes `c`. `readi` returns a part of
them, and never allocates.
-/

namespace Xv6Plus

/-- The blocks in the slots `σ` have the bytes `c`. -/
def Stored (σ : ℕ → ℕ) (v : Disk) (c : List UInt8) : Prop :=
  ∀ k < c.length, σ (blkSlot (k / 1024)) ≠ 0 ∧ v (σ (blkSlot (k / 1024))) (k % 1024) = c.getD k 0

section Stored

variable {σ σ' : ℕ → ℕ} {v v' : Disk} {c p : List UInt8} {d : Dinode} {off n a : ℕ}

theorem Whole.stored (h : Whole v d) : Stored (slotAddr v d) v (fileBytes v d) := by
  intro k hk
  have hk : k < d.size := by simpa [fileBytes] using hk
  refine ⟨h.slot _ (by omega), ?_⟩
  simp [fileBytes, List.getD_eq_getElem?_getD, hk, fileByte]

/-- The part of the bytes that is in one block. -/
theorem Stored.getBytes (h : Stored σ v c) (hblk : off % 1024 + n ≤ 1024)
    (hn : off + n ≤ c.length) :
    getBytes (v (σ (blkSlot (off / 1024)))) (off % 1024) n = (c.drop off).take n := by
  refine List.ext_getElem (by simp; omega) fun k h1 h2 => ?_
  have hk : k < n := by simpa using h1
  have hc := (h (off + k) (by omega)).2
  rw [show (off + k) / 1024 = off / 1024 by omega, show (off + k) % 1024 = off % 1024 + k by omega,
    List.getD_eq_getElem c 0 (by omega)] at hc
  simpa [Xv6Plus.getBytes] using hc

end Stored

/-! ## Copies -/

section Copies

variable {dst : ℕ → Bool} {src : ℕ → Option UInt8}

theorem room_le (dst : ℕ → Bool) : ∀ m k, room dst k m ≤ m
  | 0, _ => le_refl _
  | m + 1, k => by
    rw [room]
    split_ifs
    · exact Nat.succ_le_succ (room_le dst m (k + 1))
    · exact Nat.zero_le _

theorem room_add (dst : ℕ → Bool) (m' : ℕ) : ∀ m k, room dst k (m + m') =
    if room dst k m = m then m + room dst (k + m) m' else room dst k m
  | 0, k => by simp [room]
  | m + 1, k => by
    have ih := room_add dst m' m (k + 1)
    rw [show k + 1 + m = k + (m + 1) by omega] at ih
    rw [show m + 1 + m' = m + m' + 1 by omega, room, room, ih]
    by_cases hk : dst k = true
    · simp only [hk, if_true, Nat.add_right_cancel_iff]
      split_ifs <;> omega
    · simp [hk]

theorem room_true (m k : ℕ) : room (fun _ => true) k m = m := by
  induction m generalizing k with
  | zero => rfl
  | succ m ih => simp [room, ih]

end Copies

namespace Fs

/-! ## `readi` -/

section Readi

variable {s : Fs} {E : String → Prop} {e n bn : ℕ} {dst : ℕ → Bool} {c : List UInt8}

/-- `bmap` of a block that is there. -/
theorem bmap_found (hbn : bn < 268) (h0 : slotAddr s.view (s.itable e).din (blkSlot bn) ≠ 0) :
    wp (bmap e bn) (fun r s' => s' = s ∧ r = slotAddr s.view (s.itable e).din (blkSlot bn))
      E s := by
  have haddr : ∀ k ≤ 12, (s.itable e).din.addrs k ≠ 0 →
      wp (bmapAddr e k) (fun r s' => s' = s ∧ r = (s.itable e).din.addrs k) E s := by
    intro k _ hk
    rw [bmapAddr, wp_bind, wp_inode, if_neg hk, wp_pure]
    exact ⟨rfl, rfl⟩
  rw [bmap]
  by_cases hlt : bn < 12
  · have hslot : slotAddr s.view (s.itable e).din (blkSlot bn) = (s.itable e).din.addrs bn := by
      rw [blkSlot, if_pos hlt, slotAddr, if_pos (by omega)]
    rw [hslot] at h0 ⊢
    rw [if_pos hlt]
    exact haddr bn (by omega) h0
  · have hslot : slotAddr s.view (s.itable e).din (blkSlot bn) =
        if (s.itable e).din.addrs 12 = 0 then 0
        else read32 (s.view ((s.itable e).din.addrs 12)) (4 * (bn - 12)) := by
      rw [blkSlot, if_neg hlt, slotAddr, if_neg (by omega), show bn + 1 - 13 = bn - 12 by omega]
      exact if_congr (or_iff_left (by omega)) rfl rfl
    rw [hslot] at h0 ⊢
    have h12 : (s.itable e).din.addrs 12 ≠ 0 := fun h => h0 (if_pos h)
    rw [if_neg h12] at h0 ⊢
    rw [if_neg hlt, if_pos (by simp only [nIndirect, nDirect]; omega), wp_bind]
    refine wp_post (haddr 12 (le_refl _) h12) fun r s' hr => ?_
    obtain ⟨rfl, rfl⟩ := hr
    rw [if_neg h12, bmapEntry, wp_bind, wp_bread, if_neg h0, wp_pure]
    exact ⟨rfl, rfl⟩

theorem readiLoop_spec (h : Stored (slotAddr s.view (s.itable e).din) s.view c)
    (hc : c.length ≤ 268 * 1024) : ∀ {k off tot : ℕ} {out : List UInt8}, n - tot ≤ k → tot ≤ n →
    off + (n - tot) ≤ c.length →
    wp (readiLoop e dst n k off tot out) (fun r s' => s' = s ∧
      r = (if room dst tot (n - tot) = n - tot then (n : ℤ) else -1,
        out ++ (c.drop off).take (room dst tot (n - tot)))) E s
  | 0, off, tot, out, hk, htot, hoff => by
    obtain rfl : n = tot := by omega
    rw [readiLoop, wp_pure]
    simp [room]
  | k + 1, off, tot, out, hk, htot, hoff => by
    rw [readiLoop, wp_ite]
    refine ⟨fun hlt => ?_, fun hge => ?_⟩
    · rw [wp_bind]
      have hslot := (h off (by omega)).1
      refine wp_post (bmap_found (show off / 1024 < 268 by omega) hslot) fun r s' hr => ?_
      obtain ⟨hs, rfl⟩ := hr
      obtain rfl := hs.symm
      rw [if_neg hslot, wp_bind, wp_bread]
      have hm : ∃ m, min (n - tot) (1024 - off % 1024) = m ∧ 0 < m ∧ m ≤ n - tot ∧
          off % 1024 + m ≤ 1024 := ⟨_, rfl, by omega, by omega, by omega⟩
      obtain ⟨m, hmin, hpos, hle, hblk⟩ := hm
      simp only [hmin]
      have hsplit := room_add dst (n - tot - m) m tot
      rw [show m + (n - tot - m) = n - tot by omega] at hsplit
      have hroom := room_le dst m tot
      rw [wp_ite]
      refine ⟨fun hshort => ?_, fun hfull => ?_⟩
      · rw [if_neg (by omega)] at hsplit
        rw [wp_pure, hsplit, if_neg (by omega), h.getBytes (by omega) (by omega)]
        exact ⟨rfl, rfl⟩
      · replace hfull : room dst tot m = m := by omega
        refine wp_post (readiLoop_spec h hc (show n - (tot + m) ≤ k by omega) (by omega)
          (show off + m + (n - (tot + m)) ≤ c.length by omega)) fun r s' hr => ?_
        obtain ⟨hs, rfl⟩ := hr
        refine ⟨hs, ?_⟩
        rw [hsplit, if_pos hfull, show n - (tot + m) = n - tot - m by omega,
          h.getBytes hblk (by omega), List.append_assoc, List.take_add, List.drop_drop]
        congr 1
        exact if_congr (by omega) rfl rfl
    · obtain rfl : n = tot := by omega
      rw [wp_pure]
      simp [room]

/-- What `readi` returns of the contents `c`. -/
def readPart (dst : ℕ → Bool) (c : List UInt8) (off n : ℕ) : ℤ × List UInt8 :=
  if off ≤ c.length ∧ off + n < 2 ^ 32 then
    let m := min n (c.length - off)
    (if room dst 0 m = m then (m : ℤ) else -1, (c.drop off).take (room dst 0 m))
  else (0, [])

theorem wrap32_of_lt {k : ℕ} (h : k < 2 ^ 32) : wrap32 k = k := Nat.mod_eq_of_lt h

/-- The test for a sum that wraps. -/
theorem wrap32_lt_iff {off : ℕ} (hoff : off < 2 ^ 32) (hn : n < 2 ^ 32) :
    wrap32 (off + n) < off ↔ 2 ^ 32 ≤ off + n := by
  constructor
  · intro h
    by_contra hlt
    rw [wrap32_of_lt (not_le.1 hlt)] at h
    omega
  · intro h
    rw [wrap32, Nat.mod_eq_sub_mod h, Nat.mod_eq_of_lt (by omega)]
    omega

theorem readi_spec {i off : ℕ} {nd : Node} (h : FsInv s) (he : s.Holds e i)
    (hv : (s.itable e).valid = true) (hn : s.node i = some nd) (hoff : off < 2 ^ 32)
    (hlen : n < 2 ^ 32) :
    wp (readi e dst off n) (fun r s' => s' = s ∧ r = readPart dst nd.data off n) E s := by
  obtain ⟨hdin, hl, rfl⟩ := h.din he hv hn
  have hw := h.whole i hl
  have hsize : (nodeOf s.view (s.inodes i)).data.length = (s.inodes i).size := length_data _ _
  have hst : Stored (slotAddr s.view (s.itable e).din) s.view
      (nodeOf s.view (s.inodes i)).data := by
    rw [hdin]
    exact hw.stored
  generalize (nodeOf s.view (s.inodes i)).data = c at *
  have hmax := hw.size_le
  rw [readi, wp_bind, wp_inode, hdin, ← hsize, wp_ite, wrap32_lt_iff hoff hlen]
  rw [← hsize] at hmax
  refine ⟨fun hbad => ?_, fun hok => ?_⟩
  · rw [wp_pure, readPart, if_neg (by omega)]
    exact ⟨rfl, rfl⟩
  · have hok : off ≤ c.length ∧ off + n < 2 ^ 32 := by omega
    have hm : (if off + n > c.length then c.length - off else n) = min n (c.length - off) := by
      split_ifs <;> omega
    rw [wrap32_of_lt hok.2, hm, readPart, if_pos hok]
    refine wp_post (readiLoop_spec hst hmax (le_refl _) (Nat.zero_le _) (by omega)) ?_
    intro r s' hr
    simpa only [Nat.sub_zero, List.nil_append] using hr

end Readi

end Fs

end Xv6Plus
