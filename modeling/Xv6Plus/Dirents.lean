import Xv6Plus.FsInv

/-!
# Directories as lists of entries

A name counts up to its first NUL and up to `DIRSIZ` bytes (`nameKey`) : `namecmp` compares these
parts and `strncpy` keeps them. The contents of a directory are the list of its entries.
-/

namespace Xv6Plus

/-! ## Names -/

/-- The part of a string that `strncmp` and `strncpy` look at. -/
def strKey (n : ℕ) (t : List UInt8) : List UInt8 := (t.take n).takeWhile (· ≠ 0)

/-- The part of a name that counts. -/
def nameKey (t : List UInt8) : List UInt8 := strKey dirSiz t

section Names

variable {p q t : List UInt8} {n : ℕ}

@[simp] theorem strKey_zero : strKey 0 t = [] := rfl

theorem strKey_succ : strKey (n + 1) t =
    if t.headD 0 = 0 then [] else t.headD 0 :: strKey n t.tail := by
  cases t with
  | nil => rfl
  | cons a t =>
    simp only [strKey, List.take_succ_cons, List.headD_cons, List.tail_cons, List.takeWhile_cons,
      decide_not, Bool.not_eq_eq_eq_not, Bool.not_true, decide_eq_false_iff_not]
    split_ifs <;> simp_all

theorem strncmp_eq_zero : ∀ {n : ℕ} {p q : List UInt8},
    strncmp p q n = 0 ↔ strKey n p = strKey n q
  | 0, p, q => by simp [strncmp]
  | n + 1, p, q => by
    rw [strncmp, strKey_succ, strKey_succ]
    by_cases hc : p.headD 0 ≠ 0 ∧ p.headD 0 = q.headD 0
    · rw [if_pos hc, if_neg hc.1, if_neg (hc.2 ▸ hc.1), strncmp_eq_zero, ← hc.2]
      simp
    · have hsub : ((p.headD 0).toNat : ℤ) - (q.headD 0).toNat = 0 ↔ p.headD 0 = q.headD 0 := by
        rw [sub_eq_zero, Nat.cast_inj, UInt8.toNat_inj]
      rw [if_neg hc, hsub]
      by_cases hp : p.headD 0 = 0
      · rw [if_pos hp, hp, eq_comm]
        split_ifs with hq
        · exact iff_of_true hq rfl
        · exact iff_of_false hq not_false
      · rw [if_neg hp]
        have hne : p.headD 0 ≠ q.headD 0 := fun h => hc ⟨hp, h⟩
        refine iff_of_false hne fun h => ?_
        split_ifs at h with hq
        exact hne (List.cons.inj h).1

/-- `namecmp` compares the parts that count. -/
theorem namecmp_eq_zero : namecmp p q = 0 ↔ nameKey p = nameKey q := strncmp_eq_zero

end Names

/-! ## Entries -/

/-- The entries of a directory. -/
def dirents (data : List UInt8) : List Dirent :=
  (List.range (data.length / 16)).map (direntAt data)

section Entries

variable {data p : List UInt8} {l : List Dirent} {de de' : Dirent} {k j : ℕ}

@[simp] theorem length_dirents : (dirents data).length = data.length / 16 := by simp [dirents]

theorem getElem?_dirents : (dirents data)[k]? =
    if 16 * k + 16 ≤ data.length then some (direntAt data k) else none := by
  rw [dirents, List.getElem?_map]
  split_ifs with hk
  · rw [List.getElem?_range (by omega)]
    rfl
  · rw [List.getElem?_eq_none (by rw [List.length_range]; omega)]
    rfl

end Entries

/-! ## Lookup -/

/-- The entry is in use and has the name. -/
def Dirent.Named (de : Dirent) (name : List UInt8) : Prop :=
  de.inum ≠ 0 ∧ nameKey name = nameKey de.name

instance (de : Dirent) (name : List UInt8) : Decidable (de.Named name) :=
  inferInstanceAs (Decidable (_ ∧ _))

/-- The first entry with the name. -/
structure FoundAt (l : List Dirent) (name : List UInt8) (k : ℕ) (de : Dirent) : Prop where
  entry : l[k]? = some de
  named : de.Named name
  first : ∀ j < k, ∀ de', l[j]? = some de' → ¬de'.Named name

/-- No entry has the name. -/
def Absent (l : List Dirent) (name : List UInt8) : Prop := ∀ de ∈ l, ¬de.Named name

section Lookup

variable {l : List Dirent} {name : List UInt8} {de : Dirent} {j k : ℕ}

theorem absent_iff : Absent l name ↔ ∀ (k : ℕ) (de : Dirent), l[k]? = some de → ¬de.Named name := by
  constructor
  · exact fun h k de hk => h de (List.mem_of_getElem? hk)
  · intro h de hde
    obtain ⟨k, hk⟩ := List.getElem?_of_mem hde
    exact h k de hk

end Lookup

end Xv6Plus
