import Xv6Plus.Log

/-!
# The on-disk format of `kernel/fs.h`

Superblock, inodes, directory entries and the free bitmap as bytes of blocks. An inode refers to its
blocks through *slots* : `0..11` are the direct addresses, `12` is the indirect block and `13 + j`
is entry `j` of that block (`slotAddr`).
-/

namespace Xv6Plus

abbrev rootIno : ℕ := 1

abbrev fsMagic : ℕ := 0x10203040

abbrev nDirect : ℕ := 12

/-- `NINDIRECT`, the words of a block. -/
abbrev nIndirect : ℕ := 256

/-- `IPB`, inodes per block. -/
abbrev ipb : ℕ := 16

/-- `BPB`, bits per block. -/
abbrev bpb : ℕ := 8192

abbrev dirSiz : ℕ := 14

/-- `sizeof(struct dirent)`. -/
abbrev direntSize : ℕ := 16

abbrev tDir : ℕ := 1

abbrev tFile : ℕ := 2

/-- `struct superblock`. -/
structure Superblock where
  magic : ℕ
  size : ℕ
  nblocks : ℕ
  ninodes : ℕ
  nlog : ℕ
  logstart : ℕ
  inodestart : ℕ
  bmapstart : ℕ
deriving DecidableEq

/-- `struct dinode`. The `short` fields are 16-bit words. -/
structure Dinode where
  type : ℕ
  major : ℕ
  minor : ℕ
  nlink : ℕ
  size : ℕ
  addrs : ℕ → ℕ

/-- `struct dirent`. -/
structure Dirent where
  inum : ℕ
  name : List UInt8
deriving DecidableEq

/-- The block of zeros. -/
def zeroBlock : Block := fun _ => 0

def iBlock (inum : ℕ) (sb : Superblock) : ℕ := inum / 16 + sb.inodestart

def bBlock (b : ℕ) (sb : Superblock) : ℕ := b / 8192 + sb.bmapstart

/-- The 16-bit word at `a`. -/
def read16 (m : Mem) (a : ℕ) : ℕ := readLE m a 2

/-- Store a 16-bit word at `a`. -/
def write16 (m : Mem) (a v : ℕ) : Mem := writeLE m a 2 v

/-- Copy the bytes `p` to offset `o` of a buffer. -/
def putBytes (b : Block) (o : ℕ) (p : List UInt8) : Block := fun x =>
  if o ≤ x ∧ x < o + p.length then p.getD (x - o) 0 else b x

/-- The `n` bytes at offset `o` of a buffer. -/
def getBytes (b : Block) (o n : ℕ) : List UInt8 := (List.range n).map fun i => b (o + i)

/-- Store the words `f 0, …, f (k - 1)` from `a` on. -/
def putWords (f : ℕ → ℕ) (a : ℕ) : ℕ → Block → Block
  | 0, b => b
  | k + 1, b => write32 (putWords f a k b) (a + 4 * k) (f k)

/-! ## Inodes -/

/-- Inode `i` of a block. -/
def getDinode (b : Block) (i : ℕ) : Dinode where
  type := read16 b (64 * i)
  major := read16 b (64 * i + 2)
  minor := read16 b (64 * i + 4)
  nlink := read16 b (64 * i + 6)
  size := read32 b (64 * i + 8)
  addrs := fun k => if k ≤ 12 then read32 b (64 * i + 12 + 4 * k) else 0

/-- The fields of an inode before `addrs`, stored as inode `i` of a block. -/
def putHead (b : Block) (i : ℕ) (d : Dinode) : Block :=
  write32 (write16 (write16 (write16 (write16 b (64 * i) d.type) (64 * i + 2) d.major)
    (64 * i + 4) d.minor) (64 * i + 6) d.nlink) (64 * i + 8) d.size

/-- Store an inode as inode `i` of a block. -/
def putDinode (b : Block) (i : ℕ) (d : Dinode) : Block :=
  putWords d.addrs (64 * i + 12) 13 (putHead b i d)

/-- The inode after `bzero`. -/
def Dinode.zero : Dinode := ⟨0, 0, 0, 0, 0, fun _ => 0⟩

/-- `d.addrs[n] = x`. -/
def Dinode.setAddr (d : Dinode) (n x : ℕ) : Dinode :=
  { d with addrs := Function.update d.addrs n x }

/-- The fields fit their words. -/
structure Dinode.Fits (d : Dinode) : Prop where
  type : d.type < 2 ^ 16
  major : d.major < 2 ^ 16
  minor : d.minor < 2 ^ 16
  nlink : d.nlink < 2 ^ 16
  size : d.size < 2 ^ 32
  addrs : ∀ k, d.addrs k < 2 ^ 32
  rest : ∀ k, 12 < k → d.addrs k = 0

/-- Inode `inum` of the image. -/
def dinodeAt (view : Disk) (sb : Superblock) (inum : ℕ) : Dinode :=
  getDinode (view (iBlock inum sb)) (inum % 16)

/-- The address in slot `k` of an inode, `0` if there is none. -/
def slotAddr (view : Disk) (d : Dinode) (k : ℕ) : ℕ :=
  if k ≤ 12 then d.addrs k
  else if d.addrs 12 = 0 ∨ 268 < k then 0
  else read32 (view (d.addrs 12)) (4 * (k - 13))

/-- The slot of block `bn` of a file. -/
def blkSlot (bn : ℕ) : ℕ := if bn < 12 then bn else bn + 1

/-- Byte `k` of a file. -/
def fileByte (view : Disk) (d : Dinode) (k : ℕ) : UInt8 :=
  view (slotAddr view d (blkSlot (k / 1024))) (k % 1024)

/-- The bytes of a file. -/
def fileBytes (view : Disk) (d : Dinode) : List UInt8 :=
  (List.range d.size).map (fileByte view d)

/-! ## The bitmap -/

/-- The mask `1 << (i % 8)`. -/
def bitMask (i : ℕ) : UInt8 := 1 <<< UInt8.ofNat (i % 8)

/-- Bit `i` of a bitmap block is set. -/
def bitAt (b : Block) (i : ℕ) : Bool := (b (i / 8) &&& bitMask i) != 0

def setBit (b : Block) (i : ℕ) : Block :=
  Function.update b (i / 8) (b (i / 8) ||| bitMask i)

def clearBit (b : Block) (i : ℕ) : Block :=
  Function.update b (i / 8) (b (i / 8) &&& ~~~bitMask i)

/-! ## Directory entries -/

/-- The entry in 16 bytes. -/
def Dirent.ofBytes (p : List UInt8) : Dirent :=
  ⟨(p.getD 0 0).toNat + 256 * (p.getD 1 0).toNat, p.drop 2⟩

def Dirent.toBytes (e : Dirent) : List UInt8 :=
  UInt8.ofNat e.inum :: UInt8.ofNat (e.inum / 256) :: e.name

/-- `strncpy` of a string to a zeroed field of `DIRSIZ` bytes. -/
def nameField (name : List UInt8) : List UInt8 :=
  name.take 14 ++ List.replicate (14 - name.length) 0

/-! ## Reading back what was stored -/

variable {b b' : Block} {d : Dinode} {f : ℕ → ℕ} {a i j k n o x : ℕ} {p : List UInt8}

@[simp] theorem length_getBytes : (getBytes b o n).length = n := by
  simp [getBytes]

theorem putWords_of_not_mem : ∀ {k : ℕ}, x < a ∨ a + 4 * k ≤ x → putWords f a k b x = b x
  | 0, _ => rfl
  | k + 1, h => by
    have hx : x ∈ ({x} : Set ℕ) := rfl
    rw [putWords, write32_eqOn (S := {x}) (by rintro _ rfl; omega) hx]
    exact putWords_of_not_mem (by omega)

theorem read32_putWords : ∀ {k : ℕ}, i < k → f i < 2 ^ 32 →
    read32 (putWords f a k b) (a + 4 * i) = f i
  | k + 1, hi, hf => by
    rw [putWords]
    by_cases hik : i = k
    · subst hik
      exact read32_write32_same _ _ hf
    · rw [read32_write32_ne (by omega)]
      exact read32_putWords (by omega) hf

/-- What a read returns depends on the bytes of the inode only. -/
theorem getDinode_congr (h : ∀ x, 64 * i ≤ x → x < 64 * i + 64 → b x = b' x) :
    getDinode b i = getDinode b' i := by
  have hr : ∀ a n, 64 * i ≤ a → a + n ≤ 64 * i + 64 → readLE b a n = readLE b' a n := by
    intro a n h1 h2
    refine readLE_congr fun x hx => h x ?_ ?_
    · exact h1.trans hx.1
    · exact hx.2.trans_le h2
  have haddr : ∀ k, (if k ≤ 12 then read32 b (64 * i + 12 + 4 * k) else 0) =
      if k ≤ 12 then read32 b' (64 * i + 12 + 4 * k) else 0 := by
    intro k
    split_ifs with hk
    · exact hr _ _ (by omega) (by omega)
    · rfl
  simp only [getDinode, read16, read32] at haddr ⊢
  simp only [hr (64 * i) 2 (le_refl _) (by omega), hr (64 * i + 2) 2 (by omega) (by omega),
    hr (64 * i + 4) 2 (by omega) (by omega), hr (64 * i + 6) 2 (by omega) (by omega),
    hr (64 * i + 8) 4 (by omega) (by omega), haddr]

theorem putHead_of_not_mem (h : x < 64 * i ∨ 64 * i + 64 ≤ x) : putHead b i d x = b x := by
  have hw : ∀ (m : Mem) (a n v : ℕ), 64 * i ≤ a → a + n ≤ 64 * i + 64 →
      writeLE m a n v x = m x := by
    intro m a n v h1 h2
    exact writeLE_eqOn (S := {x}) (by rintro _ rfl; omega) rfl
  simp only [putHead, write32, write16]
  rw [hw _ _ _ _ (by omega) (by omega), hw _ _ _ _ (by omega) (by omega),
    hw _ _ _ _ (by omega) (by omega), hw _ _ _ _ (by omega) (by omega),
    hw _ _ _ _ (by omega) (by omega)]

theorem putDinode_of_not_mem (h : x < 64 * i ∨ 64 * i + 64 ≤ x) : putDinode b i d x = b x := by
  rw [putDinode, putWords_of_not_mem (by omega), putHead_of_not_mem h]

theorem getDinode_putDinode_ne (h : i ≠ j) : getDinode (putDinode b i d) j = getDinode b j :=
  getDinode_congr fun _ _ _ => putDinode_of_not_mem (by omega)

theorem getDinode_putDinode_same (b : Block) (i : ℕ) (hd : d.Fits) :
    getDinode (putDinode b i d) i = d := by
  have hhead : ∀ a n, a + n ≤ 64 * i + 12 →
      readLE (putDinode b i d) a n = readLE (putHead b i d) a n := by
    intro a n h
    refine readLE_congr fun x hx => putWords_of_not_mem (Or.inl ?_)
    exact hx.2.trans_le h
  have haddrs : (fun k => if k ≤ 12 then
      read32 (putDinode b i d) (64 * i + 12 + 4 * k) else 0) = d.addrs := by
    funext k
    split_ifs with hk
    · exact read32_putWords (by omega) (hd.addrs k)
    · exact (hd.rest k (by omega)).symm
  obtain ⟨htype, hmajor, hminor, hnlink, hsize, -, -⟩ := hd
  rw [getDinode, haddrs]
  simp only [read16, read32]
  rw [hhead _ _ (by omega), hhead _ _ (by omega), hhead _ _ (by omega), hhead _ _ (by omega),
    hhead _ _ (by omega)]
  simp (disch := omega) only [putHead, write16, write32, readLE_writeLE_ne,
    readLE_writeLE_same]
  norm_num at htype hmajor hminor hnlink hsize ⊢
  rw [Nat.mod_eq_of_lt htype, Nat.mod_eq_of_lt hmajor, Nat.mod_eq_of_lt hminor,
    Nat.mod_eq_of_lt hnlink, Nat.mod_eq_of_lt hsize]

theorem getDinode_zeroBlock : getDinode zeroBlock i = Dinode.zero := by
  have hz : ∀ n a, readLE zeroBlock a n = 0 := fun n a => by
    rw [readLE_of_digits (v := 0) fun _ _ => by simp [zeroBlock], Nat.zero_mod]
  simp [getDinode, read16, read32, hz, Dinode.zero]

end Xv6Plus
