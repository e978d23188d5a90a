import Xv6Plus.Pieces
import Xv6Plus.Umalloc

/-!
# The free list of the user heap

`HeapShape L s N live top` : the nodes `N` of the free list, `base` among them, form a ring in
ascending order, and the free blocks and the blocks in use make up the memory from the first break
to `top`. `HeapInv` says moreover that no two free blocks touch.

`free` links the block in and then joins it with its two neighbours where they touch it. Each of
the three steps keeps the shape, and the tests of the code see to it that nothing is left to join.
The memory `morecore` gets is a block in use that is freed at once. That it is really there plays
no part in this, so `top` is not the break : when `sbrk` was asked for too little the list is
in order all the same, and what is wrong is that it goes beyond the break.
-/

namespace Xv6Plus

namespace UHeap

/-- The blocks in use, by the address of the header and the bytes asked for. -/
abbrev Live : Type := Set (ℕ × ℕ)

/-- The blocks in use, without the one at `a`. -/
def Live.without (live : Live) (a : ℕ) : Live := {x ∈ live | x.1 ≠ a}

/-- The starts of the blocks, free or in use. -/
def starts (L : Layout) (N : Finset ℕ) (live : Live) : Set ℕ :=
  (N : Set ℕ) \ {L.base} ∪ Prod.fst '' live

/-- The ring of free blocks, and the memory made up of blocks. -/
structure HeapShape (L : Layout) (s : UHeap) (N : Finset ℕ) (live : Live) (top : ℕ) : Prop where
  ring : SortedRing N s.ptr
  base_mem : L.base ∈ N
  base_size : s.size L.base = 0
  pieces : Pieces (starts L N live) (fun a => headerSize * s.size a) L.start top
  apart : ∀ x ∈ live, x.1 ∉ N
  room : ∀ x ∈ live, headerSize + x.2 ≤ headerSize * s.size x.1
  start_le : L.start ≤ top
  small : top < L.start + 2 ^ 36

/-- The heap between two calls. -/
structure HeapInv (L : Layout) (s : UHeap) (N : Finset ℕ) (live : Live) (top : ℕ) : Prop extends
    HeapShape L s N live top where
  freep_mem : s.freep ∈ N
  coalesced : ∀ a ∈ N, a ≠ L.base → a + headerSize * s.size a ≠ s.ptr a

variable {L : Layout} {s s' : UHeap} {N : Finset ℕ} {live : Live} {top a b p nb nu fuel : ℕ}

theorem mem_starts : a ∈ starts L N live ↔ (a ∈ N ∧ a ≠ L.base) ∨ ∃ nb, (a, nb) ∈ live := by
  simp [starts]

namespace HeapShape

theorem start_mem (h : HeapShape L s N live top) (ha : a ∈ starts L N live) :
    L.base < a ∧ L.start ≤ a ∧ 0 < s.size a ∧ a + 16 * s.size a ≤ top := by
  have h1 := h.pieces.bounds ha
  have h2 := h.pieces.pos a ha
  have h3 := L.base_le
  simp only [headerSize] at h1 h2 h3
  omega

theorem node (h : HeapShape L s N live top) (ha : a ∈ N) (hne : a ≠ L.base) :
    L.base < a ∧ L.start ≤ a ∧ 0 < s.size a ∧ a + 16 * s.size a ≤ top :=
  h.start_mem (mem_starts.2 (Or.inl ⟨ha, hne⟩))

theorem used (h : HeapShape L s N live top) (ha : (a, nb) ∈ live) :
    L.base < a ∧ L.start ≤ a ∧ 0 < s.size a ∧ a + 16 * s.size a ≤ top :=
  h.start_mem (mem_starts.2 (Or.inr ⟨nb, ha⟩))

theorem base_le (h : HeapShape L s N live top) (ha : a ∈ N) : L.base ≤ a := by
  by_cases hne : a = L.base
  · exact hne.ge
  · exact (h.node ha hne).1.le

/-- Only the header fields of the blocks matter. -/
theorem congr (h : HeapShape L s N live top) (hptr : ∀ a ∈ N, s'.ptr a = s.ptr a)
    (hsize : ∀ a, a = L.base ∨ a ∈ starts L N live → s'.size a = s.size a) :
    HeapShape L s' N live top where
  ring := h.ring.congr hptr
  base_mem := h.base_mem
  base_size := by
    rw [hsize _ (Or.inl rfl)]
    exact h.base_size
  pieces := h.pieces.congr fun a ha => by rw [hsize a (Or.inr ha)]
  apart := h.apart
  room x hx := by
    rw [hsize x.1 (Or.inr (mem_starts.2 (Or.inr ⟨x.2, hx⟩)))]
    exact h.room x hx
  start_le := h.start_le
  small := h.small

/-- A free block that touches another one is followed by it on the list. -/
theorem ptr_eq (h : HeapShape L s N live top) (ha : a ∈ N) (hb : b ∈ N) (hne : a ≠ L.base)
    (hab : a + 16 * s.size a = b) : s.ptr a = b := by
  have hpos := (h.node ha hne).2.2.1
  rcases h.ring.step a ha with ⟨h1, h2⟩ | ⟨h1, -⟩
  · have hle := (h2 b hb).resolve_left (by omega)
    have hn := h.ring.mem a ha
    have hbase : s.ptr a ≠ L.base := by
      have := h.base_le ha
      omega
    have := h.pieces.apart a (mem_starts.2 (Or.inl ⟨ha, hne⟩)) _
      (mem_starts.2 (Or.inl ⟨hn, hbase⟩)) h1
    simp only [headerSize] at this
    omega
  · have := h1 b hb
    omega

end HeapShape

theorem HeapInv.freep_ne (h : HeapInv L s N live top) : s.freep ≠ 0 := by
  have := h.base_le h.freep_mem
  have := L.base_pos
  omega

/-! ## The steps of `free` -/

/-- A block is linked in behind `p`. -/
def link (s : UHeap) (b p : ℕ) : UHeap := (s.setPtr b (s.ptr p)).setPtr p b

/-- A free block is joined with the next one on the list. -/
def join (s : UHeap) (a : ℕ) : UHeap :=
  (s.setSize a ((s.size a + s.size (s.ptr a)) % 2 ^ 32)).setPtr a (s.ptr (s.ptr a))

/-- A free block is joined with the next one if they touch. -/
def joinNext (s : UHeap) (a : ℕ) : UHeap :=
  if a + headerSize * s.size a = s.ptr a then s.join a else s

theorem joinNext_link (hlt : p < b) (hpos : 0 < s.size b) :
    joinNext (link s b p) b = (joinUpper s b p).setPtr p b := by
  have hptr : (link s b p).ptr b = s.ptr p := by
    simp [link, Function.update_of_ne hlt.ne']
  have hsize : (link s b p).size = s.size := rfl
  rw [joinNext, joinUpper, hptr, hsize]
  by_cases htouch : b + headerSize * s.size b = s.ptr p
  · have hb : s.ptr p ≠ b := by
      simp only [headerSize] at htouch
      omega
    have hp : s.ptr p ≠ p := by
      simp only [headerSize] at htouch
      omega
    rw [if_pos htouch, if_pos htouch, join, hptr, hsize]
    simp only [link, setPtr_ptr, Function.update_of_ne hp, Function.update_of_ne hb,
      setSize_ptr, setPtr_setSize]
    rw [setPtr_comm _ _ _ hlt.ne, setPtr_setPtr]
  · rw [if_neg htouch, if_neg htouch, link]

theorem joins_eq (hlt : p < b) (hpos : 0 < s.size b) :
    joinLower (joinUpper s b p) b p = joinNext (joinNext (link s b p) b) p := by
  rw [joinNext_link hlt hpos]
  generalize joinUpper s b p = t
  rw [joinLower, joinNext, setPtr_ptr, setPtr_size, Function.update_self]
  refine if_congr Iff.rfl ?_ rfl
  simp only [join, setPtr_ptr, setPtr_size, Function.update_self, Function.update_of_ne hlt.ne',
    setSize_ptr, setPtr_setSize, setPtr_setPtr]

namespace HeapShape

theorem link (h : HeapShape L s N live top) (hb : (b, nb) ∈ live) (hp : p ∈ N)
    (hplace : Place (s.ptr p) p b) :
    HeapShape L (s.link b p) (insert b N) (live.without b) top := by
  have hbN := h.apart _ hb
  have hpb : p ≠ b := fun hc => hbN (hc ▸ hp)
  have hbase : L.base ≠ b := fun hc => hbN (hc ▸ h.base_mem)
  have hstarts : starts L (insert b N) (live.without b) = starts L N live := by
    ext a
    rw [mem_starts, mem_starts, Finset.mem_insert]
    by_cases hab : a = b
    · subst hab
      exact ⟨fun _ => Or.inr ⟨nb, hb⟩, fun _ => Or.inl ⟨Or.inl rfl, hbase.symm⟩⟩
    · simp only [hab, false_or, Live.without, Set.mem_ofPred_eq, ne_eq, not_false_eq_true, and_true]
  exact {
    ring := by
      refine h.ring.insert hp hplace ?_ ?_ fun c _ hcp hcb => ?_
      · simp [UHeap.link, Function.update_of_ne hpb.symm]
      · simp [UHeap.link]
      · simp [UHeap.link, Function.update_of_ne hcp, Function.update_of_ne hcb]
    base_mem := Finset.mem_insert_of_mem h.base_mem
    base_size := h.base_size
    pieces := hstarts ▸ h.pieces
    apart := by
      rintro x ⟨hx, hxb⟩ hc
      exact h.apart x hx (Finset.mem_of_mem_insert_of_ne hc hxb)
    room := fun x hx => h.room x hx.1
    start_le := h.start_le
    small := h.small }

/-- The size of two free blocks that touch is a `uint`. -/
theorem size_add (h : HeapShape L s N live top) (ha : a ∈ N) (hb : b ∈ N) (hne : a ≠ L.base)
    (hab : a + 16 * s.size a = b) : (s.size a + s.size b) % 2 ^ 32 = s.size a + s.size b := by
  have h1 := h.node ha hne
  have h2 := h.node hb (by omega)
  have h3 := h.small
  omega

theorem join (h : HeapShape L s N live top) (ha : a ∈ N) (hne : a ≠ L.base)
    (hab : a + headerSize * s.size a = s.ptr a) :
    HeapShape L (s.join a) (N.erase (s.ptr a)) live top := by
  have hb := h.ring.mem a ha
  have hnode := h.node ha hne
  simp only [headerSize] at hab
  have hsum := h.size_add ha hb hne hab
  have hneb : s.ptr a ≠ L.base := by omega
  have hnea : a ≠ s.ptr a := by omega
  have hused : ∀ x ∈ live, x.1 ≠ a ∧ x.1 ≠ s.ptr a := fun x hx =>
    ⟨fun hc => h.apart x hx (hc ▸ ha), fun hc => h.apart x hx (hc ▸ hb)⟩
  have hstarts : starts L (N.erase (s.ptr a)) live = starts L N live \ {s.ptr a} := by
    ext c
    rw [Set.mem_sdiff, mem_starts, mem_starts, Finset.mem_erase, Set.mem_singleton_iff]
    constructor
    · rintro (⟨⟨h1, h2⟩, h3⟩ | ⟨n, hn⟩)
      · exact ⟨Or.inl ⟨h2, h3⟩, h1⟩
      · exact ⟨Or.inr ⟨n, hn⟩, (hused _ hn).2⟩
    · rintro ⟨⟨h1, h2⟩ | ⟨n, hn⟩, h3⟩
      · exact Or.inl ⟨⟨h3, h1⟩, h2⟩
      · exact Or.inr ⟨n, hn⟩
  have hsize : ∀ c, c ≠ a → (s.join a).size c = s.size c := fun c hc => by
    simp [UHeap.join, Function.update_of_ne hc]
  have hsizea : (s.join a).size a = s.size a + s.size (s.ptr a) := by
    rw [← hsum]
    simp [UHeap.join]
  exact {
    ring := by
      refine h.ring.remove ha rfl hnea ?_ fun c _ hca _ => ?_
      · simp [UHeap.join]
      · simp [UHeap.join, Function.update_of_ne hca]
    base_mem := Finset.mem_erase.2 ⟨hneb.symm, h.base_mem⟩
    base_size := by
      rw [hsize _ hne.symm]
      exact h.base_size
    pieces := by
      rw [hstarts]
      refine h.pieces.join (mem_starts.2 (Or.inl ⟨ha, hne⟩)) (mem_starts.2 (Or.inl ⟨hb, hneb⟩))
        hab ?_ fun c _ hca _ => ?_
      · rw [hsizea, Nat.mul_add]
      · rw [hsize c hca]
    apart := fun x hx hc => h.apart x hx (Finset.mem_of_mem_erase hc)
    room := fun x hx => by
      rw [hsize _ (hused x hx).1]
      exact h.room x hx
    start_le := h.start_le
    small := h.small }

end HeapShape

/-- What became of the node `c` when the block of the size `n` at `b` was freed : it is as before,
or it has the block in it. -/
def Absorbs (s : UHeap) (N : Finset ℕ) (b n : ℕ) (s' : UHeap) (c : ℕ) : Prop :=
  (c ∈ N ∧ c ≠ b ∧ s'.size c = s.size c) ∨ (c ≤ b ∧ b + 16 * n ≤ c + 16 * s'.size c)

/-- The heap after `free` of the block at `b`. -/
structure Freed (L : Layout) (s : UHeap) (N : Finset ℕ) (live : Live) (top b : ℕ) (s' : UHeap)
    (N' : Finset ℕ) : Prop where
  inv : HeapInv L s' N' (live.without b) top
  brk : s'.brk = s.brk
  card_le : N'.card ≤ N.card + 1
  nodes : ∀ c ∈ N', Absorbs s N b (s.size b) s' c
  found : ∃ c ∈ N', c ≤ b ∧ b + 16 * s.size b ≤ c + 16 * s'.size c

theorem freeSearch_eq : freeSearch s b = seek (fun p => Place (s.ptr p) p b) s.ptr := by
  funext n
  induction n with
  | zero => rfl
  | succ n ih =>
    funext p
    rw [freeSearch, seek, ih]
    by_cases h1 : p < b ∧ b < s.ptr p
    · have hplace : Place (s.ptr p) p b := Or.inl h1
      rw [if_pos h1, if_pos hplace]
    · rw [if_neg h1]
      exact if_congr (or_iff_right h1).symm rfl rfl

/-- The heap when the freed block `b` has been linked in behind `p` and joined with the one
behind it. -/
structure HalfFreed (L : Layout) (s : UHeap) (N : Finset ℕ) (live : Live) (top b p : ℕ)
    (s' : UHeap) (N' : Finset ℕ) : Prop where
  shape : HeapShape L s' N' (live.without b) top
  brk : s'.brk = s.brk
  card_le : N'.card ≤ N.card + 1
  mem : b ∈ N'
  front_mem : p ∈ N'
  front : s'.ptr p = b
  front_size : s'.size p = s.size p
  size_le : s.size b ≤ s'.size b
  coalesced : ∀ c ∈ N', c ≠ L.base → c ≠ p → c + headerSize * s'.size c ≠ s'.ptr c
  others : ∀ c ∈ N', c ≠ b → c ∈ N ∧ s'.size c = s.size c

theorem HeapInv.halfFreed (h : HeapInv L s N live top) (hb : (b, nb) ∈ live) (hp : p ∈ N)
    (hpb : p < b) (hplace : Place (s.ptr p) p b) :
    ∃ N', HalfFreed L s N live top b p (joinNext (s.link b p) b) N' := by
  have hshape := h.toHeapShape.link hb hp hplace
  have hused := h.used hb
  have hbN := h.apart _ hb
  have hbbase : b ≠ L.base := hused.1.ne'
  have hmem : b ∈ insert b N := Finset.mem_insert_self b N
  have hpmem : p ∈ insert b N := Finset.mem_insert_of_mem hp
  have hptrb : (s.link b p).ptr b = s.ptr p := by
    simp [UHeap.link, Function.update_of_ne hpb.ne']
  have hptrp : (s.link b p).ptr p = b := by simp [UHeap.link]
  have hptr : ∀ c, c ≠ b → c ≠ p → (s.link b p).ptr c = s.ptr c := fun c hcb hcp => by
    simp [UHeap.link, Function.update_of_ne hcp, Function.update_of_ne hcb]
  have hsize : (s.link b p).size = s.size := rfl
  have hothers : ∀ c ∈ insert b N, c ≠ b → c ∈ N := fun c hc => Finset.mem_of_mem_insert_of_ne hc
  rw [joinNext]
  split_ifs with htouch
  · -- the block behind is joined
    have hq : s.ptr p ∈ N := h.ring.mem p hp
    rw [hptrb, hsize, headerSize] at htouch
    have hqb : s.ptr p ≠ b := by omega
    have hqp : s.ptr p ≠ p := by omega
    have hqbase : s.ptr p ≠ L.base := by omega
    have hjoin := hshape.join hmem hbbase (by rw [hptrb, hsize, headerSize]; exact htouch)
    have hsum := hshape.size_add hmem (Finset.mem_insert_of_mem hq) hbbase (by rw [hsize]; omega)
    rw [hptrb] at hjoin
    have hsize' : ∀ c, c ≠ b → ((s.link b p).join b).size c = s.size c := fun c hc => by
      simp [UHeap.join, Function.update_of_ne hc, hsize]
    have hsizeb : ((s.link b p).join b).size b = s.size b + s.size (s.ptr p) := by
      rw [← hsize, ← hsum]
      simp [UHeap.join, hptrb]
    have hptr' : ∀ c, c ≠ b → ((s.link b p).join b).ptr c = (s.link b p).ptr c := fun c hc => by
      simp [UHeap.join, Function.update_of_ne hc]
    have hptrb' : ((s.link b p).join b).ptr b = s.ptr (s.ptr p) := by
      simp [UHeap.join, hptrb, hptr _ hqb hqp]
    refine ⟨_, hjoin, rfl, ?_, Finset.mem_erase.2 ⟨hqb.symm, hmem⟩,
      Finset.mem_erase.2 ⟨hqp.symm, hpmem⟩, ?_, hsize' p hpb.ne, ?_, fun c hc hcbase hcp => ?_,
      fun c hc hcb => ⟨hothers c (Finset.mem_of_mem_erase hc) hcb, hsize' c hcb⟩⟩
    · exact (Finset.card_erase_le).trans (Finset.card_insert_le b N)
    · rw [hptr' p hpb.ne, hptrp]
    · rw [hsizeb]
      exact Nat.le_add_right _ _
    · by_cases hcb : c = b
      · subst hcb
        have := h.coalesced _ hq hqbase
        rw [hsizeb, hptrb']
        simp only [headerSize] at this ⊢
        omega
      · rw [hsize' c hcb, hptr' c hcb, hptr c hcb hcp]
        exact h.coalesced c (hothers c (Finset.mem_of_mem_erase hc) hcb) hcbase
  · refine ⟨_, hshape, rfl, Finset.card_insert_le b N, hmem, hpmem, hptrp, rfl, le_rfl,
      fun c hc hcbase hcp => ?_, fun c hc hcb => ⟨hothers c hc hcb, rfl⟩⟩
    by_cases hcb : c = b
    · rw [hcb]
      exact htouch
    · rw [hptr c hcb hcp]
      exact h.coalesced c (hothers c hc hcb) hcbase

theorem HalfFreed.freed {t : UHeap} {N' : Finset ℕ} (h : HeapInv L s N live top)
    (hb : (b, nb) ∈ live) (hpb : p < b) (hh : HalfFreed L s N live top b p t N') :
    ∃ N'', Freed L s N live top b { joinNext t p with freep := p } N'' := by
  have hused := h.used hb
  have hnode : ∀ c ∈ N', Absorbs s N b (s.size b) t c := by
    intro c hc
    by_cases hcb : c = b
    · have := hh.size_le
      subst hcb
      exact Or.inr ⟨le_rfl, by omega⟩
    · exact Or.inl ⟨(hh.others c hc hcb).1, hcb, (hh.others c hc hcb).2⟩
  have hbb := hh.size_le
  rw [joinNext]
  split_ifs with htouch
  · -- the block in front is joined
    rw [hh.front] at htouch
    simp only [headerSize] at htouch
    have hpbase : p ≠ L.base := by
      intro hc
      rw [hc, hh.shape.base_size] at htouch
      omega
    have hjoin := hh.shape.join hh.front_mem hpbase (by rw [hh.front]; exact htouch)
    have hsum := hh.shape.size_add hh.front_mem hh.mem hpbase htouch
    rw [hh.front] at hjoin
    have hsize : ∀ c, c ≠ p → (t.join p).size c = t.size c := fun c hc => by
      simp [UHeap.join, Function.update_of_ne hc]
    have hsizep : (t.join p).size p = t.size p + t.size b := by
      rw [← hsum]
      simp [UHeap.join, hh.front]
    have hptrp : (t.join p).ptr p = t.ptr b := by simp [UHeap.join, hh.front]
    have hpmem : p ∈ N'.erase b := Finset.mem_erase.2 ⟨hpb.ne, hh.front_mem⟩
    refine ⟨N'.erase b, ⟨hjoin.congr (fun _ _ => rfl) fun _ _ => rfl, hpmem, fun c hc hcbase => ?_⟩,
      hh.brk, (Finset.card_erase_le).trans hh.card_le, fun c hc => ?_, p, hpmem, hpb.le, ?_⟩
    · by_cases hcp : c = p
      · subst hcp
        have := hh.coalesced b hh.mem hused.1.ne' hpb.ne'
        dsimp only
        rw [hsizep, hptrp]
        simp only [headerSize] at this ⊢
        omega
      · have := hh.coalesced c (Finset.mem_of_mem_erase hc) hcbase hcp
        dsimp only
        rw [hsize c hcp]
        simpa [UHeap.join, Function.update_of_ne hcp] using this
    · by_cases hcp : c = p
      · subst hcp
        refine Or.inr ⟨hpb.le, ?_⟩
        dsimp only
        rw [hsizep]
        omega
      · have := hnode c (Finset.mem_of_mem_erase hc)
        rw [Absorbs] at this ⊢
        dsimp only
        rw [hsize c hcp]
        exact this
    · dsimp only
      rw [hsizep]
      omega
  · refine ⟨N', ⟨hh.shape.congr (fun _ _ => rfl) fun _ _ => rfl, hh.front_mem,
      fun c hc hcbase => ?_⟩, hh.brk, hh.card_le, hnode, b, hh.mem, le_rfl, ?_⟩
    · by_cases hcp : c = p
      · rw [hcp]
        exact htouch
      · exact hh.coalesced c hc hcbase hcp
    · dsimp only
      omega

theorem HeapInv.free_spec (h : HeapInv L s N live top) (hb : (b, nb) ∈ live)
    (hfuel : N.card ≤ fuel) :
    ∃ s' N', free fuel (b + headerSize) s = some s' ∧ Freed L s N live top b s' N' := by
  have hused := h.used hb
  obtain ⟨q, hq, hqplace⟩ := h.ring.exists_place h.base_mem (h.apart _ hb)
  have hseek : ∃ r ∈ N, seek (fun p => Place (s.ptr p) p b) s.ptr fuel s.freep = some r ∧
      Place (s.ptr r) r b := h.ring.seek h.freep_mem hq hqplace hfuel
  obtain ⟨p, hp, hsearch, hplace⟩ := hseek
  -- `base` is below the block, so the block goes behind a smaller node
  have hpb : p < b := by
    rcases h.ring.place_cases hp hplace with ⟨h1, -⟩ | ⟨-, hmin, h1 | h1⟩
    · exact h1
    · exact h1
    · have := hmin _ h.base_mem
      omega
  obtain ⟨N₁, h₁⟩ := h.halfFreed hb hp hpb hplace
  obtain ⟨N₂, h₂⟩ := h₁.freed h hb hpb
  refine ⟨_, N₂, ?_, h₂⟩
  rw [free, Nat.add_sub_cancel, freeSearch_eq, hsearch, ← joins_eq hpb hused.2.2.1]
  rfl

/-! ## The steps of `malloc` -/

/-- A free block is not its own successor. -/
theorem HeapShape.ptr_ne (h : HeapShape L s N live top) (hp : p ∈ N) (hne : p ≠ L.base) :
    s.ptr p ≠ p := by
  intro hc
  have hlt := (h.node hp hne).1
  rcases h.ring.step p hp with ⟨h1, -⟩ | ⟨-, h2⟩
  · omega
  · have := h2 _ h.base_mem
    omega

theorem HeapInv.unlink (h : HeapInv L s N live top) (hp : p ∈ N) (hpos : 0 < s.size (s.ptr p))
    (hnb : headerSize + nb ≤ headerSize * s.size (s.ptr p)) :
    HeapInv L { s.setPtr p (s.ptr (s.ptr p)) with freep := p } (N.erase (s.ptr p))
      (insert (s.ptr p, nb) live) top := by
  have hq := h.ring.mem p hp
  have hqbase : s.ptr p ≠ L.base := by
    intro hc
    rw [hc, h.base_size] at hpos
    omega
  have hpq : p ≠ s.ptr p := by
    by_cases hpb : p = L.base
    · rw [hpb] at hqbase ⊢
      exact hqbase.symm
    · exact (h.ptr_ne hp hpb).symm
  have hstarts : starts L (N.erase (s.ptr p)) (insert (s.ptr p, nb) live) = starts L N live := by
    ext c
    rw [mem_starts, mem_starts, Finset.mem_erase]
    by_cases hc : c = s.ptr p
    · subst hc
      exact ⟨fun _ => Or.inl ⟨hq, hqbase⟩, fun _ => Or.inr ⟨nb, Set.mem_insert _ _⟩⟩
    · simp [hc]
  refine ⟨⟨?_, Finset.mem_erase.2 ⟨hqbase.symm, h.base_mem⟩, h.base_size, hstarts ▸ h.pieces, ?_,
    ?_, h.start_le, h.small⟩, Finset.mem_erase.2 ⟨hpq, hp⟩, fun a ha habase => ?_⟩
  · refine h.ring.remove hp rfl hpq ?_ fun c _ hcp _ => ?_
    · simp
    · simp [Function.update_of_ne hcp]
  · rintro x (rfl | hx) hc
    · exact (Finset.mem_erase.1 hc).1 rfl
    · exact h.apart x hx (Finset.mem_of_mem_erase hc)
  · rintro x (rfl | hx)
    · exact hnb
    · exact h.room x hx
  · have haN := Finset.mem_of_mem_erase ha
    by_cases hap : a = p
    · subst hap
      -- the block behind the one used up does not touch `a`
      intro hc
      simp only [setPtr_size, setPtr_ptr, Function.update_self, headerSize] at hc
      exact h.ptr_ne hq hqbase (h.ptr_eq haN (h.ring.mem _ hq) habase hc).symm
    · simp only [setPtr_size, setPtr_ptr, Function.update_of_ne hap]
      exact h.coalesced a haN habase

/-- The end of the free block behind `p` is cut off. -/
theorem HeapInv.cut (h : HeapInv L s N live top) {q : ℕ} (hp : p ∈ N) (hq : q ∈ N) (hnu : 0 < nu)
    (hlt : nu < s.size q) (hnb : headerSize + nb ≤ headerSize * nu)
    (hb : b = q + headerSize * (s.size q - nu)) :
    HeapInv L { (s.setSize q (s.size q - nu)).setSize b nu with freep := p } N
      (insert (b, nb) live) top ∧ b ∉ starts L N live := by
  have hqbase : q ≠ L.base := by
    intro hc
    rw [hc, h.base_size] at hlt
    omega
  have hqs : q ∈ starts L N live := mem_starts.2 (Or.inl ⟨hq, hqbase⟩)
  have hnode := h.node hq hqbase
  simp only [headerSize] at hb hnb
  have hqb : q ≠ b := by omega
  have hnew : b ∉ starts L N live := fun hc => by
    have := h.pieces.apart q hqs b hc (by omega)
    simp only [headerSize] at this
    omega
  have hbbase : b ≠ L.base := by omega
  have hbN : b ∉ N := fun hc => hnew (mem_starts.2 (Or.inl ⟨hc, hbbase⟩))
  have hsizeq : ((s.setSize q (s.size q - nu)).setSize b nu).size q = s.size q - nu := by
    simp [Function.update_of_ne hqb]
  have hsizeb : ((s.setSize q (s.size q - nu)).setSize b nu).size b = nu := by simp
  have hsize : ∀ c, c ≠ q → c ≠ b → ((s.setSize q (s.size q - nu)).setSize b nu).size c =
      s.size c := fun c h1 h2 => by simp [Function.update_of_ne h1, Function.update_of_ne h2]
  have hused : ∀ x ∈ live, x.1 ≠ q ∧ x.1 ≠ b := fun x hx =>
    ⟨fun hc => h.apart x hx (hc ▸ hq), fun hc => hnew (hc ▸ mem_starts.2 (Or.inr ⟨x.2, hx⟩))⟩
  have hstarts : starts L N (insert (b, nb) live) =
      insert (q + headerSize * (s.size q - nu)) (starts L N live) := by
    ext c
    rw [Set.mem_insert_iff, mem_starts, mem_starts, headerSize, ← hb]
    by_cases hc : c = b
    · subst hc
      exact ⟨fun _ => Or.inl rfl, fun _ => Or.inr ⟨nb, Set.mem_insert _ _⟩⟩
    · simp [hc]
  refine ⟨⟨⟨h.ring, h.base_mem, ?_, ?_, ?_, ?_, h.start_le, h.small⟩, hp, fun a ha habase => ?_⟩,
    hnew⟩
  · dsimp only
    rw [hsize _ hqbase.symm hbbase.symm]
    exact h.base_size
  · rw [hstarts]
    refine h.pieces.split hqs ?_ ?_ ?_ ?_ fun c hc hcq => ?_
    · simp only [headerSize]
      omega
    · simp only [headerSize]
      omega
    · dsimp only
      rw [hsizeq]
    · dsimp only
      rw [headerSize, ← hb, hsizeb]
      omega
    · dsimp only
      rw [hsize c hcq fun hcb => hnew (hcb ▸ hc)]
  · rintro x (rfl | hx) hc
    · exact hbN hc
    · exact h.apart x hx hc
  · rintro x (rfl | hx)
    · dsimp only
      rw [hsizeb]
      exact hnb
    · dsimp only
      rw [hsize _ (hused x hx).1 (hused x hx).2]
      exact h.room x hx
  · dsimp only
    by_cases haq : a = q
    · subst haq
      rw [hsizeq, headerSize, ← hb]
      exact fun hc => hbN (hc ▸ h.ring.mem a ha)
    · rw [hsize a haq fun hc => hbN (hc ▸ ha)]
      exact h.coalesced a ha habase

/-- The block `malloc` returns is the end of the free block behind `p`. -/
theorem HeapInv.carve_spec (h : HeapInv L s N live top) (hp : p ∈ N) (hnu : 0 < nu)
    (hle : nu ≤ s.size (s.ptr p)) (hnb : headerSize + nb ≤ headerSize * nu)
    (hb : b = s.ptr p + headerSize * (s.size (s.ptr p) - nu)) :
    ∃ s' N', carve nu p (s.ptr p) s = (b + headerSize, s') ∧ s'.brk = s.brk ∧
      HeapInv L s' N' (insert (b, nb) live) top ∧ ∀ x ∈ live, x.1 ≠ b := by
  have hq := h.ring.mem p hp
  rw [carve]
  split_ifs with heq
  · rw [heq, Nat.sub_self, Nat.mul_zero, Nat.add_zero] at hb
    subst hb
    refine ⟨_, _, rfl, rfl, h.unlink hp (by omega) (by rw [heq]; exact hnb), fun x hx hc => ?_⟩
    exact h.apart x hx (hc ▸ hq)
  · obtain ⟨h1, h2⟩ := h.cut hp hq hnu (by omega) hnb hb
    refine ⟨_, N, ?_, ?_, h1, fun x hx hc => h2 (hc ▸ mem_starts.2 (Or.inr ⟨x.2, hx⟩))⟩
    · dsimp only
      rw [setSize_size, Function.update_self, ← hb]
    · rfl

/-! ## The loop of `malloc` -/

section Loop

variable {k : Sbrk L} {n m prevp c : ℕ}

/-- On its way to `freep` the loop finds a block that is large enough, if there is one. -/
theorem mallocLoop_found (k : Sbrk L) (fuel : ℕ) (h : SortedRing N s.ptr) (hf : s.freep ∈ N)
    (hc : c ∈ N) (hbig : nu ≤ s.size c) (hprev : prevp ∈ N) (hp : p = s.ptr prevp)
    (hd : ringDist N p c ≤ ringDist N p s.freep) (hn : ringDist N p c < n) :
    ∃ q ∈ N, nu ≤ s.size (s.ptr q) ∧
      mallocLoop k fuel nu n prevp p s = some (carve nu q (s.ptr q) s) := by
  induction n generalizing prevp p with
  | zero => omega
  | succ n ih =>
    have hpN : p ∈ N := hp ▸ h.mem prevp hprev
    rw [mallocLoop]
    by_cases hsize : nu ≤ s.size p
    · rw [if_pos hsize]
      subst hp
      exact ⟨prevp, hprev, hsize, rfl⟩
    · have hpc : p ≠ c := fun he => hsize (he ▸ hbig)
      have h1 := h.dist_next hpN hc hpc
      have hpf : p ≠ s.freep := by
        intro he
        rw [← he, ringDist_self] at hd
        omega
      have h2 := h.dist_next hpN hf hpf
      rw [if_neg hsize, if_neg hpf]
      exact ih hpN rfl (by omega) (by omega)

/-- Without such a block it asks for more memory at `freep`. -/
theorem mallocLoop_none (h : SortedRing N s.ptr) (hf : s.freep ∈ N)
    (hsmall : ∀ c ∈ N, s.size c < nu) (hp : p ∈ N) (hn : n = ringDist N p s.freep + 1 + m) :
    mallocLoop k fuel nu n prevp p s = (morecore k fuel nu s).bind fun r =>
      if r.1 = 0 then some (0, r.2) else mallocLoop k fuel nu m r.1 (r.2.ptr r.1) r.2 := by
  induction n generalizing prevp p with
  | zero => omega
  | succ n ih =>
    rw [mallocLoop, if_neg (hsmall p hp).not_ge]
    by_cases hpf : p = s.freep
    · subst hpf
      rw [ringDist_self] at hn
      obtain rfl : n = m := by omega
      rw [if_pos rfl]
      rfl
    · have h1 := h.dist_next hp hf hpf
      rw [if_neg hpf]
      exact ih (h.mem p hp) (by omega)

end Loop

/-! ## More memory -/

/-- The break after `sbrk(n)`. -/
def newBrk (s : UHeap) (n : ℤ) : ℕ := if s.brk + n < 0 then s.brk else (s.brk + n).toNat

/-- What `morecore` asks for. -/
def coreUnits (nu : ℕ) : ℕ := if nu < 4096 then 4096 else nu

/-- The new memory, as a block in use. -/
theorem HeapInv.extend (h : HeapInv L s N live s.brk) (hnu : 0 < nu) (brk : ℕ)
    (hsmall : s.brk + 16 * nu < L.start + 2 ^ 36) :
    HeapInv L ({ s with brk := brk }.setSize s.brk nu) N (insert (s.brk, 0) live)
      (s.brk + headerSize * nu) ∧ s.brk ∉ starts L N live ∧ s.brk ≠ L.base := by
  have hnew : s.brk ∉ starts L N live := fun hc => by
    have := h.start_mem hc
    omega
  have hbase : s.brk ≠ L.base := by
    have := h.start_le
    have := L.base_le
    simp only [headerSize] at this
    omega
  have hsize : ∀ c, c ≠ s.brk → ({ s with brk := brk }.setSize s.brk nu).size c = s.size c :=
    fun c hc => by simp [Function.update_of_ne hc]
  have hnode : ∀ c ∈ N, c ≠ s.brk := by
    rintro c hc rfl
    exact hnew (mem_starts.2 (Or.inl ⟨hc, hbase⟩))
  have hstarts : starts L N (insert (s.brk, 0) live) = insert s.brk (starts L N live) := by
    ext c
    rw [Set.mem_insert_iff, mem_starts, mem_starts]
    by_cases hc : c = s.brk
    · subst hc
      exact ⟨fun _ => Or.inl rfl, fun _ => Or.inr ⟨0, Set.mem_insert _ _⟩⟩
    · simp [hc]
  refine ⟨⟨⟨h.ring, h.base_mem, ?_, ?_, ?_, ?_, ?_, ?_⟩, h.freep_mem, fun a ha habase => ?_⟩,
    hnew, hbase⟩
  · rw [hsize _ hbase.symm]
    exact h.base_size
  · rw [hstarts]
    refine h.pieces.append h.start_le (by simp only [headerSize]; omega) ?_ fun c hc => ?_
    · simp
    · rw [hsize c fun he => hnew (he ▸ hc)]
  · rintro x (rfl | hx) hc
    · exact hnode _ hc rfl
    · exact h.apart x hx hc
  · rintro x (rfl | hx)
    · simp only [setSize_size, Function.update_self, headerSize]
      omega
    · rw [hsize _ fun he => hnew (he ▸ mem_starts.2 (Or.inr ⟨x.2, hx⟩))]
      exact h.room x hx
  · exact h.start_le.trans (Nat.le_add_right _ _)
  · exact hsmall
  · rw [hsize a (hnode a ha)]
    exact h.coalesced a ha habase

/-- The heap after `morecore` for `nu` units, in a list that had no block of this size. -/
structure MoreCore (L : Layout) (s : UHeap) (live : Live) (nu : ℕ) (s' : UHeap) (N' : Finset ℕ) :
    Prop where
  inv : HeapInv L s' N' live (s.brk + headerSize * coreUnits nu)
  found : ∃ c ∈ N', nu ≤ s'.size c
  last : ∀ c ∈ N', nu ≤ s'.size c →
    c + headerSize * s'.size c = s.brk + headerSize * coreUnits nu

theorem HeapInv.morecore_spec {k : Sbrk L} (h : HeapInv L s N live s.brk)
    (hsmall : ∀ c ∈ N, s.size c < nu) (hbound : s.brk + 16 * coreUnits nu < L.start + 2 ^ 36)
    (hfuel : N.card ≤ fuel)
    (hgrant : k.grants s.brk (toInt (coreUnits nu * headerSize)) = true) :
    ∃ s' N', morecore k fuel nu s = some (s'.freep, s') ∧
      s'.brk = newBrk s (toInt (coreUnits nu * headerSize)) ∧ N'.card ≤ N.card + 1 ∧
      MoreCore L s live nu s' N' := by
  have hle : nu ≤ coreUnits nu ∧ 0 < coreUnits nu := by
    rw [coreUnits]
    split_ifs <;> omega
  obtain ⟨h₁, hnew, hbase⟩ := h.extend hle.2 (newBrk s (toInt (coreUnits nu * headerSize))) hbound
  obtain ⟨s', N', hfree, hfreed⟩ := h₁.free_spec (Set.mem_insert _ _) hfuel
  have hlive : Live.without (insert (s.brk, 0) live) s.brk = live := by
    ext x
    constructor
    · rintro ⟨rfl | hx, hne⟩
      · exact absurd rfl hne
      · exact hx
    · intro hx
      exact ⟨Or.inr hx, fun hc => hnew (hc ▸ mem_starts.2 (Or.inr ⟨x.2, hx⟩))⟩
  have hinv := hfreed.inv
  rw [hlive] at hinv
  have hsizeb : ({ s with brk := newBrk s (toInt (coreUnits nu * headerSize)) }.setSize s.brk
      (coreUnits nu)).size s.brk = coreUnits nu := by simp
  refine ⟨s', N', ?_, ?_, hfreed.card_le, hinv, ?_, fun c hc hbig => ?_⟩
  · rw [morecore, sbrk, ← coreUnits, if_pos hgrant]
    dsimp only
    rw [← newBrk, hfree]
    rfl
  · rw [hfreed.brk, setSize_brk]
  · obtain ⟨c, hc, h1, h2⟩ := hfreed.found
    rw [hsizeb] at h2
    exact ⟨c, hc, by omega⟩
  · rcases hfreed.nodes c hc with ⟨hcN, hcb, hsame⟩ | ⟨h1, h2⟩
    · rw [hsame] at hbig
      simp only [setSize_size, Function.update_of_ne hcb] at hbig
      exact absurd (hsmall c hcN) hbig.not_gt
    · rw [hsizeb] at h2
      have hcbase : c ≠ L.base := by
        rintro rfl
        rw [hinv.base_size] at hbig h2
        omega
      have := (hinv.node hc hcbase).2.2.2
      simp only [headerSize] at this ⊢
      omega

/-! ## `malloc` -/

theorem nunits_spec {nbytes : ℕ} (h : nbytes < 2 ^ 32) : 0 < nunits nbytes ∧
    headerSize + nbytes ≤ headerSize * nunits nbytes ∧ nunits nbytes ≤ 2 ^ 28 + 1 ∧
    (4096 ≤ nunits nbytes → 0 < nbytes) := by
  have : (nbytes + 16 - 1) / 16 + 1 < 2 ^ 32 := by omega
  rw [nunits, headerSize, Nat.mod_eq_of_lt this]
  omega

/-- The break and the blocks after a call of `malloc`. -/
inductive Malloced (L : Layout) (k : Sbrk L) (s : UHeap) (N : Finset ℕ) (live : Live)
    (nbytes : ℕ) : ℕ → UHeap → Prop
  /-- The block is cut from a free one. -/
  | list {s' : UHeap} {N' : Finset ℕ} {b : ℕ} (hbig : ∃ c ∈ N, nunits nbytes ≤ s.size c)
      (hbrk : s'.brk = s.brk) (hinv : HeapInv L s' N' (insert (b, nbytes) live) s.brk)
      (hnew : ∀ x ∈ live, x.1 ≠ b) : Malloced L k s N live nbytes (b + headerSize) s'
  /-- There is no free block large enough, and no more memory. -/
  | refused (hsmall : ∀ c ∈ N, s.size c < nunits nbytes)
      (hno : k.grants s.brk (toInt (coreUnits (nunits nbytes) * headerSize)) = false) :
      Malloced L k s N live nbytes 0 s
  /-- The block is cut from the end of the memory that was asked for. -/
  | grown {s' : UHeap} {N' : Finset ℕ} {b : ℕ} (hsmall : ∀ c ∈ N, s.size c < nunits nbytes)
      (hgrant : k.grants s.brk (toInt (coreUnits (nunits nbytes) * headerSize)) = true)
      (hbrk : s'.brk = newBrk s (toInt (coreUnits (nunits nbytes) * headerSize)))
      (hinv : HeapInv L s' N' (insert (b, nbytes) live)
        (s.brk + headerSize * coreUnits (nunits nbytes)))
      (hb : b + headerSize * nunits nbytes = s.brk + headerSize * coreUnits (nunits nbytes))
      (hnew : ∀ x ∈ live, x.1 ≠ b) : Malloced L k s N live nbytes (b + headerSize) s'

theorem HeapInv.malloc_spec {nbytes : ℕ} (k : Sbrk L) (h : HeapInv L s N live s.brk)
    (hn : nbytes < 2 ^ 32) (hbound : s.brk ≤ L.start + 2 ^ 35) (hfuel : 2 * N.card + 2 ≤ fuel) :
    ∃ r s', malloc k fuel nbytes s = some (r, s') ∧ Malloced L k s N live nbytes r s' := by
  obtain ⟨hpos, hroom, hmax, -⟩ := nunits_spec hn
  have hpN := h.ring.mem _ h.freep_mem
  have hround := h.ring.dist_next_self h.freep_mem
  rw [malloc, initBase, if_neg h.freep_ne]
  by_cases hbig : ∃ c ∈ N, nunits nbytes ≤ s.size c
  · obtain ⟨c, hc, hsize⟩ := hbig
    have hlt : ringDist N (s.ptr s.freep) c < N.card := ringDist_lt hpN
    have hturns : ringDist N (s.ptr s.freep) c < fuel := by omega
    obtain ⟨q, hq, hle, heq⟩ := mallocLoop_found k fuel h.ring h.freep_mem hc hsize h.freep_mem rfl
      (by omega) hturns
    obtain ⟨s', N', hcarve, hbrk, hinv, hnew⟩ := h.carve_spec hq hpos hle hroom rfl
    rw [heq, hcarve]
    exact ⟨_, _, rfl, .list ⟨c, hc, hsize⟩ hbrk hinv hnew⟩
  · have hsmall : ∀ c ∈ N, s.size c < nunits nbytes := fun c hc =>
      lt_of_not_ge fun hge => hbig ⟨c, hc, hge⟩
    obtain ⟨m, hm⟩ := Nat.exists_eq_add_of_le
      (show ringDist N (s.ptr s.freep) s.freep + 1 ≤ fuel by omega)
    rw [mallocLoop_none h.ring h.freep_mem hsmall hpN hm]
    cases hgrant : k.grants s.brk (toInt (coreUnits (nunits nbytes) * headerSize)) with
    | false =>
      have hcore : morecore k fuel (nunits nbytes) s = some (0, s) := by
        rw [morecore, sbrk, ← coreUnits, hgrant]
        rfl
      rw [hcore]
      exact ⟨0, s, rfl, .refused hsmall hgrant⟩
    | true =>
      have hcore : coreUnits (nunits nbytes) ≤ 2 ^ 28 + 1 := by
        rw [coreUnits]
        split_ifs <;> omega
      obtain ⟨s₁, N₁, hmore, hbrk, hcard, hm₁⟩ := h.morecore_spec hsmall (by omega)
        (show N.card ≤ fuel by omega) hgrant
      have hf₁ := hm₁.inv.freep_mem
      have hround₁ := hm₁.inv.ring.dist_next_self hf₁
      obtain ⟨c, hc, hsize⟩ := hm₁.found
      have hlt : ringDist N₁ (s₁.ptr s₁.freep) c < N₁.card :=
        ringDist_lt (hm₁.inv.ring.mem _ hf₁)
      rw [hmore, Option.bind_some]
      dsimp only
      rw [if_neg hm₁.inv.freep_ne]
      have hturns : ringDist N₁ (s₁.ptr s₁.freep) c < m := by omega
      obtain ⟨q, hq, hle, heq⟩ := mallocLoop_found k fuel hm₁.inv.ring hf₁ hc hsize hf₁ rfl
        (by omega) hturns
      obtain ⟨s', N', hcarve, hbrk', hinv, hnew⟩ := hm₁.inv.carve_spec hq hpos hle hroom rfl
      have hlast := hm₁.last _ (hm₁.inv.ring.mem q hq) hle
      rw [heq, hcarve]
      refine ⟨_, _, rfl, .grown hsmall hgrant (hbrk'.trans hbrk) hinv ?_ hnew⟩
      simp only [headerSize] at hlast ⊢
      omega

end UHeap

end Xv6Plus
