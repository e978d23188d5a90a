import Xv6Plus.Oversize

/-!
# What every page is for

A page of the managed memory is free, holds a user page of one process, is a node of one page
table, is the trapframe of one process, or belongs to the rest of the kernel. The roles are read
off the machine itself : what the allocator has recorded as free, and what the hardware finds
when it walks the page tables of the processes. In every state of every run in which the sizes
stay at or below `TRAPFRAME` a page has one role at most, and the allocator has handed out
exactly the blocks that have a role, each with its order (`frame_roles`). Beyond `TRAPFRAME`
a process can give back its own trapframe.
-/

namespace Xv6Plus

/-! ## Page tables in memory -/

/-- The hardware finds the entry `e` of level `L` for the page `v`. -/
def LeafAt (m : Mem) (root v e L : ℕ) : Prop :=
  v < 2 ^ 26 ∧ mmuWalk m (4096 * v) 2 root = some (e, L)

/-- The page table at `root` maps the page `v` to the page `pa` by the entry `e`. -/
def MapsTo (m : Mem) (root v pa e : ℕ) : Prop :=
  ∃ L, LeafAt m root v e L ∧ pa = pte2pa e + 4096 * v % levelPageSize L

/-- The page `p` is a node of level `L` of the page table at `root`. -/
inductive IsNode (m : Mem) (root : ℕ) : ℕ → ℕ → Prop
  | root : IsNode m root 2 root
  | link {L p j : ℕ} : IsNode m root (L + 1) p → j < 512 → read64 m (p + 8 * j) &&& pteV ≠ 0 →
    read64 m (p + 8 * j) &&& (pteR ||| pteW ||| pteX) = 0 →
    IsNode m root L (pte2pa (read64 m (p + 8 * j)))

section Tables

variable {s : Phys} {R : Set ℕ} {frame rest : Set (ℕ × ℕ)} {A : PTree} {v pa e L L' p : ℕ}

theorem PTree.Ok.leaf_level {b b' f f' : ℕ} (h : A.Ok) (hL : L ≤ 2) (hL' : L' ≤ 2)
    (he : A.ent L (v / 512 ^ L) = .leaf b f) (he' : A.ent L' (v / 512 ^ L') = .leaf b' f') :
    L = L' := by
  have key : ∀ {L L' b b' f f' : ℕ}, L' ≤ 2 → A.ent L (v / 512 ^ L) = .leaf b f →
      A.ent L' (v / 512 ^ L') = .leaf b' f' → ¬L < L' := by
    intro L L' b b' f f' hL' he he' hlt
    obtain ⟨t, ht⟩ := h.table_above (d := L' - L - 1) (by rw [he]; exact Entry.noConfusion)
      (by omega)
    rw [show L + (L' - L - 1) + 1 = L' by omega, he'] at ht
    cases ht
  have h1 := key hL' he he'
  have h2 := key hL he' he
  omega

theorem leafAt_iff (h : PT s R frame A) (hv : v < 2 ^ 26) : LeafAt s.mem A.root v e L ↔
    ∃ b f, L ≤ 2 ∧ A.ent L (v / 512 ^ L) = .leaf b f ∧ e = (Entry.leaf b f).bits := by
  have hw := mmuWalk_spec (4096 * v) h (L := 2) (p := A.root) (by
    rw [show 4096 * v / 4096 / 512 ^ 2 / 512 = 0 by omega]
    exact A.root_isTable)
  rw [Nat.mul_div_cancel_left _ (by omega)] at hw
  rw [LeafAt, and_iff_right hv]
  revert hw
  cases mmuWalk s.mem (4096 * v) 2 A.root with
  | none =>
    intro hno
    refine iff_of_false (fun hc => nomatch hc) ?_
    rintro ⟨b, f, hL, he, -⟩
    exact hno L hL b f he
  | some x =>
    obtain ⟨e', L'⟩ := x
    rintro ⟨hL', b', f', he', rfl⟩
    constructor
    · rintro heq
      obtain ⟨rfl, rfl⟩ := Prod.mk.inj (Option.some.inj heq)
      exact ⟨b', f', hL', he', rfl⟩
    · rintro ⟨b, f, hL, he, rfl⟩
      obtain rfl := h.ok.leaf_level hL hL' he he'
      rw [he] at he'
      obtain ⟨rfl, rfl⟩ := Entry.leaf.inj he'
      rfl

/-- The hardware maps a page as the lookup does. -/
theorem MapsTo.lookup (h : PT s R frame A) (hm : MapsTo s.mem A.root v pa e) :
    ∃ fl, A.lookup v = some (pa, fl) := by
  obtain ⟨L, hleaf, rfl⟩ := hm
  obtain ⟨b, f, hL, he, rfl⟩ := (leafAt_iff h hleaf.1).1 hleaf
  refine ⟨f, ?_⟩
  rw [(h.ok.leaves _ _ _ _ he).bits_pa]
  rcases (by omega : L = 0 ∨ L = 1 ∨ L = 2) with rfl | rfl | rfl
  · rw [pow_zero, Nat.div_one] at he
    obtain ⟨p, hp⟩ := h.ok.up 0 _ (by rw [he]; exact Entry.noConfusion)
    rw [PTree.lookup_page hp.not_leaf he, levelPageSize_zero, Nat.mul_mod_right, Nat.add_zero]
  · rw [pow_one] at he
    rw [PTree.lookup_huge he, levelPageSize_one,
      show 4096 * v % 2097152 = 4096 * (v % 512) by omega]
  · exact absurd he (h.ok.top _ _ _)

theorem mapsTo_page {fl : ℕ} (h : PT s R frame A) (hv : v < 2 ^ 26)
    (he : A.ent 0 v = .leaf pa fl) : MapsTo s.mem A.root v pa (Entry.leaf pa fl).bits := by
  refine ⟨0, (leafAt_iff h hv).2 ⟨pa, fl, by omega, by rw [pow_zero, Nat.div_one]; exact he, rfl⟩,
    ?_⟩
  rw [(h.ok.leaves _ _ _ _ he).bits_pa, levelPageSize_zero, Nat.mul_mod_right, Nat.add_zero]

theorem isNode_iff (h : PT s R frame A) : IsNode s.mem A.root L p ↔ ∃ q, A.IsTable L q p := by
  constructor
  · intro hn
    induction hn with
    | root => exact ⟨0, A.root_isTable⟩
    | @link L p j _ hj hV hX ih =>
      obtain ⟨q, ht⟩ := ih
      have hL := ht.level_le
      rw [h.rep _ _ _ ht j hj] at hV hX ⊢
      cases he : A.ent (L + 1) (512 * q + j) with
      | absent =>
        rw [he] at hV
        exact absurd hV absent_valid
      | leaf pa fl =>
        rw [he] at hX
        exact absurd hX (h.ok.leaves _ _ _ _ he).bits_rwx
      | table t =>
        have hchild := PTree.isTable_of_ent (by omega) he
        rw [table_pa (h.table_page hchild).1]
        exact ⟨_, hchild⟩
  · rintro ⟨q, ht⟩
    -- the links lead down from the root
    have key : ∀ {d L q p : ℕ}, L + d = 2 → A.IsTable L q p → IsNode s.mem A.root L p := by
      intro d
      induction d with
      | zero =>
        intro L q p hL ht
        obtain rfl : L = 2 := hL
        rcases ht with ⟨-, -, rfl⟩ | ⟨hlt, -⟩
        · exact .root
        · omega
      | succ d ih =>
        intro L q p hL ht
        rcases ht with ⟨rfl, -, -⟩ | ⟨hlt, he⟩
        · omega
        obtain ⟨p', hp'⟩ := h.ok.up (L + 1) q (by rw [he]; exact Entry.noConfusion)
        have hword := h.rep.entry hp'
        rw [he] at hword
        have hlink := (ih (by omega) hp').link (Nat.mod_lt q (by omega))
          (by rw [hword]; exact table_valid p) (by rw [hword]; exact table_rwx p)
        rw [hword, table_pa (h.table_page (PTree.isTable_of_ent hlt he)).1] at hlink
        exact hlink
    exact key (Nat.add_sub_cancel' ht.level_le) ht

end Tables

/-! ## Roles -/

/-- What a process has a page for. -/
inductive PagePart where
  | user (v : ℕ)
  | node
  | trapframe

inductive PageRole where
  | free
  | kernel
  | process (i : ℕ) (part : PagePart)

section Role

variable {R : Set ℕ} {m : Machine} {held : Set (ℕ × ℕ)} {A : ℕ → PTree} {i j : ℕ} {pa : ℕ}

/-- The process `p` has the page `pa` for this. -/
def Proc.HasPart (m : Mem) (p : Proc) (pa : ℕ) : PagePart → Prop
  | .user v => v < topVpn ∧ ∃ e, MapsTo m p.pagetable v pa e
  | .node => ∃ L, IsNode m p.pagetable L pa
  | .trapframe => pa = p.trapframe

def HasRole (m : Machine) (held : Set (ℕ × ℕ)) (pa : ℕ) : PageRole → Prop
  | .free => pa ∈ region m.phys.free
  | .kernel => pa ∈ region held
  | .process i part => (m.proc i).state ≠ .unused ∧ (m.proc i).HasPart m.phys.mem pa part

/-- The blocks that have a role, with their orders. -/
def roleBlocks (m : Machine) (held : Set (ℕ × ℕ)) : Set (ℕ × ℕ) :=
  {b | ∃ i, (m.proc i).state ≠ .unused ∧ (b = ((m.proc i).trapframe, 0) ∨
    (b.2 = 0 ∧ ∃ L, IsNode m.phys.mem (m.proc i).pagetable L b.1) ∨
    ∃ v < topVpn, ∃ e L, LeafAt m.phys.mem (m.proc i).pagetable v e L ∧
      b = (pte2pa e, 9 * L))} ∪ held

/-- The blocks that a process has for something. -/
def Proc.partBlocks (m : Mem) (p : Proc) : Set (ℕ × ℕ) :=
  {b | b = (p.trapframe, 0) ∨ (b.2 = 0 ∧ ∃ L, IsNode m p.pagetable L b.1) ∨
    ∃ v < topVpn, ∃ e L, LeafAt m p.pagetable v e L ∧ b = (pte2pa e, 9 * L)}

/-- The blocks of a part. -/
def PagePart.blocks (p : Proc) (A : PTree) : PagePart → Set (ℕ × ℕ)
  | .user _ => A.leaves
  | .node => A.tables
  | .trapframe => {(p.trapframe, 0)}

theorem MachineOk.part_block (h : MachineOk R m held A) (hi : (m.proc i).state ≠ .unused)
    {part : PagePart} (hp : (m.proc i).HasPart m.phys.mem pa part) :
    ∃ b ∈ part.blocks (m.proc i) (A i), pa ∈ span 4096 b := by
  have hsp := h.space i hi
  cases part with
  | user v =>
    obtain ⟨hv, e, hm⟩ := hp
    rw [hsp.root] at hm
    obtain ⟨fl, hl⟩ := hm.lookup hsp.uvm.pt
    obtain ⟨L, b, hb, h1, h2⟩ := PTree.lookup_block hl hv hsp.uvm.huge
    exact ⟨(b, 9 * L), hb, by rw [mem_span]; dsimp only; omega⟩
  | node =>
    obtain ⟨L, hn⟩ := hp
    rw [hsp.root] at hn
    obtain ⟨q, ht⟩ := (isNode_iff hsp.uvm.pt).1 hn
    exact ⟨(pa, 0), PTree.mem_tables.2 ⟨L, q, ht⟩, start_mem_span (by omega) (pa, 0)⟩
  | trapframe =>
    obtain rfl : pa = (m.proc i).trapframe := hp
    exact ⟨_, rfl, start_mem_span (by omega) _⟩

theorem PagePart.blocks_subset (part : PagePart) (hi : (m.proc i).state ≠ .unused) :
    part.blocks (m.proc i) (A i) ⊆ share m.proc A i := by
  rw [share_of_ne hi]
  cases part with
  | user v => exact fun b hb => Or.inr (Or.inr hb)
  | node => exact fun b hb => Or.inr (Or.inl hb)
  | trapframe => exact fun b hb => Or.inl hb

theorem MachineOk.part_unique (h : MachineOk R m held A) (hi : (m.proc i).state ≠ .unused)
    {part part' : PagePart} (hp : (m.proc i).HasPart m.phys.mem pa part)
    (hp' : (m.proc i).HasPart m.phys.mem pa part') : part = part' := by
  have hsp := h.space i hi
  obtain ⟨b, hb, hx⟩ := h.part_block hi hp
  obtain ⟨c, hc, hx'⟩ := h.part_block hi hp'
  obtain rfl : b = c := (h.shares.focus i).eq_of_mem (part.blocks_subset hi hb)
    (part'.blocks_subset hi hc) hx hx'
  have hleaf : ∀ {b : ℕ × ℕ}, b ∈ (A i).tables → b ∉ (A i).leaves := fun hb hb' =>
    Set.disjoint_left.1 hsp.uvm.pt.owns.apart hb (Or.inl hb')
  have htf : ((m.proc i).trapframe, 0) ∉ (A i).tables ∪ (A i).leaves := fun hb =>
    Set.disjoint_left.1 hsp.uvm.owns.apart hb (Set.mem_insert _ _)
  cases part <;> cases part'
  case user.user v w =>
    obtain ⟨hv, e, hm⟩ := hp
    obtain ⟨hw, e', hm'⟩ := hp'
    rw [hsp.root] at hm hm'
    obtain ⟨fl, hl⟩ := hm.lookup hsp.uvm.pt
    obtain ⟨fl', hl'⟩ := hm'.lookup hsp.uvm.pt
    by_contra hne
    have := hsp.uvm.lookup_apart hv hw (fun heq => hne (by rw [heq])) hl hl'
    omega
  case user.node => exact absurd hb (hleaf hc)
  case user.trapframe =>
    rw [show b = _ from hc] at hb
    exact absurd (Or.inr hb) htf
  case node.user => exact absurd hc (hleaf hb)
  case node.node => rfl
  case node.trapframe =>
    rw [show b = _ from hc] at hb
    exact absurd (Or.inl hb) htf
  case trapframe.user =>
    rw [show b = _ from hb] at hc
    exact absurd (Or.inr hc) htf
  case trapframe.node =>
    rw [show b = _ from hb] at hc
    exact absurd (Or.inl hc) htf
  case trapframe.trapframe => rfl

theorem MachineOk.role_unique (h : MachineOk R m held A) {r r' : PageRole}
    (hr : HasRole m held pa r) (hr' : HasRole m held pa r') : r = r' := by
  have hshare : ∀ {i : ℕ} {part : PagePart}, HasRole m held pa (.process i part) →
      ∃ b ∈ share m.proc A i, pa ∈ span 4096 b := by
    rintro i part ⟨hi, hp⟩
    obtain ⟨b, hb, hx⟩ := h.part_block hi hp
    exact ⟨b, part.blocks_subset hi hb, hx⟩
  -- free, the rest of the kernel and the processes are apart
  have hfree : pa ∈ region m.phys.free → ∀ {b : ℕ × ℕ}, b ∈ {b | ∃ i, b ∈ share m.proc A i} ∪ held →
      pa ∉ span 4096 b := fun hpa b hb hx =>
    Set.disjoint_left.1 h.shares.owns.buddy.apart hpa ⟨b, hb, hx⟩
  have hheld : pa ∈ region held → ∀ {i : ℕ} {b : ℕ × ℕ}, b ∈ share m.proc A i →
      pa ∉ span 4096 b := fun hpa i b hb hx =>
    Set.disjoint_left.1 h.shares.owns.region_apart ⟨b, ⟨i, hb⟩, hx⟩ hpa
  cases r <;> cases r'
  case free.free => rfl
  case free.kernel =>
    obtain ⟨b, hb, hx⟩ := hr'
    exact absurd hx (hfree hr (Or.inr hb))
  case free.process i part =>
    obtain ⟨b, hb, hx⟩ := hshare hr'
    exact absurd hx (hfree hr (Or.inl ⟨i, hb⟩))
  case kernel.free =>
    obtain ⟨b, hb, hx⟩ := hr
    exact absurd hx (hfree hr' (Or.inr hb))
  case kernel.kernel => rfl
  case kernel.process i part =>
    obtain ⟨b, hb, hx⟩ := hshare hr'
    exact absurd hx (hheld hr hb)
  case process.free i part =>
    obtain ⟨b, hb, hx⟩ := hshare hr
    exact absurd hx (hfree hr' (Or.inl ⟨i, hb⟩))
  case process.kernel i part =>
    obtain ⟨b, hb, hx⟩ := hshare hr
    exact absurd hx (hheld hr' hb)
  case process.process i part j part' =>
    obtain ⟨b, hb, hx⟩ := hshare hr
    obtain ⟨c, hc, hx'⟩ := hshare hr'
    obtain rfl : b = c := h.shares.owns.eq_of_mem ⟨i, hb⟩ ⟨j, hc⟩ hx hx'
    obtain rfl : i = j := by
      by_contra hne
      exact Set.disjoint_left.1 (h.shares.apart i j hne) hb hc
    rw [h.part_unique hr.1 hr.2 hr'.2]

/-- What a process has is its trapframe, the nodes of its page table and its user frames. -/
theorem AddrSpace.partBlocks_eq {s : Phys} {rest : Set (ℕ × ℕ)} {tramp : ℕ} {p : Proc} {A : PTree}
    (h : AddrSpace s R rest tramp p A) :
    p.partBlocks s.mem = insert (p.trapframe, 0) (A.tables ∪ A.leaves) := by
  ext b
  rw [Proc.partBlocks, Set.mem_ofPred_eq, h.root]
  refine ⟨?_, fun hb => ?_⟩
  · rintro (rfl | ⟨hb0, L, hn⟩ | ⟨v, hv, e, L, hl, rfl⟩)
    · exact Set.mem_insert _ _
    · obtain ⟨q, ht⟩ := (isNode_iff h.uvm.pt).1 hn
      exact Or.inr (Or.inl ⟨hb0, L, q, ht⟩)
    · obtain ⟨c, f, hL, he, rfl⟩ := (leafAt_iff h.uvm.pt hl.1).1 hl
      rw [(h.uvm.pt.ok.leaves _ _ _ _ he).bits_pa]
      refine Or.inr (Or.inr ⟨L, _, ⟨⟨f, he⟩, ?_⟩, rfl⟩)
      rcases (by omega : L = 0 ∨ L = 1 ∨ L = 2) with rfl | rfl | rfl
      · rw [pow_zero, Nat.div_one]
        exact PTree.user_zero.2 hv
      · rw [pow_one] at he ⊢
        exact h.uvm.huge _ _ _ he
      · exact absurd he (h.uvm.pt.ok.top _ _ _)
  · rcases hb with rfl | ⟨hb0, L, q, ht⟩ | ⟨L, k, ⟨⟨f, he⟩, hu⟩, hb2⟩
    · exact Or.inl rfl
    · exact Or.inr (Or.inl ⟨hb0, L, (isNode_iff h.uvm.pt).2 ⟨q, ht⟩⟩)
    · obtain ⟨q, hq⟩ := h.uvm.pt.ok.up L k (by rw [he]; exact Entry.noConfusion)
      have hpos : 0 < 512 ^ L := by positivity
      have hv : 512 ^ L * k < topVpn := by
        rw [PTree.User, Nat.mul_add, Nat.mul_one] at hu
        omega
      have hk : 512 ^ L * k / 512 ^ L = k := Nat.mul_div_cancel_left _ hpos
      refine Or.inr (Or.inr ⟨512 ^ L * k, hv, _, L, (leafAt_iff h.uvm.pt (hv.trans (by
        norm_num))).2 ⟨b.1, f, hq.level_le, by rw [hk]; exact he, rfl⟩, ?_⟩)
      rw [(h.uvm.pt.ok.leaves _ _ _ _ he).bits_pa, ← hb2]

/-- The blocks with a role are those that are held. -/
theorem MachineOk.roleBlocks_eq {H : Set (ℕ × ℕ)} (h : MachineOk R m H A) :
    roleBlocks m held = allHeld m.proc A held := by
  rw [roleBlocks, allHeld]
  congr 1
  ext b
  refine exists_congr fun i => ?_
  by_cases hi : (m.proc i).state = .unused
  · rw [share, Proc.blocks, if_pos hi]
    exact iff_of_false (fun hc => hc.1 hi) (Set.notMem_empty b)
  rw [share_of_ne hi, ← (h.space i hi).partBlocks_eq]
  exact and_iff_right hi

/-- A page that is mapped is a user page or the trapframe, or it is the trampoline. -/
theorem MachineOk.mapped_role (h : MachineOk R m held A) (hi : (m.proc i).state ≠ .unused)
    {v e : ℕ} (hm : MapsTo m.phys.mem (m.proc i).pagetable v pa e) :
    (v < topVpn ∧ HasRole m held pa (.process i (.user v))) ∨
      (v = topVpn ∧ HasRole m held pa (.process i .trapframe)) ∨
      (v = topVpn + 1 ∧ pa = m.trampolinePa) := by
  have hsp := h.space i hi
  by_cases hv : v < topVpn
  · exact Or.inl ⟨hv, hi, hv, e, hm⟩
  have hlt : v < 2 ^ 26 := hm.choose_spec.1.1
  rw [hsp.root] at hm
  obtain ⟨fl, hl⟩ := hm.lookup hsp.uvm.pt
  have hno : ∀ b f, (A i).ent 1 (v / 512) ≠ .leaf b f := by
    intro b f he
    have := PTree.user_one.1 (hsp.uvm.huge _ _ _ he)
    omega
  have hpage : ∀ {b f : ℕ}, (A i).ent 0 v = .leaf b f → pa = b := by
    intro b f he
    rw [PTree.lookup_page hno he] at hl
    exact (Prod.mk.inj (Option.some.inj hl)).1.symm
  simp only [topVpn] at hv
  rcases (by simp only [topVpn]; omega : v = topVpn ∨ v = topVpn + 1) with rfl | rfl
  · exact Or.inr (Or.inl ⟨rfl, hi, hpage hsp.frame⟩)
  · exact Or.inr (Or.inr ⟨rfl, hpage hsp.tramp⟩)

theorem MachineOk.role_managed (h : MachineOk R m held A) {part : PagePart}
    (hr : HasRole m held pa (.process i part)) : pa ∈ R := by
  obtain ⟨b, hb, hx⟩ := h.part_block hr.1 hr.2
  exact h.shares.owns.buddy.live_subset ⟨b, Or.inl ⟨i, part.blocks_subset hr.1 hb⟩, hx⟩

/-- Only the trampoline is mapped more than once. -/
theorem MachineOk.shared (h : MachineOk R m held A) (htramp : m.trampolinePa ∉ R)
    (hi : (m.proc i).state ≠ .unused) (hj : (m.proc j).state ≠ .unused) {v w e e' : ℕ}
    (hm : MapsTo m.phys.mem (m.proc i).pagetable v pa e)
    (hm' : MapsTo m.phys.mem (m.proc j).pagetable w pa e') :
    (i = j ∧ v = w) ∨ (pa = m.trampolinePa ∧ v = topVpn + 1 ∧ w = topVpn + 1) := by
  have hmanaged : ∀ {i : ℕ} {part : PagePart}, HasRole m held pa (.process i part) →
      pa ≠ m.trampolinePa := fun hr heq => htramp (heq ▸ h.role_managed hr)
  rcases h.mapped_role hi hm with ⟨-, hr⟩ | ⟨rfl, hr⟩ | ⟨rfl, ht⟩ <;>
    rcases h.mapped_role hj hm' with ⟨-, hr'⟩ | ⟨rfl, hr'⟩ | ⟨rfl, ht'⟩
  case inl.inl =>
    obtain ⟨rfl, hp⟩ := PageRole.process.inj (h.role_unique hr hr')
    exact Or.inl ⟨rfl, PagePart.user.inj hp⟩
  case inl.inr.inl => exact nomatch (PageRole.process.inj (h.role_unique hr hr')).2
  case inr.inl.inl => exact nomatch (PageRole.process.inj (h.role_unique hr hr')).2
  case inr.inl.inr.inl =>
    obtain ⟨rfl, -⟩ := PageRole.process.inj (h.role_unique hr hr')
    exact Or.inl ⟨rfl, rfl⟩
  case inl.inr.inr => exact absurd ht' (hmanaged hr)
  case inr.inl.inr.inr => exact absurd ht' (hmanaged hr)
  case inr.inr.inl => exact absurd ht (hmanaged hr')
  case inr.inr.inr.inl => exact absurd ht (hmanaged hr')
  case inr.inr.inr.inr => exact Or.inr ⟨ht, rfl, rfl⟩

end Role

/-! ## Whole runs -/

/-- What the pages are for, in a state of the machine. -/
structure RolesOk (k : KernelEnd) (m : Machine) (held : Set (ℕ × ℕ)) : Prop where
  /-- A page has one role. -/
  unique : ∀ pa r r', HasRole m held pa r → HasRole m held pa r' → r = r'
  /-- The trapframe is mapped at `TRAPFRAME`, and not for the user. -/
  trapframe : ∀ i, (m.proc i).state ≠ .unused → ∃ e,
    MapsTo m.phys.mem (m.proc i).pagetable topVpn (m.proc i).trapframe e ∧ e &&& pteU = 0
  /-- Only the trampoline is mapped more than once. -/
  shared : ∀ i j v w pa e e', (m.proc i).state ≠ .unused → (m.proc j).state ≠ .unused →
    MapsTo m.phys.mem (m.proc i).pagetable v pa e →
    MapsTo m.phys.mem (m.proc j).pagetable w pa e' →
    (i = j ∧ v = w) ∨ (pa = m.trampolinePa ∧ v = topVpn + 1 ∧ w = topVpn + 1)
  /-- The allocator has handed out the blocks that have a role, and no others. -/
  blocks : Buddy m.phys k.managed (roleBlocks m held)

/-- As long as every `sbrk` keeps the sizes at or below `TRAPFRAME`, every page has one role at
most, and no step comes to a panic of the allocator. -/
theorem frame_roles {k : KernelEnd} {m : Machine} {held : Set (ℕ × ℕ)}
    (hrun : MachineRun (fun m op => op.Fits m) k m held) (htramp : m.trampolinePa ∉ k.managed) :
    RolesOk k m held ∧ ∀ op : MachineOp, op.Enabled m → op.Fits m → ∀ e,
      op.run.run m = .error e → e = "uvmunmap split" ∨ e = "kerneltrap" := by
  obtain ⟨A, h⟩ := hrun.inv fun _ _ hop => hop
  refine ⟨⟨fun pa r r' => h.role_unique, fun i hi => ?_,
    fun i j v w pa e e' hi hj => h.shared htramp hi hj, ?_⟩, fun op hen hfit e he => ?_⟩
  · have hsp := h.space i hi
    rw [hsp.root]
    refine ⟨_, mapsTo_page hsp.uvm.pt (by norm_num) hsp.frame, ?_⟩
    rw [(hsp.uvm.pt.ok.leaves _ _ _ _ hsp.frame).and_bits (by norm_num)]
    decide
  · rw [h.roleBlocks_eq]
    exact h.shares.owns.buddy
  · have hpanic := wp_of_panic (op.run_spec h hen hfit) he
    cases op with
    | userinit => exact Or.inr hpanic.1
    | vm i op => exact Or.inl hpanic.1
    | fork i => exact hpanic.elim
    | exec i file argv => exact hpanic.elim
    | exit i => exact hpanic.elim
    | reap i => exact hpanic.elim

/-- The first process. -/
theorem frame_roles_init : ∃ (m : Machine) (i : ℕ), (m.proc i).state = .live ∧
    RolesOk sampleEnd m ∅ := by
  obtain ⟨m, i, hrun, hi, -, -, ht, -⟩ := MachineRun.exists_process
  refine ⟨m, i, hi, (frame_roles (hrun (fun m op => op.Fits m) fun _ => trivial) ?_).1⟩
  rw [ht, sampleEnd_managed]
  simp

/-! ## Isolation -/

section Beyond

variable {s : Phys} {R : Set ℕ} {rest : Set (ℕ × ℕ)} {A : PTree} {tf : ℕ}

/-- `uvmunmap` takes the page at `TRAPFRAME` for one of the user's. -/
theorem uvmunmap_trapframe (h : Uvm s R rest A) (htf : (tf, 0) ∈ rest)
    (he : A.ent 0 topVpn = .leaf tf 7) :
    wp (uvmunmap A.root trapframe 1 true) (fun _ s' => tf ∈ region s'.free) noPanic s := by
  have hframe : trapframe = 4096 * topVpn := by decide
  have hl := h.pt.ok.leaves _ _ _ _ he
  rw [uvmunmap, if_neg (by decide),
    show wrap64 (trapframe + 1 * pgSize) = trapframe + 4096 by decide,
    show 2 * 1 + 1 = 2 + 1 from rfl, unmapLoop, if_pos (by omega), wp_bind, hframe]
  refine wp_post (walkWithLevel_spec h.pt (by decide)) ?_
  rintro r s' ⟨rfl, hfound⟩
  rw [Nat.mul_div_cancel_left _ (by omega)] at hfound
  cases hfound with
  | missing h1 h0 =>
    rw [he] at h0
    cases h0
  | huge ht he' =>
    have := PTree.user_one.1 (h.huge _ _ _ he')
    simp only [topVpn] at this
    omega
  | page ht =>
    dsimp only
    rw [wp_bind, wp_load64, h.pt.rep.entry ht, he, if_neg hl.bits_valid, if_neg (by omega),
      if_pos rfl, if_pos rfl, wp_bind, hl.bits_pa]
    refine wp_post (h.owns.symm.kfree_spec htf) ?_
    rintro _ s₁ ⟨ho, -⟩
    rw [wp_bind, wp_store64, if_neg (by omega), unmapLoop,
      if_neg (by simp only [pgSize]; omega), wp_pure]
    -- the page is managed, and nobody holds it any more
    have hin : tf ∈ span 4096 (tf, 0) := start_mem_span (by norm_num) (tf, 0)
    have hR : tf ∈ region s₁.free ∪ region (rest \ {(tf, 0)} ∪ (A.tables ∪ A.leaves)) := by
      rw [ho.buddy.cover]
      exact h.owns.buddy.live_subset ⟨(tf, 0), Or.inr htf, hin⟩
    refine hR.resolve_right ?_
    rintro ⟨b, hb, hx⟩
    have hmem : b ∈ A.tables ∪ A.leaves ∪ rest := hb.symm.imp_right And.left
    obtain rfl : b = (tf, 0) := h.owns.buddy.liveTiles.eq_of_mem hmem (Or.inr htf) hx hin
    rcases hb with hb | hb
    · exact hb.2 rfl
    · exact Set.disjoint_left.1 h.owns.apart hb htf

/-- Lazy `sbrk` past `TRAPFRAME` and `sbrk(-4096)` : the process goes on with a trapframe that is
free. -/
theorem sbrk_frees_trapframe : ∃ (m : Machine) (i : ℕ), MachineRun LazyOp sampleEnd m ∅ ∧
    (m.proc i).state = .live ∧
    HasRole m ∅ (m.proc i).trapframe (.process i .trapframe) ∧
    HasRole m ∅ (m.proc i).trapframe .free := by
  obtain ⟨m, i, A, rest, hrun, hi, hsz, -, -, -, hsp⟩ := MachineRun.exists_size
    (trapframe + 4096) (by decide)
  have hproc := m.withSize_proc i (trapframe + 4096)
  have hwp : wp (MachineOp.vm i (.sbrk (-4096) false)).run (fun _ m' =>
      (m'.proc i).state = .live ∧ (m'.proc i).trapframe ∈ region m'.phys.free) noPanic
      (m.withSize i (trapframe + 4096)) := by
    rw [MachineOp.run, wp_bind, Machine.procCall, wp_bind, wp_get, wp_bind, wp_machine_onPhys,
      hproc, VmOp.exec, wp_bind, sysSbrk, if_pos (by decide), wp_bind, growproc, if_neg (by decide),
      if_pos (by decide), wp_bind]
    dsimp only
    rw [show addInt (trapframe + 4096) (-4096) = trapframe by decide, uvmdealloc,
      if_neg (by decide), if_pos (by decide), wp_bind,
      show pgRoundUp trapframe = trapframe by decide,
      show throughInt ((pgRoundUp (trapframe + 4096) - trapframe) / pgSize) = 1 by decide, hsp.root]
    refine wp_post (uvmunmap_trapframe hsp.uvm (Set.mem_insert _ _) hsp.frame) ?_
    rintro _ s' hfree
    rw [wp_pure, wp_pure]
    dsimp only
    rw [if_neg (by decide), wp_pure, wp_pure]
    dsimp only
    rw [wp_bind, Machine.setProc, wp_modify, wp_pure, wp_pure]
    dsimp only
    rw [Function.update_self]
    exact ⟨hi, hfree⟩
  obtain ⟨⟨⟩, m', hm', hlive, hfree⟩ := wp_noPanic_iff.1 hwp
  have hen : (MachineOp.vm i (.sbrk (-4096) false)).Enabled (m.withSize i (trapframe + 4096)) := by
    rw [MachineOp.Enabled, hproc]
    exact hi
  refine ⟨m', i, .step hrun hen (Or.inr ⟨i, -4096, by norm_num, by norm_num, rfl⟩) hm', hlive,
    ⟨?_, rfl⟩, hfree⟩
  rw [hlive]
  exact ProcState.noConfusion

end Beyond

end Xv6Plus
