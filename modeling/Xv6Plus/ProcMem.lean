import Xv6Plus.ExecSpec

/-!
# The memory of all processes

Every process has a share of the memory : its trapframe page, the tables of its page table and
the frames of its user pages. `MachineOk` says that the shares are disjoint and that every
process has an address space in its own. A step of one process is verified with the others in
its frame, so it is enough to look at that process.
-/

namespace Xv6Plus

/-- What the process `p` with the page table `A` holds. -/
def Proc.blocks (p : Proc) (A : PTree) : Set (ℕ × ℕ) :=
  if p.state = .unused then ∅ else insert (p.trapframe, 0) (A.tables ∪ A.leaves)

/-- What the process in slot `i` holds. -/
def share (proc : ℕ → Proc) (A : ℕ → PTree) (i : ℕ) : Set (ℕ × ℕ) := (proc i).blocks (A i)

/-- What is held beside the process in slot `i`. -/
def besides (proc : ℕ → Proc) (A : ℕ → PTree) (held : Set (ℕ × ℕ)) (i : ℕ) : Set (ℕ × ℕ) :=
  restShares (share proc A) i ∪ held

/-- All that is held. -/
def allHeld (proc : ℕ → Proc) (A : ℕ → PTree) (held : Set (ℕ × ℕ)) : Set (ℕ × ℕ) :=
  {b | ∃ i, b ∈ share proc A i} ∪ held

/-- The memory `R` is shared out to the processes and to the rest of the kernel. -/
structure MachineOk (R : Set ℕ) (m : Machine) (held : Set (ℕ × ℕ)) (A : ℕ → PTree) : Prop where
  shares : Shares m.phys R (share m.proc A) held
  space : ∀ i, (m.proc i).state ≠ .unused →
    AddrSpace m.phys R (insert ((m.proc i).trapframe, 0) (besides m.proc A held i))
      m.trampolinePa (m.proc i) (A i)
  unused : ∀ i, (m.proc i).state = .unused → m.proc i = unusedProc
  tramp : LeafOk 0 m.trampolinePa 11

/-- What a step of the process in a slot leaves in it : nothing, or a process with an address
space. -/
def SlotPost (R : Set ℕ) (rest : Set (ℕ × ℕ)) (tramp : ℕ) (s : Phys) (p : Proc) (A : PTree) :
    Prop :=
  (p = unusedProc ∧ Owns s R ∅ rest) ∨
    (p.state ≠ .unused ∧ (p.trapframe, 0) ∉ rest ∧
      AddrSpace s R (insert (p.trapframe, 0) rest) tramp p A)

section Slot

variable {R : Set ℕ} {m : Machine} {held rest : Set (ℕ × ℕ)} {A : ℕ → PTree} {i : ℕ} {s s' : Phys}
  {p : Proc} {A' : PTree} {tramp : ℕ}

theorem Owns.insert_right {T : Set (ℕ × ℕ)} {b : ℕ × ℕ} (h : Owns s R (Insert.insert b T) rest)
    (hb : b ∉ T) : Owns s R T (Insert.insert b rest) := by
  have hd := h.apart
  rw [Set.disjoint_insert_left] at hd
  refine h.reassoc (by rw [Set.insert_union, Set.union_insert]) ?_
  rw [Set.disjoint_insert_right]
  exact ⟨hb, hd.2⟩

theorem Owns.insert_left {T : Set (ℕ × ℕ)} {b : ℕ × ℕ} (h : Owns s R T (Insert.insert b rest))
    (hb : b ∉ rest) : Owns s R (Insert.insert b T) rest :=
  (h.symm.insert_right hb).symm

theorem SlotPost.owns (h : SlotPost R rest tramp s p A') :
    Owns s R (p.blocks A') rest := by
  unfold Proc.blocks
  rcases h with ⟨rfl, h⟩ | ⟨hne, hnot, h⟩
  · rw [if_pos (show unusedProc.state = .unused from rfl)]
    exact h
  · rw [if_neg hne]
    exact h.uvm.owns.insert_left hnot

theorem share_update (proc : ℕ → Proc) (A : ℕ → PTree) (i : ℕ) (p : Proc) (A' : PTree) :
    share (Function.update proc i p) (Function.update A i A') =
      Function.update (share proc A) i (p.blocks A') := by
  funext j
  by_cases hj : j = i
  · subst hj
    simp only [share, Function.update_self]
  · simp only [share, Function.update_of_ne hj]

/-- The share of a process that is there. -/
theorem share_of_ne (h : (m.proc i).state ≠ .unused) :
    share m.proc A i = insert ((m.proc i).trapframe, 0) ((A i).tables ∪ (A i).leaves) :=
  if_neg h

theorem MachineOk.trapframe_notMem (h : MachineOk R m held A) (hi : (m.proc i).state ≠ .unused) :
    ((m.proc i).trapframe, 0) ∉ besides m.proc A held i := by
  have hap := (h.shares.focus i).apart
  rw [share_of_ne hi] at hap
  exact Set.disjoint_left.1 hap (Set.mem_insert _ _)

theorem MachineOk.owns_unused (h : MachineOk R m held A) (hi : (m.proc i).state = .unused) :
    Owns m.phys R ∅ (besides m.proc A held i) := by
  have hf := h.shares.focus i
  rw [share, Proc.blocks, if_pos hi] at hf
  exact hf

theorem MachineOk.step (h : MachineOk R m held A) (A' : PTree)
    (hp : SlotPost R (besides m.proc A held i) m.trampolinePa s' p A')
    (hk : Keeps (besides m.proc A held i) m.phys s') :
    MachineOk R { m with phys := s', proc := Function.update m.proc i p } held
      (Function.update A i A') := by
  have hshares : Shares s' R (share (Function.update m.proc i p) (Function.update A i A'))
      held := by
    rw [share_update]
    exact h.shares.refocus hp.owns
  refine ⟨hshares, fun j hj => ?_, fun j hj => ?_, h.tramp⟩
  · by_cases hji : j = i
    · subst hji
      have hrest : besides (Function.update m.proc j p) (Function.update A j A') held j =
          besides m.proc A held j := by
        rw [besides, share_update, restShares_update]
        rfl
      dsimp only at hj ⊢
      rw [Function.update_self] at hj
      rw [hrest, Function.update_self, Function.update_self]
      rcases hp with ⟨rfl, -⟩ | ⟨-, -, hsp⟩
      · exact absurd rfl hj
      · exact hsp
    · -- another process : its share is in the frame of the step
      dsimp only at hj ⊢
      rw [Function.update_of_ne hji] at hj
      have hspace := h.space j hj
      have hsub : (A j).tables ∪ (A j).leaves ⊆ besides m.proc A held i := fun b hb =>
        Or.inl (share_subset_restShares hji (by rw [share_of_ne hj]; exact Or.inr hb))
      have htf : ((m.proc j).trapframe, 0) ∉ (A j).tables ∪ (A j).leaves := fun hc =>
        Set.disjoint_left.1 hspace.uvm.owns.apart hc (Set.mem_insert _ _)
      have hfocus := hshares.focus j
      rw [share, Function.update_of_ne hji, Function.update_of_ne hji, Proc.blocks, if_neg hj]
        at hfocus
      rw [Function.update_of_ne hji, Function.update_of_ne hji]
      exact hspace.reframe (hfocus.insert_right htf) (hk.mono hsub)
  · dsimp only at hj ⊢
    by_cases hji : j = i
    · subst hji
      rw [Function.update_self] at hj ⊢
      rcases hp with ⟨rfl, -⟩ | ⟨hne, -⟩
      · rfl
      · exact absurd hj hne
    · rw [Function.update_of_ne hji] at hj ⊢
      exact h.unused j hj

/-! ## Calls -/

theorem wp_machine_onPhys {α : Type} {x : Kern Phys α} {Q : α → Machine → Prop}
    {E : String → Prop} :
    wp (Machine.onPhys x) Q E m ↔ wp x (fun a t => Q a { m with phys := t }) E m.phys :=
  wp_zoom ..

/-- What a call of a process keeps of it. -/
def CallPost (s : Phys) (R : Set ℕ) (rest : Set (ℕ × ℕ)) (tramp : ℕ) (p p' : Proc) (s' : Phys) :
    Prop :=
  ∃ A', AddrSpace s' R (insert (p.trapframe, 0) rest) tramp p' A' ∧ Keeps rest s s' ∧
    p'.trapframe = p.trapframe ∧ p'.state = p.state

theorem MachineOk.procCall_spec {α : Type} {x : Proc → Kern Phys (α × Proc)} {E : String → Prop}
    (h : MachineOk R m held A) (hi : (m.proc i).state ≠ .unused)
    (hx : wp (x (m.proc i)) (fun r s' =>
      CallPost m.phys R (besides m.proc A held i) m.trampolinePa (m.proc i) r.2 s') E m.phys) :
    wp (Machine.procCall i x) (fun _ m' => m'.trampolinePa = m.trampolinePa ∧
      ∃ A', MachineOk R m' held A') E m := by
  rw [Machine.procCall, wp_bind, wp_get, wp_bind, wp_machine_onPhys]
  refine wp_post hx ?_
  rintro ⟨r, p'⟩ s' ⟨A', hsp, hk, htf, hst⟩
  dsimp only at hsp htf hst ⊢
  rw [wp_bind, Machine.setProc, wp_modify, wp_pure]
  refine ⟨rfl, _, h.step A' (Or.inr ⟨?_, ?_, ?_⟩) hk⟩
  · rw [hst]
    exact hi
  · rw [htf]
    exact h.trapframe_notMem hi
  · rw [htf]
    exact hsp

/-- The page tables of unused slots do not matter. -/
theorem MachineOk.congr {A₁ : ℕ → PTree} (h : MachineOk R m held A)
    (hA : ∀ i, (m.proc i).state ≠ .unused → A₁ i = A i) : MachineOk R m held A₁ := by
  have hshare : share m.proc A₁ = share m.proc A := by
    funext i
    rw [share, share, Proc.blocks, Proc.blocks]
    split_ifs with hi
    · rfl
    · rw [hA i hi]
  refine ⟨by rw [hshare]; exact h.shares, fun i hi => ?_, h.unused, h.tramp⟩
  rw [besides, hshare, hA i hi]
  exact h.space i hi

theorem MachineOk.besides_unused (hi : (m.proc i).state = .unused) :
    besides m.proc A held i = allHeld m.proc A held := by
  rw [besides, allHeld, ← share_union (share m.proc A) i, share, Proc.blocks, if_pos hi,
    Set.empty_union]

/-- A slot that was unused is unused again, and nothing is held for it. -/
theorem MachineOk.step_unused (h : MachineOk R m held A) (hi : (m.proc i).state = .unused)
    (hown : Owns s' R ∅ (besides m.proc A held i))
    (hk : Keeps (besides m.proc A held i) m.phys s') :
    MachineOk R { m with phys := s', proc := Function.update m.proc i unusedProc } held A ∧
      Function.update m.proc i unusedProc = m.proc ∧
      Keeps (allHeld m.proc A held) m.phys s' := by
  have hst := h.step (A i) (i := i) (Or.inl ⟨rfl, hown⟩) hk
  rw [Function.update_eq_self] at hst
  rw [besides_unused hi] at hk
  refine ⟨hst, ?_, hk⟩
  rw [← h.unused i hi, Function.update_eq_self]

/-- What `allocproc` leaves : a slot is in use, with an empty address space; or nothing has
changed, for want of memory or of a slot among those from `n` to `hi`. -/
def AllocprocPost (R : Set ℕ) (m : Machine) (held : Set (ℕ × ℕ)) (A : ℕ → PTree) (n hi : ℕ)
    (m' : Machine) : Option ℕ → Prop
  | none => m'.proc = m.proc ∧ MachineOk R m' held A ∧
    Keeps (allHeld m.proc A held) m.phys m'.phys ∧
    (m.phys.freeCount ≤ 4 ∨ ∀ j, n ≤ j → j < hi → (m.proc j).state ≠ .unused)
  | some j => (m.proc j).state = .unused ∧ (m'.proc j).state = .used ∧ (m'.proc j).sz = 0 ∧
    (∀ i ≠ j, m'.proc i = m.proc i) ∧ Keeps (allHeld m.proc A held) m.phys m'.phys ∧
    m.phys.freeCount ≤ m'.phys.freeCount + 4 ∧ ∃ B, B.Fresh ∧
    MachineOk R m' held (Function.update A j B)

theorem MachineOk.allocprocFrom_spec (h : MachineOk R m held A) : ∀ {n i : ℕ},
    wp (Machine.allocprocFrom n i) (fun r m' => m'.trampolinePa = m.trampolinePa ∧
      AllocprocPost R m held A i (i + n) m' r) noPanic m
  | 0, i => by
    rw [Machine.allocprocFrom, wp_pure]
    exact ⟨rfl, rfl, h, .refl _ _, Or.inr fun j h1 h2 => absurd h2 (by omega)⟩
  | n + 1, i => by
    rw [Machine.allocprocFrom, wp_bind, wp_get, wp_ite]
    refine ⟨fun hi => ?_, fun hi => ?_⟩
    · rw [wp_bind, wp_machine_onPhys, h.unused i hi]
      refine wp_post (allocprocFound_spec (h.owns_unused hi) h.tramp) ?_
      rintro ⟨p, ok⟩ s' (⟨heq, hown, hk, hcount⟩ | ⟨hok, hst, hsz, hnot, A', hsp, hf, hk, hcount⟩)
      · obtain ⟨rfl, rfl⟩ := Prod.mk.inj heq
        dsimp only
        rw [wp_bind, Machine.setProc, wp_modify, wp_pure]
        obtain ⟨hm, hproc, hk'⟩ := h.step_unused hi hown hk
        exact ⟨rfl, hproc, hm, hk', Or.inl hcount⟩
      · dsimp only at hok hst hsz hnot hsp ⊢
        rw [wp_bind, Machine.setProc, wp_modify, wp_pure, if_pos hok]
        refine ⟨rfl, hi, ?_, ?_, fun k hk => Function.update_of_ne hk _ _, ?_, hcount, A', hf,
          h.step A' (Or.inr ⟨?_, hnot, hsp⟩) hk⟩
        · dsimp only
          rw [Function.update_self]
          exact hst
        · dsimp only
          rw [Function.update_self]
          exact hsz
        · rw [← besides_unused hi]
          exact hk
        · rw [hst]
          exact ProcState.noConfusion
    · refine wp_post (allocprocFrom_spec h) ?_
      rintro r m' ⟨ht, hpost⟩
      refine ⟨ht, ?_⟩
      cases r with
      | some j => exact hpost
      | none =>
        obtain ⟨hproc, hm, hk, hwhy⟩ := hpost
        refine ⟨hproc, hm, hk, hwhy.imp_right fun hno j h1 h2 => ?_⟩
        rcases Nat.eq_or_lt_of_le h1 with rfl | h1
        · exact hi
        · exact hno j h1 (by omega)

theorem MachineOk.freeproc_spec (h : MachineOk R m held A) (hi : (m.proc i).state ≠ .unused) :
    wp (freeproc (m.proc i)) (fun p s' => p = unusedProc ∧
      MachineOk R { m with phys := s', proc := Function.update m.proc i p } held A)
      noPanic m.phys := by
  refine wp_post (Xv6Plus.freeproc_spec (h.space i hi) (h.trapframe_notMem hi)) ?_
  rintro p s' ⟨rfl, hown, hk⟩
  have hst := h.step (A i) (i := i) (Or.inl ⟨rfl, hown⟩) hk
  rw [Function.update_eq_self] at hst
  exact ⟨rfl, hst⟩

theorem uvmcopy_zero (old new : ℕ) : uvmcopy old new 0 = pure 0 := rfl

/-- `kfork`, once there is a slot for the child. -/
theorem MachineOk.forkInto_spec {j : ℕ} (h : MachineOk R m held A)
    (hi : (m.proc i).state ≠ .unused) (hj : (m.proc j).state ≠ .unused) (hij : i ≠ j)
    (hf : (A j).Fresh) :
    wp (uvmcopy (m.proc i).pagetable (m.proc j).pagetable (m.proc i).sz) (fun r s' => ∃ A',
      AddrSpace s' R (insert ((m.proc j).trapframe, 0) (besides m.proc A held j)) m.trampolinePa
        { m.proc j with sz := if r = 0 then (m.proc i).sz else 0 } A' ∧
      Keeps (besides m.proc A held j) m.phys s' ∧
      ((r = 0 ∧ A'.view s'.mem = (A i).view m.phys.mem) ∨ (r = -1 ∧ 0 < (m.proc i).sz)))
      noPanic m.phys := by
  have hI := h.space i hi
  have hJ := h.space j hj
  -- the parent is in the frame of the child
  have hsub : (A i).tables ∪ (A i).leaves ⊆
      insert ((m.proc j).trapframe, 0) (besides m.proc A held j) := fun b hb =>
    Or.inr (Or.inl (share_subset_restShares hij (by rw [share_of_ne hi]; exact Or.inr hb)))
  have hpos : wp (uvmcopy (A i).root (A j).root (m.proc i).sz)
      (fun r _ => r ≠ 0 → 0 < (m.proc i).sz) (fun _ => True) m.phys := by
    by_cases hsz : (m.proc i).sz = 0
    · rw [hsz, uvmcopy_zero, wp_pure]
      exact fun hr => absurd rfl hr
    · exact wp_post (wp_trivial _) fun _ _ _ _ => Nat.pos_of_ne_zero hsz
  rw [hI.root, hJ.root]
  refine wp_post (wp_and (uvmcopy_spec hJ.uvm hI.uvm hsub hI.sz_le (hI.uvm.huge_below hI.below)
    (fun v => hJ.uvm.view_fresh hf v) hf.tables) hpos) ?_
  rintro r s' ⟨⟨A', hu, htop, hk, ⟨rfl, hview, -⟩ | ⟨rfl, hview⟩⟩, hpos⟩
  · rw [if_pos rfl]
    have hsame : A'.view s'.mem = (A i).view m.phys.mem := by
      funext v
      rw [hview]
      split_ifs with hv
      · rfl
      · exact (hI.below v (by omega)).symm
    refine ⟨A', hJ.update hu htop hI.sz_le fun v hv => ?_, hk.mono (Set.subset_insert _ _),
      Or.inl ⟨rfl, hsame⟩⟩
    rw [hsame]
    exact hI.below v hv
  · rw [if_neg (by decide)]
    exact ⟨A', hJ.update hu htop (Nat.zero_le _) fun v _ => hview v,
      hk.mono (Set.subset_insert _ _), Or.inr ⟨rfl, hpos (by decide)⟩⟩

/-- The process writes into its trapframe page. -/
theorem AddrSpace.store_trapframe {B : PTree} {b : Mem} (h : AddrSpace s R
      (insert (p.trapframe, 0) rest) tramp p B) (hnot : (p.trapframe, 0) ∉ rest)
    (hm : Set.EqOn b s.mem (span 4096 (p.trapframe, 0))ᶜ) :
    AddrSpace (s.setMem b) R (insert (p.trapframe, 0) rest) tramp p B ∧
      Keeps rest s (s.setMem b) ∧ B.view (s.setMem b).mem = B.view s.mem := by
  obtain ⟨hu, hk⟩ := h.uvm.store_block (Set.mem_insert _ _) hm
  rw [Set.insert_sdiff_self_of_notMem hnot] at hk
  exact ⟨h.reframe hu.owns (hk.mono Set.subset_union_left), hk.mono Set.subset_union_right,
    h.uvm.view_keeps (hk.mono fun b hb => Or.inl (Or.inr hb))⟩

/-- The trapframe at `dst` is a copy of the one at `src`, with `a0` cleared. -/
def FrameCopied (m m' : Mem) (src dst : ℕ) : Prop :=
  ∀ x < 288, m' (dst + x) = if 112 ≤ x ∧ x < 120 then 0 else m (src + x)

theorem frameCopied (m : Mem) (src dst : ℕ) :
    FrameCopied m (write64 (memmove m dst src 288) (dst + 112) 0) src dst := by
  intro x hx
  rw [write64, writeLE]
  by_cases ha0 : 112 ≤ x ∧ x < 120
  · rw [if_pos ha0, if_pos (by omega), Nat.zero_div]
    rfl
  · rw [if_neg ha0, if_neg (by omega), memmove, if_pos (by omega), Nat.add_sub_cancel_left]

/-- There is no slot, or too little memory, for a new process. -/
def NoRoom (m : Machine) : Prop :=
  m.phys.freeCount ≤ 4 ∨ ∀ j < nProc, (m.proc j).state ≠ .unused

/-- After `kfork` by the process `i` : nothing has changed; or the process `j` is there, with a
copy of the memory and of the registers. -/
def ForkPost (R : Set ℕ) (m : Machine) (held : Set (ℕ × ℕ)) (A : ℕ → PTree) (i : ℕ) (r : ℤ)
    (m' : Machine) : Prop :=
  (r = -1 ∧ m'.proc = m.proc ∧ MachineOk R m' held A ∧ (NoRoom m ∨ 0 < (m.proc i).sz)) ∨
    ∃ j : ℕ, r = j ∧ (m.proc j).state = .unused ∧ (m'.proc j).state = .live ∧
      (m'.proc j).sz = (m.proc i).sz ∧ (∀ k ≠ j, m'.proc k = m.proc k) ∧
      ∃ B, MachineOk R m' held (Function.update A j B) ∧
        B.view m'.phys.mem = (A i).view m.phys.mem ∧
        FrameCopied m.phys.mem m'.phys.mem (m.proc i).trapframe (m'.proc j).trapframe

theorem MachineOk.kfork_spec (h : MachineOk R m held A) (hi : (m.proc i).state ≠ .unused) :
    wp (Machine.kfork i) (fun r m' => m'.trampolinePa = m.trampolinePa ∧
      Keeps (allHeld m.proc A held) m.phys m'.phys ∧ ForkPost R m held A i r m') noPanic m := by
  rw [Machine.kfork, wp_bind]
  refine wp_post (h.allocprocFrom_spec (n := nProc) (i := 0)) ?_
  rintro r m₁ ⟨ht₁, hr⟩
  cases r with
  | none =>
    obtain ⟨hproc, hm, hk, hno⟩ := hr
    rw [wp_pure]
    refine ⟨ht₁, hk, Or.inl ⟨rfl, hproc, hm, Or.inl (hno.imp_right fun hno j hj => ?_)⟩⟩
    exact hno j (Nat.zero_le j) (by omega)
  | some j =>
    obtain ⟨hfree, hused, hsz, hsame, hk₁, -, B₁, hf, h₁⟩ := hr
    have hij : i ≠ j := by
      rintro rfl
      exact hi hfree
    have hi₁ : (m₁.proc i).state ≠ .unused := by
      rw [hsame i hij]
      exact hi
    have hj₁ : (m₁.proc j).state ≠ .unused := by
      rw [hused]
      exact ProcState.noConfusion
    have hAj : Function.update A j B₁ j = B₁ := Function.update_self ..
    have hAi : Function.update A j B₁ i = A i := Function.update_of_ne hij ..
    -- the others hold what they held
    have hbes : besides m₁.proc (Function.update A j B₁) held j = allHeld m.proc A held := by
      have hupd : m₁.proc = Function.update m.proc j (m₁.proc j) := by
        funext k
        by_cases hkj : k = j
        · rw [hkj, Function.update_self]
        · rw [Function.update_of_ne hkj, hsame k hkj]
      rw [← besides_unused hfree, besides, hupd, share_update, restShares_update]
      rfl
    have hviewi : (A i).view m₁.phys.mem = (A i).view m.phys.mem := by
      refine (h.space i hi).uvm.view_keeps (hk₁.mono fun b hb => Or.inl ⟨i, ?_⟩)
      rw [share_of_ne hi]
      exact Or.inr (Or.inr hb)
    have hnot := h₁.trapframe_notMem hj₁
    have hcopy := h₁.forkInto_spec hi₁ hj₁ hij (by rw [hAj]; exact hf)
    rw [hAi, hviewi] at hcopy
    dsimp only
    rw [wp_bind, wp_get, wp_bind, wp_machine_onPhys]
    refine wp_post hcopy ?_
    rintro r s₂ ⟨A₂, hsp, hk₂, ⟨rfl, hview⟩ | ⟨rfl, hpos⟩⟩
    · -- the copy has succeeded
      rw [if_neg (by decide), wp_bind, wp_machine_onPhys, wp_moveBytes, wp_bind,
        wp_machine_onPhys, wp_store64, wp_bind, Machine.setProc, wp_modify, wp_pure]
      rw [if_pos rfl] at hsp
      obtain ⟨hsp₃, hk₃, hv₃⟩ := AddrSpace.store_trapframe hsp (p := { m₁.proc j with
        sz := (m₁.proc i).sz }) hnot
        (memmove_span (n := 288) (m₁.proc i).trapframe (le_refl _) (by omega))
      obtain ⟨hsp₄, hk₄, hv₄⟩ := AddrSpace.store_trapframe hsp₃ (p := { m₁.proc j with
        sz := (m₁.proc i).sz }) hnot
        (write64_span (v := 0) (Nat.le_add_right _ 112) (by omega))
      have hkall := (hk₂.trans hk₃).trans hk₄
      have hm := h₁.step A₂ (Or.inr ⟨ProcState.noConfusion, hnot, ⟨hsp₄.uvm, hsp₄.root, hsp₄.sz_le,
        hsp₄.below, hsp₄.frame, hsp₄.tramp⟩⟩) (p := { m₁.proc j with
          sz := (m₁.proc i).sz, state := .live }) hkall
      rw [Function.update_idem] at hm
      rw [hbes] at hkall
      refine ⟨ht₁, hk₁.trans hkall, Or.inr ⟨j, rfl, hfree, ?_, ?_, fun k hkj => ?_, A₂, hm, ?_,
        fun x hx => ?_⟩⟩
      · dsimp only
        rw [Function.update_self]
      · dsimp only
        rw [Function.update_self, hsame i hij]
      · dsimp only
        rw [Function.update_of_ne hkj, hsame k hkj]
      · exact (hv₄.trans hv₃).trans hview
      · dsimp only
        rw [Function.update_self]
        refine (frameCopied _ _ _ x hx).trans (if_congr Iff.rfl rfl ?_)
        rw [hsame i hij]
        rw [hbes] at hk₂
        refine (hk₁.trans hk₂).mem ⟨((m.proc i).trapframe, 0), Or.inl ⟨i, ?_⟩, ?_⟩
        · rw [share_of_ne hi]
          exact Set.mem_insert _ _
        · rw [mem_span]
          exact ⟨Nat.le_add_right _ _, Nat.add_lt_add_left (hx.trans (show 288 < 4096 by decide)) _⟩
    · -- the child is given up
      rw [if_pos (by decide), wp_bind, wp_machine_onPhys]
      rw [if_neg (by decide)] at hsp
      rw [show { m₁.proc j with sz := 0 } = m₁.proc j by rw [← hsz]] at hsp
      refine wp_post (Xv6Plus.freeproc_spec hsp hnot) ?_
      rintro p s₃ ⟨rfl, hown, hk₃⟩
      rw [wp_bind, Machine.setProc, wp_modify, wp_pure]
      have hk := hk₂.trans hk₃
      have hm := h₁.step (A j) (i := j) (Or.inl ⟨rfl, hown⟩) hk
      rw [Function.update_idem, Function.update_eq_self] at hm
      rw [hbes] at hk
      rw [hsame i hij] at hpos
      refine ⟨ht₁, hk₁.trans hk, Or.inl ⟨rfl, ?_, hm, Or.inr hpos⟩⟩
      funext k
      by_cases hkj : k = j
      · rw [hkj, ← h.unused j hfree]
        exact Function.update_self ..
      · exact (Function.update_of_ne hkj ..).trans (hsame k hkj)

end Slot

end Xv6Plus
