import Xv6Plus.VmUser
import Xv6Plus.Proc

/-!
# The address space of a process

`AddrSpace` is what holds of a process between any two of its steps : its page table has
user pages below `p->sz` only, and at the top the trapframe and the trampoline, which the
user cannot access. `sys_sbrk`, the loads and stores of the process with the page faults they
take, `copyin`, `copyout` and `vm_try_collapse` keep it. What they do to the user memory is
said by the contents.
-/

namespace Xv6Plus

/-! ## The hardware's translation -/

section Mmu

variable {s : Phys} {R : Set ℕ} {frame : Set (ℕ × ℕ)} {A : PTree} {va perm : ℕ}

/-- The leaf over the page `v` at a level up to `L`, as the page walk returns it. -/
def PTree.Translated (A : PTree) (v L : ℕ) : Option (ℕ × ℕ) → Prop
  | some (e, L') => L' ≤ L ∧ ∃ pa fl, A.ent L' (v / 512 ^ L') = .leaf pa fl ∧
      e = (Entry.leaf pa fl).bits
  | none => ∀ L' ≤ L, ∀ pa fl, A.ent L' (v / 512 ^ L') ≠ .leaf pa fl

/-- Above an entry there are tables. -/
theorem PTree.Ok.table_above (h : A.Ok) {v L : ℕ} (hne : A.ent L (v / 512 ^ L) ≠ .absent) :
    ∀ {d : ℕ}, L + d + 1 ≤ 2 → ∃ t, A.ent (L + d + 1) (v / 512 ^ (L + d + 1)) = .table t
  | 0, hd => by
    obtain ⟨p, ⟨hL, _⟩ | ⟨_, he⟩⟩ := h.up L _ hne
    · omega
    · exact ⟨p, by rw [Nat.add_zero, div_pow_succ, he]⟩
  | d + 1, hd => by
    obtain ⟨t, ht⟩ := table_above h hne (d := d) (by omega)
    obtain ⟨p, ⟨hL, _⟩ | ⟨_, he⟩⟩ := h.up _ _ (by rw [ht]; exact Entry.noConfusion)
    · omega
    · exact ⟨p, by rw [← Nat.add_assoc, div_pow_succ, he]⟩

theorem mmuWalk_spec (va : ℕ) (h : PT s R frame A) : ∀ {L p : ℕ},
    A.IsTable L (va / 4096 / 512 ^ L / 512) p →
    A.Translated (va / 4096) L (mmuWalk s.mem va L p) := by
  intro L
  induction L with
  | zero =>
    intro p ht
    rw [mmuWalk.eq_def]
    dsimp only
    rw [px_eq, h.rep.entry ht]
    cases he : A.ent 0 (va / 4096 / 512 ^ 0) with
    | absent =>
      rw [if_pos (not_not.1 absent_valid)]
      intro L' hL' pa fl hl
      obtain rfl := Nat.le_zero.1 hL'
      rw [he] at hl
      cases hl
    | leaf pa fl =>
      have hl := h.ok.leaves _ _ _ _ he
      rw [if_neg hl.bits_valid, if_pos hl.bits_rwx]
      exact ⟨le_rfl, pa, fl, he, rfl⟩
    | table t => exact absurd he (h.ok.bottom _ t)
  | succ L ih =>
    intro p ht
    have hL := ht.level_le
    rw [mmuWalk.eq_def]
    dsimp only
    rw [px_eq, h.rep.entry ht]
    cases he : A.ent (L + 1) (va / 4096 / 512 ^ (L + 1)) with
    | absent =>
      rw [if_pos (not_not.1 absent_valid)]
      -- a leaf below would have a table here
      intro L' hL' pa fl hl
      rcases Nat.lt_or_eq_of_le hL' with hlt | rfl
      · obtain ⟨t, htt⟩ := h.ok.table_above (d := L - L') (by rw [hl]; exact Entry.noConfusion)
          (by omega)
        rw [show L' + (L - L') + 1 = L + 1 by omega, he] at htt
        cases htt
      · rw [he] at hl
        cases hl
    | leaf pa fl =>
      have hl := h.ok.leaves _ _ _ _ he
      rw [if_neg hl.bits_valid, if_pos hl.bits_rwx]
      exact ⟨le_rfl, pa, fl, he, rfl⟩
    | table t =>
      have hchild := PTree.isTable_of_ent (by omega) he
      rw [if_neg (table_valid t), if_neg (not_not.2 (table_rwx t)),
        table_pa (h.table_page hchild).1]
      rw [div_pow_succ] at hchild
      have hr := ih hchild
      revert hr
      cases mmuWalk s.mem va L t with
      | none =>
        intro hr L' hL' pa fl hl
        rcases Nat.lt_or_eq_of_le hL' with hlt | rfl
        · exact hr L' (by omega) pa fl hl
        · rw [he] at hl
          cases hl
      | some x =>
        rintro ⟨hle, hx⟩
        exact ⟨by omega, hx⟩

/-- The physical address and the flags that the page walk finds for `va`, whatever they permit. -/
def translate (m : Mem) (pagetable va : ℕ) : Option (ℕ × ℕ) :=
  if va ≥ maxVa then none
  else (mmuWalk m va 2 pagetable).map fun x =>
    (pte2pa x.1 + va % levelPageSize x.2, pteFlags x.1)

/-- The hardware finds the page that a lookup finds. -/
theorem translate_eq (h : PT s R frame A) (hva : va < 2 ^ 38) : translate s.mem A.root va =
    (A.lookup (va / 4096)).map fun x => (x.1 + va % 4096, x.2) := by
  rw [translate, if_neg (not_le.2 hva)]
  have hw := mmuWalk_spec va h (L := 2) (p := A.root) (by
    rw [show va / 4096 / 512 ^ 2 / 512 = 0 by omega]
    exact A.root_isTable)
  revert hw
  cases mmuWalk s.mem va 2 A.root with
  | none =>
    intro hr
    have h1 := hr 1 (by omega)
    have h0 := hr 0 (by omega)
    rw [pow_one] at h1
    rw [pow_zero, Nat.div_one] at h0
    have hl : A.lookup (va / 4096) = none := by
      refine Option.eq_none_iff_forall_ne_some.2 ?_
      rintro ⟨pa, fl⟩ hl
      rcases PTree.lookup_eq_some.1 hl with ⟨b, he, _⟩ | ⟨_, he⟩
      · exact h1 _ _ he
      · exact h0 _ _ he
    rw [hl, Option.map_none, Option.map_none]
  | some x =>
    obtain ⟨e, L⟩ := x
    rintro ⟨hL, pa, fl, he, rfl⟩
    have hl := h.ok.leaves _ _ _ _ he
    rw [Option.map_some, hl.bits_pa, hl.bits_flags]
    rcases (by omega : L = 0 ∨ L = 1 ∨ L = 2) with rfl | rfl | rfl
    · rw [pow_zero, Nat.div_one] at he
      obtain ⟨p, hp⟩ := h.ok.up 0 _ (by rw [he]; exact Entry.noConfusion)
      rw [PTree.lookup_page hp.not_leaf he, levelPageSize_zero, Option.map_some]
    · rw [pow_one] at he
      rw [PTree.lookup_huge he, levelPageSize_one, Option.map_some,
        show pa + va % 2097152 = pa + 4096 * (va / 4096 % 512) + va % 4096 by omega]
    · exact absurd he (h.ok.top _ _ _)

theorem and_pteFlags (e : ℕ) (hperm : perm < 1024) : e &&& perm = pteFlags e &&& perm := by
  rw [pteFlags, Nat.and_assoc, Nat.and_comm 0x3FF perm, show 0x3FF = 2 ^ 10 - 1 from rfl,
    Nat.and_two_pow_sub_one_of_lt_two_pow hperm]

theorem mmu_eq (h : PT s R frame A) (hperm : perm < 1024) : mmu s.mem A.root va perm =
    if va < 2 ^ 38 then
      match A.lookup (va / 4096) with
      | some (pa, fl) => if fl &&& pteU = 0 ∨ fl &&& perm = 0 then none else some (pa + va % 4096)
      | none => none
    else none := by
  unfold mmu
  by_cases hva : va < 2 ^ 38
  swap
  · rw [if_pos (not_lt.1 hva), if_neg hva]
  have ht := translate_eq h hva
  rw [translate, if_neg (not_le.2 hva)] at ht
  rw [if_neg (not_le.2 hva), if_pos hva]
  cases hl : A.lookup (va / 4096) with
  | none =>
    rw [hl, Option.map_none, Option.map_eq_none_iff] at ht
    rw [ht]
  | some x =>
    rw [hl, Option.map_some, Option.map_eq_some_iff] at ht
    obtain ⟨⟨e, L⟩, he, hx⟩ := ht
    obtain ⟨hpa, hfl⟩ := Prod.mk.inj hx
    rw [he]
    dsimp only
    rw [and_pteFlags e hperm, and_pteFlags e (by norm_num : pteU < 1024), hfl, hpa]

end Mmu

/-! ## Address spaces of processes -/

/-- The memory of the process `p` : the page table `A` with user pages below `p->sz`, the
trapframe and the trampoline at `tramp`. -/
structure AddrSpace (s : Phys) (R : Set ℕ) (rest : Set (ℕ × ℕ)) (tramp : ℕ) (p : Proc)
    (A : PTree) : Prop where
  uvm : Uvm s R rest A
  root : p.pagetable = A.root
  sz_le : p.sz ≤ trapframe
  below : ∀ v, pages p.sz ≤ v → A.view s.mem v = none
  /-- `PTE_R | PTE_W`. -/
  frame : A.ent 0 topVpn = .leaf p.trapframe 7
  /-- `PTE_R | PTE_X`. -/
  tramp : A.ent 0 (topVpn + 1) = .leaf tramp 11

theorem pages_mono {a b : ℕ} (h : a ≤ b) : pages a ≤ pages b :=
  Nat.div_le_div_right (by omega)

/-- Nothing is mapped at or above `MAXVA`. -/
theorem PTree.Ok.absent_high {A : PTree} (h : A.Ok) {k : ℕ} (hk : 2 ^ 26 ≤ k) :
    A.ent 0 k = .absent := by
  by_contra hne
  obtain ⟨t, ht⟩ := h.table_above (v := k) (L := 0) (d := 1) (by simpa using hne) (by omega)
  rw [h.low _ (by omega)] at ht
  cases ht

namespace AddrSpace

variable {s s' : Phys} {R : Set ℕ} {rest rest' : Set (ℕ × ℕ)} {tramp : ℕ} {p : Proc}
  {A A' : PTree}

theorem topHidden (h : AddrSpace s R rest tramp p A) : TopHidden A := by
  intro k pa fl hk he
  rcases (by omega : k = topVpn ∨ k = topVpn + 1 ∨ topVpn + 2 ≤ k) with rfl | rfl | hk
  · rw [h.frame] at he
    rw [← (Entry.leaf.inj he).2]
    decide
  · rw [h.tramp] at he
    rw [← (Entry.leaf.inj he).2]
    decide
  · rw [h.uvm.pt.ok.absent_high (by simp only [topVpn] at hk; omega)] at he
    cases he

/-- The user memory has changed, and maybe the size. -/
theorem update (h : AddrSpace s R rest tramp p A) (hu : Uvm s' R rest' A') (ht : A.SameTop A')
    {sz : ℕ} (hsz : sz ≤ trapframe) (hbelow : ∀ v, pages sz ≤ v → A'.view s'.mem v = none) :
    AddrSpace s' R rest' tramp { p with sz := sz } A' where
  uvm := hu
  root := h.root.trans ht.root.symm
  sz_le := hsz
  below := hbelow
  frame := by rw [ht.top _ le_rfl, h.frame]
  tramp := by rw [ht.top _ (by omega), h.tramp]

theorem userStep (h : AddrSpace s R rest tramp p A)
    (hs : UserStep R rest (pages p.sz) s A s' A') : AddrSpace s' R rest tramp p A' :=
  h.update hs.uvm hs.top h.sz_le fun _ hv => hs.faults.below h.below hv

end AddrSpace

/-! ## `sbrk` -/

/-- The size after a successful `sbrk` : a shrink below zero is ignored. -/
def sbrkSize (sz : ℕ) (n : ℤ) : ℕ := if 0 ≤ sz + n then (sz + n).toNat else sz

section Sbrk

variable {s s' : Phys} {R : Set ℕ} {rest : Set (ℕ × ℕ)} {tramp : ℕ} {p : Proc} {A : PTree}
  {n : ℤ}

/-- Pages from `n` on are dropped, and new ones are cleared. -/
theorem contents_resize {V V' : View} {n : ℕ} (hlt : ∀ v < n, V' v = V v ∨
      (V v = none ∧ ∃ fl, V' v = some (fl, fun _ => 0))) (hge : ∀ v, n ≤ v → V' v = none)
    (va : ℕ) : contents V' va = if va / 4096 < n then contents V va else 0 := by
  unfold contents
  split_ifs with hc
  · rcases hlt _ hc with e | ⟨e, fl, e'⟩
    · rw [e]
    · rw [e, e']
  · rw [hge _ (by omega)]

/-- After `sbrk` : the size is the new one and the pages are those below it, or nothing has
changed. -/
def SbrkPost (s : Phys) (R : Set ℕ) (rest : Set (ℕ × ℕ)) (tramp : ℕ) (p : Proc) (A : PTree)
    (n ok : ℤ) (r : ℤ × Proc) (s' : Phys) : Prop :=
  ∃ A', AddrSpace s' R rest tramp r.2 A' ∧ Keeps rest s s' ∧
    ((r.1 = -1 ∧ r.2 = p ∧ A'.view s'.mem = A.view s.mem) ∨
      (r.1 = ok ∧ r.2 = { p with sz := sbrkSize p.sz n } ∧
        ∀ va, contents (A'.view s'.mem) va =
          if va / 4096 < pages (sbrkSize p.sz n) then contents (A.view s.mem) va else 0))

/-- What a shrink by `n` has to split, or that there is nothing to split. -/
def ShrinkRoom (E : String → Prop) (s : Phys) (A : PTree) (p : Proc) (n : ℤ) : Prop :=
  n < 0 → Splittable E s A (pages (sbrkSize p.sz n)) (pages p.sz)

/-- After an eager growth : cleared pages up to the new size, or the old pages, each in its old
frame. -/
def GrowPost (s : Phys) (R : Set ℕ) (rest : Set (ℕ × ℕ)) (tramp : ℕ) (p : Proc) (A : PTree)
    (n : ℤ) (r : ℤ × Proc) (s' : Phys) : Prop :=
  ∃ A', AddrSpace s' R rest tramp r.2 A' ∧ Keeps rest s s' ∧
    ((r = (-1, p) ∧ A'.view s'.mem = A.view s.mem ∧ ∀ v, A'.lookup v = A.lookup v) ∨
      (r = (0, { p with sz := sbrkSize p.sz n }) ∧ ∀ v, A'.view s'.mem v =
        if pages p.sz ≤ v ∧ v < pages (sbrkSize p.sz n) then some (23, fun _ => 0)
        else A.view s.mem v))

theorem growproc_grow_spec (h : AddrSpace s R rest tramp p A) (hpos : 0 < n)
    (hfit : p.sz + n ≤ trapframe) :
    wp (growproc p n) (GrowPost s R rest tramp p A n) noPanic s := by
  have hsz := h.sz_le
  simp only [trapframe, trampoline, maxVa, pgSize] at hsz hfit
  have hadd : addInt p.sz n = sbrkSize p.sz n := by
    rw [addInt, sbrkSize, if_pos (by omega), Int.emod_eq_of_lt (by omega) (by omega)]
  have hnew : p.sz < sbrkSize p.sz n ∧ sbrkSize p.sz n ≤ trapframe := by
    simp only [sbrkSize, trapframe, trampoline, maxVa, pgSize]
    split_ifs <;> omega
  have hspec := uvmalloc_spec _ pteW h.uvm h.below (Or.inl hnew.2) h.sz_le
    hnew.1.le ⟨by decide, by decide⟩
  rw [← h.root] at hspec
  rw [growproc, if_pos hpos, wp_bind, hadd]
  refine wp_post hspec ?_
  rintro r s' ⟨A', huvm, htop, hk, -, ⟨rfl, hpg, hview⟩ | ⟨rfl, _, hview, hlk, -⟩⟩
  · have hbelow : ∀ v, pages (sbrkSize p.sz n) ≤ v → A'.view s'.mem v = none := by
      intro v hv
      have hpm := pages_mono hnew.1.le
      rw [hview, if_neg (by omega)]
      exact h.below v (by omega)
    rw [if_neg (by omega), wp_pure]
    exact ⟨A', h.update huvm htop hnew.2 hbelow, hk, Or.inr ⟨rfl, hview⟩⟩
  · rw [if_pos rfl, wp_pure]
    refine ⟨A', h.update huvm htop h.sz_le ?_, hk, Or.inl ⟨rfl, hview, hlk⟩⟩
    rw [hview]
    exact h.below

theorem growproc_spec {E : String → Prop} (h : AddrSpace s R rest tramp p A) (hn : -2 ^ 31 ≤ n)
    (hfit : p.sz + n ≤ trapframe) (hroom : ShrinkRoom E s A p n) :
    wp (growproc p n) (SbrkPost s R rest tramp p A n 0) E s := by
  by_cases hpos : 0 < n
  · refine wp_mono (growproc_grow_spec h hpos hfit) ?_ fun _ => False.elim
    rintro r s' ⟨A', h', hk, ⟨rfl, hview, -⟩ | ⟨rfl, hview⟩⟩
    · exact ⟨A', h', hk, Or.inl ⟨rfl, rfl, hview⟩⟩
    · refine ⟨A', h', hk, Or.inr ⟨rfl, rfl, contents_resize (fun v hv => ?_) h'.below⟩⟩
      rw [hview]
      split_ifs with hc
      · exact Or.inr ⟨h.below v hc.1, _, rfl⟩
      · exact Or.inl rfl
  have hsz := h.sz_le
  simp only [trapframe, trampoline, maxVa, pgSize] at hsz hfit
  rw [growproc, if_neg hpos, wp_ite]
  refine ⟨fun hneg => ?_, fun hzero => ?_⟩
  · rw [wp_bind]
    have hmin : min p.sz (addInt p.sz n) = sbrkSize p.sz n := by
      rw [addInt, sbrkSize]
      split_ifs with hc
      · rw [Int.emod_eq_of_lt hc (by omega)]
        omega
      · rw [← Int.add_emod_right, Int.emod_eq_of_lt (by omega) (by omega)]
        omega
    have hspec := uvmdealloc_spec (addInt p.sz n) h.uvm h.sz_le fun hlt => by
      have hr := hroom hneg
      rwa [← hmin, min_eq_right hlt.le] at hr
    rw [← h.root] at hspec
    refine wp_post hspec ?_
    rintro r s' ⟨rfl, A', -, hu, -⟩
    rw [hmin, wp_pure]
    have hle : sbrkSize p.sz n ≤ trapframe := by
      rw [← hmin]
      exact (min_le_left _ _).trans h.sz_le
    -- the pages dropped are those from the new size on
    have hview : ∀ v, A'.view s'.mem v =
        if pages (sbrkSize p.sz n) ≤ v then none else A.view s.mem v := by
      intro v
      rw [hu.view]
      have hb := h.below v
      rcases le_total p.sz (addInt p.sz n) with hc | hc
      · have hpm := pages_mono hc
        rw [max_eq_left hpm, if_neg (by omega), ← hmin, min_eq_left hc]
        split_ifs with hv
        · exact hb hv
        · rfl
      · have hpm := pages_mono hc
        rw [max_eq_right hpm, ← hmin, min_eq_right hc]
        split_ifs with h1 h2 h2
        · rfl
        · omega
        · exact hb (by omega)
        · rfl
    have hbelow : ∀ v, pages (sbrkSize p.sz n) ≤ v → A'.view s'.mem v = none := by
      intro v hv
      rw [hview, if_pos hv]
    refine ⟨A', h.update hu.uvm hu.top hle hbelow, hu.keeps, Or.inr ⟨rfl, rfl,
      contents_resize (fun v hv => Or.inl ?_) hbelow⟩⟩
    rw [hview, if_neg (by omega)]
  · obtain rfl : n = 0 := by omega
    have hs0 : sbrkSize p.sz 0 = p.sz := by
      rw [sbrkSize, if_pos (by omega)]
      omega
    rw [wp_pure]
    refine ⟨A, h, .refl _ _, Or.inr ⟨rfl, by rw [hs0], contents_resize (fun _ _ => Or.inl rfl) ?_⟩⟩
    rw [hs0]
    exact h.below

theorem sysSbrk_spec {E : String → Prop} {eager : Bool} (h : AddrSpace s R rest tramp p A)
    (hn : -2 ^ 31 ≤ n) (hfit : p.sz + n ≤ trapframe) (hroom : ShrinkRoom E s A p n) :
    wp (sysSbrk p n eager) (SbrkPost s R rest tramp p A n p.sz) E s := by
  rw [sysSbrk, wp_ite, wp_ite]
  refine ⟨fun _ => ?_, fun hlazy => ?_⟩
  · rw [wp_bind]
    refine wp_post (growproc_spec h hn hfit hroom) ?_
    rintro ⟨r, p'⟩ s' ⟨A', h', hk, ⟨hr, hp, hview⟩ | ⟨hr, hp, hview⟩⟩
    · dsimp only at hr ⊢
      rw [hr, if_pos (by decide), wp_pure]
      exact ⟨A', h', hk, Or.inl ⟨rfl, hp, hview⟩⟩
    · dsimp only at hr ⊢
      rw [hr, if_neg (by decide), wp_pure]
      exact ⟨A', h', hk, Or.inr ⟨rfl, hp, hview⟩⟩
  · have hsz := h.sz_le
    have hfit' := hfit
    simp only [trapframe, trampoline, maxVa, pgSize] at hsz hfit'
    have hpos : 0 ≤ n := by
      by_contra hc
      exact hlazy (Or.inr (by omega))
    have hadd : addInt p.sz n = sbrkSize p.sz n := by
      rw [addInt, sbrkSize, if_pos (by omega), Int.emod_eq_of_lt (by omega) (by omega)]
    have hnew : p.sz ≤ sbrkSize p.sz n ∧ sbrkSize p.sz n ≤ trapframe := by
      simp only [sbrkSize, trapframe, trampoline, maxVa, pgSize]
      split_ifs <;> omega
    have hbelow : ∀ v, pages (sbrkSize p.sz n) ≤ v → A.view s.mem v = none := fun v hv =>
      h.below v ((pages_mono hnew.1).trans hv)
    rw [hadd, wp_pure, wp_pure]
    exact ⟨fun hlt => absurd hlt (by omega), fun _ => ⟨A, h.update h.uvm (.refl A) hnew.2 hbelow,
      .refl _ _, Or.inr ⟨rfl, rfl, contents_resize (fun _ _ => Or.inl rfl) hbelow⟩⟩⟩

end Sbrk

/-! ## Loads and stores -/

section Access

variable {s s' : Phys} {R : Set ℕ} {rest : Set (ℕ × ℕ)} {tramp : ℕ} {p : Proc} {A : PTree}
  {va perm : ℕ}

/-- A page fault maps a page with all the permissions of data. -/
def DataPerm (perm : ℕ) : Prop := perm = pteR ∨ perm = pteW

theorem DataPerm.lt (h : DataPerm perm) : perm < 1024 := by
  rcases h with rfl | rfl <;> decide

theorem DataPerm.granted (h : DataPerm perm) : ¬(23 &&& pteU = 0 ∨ 23 &&& perm = 0) := by
  rcases h with rfl | rfl <;> decide

/-- The frame of the page of `va`, of a translation that succeeds. -/
theorem Uvm.mmu_some (h : Uvm s R rest A) (hh : TopHidden A) (hperm : perm < 1024) {pa : ℕ}
    (he : mmu s.mem A.root va perm = some pa) : va / 4096 < topVpn ∧ ∃ pg fl,
      A.lookup (va / 4096) = some (pg, fl) ∧ ¬(fl &&& pteU = 0 ∨ fl &&& perm = 0) ∧
      pa = pg + va % 4096 := by
  rw [mmu_eq h.pt hperm] at he
  split_ifs at he with hva
  cases hl : A.lookup (va / 4096) with
  | none =>
    rw [hl] at he
    cases he
  | some x =>
    obtain ⟨pg, fl⟩ := x
    rw [hl] at he
    dsimp only at he
    split_ifs at he with hfl
    obtain rfl := Option.some.inj he
    refine ⟨?_, pg, fl, rfl, hfl, rfl⟩
    by_contra hv
    -- the pages at the top are hidden
    rcases PTree.lookup_eq_some.1 hl with ⟨b, hb, _⟩ | ⟨_, hb⟩
    · have := PTree.user_one.1 (h.huge _ _ _ hb)
      simp only [topVpn] at this hv
      omega
    · exact hfl (Or.inl (hh _ _ _ (not_lt.1 hv) hb))

theorem AddrSpace.mmu_some (h : AddrSpace s R rest tramp p A) (hperm : DataPerm perm) {pa : ℕ}
    (he : mmu s.mem p.pagetable va perm = some pa) :
    va / 4096 < topVpn ∧ ∃ pg fl, A.lookup (va / 4096) = some (pg, fl) ∧ pa = pg + va % 4096 := by
  rw [h.root] at he
  obtain ⟨hv, pg, fl, hl, -, hpa⟩ := h.uvm.mmu_some h.topHidden hperm.lt he
  exact ⟨hv, pg, fl, hl, hpa⟩

/-- A translation that fails : there is no page, or it denies the access. -/
theorem AddrSpace.mmu_none (h : AddrSpace s R rest tramp p A) (hperm : DataPerm perm)
    (he : mmu s.mem p.pagetable va perm = none) (hv : va / 4096 < topVpn)
    (hne : A.lookup (va / 4096) ≠ none) : Denied (A.view s.mem) (va / 4096) perm := by
  obtain ⟨⟨pg, fl⟩, hl⟩ := Option.ne_none_iff_exists'.1 hne
  simp only [topVpn] at hv
  rw [h.root, mmu_eq h.uvm.pt hperm.lt, if_pos (by omega), hl] at he
  dsimp only at he
  refine ⟨fl, _, by rw [PTree.view_of_lt hv, hl, Option.map_some], ?_⟩
  by_contra hc
  rw [if_neg hc] at he
  cases he

/-- An access finds the frame of the page, or there is a reason that it does not. -/
theorem userAccess_spec (h : AddrSpace s R rest tramp p A) (hperm : DataPerm perm) :
    wp (userAccess p va perm) (fun r s' => ∃ A', UserStep R rest (pages p.sz) s A s' A' ∧
      contents (A'.view s'.mem) = contents (A.view s.mem) ∧
      (∀ pa, r = some pa → va / 4096 < topVpn ∧
        ∃ pg fl, A'.lookup (va / 4096) = some (pg, fl) ∧ pa = pg + va % 4096) ∧
      (r = none → p.sz ≤ va ∨ Refused (pages p.sz) (A'.view s'.mem) s' (va / 4096) perm))
      noPanic s := by
  rw [userAccess, wp_bind, wp_get]
  cases he : mmu s.mem p.pagetable va perm with
  | some pa =>
    dsimp only
    rw [wp_pure]
    refine ⟨A, .refl h.uvm, rfl, fun pa' hpa => ?_, nofun⟩
    obtain rfl := Option.some.inj hpa
    exact h.mmu_some hperm he
  | none =>
    dsimp only
    have hfault := vmfault_spec va h.uvm h.root h.sz_le
    rw [← h.root] at hfault
    rw [wp_bind]
    refine wp_post hfault ?_
    rintro r s' ⟨A', hstep, hc, hr, hr0, -⟩
    rw [wp_ite, wp_pure, wp_bind, wp_get, wp_pure]
    refine ⟨fun h0 => ⟨A', hstep, hc, nofun, fun _ => ?_⟩, fun hne => ⟨A', hstep, hc, ?_, ?_⟩⟩
    · rcases hr0 h0 with hle | hl | hex
      · exact Or.inl hle
      · by_cases hv : pages p.sz ≤ va / 4096
        · exact Or.inr (Or.inl hv)
        · have hpages := pages_le h.sz_le
          exact Or.inr (Or.inr (Or.inl
            ((h.mmu_none hperm he (by omega) hl).of_faults hstep.faults)))
      · exact Or.inr (Or.inr (Or.inr hex))
    · intro pa hpa
      exact (h.userStep hstep).mmu_some hperm hpa
    · -- the page that was mapped grants the access
      intro hnone
      obtain ⟨hlt, hl⟩ := hr hne
      have hsz := h.sz_le
      simp only [trapframe, trampoline, maxVa, pgSize] at hsz
      rw [(h.userStep hstep).root, mmu_eq hstep.uvm.pt hperm.lt, if_pos (by omega), hl] at hnone
      dsimp only at hnone
      rw [if_neg hperm.granted] at hnone
      cases hnone

theorem userLoad_spec (h : AddrSpace s R rest tramp p A) :
    wp (userLoad p va) (fun r s' => ∃ A', UserStep R rest (pages p.sz) s A s' A' ∧
      contents (A'.view s'.mem) = contents (A.view s.mem) ∧
      (∀ b, r = some b → va / 4096 < pages p.sz ∧ b = contents (A.view s.mem) va) ∧
      (r = none → p.sz ≤ va ∨ Refused (pages p.sz) (A'.view s'.mem) s' (va / 4096) pteR))
      noPanic s := by
  rw [userLoad, wp_bind]
  refine wp_post (userAccess_spec h (Or.inl rfl)) ?_
  rintro r s' ⟨A', hstep, hc, hr, hr0⟩
  cases r with
  | none =>
    dsimp only
    rw [wp_pure]
    exact ⟨A', hstep, hc, nofun, fun _ => hr0 rfl⟩
  | some pa =>
    obtain ⟨hv, pg, fl, hl, rfl⟩ := hr pa rfl
    have hview : A'.view s'.mem (va / 4096) = some (fl, fun i : Fin 4096 => s'.mem (pg + i)) := by
      rw [PTree.view_of_lt hv, hl, Option.map_some]
    dsimp only
    rw [wp_bind, wp_get, wp_pure]
    refine ⟨A', hstep, hc, fun b hb => ⟨?_, ?_⟩, nofun⟩
    · by_contra hge
      rw [hstep.faults.below h.below (not_lt.1 hge)] at hview
      cases hview
    · rw [← Option.some.inj hb, ← hc, ← contents_page hview (Nat.mod_lt va (by omega)),
        Nat.div_add_mod]

theorem userStore_spec {b : UInt8} (h : AddrSpace s R rest tramp p A) :
    wp (userStore p va b) (fun r s' => ∃ A', UserStep R rest (pages p.sz) s A s' A' ∧
      ((r = true ∧ va / 4096 < pages p.sz ∧
          contents (A'.view s'.mem) = storeBytes (contents (A.view s.mem)) va [b]) ∨
        (r = false ∧ contents (A'.view s'.mem) = contents (A.view s.mem) ∧
          (p.sz ≤ va ∨ Refused (pages p.sz) (A'.view s'.mem) s' (va / 4096) pteW))))
      noPanic s := by
  rw [userStore, wp_bind]
  refine wp_post (userAccess_spec h (Or.inr rfl)) ?_
  rintro r s' ⟨A', hstep, hc, hr, hr0⟩
  cases r with
  | none =>
    dsimp only
    rw [wp_pure]
    exact ⟨A', hstep, Or.inr ⟨rfl, hc, hr0 rfl⟩⟩
  | some pa =>
    obtain ⟨hv, pg, fl, hl, rfl⟩ := hr pa rfl
    have hview : A'.view s'.mem (va / 4096) = some (fl, fun i : Fin 4096 => s'.mem (pg + i)) := by
      rw [PTree.view_of_lt hv, hl, Option.map_some]
    have hlt : va % 4096 < 4096 := Nat.mod_lt va (by omega)
    obtain ⟨h₁, hk₁, hview₁⟩ := hstep.uvm.store_user
      (m := storeBytes s'.mem (pg + va % 4096) [b]) hv hl
      fun x hx => if_neg (by rw [List.length_singleton]; omega)
    have hstep₁ := hstep.trans (UserStep.of_store h₁ hk₁ hview hview₁)
    dsimp only
    rw [wp_bind, wp_modify, wp_pure]
    refine ⟨A', hstep₁, Or.inl ⟨rfl, ?_, ?_⟩⟩
    · by_contra hge
      rw [hstep.faults.below h.below (not_lt.1 hge)] at hview
      cases hview
    · rw [Phys.setMem_mem, hview₁, contents_store hview (by rw [List.length_singleton]; omega),
        hc, Nat.div_add_mod]

end Access

end Xv6Plus
