import Xv6Plus.ProcSpec
import Xv6Plus.Argv

/-!
# `exec`

`kexec` builds the new image in a page table of its own, beside the old address space, and
switches over only when everything has succeeded. `Image` is what the new page table holds on
the way : user pages from zero up to some size, all of them mapped, so there are never more
than the machine has and every address stays far below the trapframe. Whatever the file holds,
no panic is reached, and a failure gives back all that was taken.
-/

namespace Xv6Plus

/-! ## `uvmclear` -/

section Clear

variable {s : Phys} {R : Set ℕ} {rest : Set (ℕ × ℕ)} {A : PTree} {v pa fl : ℕ}

/-- Clearing `PTE_U`, in numbers. -/
theorem and_not_pteU {e : ℕ} (he : e < 2 ^ 64) :
    e &&& (2 ^ 64 - 1 - pteU) = 32 * (e / 32) + e % 16 := by
  have hdiv : (e &&& (2 ^ 64 - 1 - pteU)) / 2 ^ 5 = e / 32 := by
    rw [Nat.and_div_two_pow, show (2 ^ 64 - 1 - pteU) / 2 ^ 5 = 2 ^ 59 - 1 from rfl,
      Nat.and_two_pow_sub_one_eq_mod, Nat.mod_eq_of_lt (by omega)]
  have hmod : (e &&& (2 ^ 64 - 1 - pteU)) % 2 ^ 5 = e % 16 := by
    rw [Nat.and_mod_two_pow, show (2 ^ 64 - 1 - pteU) % 2 ^ 5 = 2 ^ 4 - 1 from rfl,
      Nat.and_two_pow_sub_one_eq_mod]
    omega
  rw [← Nat.div_add_mod (e &&& (2 ^ 64 - 1 - pteU)) (2 ^ 5), hdiv, hmod]
  norm_num

/-- The flags without `PTE_U`. -/
def hideFlags (fl : ℕ) : ℕ := 32 * (fl / 32) + fl % 16

theorem hideFlags_and (fl : ℕ) : hideFlags fl &&& pteU = 0 := by
  refine Nat.eq_of_testBit_eq fun i => ?_
  rw [Nat.testBit_and, Nat.zero_testBit, show pteU = 2 ^ 4 from rfl, Nat.testBit_two_pow]
  by_cases hi : 4 = i
  · subst hi
    rw [decide_eq_true rfl, Bool.and_true, Nat.testBit_eq_decide_div_mod_eq,
      decide_eq_false_iff_not, hideFlags]
    omega
  · rw [decide_eq_false hi, Bool.and_false]

theorem LeafOk.hide {L : ℕ} (h : LeafOk L pa fl) : LeafOk L pa (hideFlags fl) := by
  have hand : ∀ m < 16, hideFlags fl &&& m = fl &&& m := by
    intro m hm
    have hm' : m = m % 2 ^ 4 := by omega
    have key : ∀ x : ℕ, (x &&& m) = (x % 2 ^ 4 &&& m) := by
      intro x
      have h1 : x &&& m < 2 ^ 4 := (Nat.and_le_right).trans_lt hm
      rw [← Nat.mod_eq_of_lt h1, Nat.and_mod_two_pow, ← hm']
    rw [key, key fl, show hideFlags fl % 2 ^ 4 = fl % 2 ^ 4 by simp only [hideFlags]; omega]
  refine ⟨h.aligned, h.lt, ?_, ?_, ?_⟩
  · have := h.flags_lt
    simp only [hideFlags]
    omega
  · rw [hand 1 (by omega)]
    exact h.valid
  · rw [hand 14 (by omega)]
    exact h.rwx

theorem LeafOk.bits_hide {L : ℕ} (h : LeafOk L pa fl) :
    (Entry.leaf pa fl).bits &&& (2 ^ 64 - 1 - pteU) = (Entry.leaf pa (hideFlags fl)).bits := by
  have h1 := h.lt
  have h2 := h.flags_lt
  rw [and_not_pteU (by simp only [Entry.bits]; omega)]
  simp only [Entry.bits, hideFlags]
  omega

theorem Uvm.set_flags {fl' p : ℕ} (h : Uvm s R rest A) (he : A.ent 0 v = .leaf pa fl)
    (hl : LeafOk 0 pa fl') (ht : A.IsTable 0 (v / 512) p) :
    Uvm (s.setMem (write64 s.mem (p + 8 * (v % 512)) (Entry.leaf pa fl').bits)) R rest
        (A.put 0 v (.leaf pa fl') PTree.noKids) ∧
      Keeps (A.leaves ∪ rest) s
        (s.setMem (write64 s.mem (p + 8 * (v % 512)) (Entry.leaf pa fl').bits)) := by
  have hok := h.pt.ok
  have hold : ∀ q, A.ent 0 v ≠ .table q := hok.bottom v
  obtain ⟨hpt, hk⟩ := h.pt.set (.of_leaf (by omega) ht hl) hold fun _ => Entry.noConfusion
  -- the leaf maps the same block as before
  have hown : ∀ L k b, (A.put 0 v (.leaf pa fl') PTree.noKids).OwnLeaf L k b ↔ A.OwnLeaf L k b := by
    intro L k b
    rw [PTree.ownLeaf_set hok (by omega) hold]
    by_cases hc : L = 0 ∧ k = v
    · obtain ⟨rfl, rfl⟩ := hc
      simp [PTree.OwnLeaf, he]
    · simp only [hc, not_false_eq_true, true_and]
      refine ⟨fun h => h.elim (fun h => absurd ⟨h.1, h.2.1⟩ hc) id, Or.inr⟩
  have hleaves : (A.put 0 v (.leaf pa fl') PTree.noKids).leaves = A.leaves := by
    ext b
    simp only [PTree.leaves, hown]
  refine ⟨⟨by rw [hleaves]; exact hpt, by rw [hleaves]; exact h.apart, ?_, ?_⟩, hk⟩
  · intro L k k' b h1 h2
    rw [hown] at h1 h2
    exact h.inj L k k' b h1 h2
  · intro k b f hb
    rw [PTree.put_other (by omega) (by omega)] at hb
    exact h.huge k b f hb

/-- The page is there but not for the user any more. -/
theorem uvmclear_spec (h : Uvm s R rest A) (hv : v < topVpn)
    (hl : A.lookup v = some (pa, fl)) (hsmall : ∀ b f, A.ent 1 (v / 512) ≠ .leaf b f) :
    wp (uvmclear A.root (4096 * v)) (fun _ s' => ∃ A', Uvm s' R rest A' ∧ A.SameTop A' ∧
      Keeps rest s s' ∧ A'.lookup v = some (pa, hideFlags fl) ∧
      (∀ v' ≠ v, A'.lookup v' = A.lookup v') ∧ ∀ k, A'.ent 1 k = A.ent 1 k) noPanic s := by
  have hva : 4096 * v / 4096 = v := Nat.mul_div_cancel_left _ (by omega)
  have he : A.ent 0 v = .leaf pa fl := by
    rcases PTree.lookup_eq_some.1 hl with ⟨b, hb, _⟩ | ⟨_, he⟩
    · exact absurd hb (hsmall _ _)
    · exact he
  have hlo := h.pt.ok.leaves _ _ _ _ he
  rw [uvmclear, walk, wp_bind, wp_bind]
  refine wp_post (walkWithLevel_spec h.pt (by simp only [topVpn] at hv; omega)) ?_
  rintro r s' ⟨rfl, hf⟩
  rw [hva] at hf
  cases hf with
  | missing _ h0 =>
    rw [he] at h0
    cases h0
  | huge _ hh => exact absurd hh (hsmall _ _)
  | page ht =>
    have hp := h.pt.table_page ht
    obtain ⟨hu, hk⟩ := h.set_flags he hlo.hide ht
    dsimp only
    rw [wp_pure, if_neg (by omega), wp_bind, wp_load64, wp_store64, h.pt.rep.entry ht, he,
      hlo.bits_hide]
    refine ⟨_, hu, ⟨rfl, fun k hk => PTree.put_other (by omega) (by omega)⟩,
      hk.mono Set.subset_union_right, ?_, fun v' hv' => PTree.lookup_set_page_ne hv',
      fun k => PTree.put_other (by omega) (by omega)⟩
    refine PTree.lookup_page (fun b f hb => hsmall b f ?_) PTree.put_same
    rw [PTree.put_other (by omega) (by omega)] at hb
    exact hb

end Clear

/-! ## The new image -/

/-- The page table `A` maps the `n` pages from zero on, and nothing else for the user. -/
structure Image (R : Set ℕ) (rest : Set (ℕ × ℕ)) (s₀ : Phys) (A₀ : PTree) (n : ℕ) (s : Phys)
    (A : PTree) : Prop where
  uvm : Uvm s R rest A
  top : A₀.SameTop A
  keeps : Keeps rest s₀ s
  mapped : ∀ v < n, ∃ fl b, A.view s.mem v = some (fl, b) ∧ fl &&& pteU ≠ 0
  below : ∀ v, n ≤ v → A.view s.mem v = none
  small : ∀ k b f, A.ent 1 k ≠ .leaf b f

section Image

variable {s s₀ : Phys} {R : Set ℕ} {rest : Set (ℕ × ℕ)} {A A₀ : PTree} {n sz newsz xperm : ℕ}

/-- All pages are mapped, so the machine has that many. -/
theorem Image.le (h : Image R rest s₀ A₀ n s A) : n ≤ 32768 := by
  by_contra hc
  have := h.uvm.mapped_le 0 (w := 32769) (by decide) fun v _ hv => by
    obtain ⟨fl, b, hview, _⟩ := h.mapped v (by omega)
    rw [hview]
    exact Option.some_ne_none _
  omega

/-- A user page of the image, at its frame. -/
theorem Image.lookup (h : Image R rest s₀ A₀ n s A) {v : ℕ} (hv : v < n) :
    v < topVpn ∧ ∃ pa fl, A.lookup v = some (pa, fl) ∧ fl &&& pteU ≠ 0 ∧
      A.userAddr (4096 * v) = pa ∧ pa ≠ 0 := by
  have hle := h.le
  have hvt : v < topVpn := by
    simp only [topVpn]
    omega
  obtain ⟨fl, b, hview, hU⟩ := h.mapped v hv
  rw [PTree.view_of_lt hvt, Option.map_eq_some_iff] at hview
  obtain ⟨⟨pa, fl'⟩, hl, heq⟩ := hview
  obtain ⟨rfl, -⟩ := Prod.mk.inj heq
  obtain ⟨L, c, hc, h1, _⟩ := PTree.lookup_block hl hvt h.uvm.huge
  have hpos := (h.uvm.owns.mem_own (Or.inr hc)).2.1
  refine ⟨hvt, pa, fl', hl, hU, ?_, by omega⟩
  unfold PTree.userAddr
  rw [Nat.mul_div_cancel_left _ (by omega), hl]
  dsimp only at hU ⊢
  rw [if_neg hU, Nat.mul_mod_right, Nat.add_zero]

/-- Permissions that `uvmalloc` gets in `kexec`. -/
def ExecPerm (xperm : ℕ) : Prop :=
  PermOk (pteR ||| pteU ||| xperm) ∧ (pteR ||| pteU ||| xperm ||| pteV) &&& pteU ≠ 0

theorem execPerm_flags2perm (flags : ℕ) : ExecPerm (flags2perm flags) := by
  unfold flags2perm
  split_ifs <;> exact ⟨⟨by decide, by decide⟩, by decide⟩

theorem pages_le_iff {a m : ℕ} : pages a ≤ m ↔ a ≤ 4096 * m := by
  simp only [pages]
  omega

/-- The image grows, or stays as it was. -/
theorem Image.uvmalloc_spec (h : Image R rest s₀ A₀ (pages sz) s A) (newsz : ℕ)
    (hperm : ExecPerm xperm) :
    wp (uvmalloc A₀.root sz newsz xperm) (fun r s' => ∃ A',
      (r = 0 ∧ Image R rest s₀ A₀ (pages sz) s' A' ∧ Scarce s A (pages sz) (pages newsz)) ∨
      (r = max sz newsz ∧ Image R rest s₀ A₀ (pages r) s' A' ∧
        ∀ v, pages sz ≤ v → v < pages r → ∃ b,
          A'.view s'.mem v = some (pteR ||| pteU ||| xperm ||| pteV, b))) noPanic s := by
  have hle := h.le
  by_cases hlt : newsz < sz
  · rw [uvmalloc, if_pos hlt, wp_pure, max_eq_left hlt.le]
    exact ⟨A, Or.inr ⟨rfl, h, fun v h1 h2 => by omega⟩⟩
  have hsz : sz ≤ trapframe := by
    rw [pages_le_iff] at hle
    simp only [trapframe, trampoline, maxVa, pgSize]
    omega
  rw [← h.top.root]
  refine wp_post (Xv6Plus.uvmalloc_spec newsz xperm h.uvm h.below
    (Or.inr (by simp only [topVpn]; omega)) hsz (not_lt.1 hlt) hperm.1) ?_
  rintro r s' ⟨A', hu, htop, hk, hhuge, ⟨rfl, hpg, hview⟩ | ⟨rfl, _, hview, -, hscarce⟩⟩
  · have hsmall : ∀ k b f, A'.ent 1 k ≠ .leaf b f := fun k b f he =>
      h.small k b f (hhuge k b f he)
    have hmono := pages_mono (not_lt.1 hlt)
    refine ⟨A', Or.inr ⟨(max_eq_right (not_lt.1 hlt)).symm, ⟨hu, h.top.trans htop, h.keeps.trans hk,
      fun v hv => ?_, fun v hv => ?_, hsmall⟩, fun v h1 h2 => ⟨fun _ => 0, ?_⟩⟩⟩
    · rw [hview]
      split_ifs with hc
      · exact ⟨_, _, rfl, hperm.2⟩
      · exact h.mapped v (by omega)
    · rw [hview, if_neg (by omega)]
      exact h.below v (by omega)
    · rw [hview, if_pos ⟨h1, h2⟩]
  · refine ⟨A', Or.inl ⟨rfl, ⟨hu, h.top.trans htop, h.keeps.trans hk, ?_, ?_,
      fun k b f he => h.small k b f (hhuge k b f he)⟩, hscarce⟩⟩
    · rw [hview]
      exact h.mapped
    · rw [hview]
      exact h.below

/-- Bytes of the file are stored in a page of the image. -/
theorem Image.store (data : List UInt8) (h : Image R rest s₀ A₀ n s A) {v pa fl : ℕ}
    (hv : v < topVpn) (hl : A.lookup v = some (pa, fl)) (hlen : data.length ≤ 4096) :
    Image R rest s₀ A₀ n (s.setMem (storeBytes s.mem pa data)) A := by
  obtain ⟨hu, hk, hview⟩ := h.uvm.store_user (m := storeBytes s.mem pa data) hv hl
    fun x hx => if_neg (by omega)
  have hold : A.view s.mem v = some (fl, fun i : Fin 4096 => s.mem (pa + i)) := by
    rw [PTree.view_of_lt hv, hl, Option.map_some]
  refine ⟨hu, h.top, h.keeps.trans hk, fun v' hv' => ?_, fun v' hv' => ?_, h.small⟩
  · obtain ⟨fl', b, hb, hU⟩ := h.mapped v' hv'
    rw [Phys.setMem_mem, hview]
    by_cases hvv : v' = v
    · subst hvv
      rw [hold] at hb
      obtain ⟨rfl, -⟩ := Prod.mk.inj (Option.some.inj hb)
      exact ⟨fl, _, Function.update_self .., hU⟩
    · exact ⟨fl', b, by rw [Function.update_of_ne hvv, hb], hU⟩
  · have hvv : v' ≠ v := by
      rintro rfl
      rw [h.below v' hv'] at hold
      cases hold
    rw [Phys.setMem_mem, hview, Function.update_of_ne hvv]
    exact h.below v' hv'

theorem loadsegLoop_spec {w : ℕ} {file : ExecFile} {offset fsz : ℕ}
    (hend : 4096 * w + fsz ≤ 4096 * n) : ∀ {turns j : ℕ} {s : Phys}, Image R rest s₀ A₀ n s A →
    wp (loadsegLoop A₀.root (4096 * w) file offset fsz turns (4096 * j))
      (fun _ s' => Image R rest s₀ A₀ n s' A) noPanic s
  | 0, j, s, h => by
    rw [loadsegLoop, wp_pure]
    exact h
  | turns + 1, j, s, h => by
    have hle := h.le
    rw [loadsegLoop, wp_ite, wp_pure]
    refine ⟨fun hlt => ?_, fun _ => h⟩
    obtain ⟨hv, pa, fl, hl, _, haddr, hne⟩ := h.lookup (v := w + j) (by omega)
    have hva : wrap64 (4096 * w + 4096 * j) = 4096 * (w + j) := by
      rw [wrap64, Nat.mod_eq_of_lt (by omega), Nat.mul_add]
    rw [wp_bind, hva, ← h.top.root]
    refine wp_post (walkaddr_spec h.uvm (by omega)) ?_
    rintro r s' ⟨rfl, rfl⟩
    dsimp only
    rw [haddr, if_neg hne, wp_bind, wp_modify, wp_ite, wp_pure]
    have hst := h.store (file.read ((offset + 4096 * j) % 2 ^ 32) (min (fsz - 4096 * j) pgSize)) hv
      hl ((file.read_le _ _).trans (min_le_right _ _))
    refine ⟨fun _ => hst, fun _ => ?_⟩
    rw [h.top.root, show (4096 * j + pgSize) % 2 ^ 32 = 4096 * (j + 1) by
      simp only [pgSize]
      omega]
    exact loadsegLoop_spec hend hst

theorem loadProgram_spec {file : ExecFile} : ∀ {m off sz : ℕ} {s : Phys} {A : PTree},
    Image R rest s₀ A₀ (pages sz) s A →
    wp (loadProgram A₀.root file m off sz) (fun r s' => ∃ A',
      Image R rest s₀ A₀ (pages r.2) s' A' ∧ (m = 0 → r = (true, sz) ∧ s' = s ∧ A' = A)) noPanic s
  | 0, off, sz, s, A, h => by
    rw [loadProgram, wp_pure]
    exact ⟨A, h, fun _ => ⟨rfl, rfl, rfl⟩⟩
  | m + 1, off, sz, s, A, h => by
    have hmore : ∀ {x : Kern Phys (Bool × ℕ)} {t : Phys}, wp x (fun r s' => ∃ A',
        Image R rest s₀ A₀ (pages r.2) s' A') noPanic t → wp x (fun r s' => ∃ A',
        Image R rest s₀ A₀ (pages r.2) s' A' ∧ (m + 1 = 0 → r = (true, sz) ∧ s' = s ∧ A' = A))
        noPanic t := fun hx => wp_post hx fun _ _ ⟨A', h'⟩ => ⟨A', h', nofun⟩
    have hnext : ∀ {sz' : ℕ} {t : Phys} {A₁ : PTree}, Image R rest s₀ A₀ (pages sz') t A₁ →
        wp (loadProgram A₀.root file m (off + 56) sz') (fun r s' => ∃ A',
          Image R rest s₀ A₀ (pages r.2) s' A') noPanic t := fun h' =>
      wp_post (loadProgram_spec h') fun _ _ ⟨A', h', _⟩ => ⟨A', h'⟩
    have hbad : ∃ A', Image R rest s₀ A₀ (pages (false, sz).2) s A' := ⟨A, h⟩
    refine hmore ?_
    rw [loadProgram]
    dsimp only
    rw [wp_ite, wp_ite, wp_ite, wp_ite, wp_ite, wp_pure]
    refine ⟨fun _ => hbad, fun _ => ⟨fun _ => hnext h, fun _ => ⟨fun _ => hbad,
      fun hmem => ⟨fun _ => hbad, fun hwrap => ⟨fun _ => hbad, fun hal => ?_⟩⟩⟩⟩⟩
    rw [wp_bind]
    refine wp_post (h.uvmalloc_spec _ (execPerm_flags2perm _)) ?_
    rintro sz1 s₁ ⟨A₁, hr⟩
    rw [wp_ite, wp_pure]
    rcases hr with ⟨rfl, h₁, -⟩ | ⟨hmax, h₁, -⟩
    · exact ⟨fun _ => ⟨A₁, h₁⟩, fun hne => absurd rfl hne⟩
    · refine ⟨fun hz => ⟨A₁, ?_⟩, fun hne => ?_⟩
      · -- a segment of size zero at zero
        have hsz : sz = sz1 := by omega
        rw [hsz]
        exact h₁
      · generalize hfsz : read64 (bytesAt (file.read (off % 2 ^ 32) 56)) 32 = fsz at hmem ⊢
        generalize hmsz : read64 (bytesAt (file.read (off % 2 ^ 32) 56)) 40 = msz at *
        generalize hva : read64 (bytesAt (file.read (off % 2 ^ 32) 56)) 16 = va at *
        have hva64 : va < 2 ^ 64 := by
          rw [← hva]
          exact read64_lt _ _
        have hmsz64 : msz < 2 ^ 64 := by
          rw [← hmsz]
          exact read64_lt _ _
        obtain ⟨w, rfl⟩ : ∃ w, va = 4096 * w := ⟨va / 4096, by simp only [pgSize] at hal; omega⟩
        -- the segment ends at or below the new size
        have hend : 4096 * w + fsz % 2 ^ 32 ≤ 4096 * pages sz1 := by
          rw [wrap64] at hmax hwrap
          simp only [pages]
          omega
        rw [wp_bind, loadseg]
        refine wp_post (loadsegLoop_spec (j := 0) hend h₁) ?_
        rintro r s₂ h₂
        rw [wp_ite, wp_pure]
        exact ⟨fun _ => ⟨A₁, h₂⟩, fun _ => hnext h₂⟩

end Image

/-! ## The stack -/

section Stack

variable {s s₀ : Phys} {R : Set ℕ} {rest : Set (ℕ × ℕ)} {A : PTree} {v pa : ℕ} {p : Proc}

/-- `copyout` into one page that is mapped for reading and writing : there is no page fault,
so it does not matter which process runs it. -/
theorem copyout_page_spec (dstva : ℕ) {data : List UInt8} (h : Uvm s R rest A) (hv : v < topVpn)
    (hl : A.lookup v = some (pa, 23)) (hdst : dstva / 4096 = v)
    (hlen : dstva % 4096 + data.length ≤ 4096) :
    wp (copyout p A.root dstva data) (fun r s' => r = 0 ∧ Uvm s' R rest A ∧ Keeps rest s s' ∧
      contents (A.view s'.mem) = storeBytes (contents (A.view s.mem)) dstva data) noPanic s := by
  have hvn := hv
  simp only [topVpn] at hvn
  obtain ⟨L, c, hc, h1, _⟩ := PTree.lookup_block hl hv h.huge
  have hpos := (h.owns.mem_own (Or.inr hc)).2.1
  have haddr : A.userAddr (4096 * v) = pa := by
    unfold PTree.userAddr
    rw [Nat.mul_div_cancel_left _ (by omega), hl]
    dsimp only
    rw [if_neg (by decide), Nat.mul_mod_right, Nat.add_zero]
  -- nothing is left to copy
  have hdone : ∀ turns d s', wp (copyoutLoop p A.root turns d []) (fun r t => r = 0 ∧ t = s')
      noPanic s' := by
    intro turns d s'
    cases turns with
    | zero => rw [copyoutLoop, wp_pure]; exact ⟨rfl, rfl⟩
    | succ turns =>
      rw [copyoutLoop, if_neg (by simp), wp_pure]
      exact ⟨rfl, rfl⟩
  rw [copyout]
  obtain ⟨turns, ht⟩ : ∃ turns, turns = data.length := ⟨_, rfl⟩
  rw [← ht]
  cases turns with
  | zero =>
    obtain rfl : data = [] := List.length_eq_zero_iff.1 ht.symm
    refine wp_post (hdone 0 dstva s) ?_
    rintro r s' ⟨rfl, rfl⟩
    exact ⟨rfl, h, .refl _ _, (storeBytes_nil _ _).symm⟩
  | succ turns =>
    have hdown : pgRoundDown dstva = 4096 * v := by
      rw [← hdst]
      exact Nat.mul_comm _ _
    rw [copyoutLoop, if_pos (by omega)]
    dsimp only
    rw [hdown, if_neg (by simp only [maxVa]; omega), useraddr, wp_bind, wp_bind]
    refine wp_post (walkaddr_spec h (by omega)) ?_
    rintro r s' ⟨rfl, rfl⟩
    rw [haddr, if_neg (by omega), wp_pure, if_neg (by omega), wp_bind]
    have hva : 4096 * v / 4096 = v := Nat.mul_div_cancel_left _ (by omega)
    refine wp_post (walk_mapped_spec h (by omega) (by rw [hva]; exact hl)) ?_
    rintro pte s'' ⟨rfl, hpte, hmask⟩
    rw [if_neg hpte, wp_bind, wp_load64, hmask _ (by decide), if_neg (by decide), wp_bind,
      wp_modify]
    have hn : min (pgSize - (dstva - 4096 * v)) data.length = data.length := by
      simp only [pgSize]
      omega
    rw [hn, List.take_length, List.drop_length]
    obtain ⟨hu, hk, hview⟩ := h.store_user
      (m := storeBytes s''.mem (pa + (dstva - 4096 * v)) data) hv hl fun x hx => if_neg (by omega)
    refine wp_post (hdone _ _ _) ?_
    rintro r t ⟨rfl, rfl⟩
    refine ⟨rfl, hu, hk, ?_⟩
    rw [Phys.setMem_mem, hview, contents_store (by rw [PTree.view_of_lt hv, hl, Option.map_some])
      (by omega), show 4096 * v + (dstva - 4096 * v) = dstva by omega]

/-- Beyond the address space nothing is copied. -/
theorem copyout_high {pagetable dstva : ℕ} {data : List UInt8} (hne : data ≠ [])
    (hdst : maxVa ≤ pgRoundDown dstva) : copyout p pagetable dstva data = pure (-1) := by
  obtain ⟨b, data, rfl⟩ := List.exists_cons_of_ne_nil hne
  rw [copyout, List.length_cons, copyoutLoop, if_pos (by simp)]
  dsimp only
  rw [if_pos hdst]

/-- After `pushArgs` from `sp` on, in the page `v` of the stack : the strings are on the stack, or
there is no room for them or for their addresses. -/
def PushPost (R : Set ℕ) (rest : Set (ℕ × ℕ)) (A : PTree) (v : ℕ) (argv : List (List UInt8))
    (sp : ℕ) (ustack : List ℕ) (s : Phys) (r : Option (ℕ × List ℕ)) (s' : Phys) : Prop :=
  Uvm s' R rest A ∧ Keeps rest s s' ∧
    ((r = none ∧ (sp < 4096 * v + argsSize argv ∨ maxArg < ustack.length + argv.length)) ∨
      (r = some (sp - argsSize argv, ustack ++ argSlots sp argv) ∧
        4096 * v + argsSize argv ≤ sp ∧ ustack.length + argv.length ≤ maxArg ∧
        contents (A.view s'.mem) = putArgs (contents (A.view s.mem)) sp argv))

/-- The strings go into the page of the stack; one that is too long makes the stack pointer leave
that page, or wrap around. -/
theorem pushArgs_spec (hv : v < topVpn) (hv1 : 0 < v) (hl : A.lookup v = some (pa, 23)) :
    ∀ {argv : List (List UInt8)} {sp : ℕ} {ustack : List ℕ} {s : Phys}, Uvm s R rest A →
    4096 * v ≤ sp → sp ≤ 4096 * (v + 1) → sp % 16 = 0 → ustack.length ≤ maxArg →
    (∀ arg ∈ argv, arg.length < 2 ^ 31) →
    wp (pushArgs p A.root (4096 * v) argv sp ustack) (PushPost R rest A v argv sp ustack s)
      noPanic s
  | [], sp, ustack, s, h, hlo, hhi, hal, hus, _ => by
    rw [pushArgs, wp_pure]
    refine ⟨h, .refl _ _, Or.inr ⟨?_, hlo, hus, rfl⟩⟩
    rw [argsSize, argSlots, List.append_nil, Nat.sub_zero]
  | arg :: argv, sp, ustack, s, h, hlo, hhi, hal, hus, hargs => by
    have harg := hargs arg (List.mem_cons_self ..)
    have hnone : sp < 4096 * v + up16 (arg.length + 1) ∨ maxArg ≤ ustack.length →
        PushPost R rest A v (arg :: argv) sp ustack s none s := by
      intro hc
      refine ⟨h, .refl _ _, Or.inl ⟨rfl, hc.imp (fun hc => ?_) fun hc => ?_⟩⟩
      · rw [argsSize]
        omega
      · rw [List.length_cons]
        omega
    rw [pushArgs, wp_ite, wp_pure]
    refine ⟨fun hmax => hnone (Or.inr hmax), fun hmax => ?_⟩
    dsimp only
    simp only [topVpn] at hv
    by_cases hwrap : sp < arg.length + 1
    · have hsp : wrap64 (sp + 2 ^ 64 - (arg.length + 1)) = sp + 2 ^ 64 - (arg.length + 1) := by
        rw [wrap64]
        omega
      have hroom : sp < 4096 * v + up16 (arg.length + 1) := by
        have := up16_ge (arg.length + 1)
        omega
      rw [hsp, wp_ite, wp_pure, copyout_high (by simp) (by
        simp only [maxVa, pgRoundDown]
        omega), wp_bind, wp_pure, if_pos (by decide), wp_pure]
      exact ⟨fun _ => hnone (Or.inl hroom), fun _ => hnone (Or.inl hroom)⟩
    have hsp : wrap64 (sp + 2 ^ 64 - (arg.length + 1)) = sp - (arg.length + 1) := by
      rw [wrap64]
      omega
    have hslot : sp - (arg.length + 1) - (sp - (arg.length + 1)) % 16 =
        sp - up16 (arg.length + 1) := by
      rw [up16]
      omega
    have hup := up16_ge (arg.length + 1)
    have hupal : up16 (arg.length + 1) % 16 = 0 := by
      rw [up16]
      omega
    rw [hsp, hslot, wp_ite, wp_pure]
    refine ⟨fun hlt => hnone (Or.inl (by omega)), fun hge => ?_⟩
    have hlen : (arg ++ [0]).length = arg.length + 1 := by simp
    rw [wp_bind]
    refine wp_post (copyout_page_spec _ h (by simp only [topVpn]; omega) hl (by omega)
      (by omega)) ?_
    rintro r s' ⟨rfl, h', hk, hcont⟩
    rw [if_neg (by decide)]
    have hus' : (ustack ++ [sp - up16 (arg.length + 1)]).length = ustack.length + 1 := by
      rw [List.length_append, List.length_singleton]
    refine wp_post (pushArgs_spec (by simp only [topVpn]; omega) hv1 hl h' (by omega) (by omega)
      (by omega) (by omega) fun a ha => hargs a (List.mem_cons_of_mem _ ha)) ?_
    rintro r s'' ⟨h'', hk', hr⟩
    refine ⟨h'', hk.trans hk', ?_⟩
    rw [hus'] at hr
    rw [argsSize, List.length_cons, argSlots, putArgs, ← hcont]
    rcases hr with ⟨rfl, hc⟩ | ⟨rfl, hle, hcount, hcont'⟩
    · exact Or.inl ⟨rfl, hc.imp (by omega) (by omega)⟩
    · refine Or.inr ⟨?_, by omega, by omega, hcont'⟩
      rw [List.append_assoc, List.singleton_append, Nat.sub_sub]

/-- The first part of `buildStack` : the two pages, the first of them without access for the user.
The result is the new size. -/
def openStack (pagetable sz : ℕ) : Kern Phys (Option ℕ) := do
  let sz1 ← uvmalloc pagetable (pgRoundUp sz) (wrap64 (pgRoundUp sz + 2 * pgSize)) pteW
  if sz1 = 0 then pure none
  else
    uvmclear pagetable (sz1 - 2 * pgSize)
    pure (some sz1)

/-- The second part : the strings and the array of pointers. The result is the stack pointer. -/
def pushStack (p : Proc) (pagetable sz1 : ℕ) (argv : List (List UInt8)) : Kern Phys (Option ℕ) := do
  match ← pushArgs p pagetable (sz1 - pgSize) argv sz1 [] with
  | none => pure none
  | some (sp, ustack) =>
    let sp := wrap64 (sp + 2 ^ 64 - (ustack.length + 1) * 8)
    let sp := sp - sp % 16
    if sp < sz1 - pgSize then
      pure none
    else
      let r ← copyout p pagetable sp (wordBytes (ustack ++ [0]))
      if r < 0 then pure none else pure (some sp)

theorem buildStack_eq (pagetable sz : ℕ) (argv : List (List UInt8)) :
    buildStack p pagetable sz argv = (do
      match ← openStack pagetable sz with
      | none => pure (none, pgRoundUp sz)
      | some sz1 =>
        let sp ← pushStack p pagetable sz1 argv
        pure (sp, sz1)) := by
  rw [buildStack, openStack]
  dsimp only
  rw [bind_assoc]
  refine bind_congr fun sz1 => ?_
  split_ifs
  · rfl
  rw [bind_assoc]
  refine bind_congr fun _ => ?_
  rw [pure_bind]
  dsimp only
  rw [pushStack, bind_assoc]
  refine bind_congr fun r => ?_
  rcases r with _ | ⟨sp, ustack⟩
  · rfl
  dsimp only
  split_ifs
  · rfl
  rw [bind_assoc]
  refine bind_congr fun r => ?_
  split_ifs <;> rfl

/-- The page table `A` of an image of `sz` bytes, started as `A₀` in `s₀` : enough to free it, or
to make it the one of the process. -/
structure Loaded (R : Set ℕ) (rest : Set (ℕ × ℕ)) (s₀ : Phys) (A₀ : PTree) (sz : ℕ) (s : Phys)
    (A : PTree) : Prop where
  uvm : Uvm s R rest A
  top : A₀.SameTop A
  keeps : Keeps rest s₀ s
  sz_le : sz ≤ trapframe
  below : ∀ v, pages sz ≤ v → A.view s.mem v = none

theorem Image.loaded {A₀ : PTree} {sz : ℕ} (h : Image R rest s₀ A₀ (pages sz) s A) :
    Loaded R rest s₀ A₀ sz s A := by
  have hle := h.le
  rw [pages_le_iff] at hle
  refine ⟨h.uvm, h.top, h.keeps, ?_, h.below⟩
  simp only [trapframe, trampoline, maxVa, pgSize]
  omega

/-- Of the `n + 2` pages of `A` the last two are for the stack : the page `n` is the guard page and
`n + 1` the page of the stack, at `pa`. -/
structure PTree.Stacked (A : PTree) (n pa : ℕ) : Prop where
  lt : n + 1 < topVpn
  guard : ∃ pa' fl, A.lookup n = some (pa', fl) ∧ fl &&& pteU = 0
  stack : A.lookup (n + 1) = some (pa, 23)

theorem pages_mul (n : ℕ) : pages (4096 * n) = n := by
  simp only [pages]
  omega

theorem openStack_spec {A₀ : PTree} {sz : ℕ} (h : Image R rest s₀ A₀ (pages sz) s A) :
    wp (openStack A₀.root sz) (fun r s' =>
      (r = none ∧ Scarce s A (pages sz) (pages sz + 2) ∧
        ∃ A', Loaded R rest s₀ A₀ (pgRoundUp sz) s' A') ∨
      ∃ A' pa', r = some (4096 * (pages sz + 2)) ∧ A'.Stacked (pages sz) pa' ∧
        Loaded R rest s₀ A₀ (4096 * (pages sz + 2)) s' A') noPanic s := by
  have hle := h.le
  have hround : pgRoundUp sz = 4096 * pages sz := by
    refine pgRoundUp_pages ?_
    rw [pages_le_iff] at hle
    simp only [trapframe, trampoline, maxVa, pgSize]
    omega
  have hwrap : wrap64 (4096 * pages sz + 2 * pgSize) = 4096 * (pages sz + 2) := by
    rw [wrap64]
    simp only [pgSize]
    omega
  generalize hn : pages sz = n at *
  rw [← pages_mul n] at h
  rw [openStack, hround, wp_bind, hwrap]
  refine wp_post (h.uvmalloc_spec _ ⟨⟨by decide, by decide⟩, by decide⟩) ?_
  rintro sz1 s₁ ⟨A₁, hr⟩
  rw [pages_mul] at hr
  rw [wp_ite, wp_pure]
  rcases hr with ⟨rfl, h₁, hscarce⟩ | ⟨hmax, h₁, hnew⟩
  · rw [pages_mul] at hscarce
    rw [← pages_mul n] at h₁
    refine ⟨fun _ => Or.inl ⟨rfl, hscarce, A₁, ?_⟩, fun hne => absurd rfl hne⟩
    exact h₁.loaded
  rw [max_eq_right (by omega)] at hmax
  subst hmax
  refine ⟨fun hz => absurd hz (by omega), fun _ => ?_⟩
  have hsz := h₁.loaded.sz_le
  rw [pages_mul] at h₁ hnew
  -- the guard page
  obtain ⟨hv0, pa0, fl0, hl0, -⟩ := h₁.lookup (v := n) (by omega)
  rw [show 4096 * (n + 2) - 2 * pgSize = 4096 * n by simp only [pgSize]; omega, wp_bind,
    ← h₁.top.root]
  refine wp_post (uvmclear_spec h₁.uvm hv0 hl0 (h₁.small _)) ?_
  rintro _ s₂ ⟨A₂, h₂, htop₂, hk₂, hguard, hother, -⟩
  -- the stack page
  obtain ⟨hv1, pa1, fl1, hl1, -⟩ := h₁.lookup (v := n + 1) (by omega)
  obtain ⟨b, hb⟩ := hnew (n + 1) (by omega) (by omega)
  rw [PTree.view_of_lt hv1, hl1, Option.map_some] at hb
  obtain ⟨rfl, -⟩ := Prod.mk.inj (Option.some.inj hb)
  rw [← hother (n + 1) (by omega)] at hl1
  rw [wp_pure]
  refine Or.inr ⟨A₂, pa1, rfl, ⟨hv1, ⟨pa0, _, hguard, hideFlags_and fl0⟩, hl1⟩, h₂,
    h₁.top.trans htop₂, h₁.keeps.trans hk₂, hsz, fun v hv => ?_⟩
  rw [pages_mul] at hv
  by_cases hvt : v < topVpn
  · have hnone := h₁.below v hv
    rw [PTree.view_eq_none hvt] at hnone ⊢
    rw [hother v (by omega), hnone]
  · exact PTree.view_of_ge (not_lt.1 hvt)

/-- The arguments and the array are on the stack if there is room for them, else the image is
given up. -/
theorem pushStack_spec {n : ℕ} {argv : List (List UInt8)} (h : Uvm s R rest A)
    (hst : A.Stacked n pa) (hargs : ∀ arg ∈ argv, arg.length < 2 ^ 31) :
    wp (pushStack p A.root (4096 * (n + 2)) argv) (fun r s' => Uvm s' R rest A ∧ Keeps rest s s' ∧
      ((r = none ∧ (4096 < stackNeed argv ∨ maxArg < argv.length)) ∨
        (r = some (4096 * (n + 2) - stackNeed argv) ∧ stackNeed argv ≤ 4096 ∧
          argv.length ≤ maxArg ∧ contents (A.view s'.mem) =
            putArgv (contents (A.view s.mem)) (4096 * (n + 2)) argv))) noPanic s := by
  have hn := hst.lt
  simp only [topVpn] at hn
  have hup := up16_ge (8 * (argv.length + 1))
  have hmono : 8 * (argv.length + 1) ≤ 4096 → up16 (8 * (argv.length + 1)) ≤ 4096 := by
    rw [up16]
    omega
  rw [pushStack, show 4096 * (n + 2) - pgSize = 4096 * (n + 1) by simp only [pgSize]; omega,
    wp_bind]
  refine wp_post (pushArgs_spec hst.lt (by omega) hst.stack h (by omega) (by omega) (by omega)
    (Nat.zero_le _) hargs) ?_
  rintro r s₁ ⟨h₁, hk₁, hr⟩
  rw [List.length_nil, Nat.zero_add, List.nil_append] at hr
  rcases hr with ⟨rfl, hc⟩ | ⟨rfl, hle, hcount, hcont⟩
  · dsimp only
    rw [wp_pure]
    refine ⟨h₁, hk₁, Or.inl ⟨rfl, hc.imp (fun hc => ?_) id⟩⟩
    rw [stackNeed]
    omega
  dsimp only
  simp only [maxArg] at hcount
  rw [argSlots_length]
  have hsp64 : wrap64 (4096 * (n + 2) - argsSize argv + 2 ^ 64 - (argv.length + 1) * 8) =
      4096 * (n + 2) - argsSize argv - 8 * (argv.length + 1) := by
    rw [wrap64]
    omega
  have hslot : 4096 * (n + 2) - argsSize argv - 8 * (argv.length + 1) -
      (4096 * (n + 2) - argsSize argv - 8 * (argv.length + 1)) % 16 =
      4096 * (n + 2) - stackNeed argv := by
    have := argsSize_aligned argv
    rw [stackNeed, up16]
    omega
  rw [hsp64, hslot, wp_ite, wp_pure]
  refine ⟨fun hlt => ⟨h₁, hk₁, Or.inl ⟨rfl, Or.inl (by omega)⟩⟩, fun hge => ?_⟩
  have hneed := stackNeed_array argv
  have hlen : (wordBytes (argSlots (4096 * (n + 2)) argv ++ [0])).length =
      8 * (argv.length + 1) := by
    rw [wordBytes_length, List.length_append, argSlots_length, List.length_singleton]
  rw [wp_bind]
  refine wp_post (copyout_page_spec _ h₁ hst.lt hst.stack (by omega) (by omega)) ?_
  rintro r s₂ ⟨rfl, h₂, hk₂, hcont₂⟩
  rw [if_neg (by decide), wp_pure]
  refine ⟨h₂, hk₁.trans hk₂, Or.inr ⟨rfl, by omega, by simp only [maxArg]; omega, ?_⟩⟩
  rw [hcont₂, hcont, putArgv]

end Stack

/-! ## `kexec` -/

section Exec

variable {s : Phys} {R : Set ℕ} {rest : Set (ℕ × ℕ)} {B : PTree} {tramp : ℕ} {p : Proc}
  {file : ExecFile} {argv : List (List UInt8)}

/-- The part of `kexec` between the check of the header and the point of no return : the page
table, the size and the stack pointer of the new image, or `none` when all was given back. -/
def buildImage (tramp : ℕ) (p : Proc) (file : ExecFile) (argv : List (List UInt8)) :
    Kern Phys (Option (ℕ × ℕ × ℕ)) := do
  let elf := bytesAt (file.read 0 64)
  let pagetable ← procPagetable tramp p
  if pagetable = 0 then pure none
  else
    let (ok, sz) ← loadProgram pagetable file (readLE elf 56 2) (read64 elf 32) 0
    if ok = false then
      procFreepagetable pagetable sz
      pure none
    else
      let (sp, sz) ← buildStack p pagetable sz argv
      match sp with
      | none =>
        procFreepagetable pagetable sz
        pure none
      | some sp => pure (some (pagetable, sz, sp))

/-- The part of `buildImage` before the arguments. -/
def openImage (tramp : ℕ) (p : Proc) (file : ExecFile) : Kern Phys (Option (ℕ × ℕ)) := do
  let elf := bytesAt (file.read 0 64)
  let pagetable ← procPagetable tramp p
  if pagetable = 0 then pure none
  else
    let (ok, sz) ← loadProgram pagetable file (readLE elf 56 2) (read64 elf 32) 0
    if ok = false then
      procFreepagetable pagetable sz
      pure none
    else
      match ← openStack pagetable sz with
      | none =>
        procFreepagetable pagetable (pgRoundUp sz)
        pure none
      | some sz1 => pure (some (pagetable, sz1))

theorem buildImage_eq : buildImage tramp p file argv = (do
    match ← openImage tramp p file with
    | none => pure none
    | some (pagetable, sz) =>
      match ← pushStack p pagetable sz argv with
      | none =>
        procFreepagetable pagetable sz
        pure none
      | some sp => pure (some (pagetable, sz, sp))) := by
  rw [buildImage, openImage]
  dsimp only
  rw [bind_assoc]
  refine bind_congr fun pagetable => ?_
  split_ifs
  · rfl
  rw [bind_assoc]
  refine bind_congr fun r => ?_
  obtain ⟨ok, sz⟩ := r
  dsimp only
  split_ifs
  · rw [bind_assoc]
    rfl
  rw [buildStack_eq, bind_assoc, bind_assoc]
  refine bind_congr fun r => ?_
  cases r with
  | none =>
    dsimp only
    rw [pure_bind, bind_assoc]
    rfl
  | some sz1 =>
    dsimp only
    rw [bind_assoc, pure_bind]
    dsimp only
    refine bind_congr fun sp => ?_
    rw [pure_bind]

/-- The rest of `kexec`. -/
def commitImage (p : Proc) (entry pagetable sz sp argc : ℕ) : Kern Phys (ℤ × Proc) := do
  store64 (p.trapframe + 120) sp
  store64 (p.trapframe + 24) entry
  store64 (p.trapframe + 48) sp
  procFreepagetable p.pagetable p.sz
  pure (argc, { p with pagetable := pagetable, sz := sz })

/-- The file starts with an ELF header. -/
def ExecFile.IsElf (file : ExecFile) : Prop :=
  (file.read 0 64).length = 64 ∧ read32 (bytesAt (file.read 0 64)) 0 = 0x464C457F

theorem kexec_of_not (hno : ¬file.IsElf) : kexec tramp p file argv = pure (-1, p) := by
  rw [kexec]
  dsimp only
  split_ifs with h1 h2
  · rfl
  · rfl
  · exact absurd ⟨not_not.1 h1, not_not.1 h2⟩ hno

theorem kexec_eq (helf : file.IsElf) : kexec tramp p file argv = (do
    match ← buildImage tramp p file argv with
    | none => pure (-1, p)
    | some (pagetable, sz, sp) =>
      commitImage p (read64 (bytesAt (file.read 0 64)) 24) pagetable sz sp argv.length) := by
  rw [kexec, buildImage]
  dsimp only
  rw [if_neg (not_not.2 helf.1), if_neg (not_not.2 helf.2), bind_assoc]
  congr 1
  funext pagetable
  split_ifs
  · rfl
  rw [bind_assoc]
  congr 1
  funext ⟨ok, sz⟩
  dsimp only
  split_ifs
  · rw [bind_assoc]
    rfl
  rw [bind_assoc]
  congr 1
  funext ⟨sp, sz'⟩
  cases sp with
  | none =>
    dsimp only
    rw [bind_assoc]
    rfl
  | some sp => rfl

/-- The pages and tables of the smallest image. -/
theorem Uvm.freeCount_image {s₁ : Phys} {A : PTree} (h : Uvm s₁ R rest A) (hown : Owns s R ∅ rest)
    (hf : A.Fresh) (hl : A.LinksIn topLinks) (hscarce : Scarce s₁ A (pages 0) (pages 0 + 2)) :
    s.freeCount ≤ 7 := by
  have hc := h.census
  have hc₀ := hown.census
  have hfew := hscarce (topLinks ∪ {(2, 0), (1, 0)})
    (fun L k t he => Finset.mem_union_left _ (hl L k t he)) fun v _ hv => ?_
  · have hcard : (topLinks ∪ {(2, 0), (1, 0)}).card ≤ 4 := by decide
    rw [h.mapped_fresh hf, Set.ncard_empty] at hc
    rw [region_empty, pageCount_empty] at hc₀
    omega
  · have hv2 : v < 2 := hv
    rw [Nat.div_eq_of_lt (by omega), Nat.div_eq_of_lt (by omega)]
    decide

/-- After `openImage`, beside what the others hold. With a file without segments seven pages are
enough. -/
def OpenPost (R : Set ℕ) (rest : Set (ℕ × ℕ)) (tramp : ℕ) (p : Proc) (file : ExecFile)
    (s s' : Phys) : Option (ℕ × ℕ) → Prop
  | none => Owns s' R ∅ rest ∧ Keeps rest s s' ∧
    (readLE (bytesAt (file.read 0 64)) 56 2 = 0 → s.freeCount ≤ 7)
  | some (pagetable, sz) => Keeps rest s s' ∧ ∃ A n pa, sz = 4096 * (n + 2) ∧ A.Stacked n pa ∧
    AddrSpace s' R rest tramp { p with pagetable := pagetable, sz := sz } A

theorem openImage_spec (file : ExecFile) (hown : Owns s R ∅ rest)
    (htp : TrapPages tramp p.trapframe) :
    wp (openImage tramp p file) (fun r s' => OpenPost R rest tramp p file s s' r) noPanic s := by
  rw [openImage]
  dsimp only
  rw [wp_bind]
  refine wp_post (procPagetable_spec hown htp) ?_
  rintro pagetable s₁ (⟨rfl, hown₁, hk₁, hfree⟩ | ⟨hne, A₀, hA, hf, hlinks, hk₁⟩)
  · rw [if_pos rfl, wp_pure]
    exact ⟨hown₁, hk₁, fun _ => by omega⟩
  obtain rfl : pagetable = A₀.root := hA.root
  have himg : Image R rest s₁ A₀ (pages 0) s₁ A₀ := by
    refine ⟨hA.uvm, .refl _, .refl _ _, fun v hv => ?_, fun v _ => hA.uvm.view_fresh hf v,
      fun k b f he => ?_⟩
    · simp only [pages] at hv
      omega
    · rw [hf.tables k (hA.uvm.huge k b f he)] at he
      cases he
  -- giving up after the page table was made
  have hbad : ∀ {sz : ℕ} {s₂ : Phys} {A₂ : PTree}, Loaded R rest s₁ A₀ sz s₂ A₂ →
      (readLE (bytesAt (file.read 0 64)) 56 2 = 0 → s.freeCount ≤ 7) →
      wp (do procFreepagetable A₀.root sz; pure none)
        (fun r s' => OpenPost R rest tramp p file s s' r) noPanic s₂ := by
    intro sz s₂ A₂ h₂ hfew
    rw [wp_bind, ← h₂.top.root]
    refine wp_post (procFreepagetable_spec h₂.uvm h₂.sz_le h₂.below) ?_
    rintro _ s₃ ⟨hown₃, hk₃⟩
    rw [wp_pure]
    exact ⟨hown₃, (hk₁.trans h₂.keeps).trans hk₃, hfew⟩
  rw [if_neg hne, wp_bind]
  refine wp_post (loadProgram_spec himg) ?_
  rintro ⟨ok, sz⟩ s₂ ⟨A₂, h₂, hzero⟩
  dsimp only at h₂ hzero ⊢
  rw [wp_ite]
  refine ⟨fun hok => hbad h₂.loaded fun hnum => ?_, fun _ => ?_⟩
  · rw [hok] at hzero
    exact absurd (Prod.mk.inj (hzero hnum).1).1 Bool.false_ne_true
  rw [wp_bind]
  refine wp_post (openStack_spec h₂) ?_
  rintro r s₃ (⟨rfl, hscarce, A₃, h₃⟩ | ⟨A₃, pa, rfl, hst, h₃⟩)
  · refine hbad h₃ fun hnum => ?_
    obtain ⟨hr, rfl, rfl⟩ := hzero hnum
    obtain ⟨-, rfl⟩ := Prod.mk.inj hr
    exact hA.uvm.freeCount_image hown hf hlinks hscarce
  · dsimp only
    rw [wp_pure]
    exact ⟨hk₁.trans h₃.keeps, A₃, pages sz, pa, rfl, hst,
      hA.update h₃.uvm h₃.top h₃.sz_le h₃.below⟩

/-- The stack of an image of `sz` bytes with the page table `A` : a guard page, and a page with the
arguments and the array of pointers at `sp`. `C` is the memory of the user before. -/
structure ArgStack (A : PTree) (m C : Mem) (sz sp : ℕ) (argv : List (List UInt8)) : Prop where
  stacked : ∃ n pa, sz = 4096 * (n + 2) ∧ A.Stacked n pa
  need : stackNeed argv ≤ 4096
  count : argv.length ≤ maxArg
  sp_eq : sp = sz - stackNeed argv
  holds : contents (A.view m) = putArgv C sz argv

/-- After `buildImage`, beside what the others hold, if `openImage` has returned `r`. -/
def ImagePost (R : Set ℕ) (rest : Set (ℕ × ℕ)) (tramp : ℕ) (p : Proc) (argv : List (List UInt8))
    (s s' : Phys) (r : Option (ℕ × ℕ)) : Option (ℕ × ℕ × ℕ) → Prop
  | none => Owns s' R ∅ rest ∧ Keeps rest s s' ∧
    (r = none ∨ 4096 < stackNeed argv ∨ maxArg < argv.length)
  | some (pagetable, sz, sp) => r = some (pagetable, sz) ∧ Keeps rest s s' ∧ ∃ A C,
    AddrSpace s' R rest tramp { p with pagetable := pagetable, sz := sz } A ∧
      ArgStack A s'.mem C sz sp argv

theorem buildImage_spec (file : ExecFile) (hown : Owns s R ∅ rest)
    (htp : TrapPages tramp p.trapframe) (hargs : ∀ arg ∈ argv, arg.length < 2 ^ 31) : ∃ r₀ s₀,
    (openImage tramp p file).run s = .ok (r₀, s₀) ∧ OpenPost R rest tramp p file s s₀ r₀ ∧
      wp (buildImage tramp p file argv)
        (fun r s' => ImagePost R rest tramp p argv s s' r₀ r) noPanic s := by
  obtain ⟨r₀, s₀, hopen, hpost⟩ := wp_noPanic_iff.1 (openImage_spec file hown htp)
  refine ⟨r₀, s₀, hopen, hpost, ?_⟩
  rw [buildImage_eq, wp_bind, wp_iff_of_ok hopen]
  rcases r₀ with _ | ⟨pt, sz⟩
  · dsimp only
    rw [wp_pure]
    exact ⟨hpost.1, hpost.2.1, Or.inl rfl⟩
  obtain ⟨hk, A, n, pa, rfl, hst, hA⟩ := hpost
  obtain rfl : pt = A.root := hA.root
  dsimp only
  rw [wp_bind]
  refine wp_post (pushStack_spec hA.uvm hst hargs) ?_
  rintro sp s₁ ⟨h₁, hk₁, hr⟩
  have hbelow : ∀ v, pages (4096 * (n + 2)) ≤ v → A.view s₁.mem v = none := by
    intro v hv
    by_cases hvt : v < topVpn
    · have hnone : A.view s₀.mem v = none := hA.below v hv
      rw [PTree.view_eq_none hvt] at hnone ⊢
      exact hnone
    · exact PTree.view_of_ge (not_lt.1 hvt)
  rcases hr with ⟨rfl, hc⟩ | ⟨rfl, hneed, hcount, hcont⟩
  · dsimp only
    rw [wp_bind]
    refine wp_post (procFreepagetable_spec h₁ hA.sz_le hbelow) ?_
    rintro _ s₂ ⟨hown₂, hk₂⟩
    rw [wp_pure]
    exact ⟨hown₂, (hk.trans hk₁).trans hk₂, Or.inr hc⟩
  · dsimp only
    rw [wp_pure]
    exact ⟨rfl, hk.trans hk₁, A, _, hA.update h₁ (.refl A) hA.sz_le hbelow,
      ⟨⟨n, pa, rfl, hst⟩, hneed, hcount, rfl, hcont⟩⟩

/-- After `commitImage` : the image that `s₁` has is the one of the process, and the registers
`sp`, `a1` and `epc` of the trapframe are set. -/
structure CommitPost (s₁ : Phys) (R : Set ℕ) (rest : Set (ℕ × ℕ)) (tramp : ℕ) (p p' : Proc)
    (A : PTree) (entry sp : ℕ) (s' : Phys) : Prop where
  space : AddrSpace s' R (insert (p.trapframe, 0) rest) tramp p' A
  view : A.view s'.mem = A.view s₁.mem
  sp_reg : read64 s'.mem (p.trapframe + 48) = sp
  a1_reg : read64 s'.mem (p.trapframe + 120) = sp
  epc_reg : read64 s'.mem (p.trapframe + 24) = entry

/-- The new image takes the place of the old address space, however the latter is freed; `P` is
what that establishes beside. -/
theorem commitImage_spec {A : PTree} {P : Prop} {E : String → Prop} {s₁ : Phys}
    {entry pt sz sp z : ℕ} (argc : ℕ)
    (h : AddrSpace s R (insert (p.trapframe, 0) rest) tramp { p with sz := z } B)
    (hnot : (p.trapframe, 0) ∉ rest)
    (hA : AddrSpace s₁ R (B.tables ∪ B.leaves ∪ insert (p.trapframe, 0) rest) tramp
      { p with pagetable := pt, sz := sz } A)
    (hk : Keeps (B.tables ∪ B.leaves ∪ insert (p.trapframe, 0) rest) s s₁)
    (hsp : sp < 2 ^ 64) (hentry : entry < 2 ^ 64)
    (hfree : ∀ {t : Phys} {rest' : Set (ℕ × ℕ)}, Uvm t R rest' B →
      (∀ v, pages z ≤ v → B.view t.mem v = none) → wp (procFreepagetable B.root p.sz)
        (fun _ s' => P ∧ Owns s' R ∅ rest' ∧ Keeps rest' t s') E t) :
    wp (commitImage p entry pt sz sp argc)
      (fun r s' => P ∧ r = ((argc : ℤ), { p with pagetable := pt, sz := sz }) ∧ Keeps rest s s' ∧
        CommitPost s₁ R rest tramp p r.2 A entry sp s') E s₁ := by
  rw [commitImage, wp_bind, wp_store64, wp_bind, wp_store64, wp_bind, wp_store64, wp_bind]
  -- the three registers in the trapframe page
  have hreg : ∀ {t : Phys} (off val : ℕ), off + 8 ≤ 4096 →
      Uvm t R (B.tables ∪ B.leaves ∪ insert (p.trapframe, 0) rest) A →
      Uvm (t.setMem (write64 t.mem (p.trapframe + off) val)) R
        (B.tables ∪ B.leaves ∪ insert (p.trapframe, 0) rest) A ∧
      Keeps (A.tables ∪ A.leaves ∪ (B.tables ∪ B.leaves ∪ insert (p.trapframe, 0) rest) \
        {(p.trapframe, 0)}) t (t.setMem (write64 t.mem (p.trapframe + off) val)) :=
    fun off val hoff ht => ht.store_block (Or.inr (Set.mem_insert _ _))
      (write64_span (Nat.le_add_right _ _) (by omega))
  obtain ⟨h₄, hk₄⟩ := hreg 120 sp (by omega) hA.uvm
  obtain ⟨h₅, hk₅⟩ := hreg 24 entry (by omega) h₄
  obtain ⟨h₆, hk₆⟩ := hreg 48 sp (by omega) h₅
  have hkw := (hk₄.trans hk₅).trans hk₆
  generalize hs₆ : Phys.setMem (Phys.setMem _ _) _ = s₆ at h₆ hkw ⊢
  obtain ⟨r48, r120, r24⟩ : read64 s₆.mem (p.trapframe + 48) = sp ∧
      read64 s₆.mem (p.trapframe + 120) = sp ∧ read64 s₆.mem (p.trapframe + 24) = entry := by
    rw [← hs₆]
    refine ⟨read64_write64_same _ _ hsp, ?_, ?_⟩
    · exact ((read64_write64_ne (by omega)).trans (read64_write64_ne (by omega))).trans
        (read64_write64_same _ _ hsp)
    · exact (read64_write64_ne (by omega)).trans (read64_write64_same _ _ hentry)
  have hapart := h.uvm.owns.apart
  have hB : ∀ b ∈ B.tables ∪ B.leaves,
      b ∈ (B.tables ∪ B.leaves ∪ insert (p.trapframe, 0) rest) \ {(p.trapframe, 0)} := by
    rintro b hb
    refine ⟨Or.inl hb, ?_⟩
    rintro rfl
    exact Set.disjoint_left.1 hapart hb (Set.mem_insert _ _)
  have hkB : Keeps (B.tables ∪ B.leaves) s s₆ := (hk.mono Set.subset_union_left).trans
    (hkw.mono fun b hb => Or.inr (hB b hb))
  have hkR : Keeps rest s s₆ := (hk.mono fun b hb => Or.inr (Or.inr hb)).trans
    (hkw.mono fun b hb => Or.inr ⟨Or.inr (Or.inr hb), by rintro rfl; exact hnot hb⟩)
  have hview : A.view s₆.mem = A.view s₁.mem :=
    funext fun v => by rw [hA.uvm.view_keeps (hkw.mono fun b hb => Or.inl (Or.inr hb))]
  have hnew : AddrSpace s₆ R (B.tables ∪ B.leaves ∪ insert (p.trapframe, 0) rest) tramp
      { p with pagetable := pt, sz := sz } A := by
    refine hA.update h₆ (.refl A) hA.sz_le fun v hv => ?_
    rw [hview]
    exact hA.below v hv
  -- the old address space is given back
  have hBs := h₆.other h.uvm Set.subset_union_left hkB
  rw [Set.union_sdiff_cancel_left (Set.disjoint_iff.1 hapart)] at hBs
  rw [show p.pagetable = B.root from h.root]
  refine wp_post (hfree hBs fun v hv => ?_) ?_
  · rw [h.uvm.view_keeps (hkB.mono Set.subset_union_right)]
    exact h.below v hv
  rintro _ s₇ ⟨hP, hown₇, hk₇⟩
  rw [wp_pure]
  have htf : (p.trapframe, 0) ∈ A.tables ∪ A.leaves ∪ insert (p.trapframe, 0) rest :=
    Or.inr (Set.mem_insert _ _)
  refine ⟨hP, rfl, hkR.trans (hk₇.mono fun b hb => Or.inr (Or.inr hb)), ?_, ?_, ?_, ?_, ?_⟩
  · exact hnew.reframe (hown₇.reassoc (Set.empty_union _).symm
      (h₆.owns.apart.mono_right Set.subset_union_right)) (hk₇.mono Set.subset_union_left)
  · rw [← hview]
    exact funext fun v => by rw [h₆.view_keeps (hk₇.mono fun b hb => Or.inl (Or.inr hb))]
  · rw [hk₇.read64 htf (by omega) (by omega), r48]
  · rw [hk₇.read64 htf (by omega) (by omega), r120]
  · rw [hk₇.read64 htf (by omega) (by omega), r24]

/-- After `kexec` : the old address space as it was, or a new one with the arguments on the
stack. -/
def ExecPost (s : Phys) (R : Set ℕ) (rest : Set (ℕ × ℕ)) (tramp : ℕ) (p : Proc) (B : PTree)
    (argv : List (List UInt8)) (r : ℤ × Proc) (s' : Phys) : Prop :=
  (r = (-1, p) ∧ Owns s' R (B.tables ∪ B.leaves) (insert (p.trapframe, 0) rest) ∧
      Keeps (B.tables ∪ B.leaves ∪ insert (p.trapframe, 0) rest) s s') ∨
    (r.1 = argv.length ∧ r.2.trapframe = p.trapframe ∧ r.2.state = p.state ∧
      Keeps rest s s' ∧ ∃ B' C sp, AddrSpace s' R (insert (p.trapframe, 0) rest) tramp r.2 B' ∧
        ArgStack B' s'.mem C r.2.sz sp argv ∧ read64 s'.mem (p.trapframe + 48) = sp ∧
        read64 s'.mem (p.trapframe + 120) = sp)

/-- The reasons for which `kexec` fails : the file is no program, there is no memory for the image,
or no room for the arguments. -/
def ExecFails (tramp : ℕ) (p : Proc) (file : ExecFile) (argv : List (List UInt8)) (s : Phys) :
    Prop :=
  ¬file.IsElf ∨ (∃ s₀, (openImage tramp p file).run s = .ok (none, s₀)) ∨
    4096 < stackNeed argv ∨ maxArg < argv.length

theorem kexec_spec (file : ExecFile)
    (h : AddrSpace s R (insert (p.trapframe, 0) rest) tramp p B) (hnot : (p.trapframe, 0) ∉ rest)
    (ht : LeafOk 0 tramp 11) (hargs : ∀ arg ∈ argv, arg.length < 2 ^ 31) :
    wp (kexec tramp p file argv) (fun r s' => ExecPost s R rest tramp p B argv r s' ∧
      (r.1 = -1 ↔ ExecFails tramp p file argv s)) noPanic s := by
  -- the old address space stays among what the others hold
  have hown : Owns s R ∅ (B.tables ∪ B.leaves ∪ insert (p.trapframe, 0) rest) :=
    h.uvm.owns.reassoc (Set.empty_union _) (Set.empty_disjoint _)
  by_cases helf : file.IsElf
  · have htf : LeafOk 0 p.trapframe 7 := h.uvm.owns.symm.leafOk (Set.mem_insert _ _)
    obtain ⟨r₀, s₀, hopen, -, hbuild⟩ := buildImage_spec file hown ⟨ht, htf⟩ hargs
    rw [kexec_eq helf, wp_bind]
    refine wp_post hbuild ?_
    rintro (_ | ⟨pt, sz, sp⟩) s₁ hpost
    · obtain ⟨hown₁, hk₁, hwhy⟩ := hpost
      rw [wp_pure]
      refine ⟨Or.inl ⟨rfl, hown₁.reassoc (Set.empty_union _).symm h.uvm.owns.apart, hk₁⟩,
        iff_of_true rfl (Or.inr (hwhy.imp ?_ id))⟩
      rintro rfl
      exact ⟨s₀, hopen⟩
    · obtain ⟨rfl, hk₁, A, C, hA, hstack⟩ := hpost
      have hsp : sp < 2 ^ 64 := by
        have := hA.sz_le
        have := hstack.sp_eq
        simp only [trapframe, trampoline, maxVa, pgSize] at *
        omega
      refine wp_post (commitImage_spec argv.length h hnot hA hk₁ (P := True) hsp
        (read64_lt _ _) fun hB hbelow => ?_) ?_
      · exact wp_post (procFreepagetable_spec hB h.sz_le hbelow) fun _ _ hr => ⟨trivial, hr⟩
      · rintro r s₂ ⟨-, rfl, hk₂, hpost⟩
        refine ⟨Or.inr ⟨rfl, rfl, rfl, hk₂, A, C, sp, hpost.space, { hstack with holds := ?_ },
          hpost.sp_reg, hpost.a1_reg⟩, iff_of_false ?_ ?_⟩
        · rw [hpost.view]
          exact hstack.holds
        · dsimp only
          omega
        · rintro (hno | ⟨s', hnone⟩ | hneed | hcount)
          · exact hno helf
          · rw [hopen] at hnone
            cases hnone
          · exact absurd hstack.need (not_le.2 hneed)
          · exact absurd hstack.count (not_le.2 hcount)
  · rw [kexec_of_not helf, wp_pure]
    exact ⟨Or.inl ⟨rfl, h.uvm.owns, .refl _ _⟩, iff_of_true rfl (Or.inl helf)⟩

end Exec

end Xv6Plus
