import Xv6Plus.VmReach

/-!
# User memory is flat memory

`FlatMem` is what a process may think its memory is : pages below `sz`, cleared when they
come into existence and dropped when they leave. The code keeps such a page in one of three
ways, not at all, as a 4KB leaf or as a part of a huge leaf, and page faults, `uvmunmap`,
`split_huge_page` and `vm_try_collapse` go from one to another. `vmRun_refines` : no run of
`sbrk`, loads, stores, `copyin`, `copyout` and collapses can tell the difference.
-/

namespace Xv6Plus

/-! ## Flat memory -/

/-- A reference memory of `sz` bytes, in pages. -/
structure FlatMem where
  sz : ℕ
  page : ℕ → Option (Fin 4096 → UInt8)
  exists_iff : ∀ k, (page k).isSome ↔ k * 4096 < pgRoundUp sz

namespace FlatMem

/-- The byte at `va`. -/
def read (f : FlatMem) (va : ℕ) : Option UInt8 :=
  (f.page (va / 4096)).map fun bytes => bytes ⟨va % 4096, mod_pgSize_lt va⟩

/-- Pages that come into existence are cleared, and pages that leave are dropped. -/
def resize (f : FlatMem) (sz : ℕ) : FlatMem where
  sz := sz
  page k := if k * 4096 < pgRoundUp sz then some ((f.page k).getD fun _ => 0) else none
  exists_iff k := by split_ifs with h <;> simp [h]

/-- Write the bytes `data` at `va`, where there are pages. -/
def write (f : FlatMem) (va : ℕ) (data : List UInt8) : FlatMem where
  sz := f.sz
  page k := (f.page k).map fun bytes i =>
    if va ≤ 4096 * k + i ∧ 4096 * k + i < va + data.length then
      data.getD (4096 * k + i - va) 0
    else bytes i
  exists_iff k := by rw [Option.isSome_map, f.exists_iff]

/-- The memory `f` is the user memory with the pages `V`. -/
structure Holds (f : FlatMem) (V : View) (sz : ℕ) : Prop where
  size : f.sz = sz
  read : ∀ va, f.read va = if va / 4096 < pages sz then some (contents V va) else none

variable {f : FlatMem} {V V' : View} {sz sz' va : ℕ} {data : List UInt8}

theorem read_resize (hsz : sz ≤ trapframe) : (f.resize sz).read va =
    if va / 4096 < pages sz then some ((f.read va).getD 0) else none := by
  unfold read resize
  dsimp only
  rw [pgRoundUp_pages hsz]
  by_cases h : va / 4096 < pages sz
  · rw [if_pos (by omega), if_pos h, Option.map_some]
    cases f.page (va / 4096) <;> rfl
  · rw [if_neg (by omega), if_neg h, Option.map_none]

theorem read_write {x : ℕ} : (f.write va data).read x = (f.read x).map fun b =>
    if va ≤ x ∧ x < va + data.length then data.getD (x - va) 0 else b := by
  unfold read write
  dsimp only
  cases f.page (x / 4096) with
  | none => rfl
  | some bytes =>
    rw [Option.map_some, Option.map_some]
    dsimp only
    rw [Nat.div_add_mod]
    rfl

theorem Holds.resize (h : f.Holds V sz) (hsz : sz' ≤ trapframe)
    (hbelow : ∀ v, pages sz ≤ v → V v = none)
    (hc : ∀ va, contents V' va = if va / 4096 < pages sz' then contents V va else 0) :
    (f.resize sz').Holds V' sz' := by
  refine ⟨rfl, fun va => ?_⟩
  rw [read_resize hsz, h.read]
  by_cases hv : va / 4096 < pages sz'
  · rw [if_pos hv, if_pos hv, hc, if_pos hv]
    split_ifs with ho
    · rfl
    · rw [contents, hbelow _ (not_lt.1 ho)]
      rfl
  · rw [if_neg hv, if_neg hv]

theorem Holds.write (h : f.Holds V sz) (hc : contents V' = storeBytes (contents V) va data) :
    (f.write va data).Holds V' sz := by
  refine ⟨h.size, fun x => ?_⟩
  rw [read_write, h.read, hc]
  by_cases hx : x / 4096 < pages sz
  · rw [if_pos hx, if_pos hx]
    rfl
  · rw [if_neg hx, if_neg hx]
    rfl

theorem Holds.congr (h : f.Holds V sz) (hc : contents V' = contents V) : f.Holds V' sz :=
  ⟨h.size, fun va => by rw [h.read, hc]⟩

theorem Holds.read_lt (h : f.Holds V sz) (hv : va / 4096 < pages sz) :
    f.read va = some (contents V va) := by
  rw [h.read, if_pos hv]

/-- Flat memory with the contents of a view. -/
def ofView (V : View) (sz : ℕ) : FlatMem where
  sz := sz
  page k := if k * 4096 < pgRoundUp sz then some fun i => contents V (4096 * k + i) else none
  exists_iff k := by split_ifs with h <;> simp [h]

theorem ofView_holds (hsz : sz ≤ trapframe) :
    (ofView V sz).Holds V sz := by
  refine ⟨rfl, fun va => ?_⟩
  rw [FlatMem.read, ofView]
  dsimp only
  rw [pgRoundUp_pages hsz]
  by_cases hv : va / 4096 < pages sz
  · rw [if_pos (by omega), if_pos hv, Option.map_some]
    dsimp only
    rw [Nat.div_add_mod]
  · rw [if_neg (by omega), if_neg hv, Option.map_none]

end FlatMem

/-! ## Steps of a process -/

/-- What a process does with its memory, and what is done to it. -/
inductive VmOp where
  | sbrk (n : ℤ) (eager : Bool)
  | load (va : ℕ)
  | store (va : ℕ) (b : UInt8)
  | copyin (srcva len : ℕ)
  | copyout (dstva : ℕ) (src : List UInt8)
  | collapse (va : ℕ)

/-- What can be seen of a step. -/
inductive VmResult where
  | size (r : ℤ)
  | byte (b : Option UInt8)
  | stored (ok : Bool)
  | copied (r : ℤ) (bytes : List UInt8)
  | written (r : ℤ)
  | collapsed (r : ℕ)

namespace VmOp

/-- The code that runs for a step. -/
def exec (p : Proc) : VmOp → Kern Phys (VmResult × Proc)
  | sbrk n eager => do
    let (r, p') ← sysSbrk p n eager
    pure (.size r, p')
  | load va => do
    let b ← userLoad p va
    pure (.byte b, p)
  | store va b => do
    let ok ← userStore p va b
    pure (.stored ok, p)
  | copyin srcva len => do
    let (r, bytes) ← Xv6Plus.copyin p p.pagetable srcva len
    pure (.copied r bytes, p)
  | copyout dstva src => do
    let r ← Xv6Plus.copyout p p.pagetable dstva src
    pure (.written r, p)
  | collapse va => do
    let r ← vmTryCollapse p va
    pure (.collapsed r, p)

/-- `n` is an `int` that keeps `p->sz` at or below `TRAPFRAME`; the block is in the address
space. -/
def Fits (p : Proc) : VmOp → Prop
  | sbrk n _ => -2 ^ 31 ≤ n ∧ n < 2 ^ 31 ∧ p.sz + n ≤ trapframe
  | collapse va => va < maxVa
  | _ => True

/-- Where an access fails, there is a reason : the address is not below the size, the page
denies the access, or there is no memory for the page. -/
def Justified (p : Proc) (V : View) (s : Phys) : VmOp → VmResult → Prop
  | load va, .byte none => p.sz ≤ va ∨ Refused (pages p.sz) V s (va / 4096) pteR
  | store va _, .stored false => p.sz ≤ va ∨ Refused (pages p.sz) V s (va / 4096) pteW
  | copyin srcva _, .copied r bytes =>
    r = 0 ∨ Refused (pages p.sz) V s ((srcva + bytes.length) / 4096) pteU
  | copyout dstva src, .written r =>
    r = 0 ∨ ∃ k < src.length, Refused (pages p.sz) V s ((dstva + k) / 4096) pteW
  | _, _ => True

end VmOp

/-- The steps of flat memory, with their results. -/
inductive FlatMem.Step (f : FlatMem) : VmOp → VmResult → FlatMem → Prop
  | sbrk {n : ℤ} {eager : Bool} :
    Step f (.sbrk n eager) (.size f.sz) (f.resize (sbrkSize f.sz n))
  | sbrkFails {n : ℤ} {eager : Bool} : Step f (.sbrk n eager) (.size (-1)) f
  | load {va : ℕ} {b : UInt8} (h : f.read va = some b) : Step f (.load va) (.byte (some b)) f
  | loadFails {va : ℕ} : Step f (.load va) (.byte none) f
  | store {va : ℕ} {b : UInt8} (h : (f.read va).isSome) :
    Step f (.store va b) (.stored true) (f.write va [b])
  | storeFails {va : ℕ} {b : UInt8} : Step f (.store va b) (.stored false) f
  | copyin {srcva len : ℕ} {r : ℤ} {bytes : List UInt8}
    (hr : (r = 0 ∧ bytes.length = len) ∨ (r = -1 ∧ bytes.length < len))
    (h : ∀ i < bytes.length, f.read (srcva + i) = bytes[i]?) :
    Step f (.copyin srcva len) (.copied r bytes) f
  | copyout {dstva k : ℕ} {r : ℤ} {src : List UInt8}
    (hr : (r = 0 ∧ k = src.length) ∨ (r = -1 ∧ k < src.length))
    (h : ∀ i < k, (f.read (dstva + i)).isSome) :
    Step f (.copyout dstva src) (.written r) (f.write dstva (src.take k))
  | collapse {va r : ℕ} : Step f (.collapse va) (.collapsed r) f

/-- A run of flat memory. -/
inductive FlatMem.Run (f : FlatMem) : List (VmOp × VmResult) → FlatMem → Prop
  | nil : Run f [] f
  | snoc {trace : List (VmOp × VmResult)} {f' f'' : FlatMem} {op : VmOp} {r : VmResult} :
    Run f trace f' → f'.Step op r f'' → Run f (trace ++ [(op, r)]) f''

/-- A run of the code : each step returned. -/
inductive VmRun (s : Phys) (p : Proc) : List (VmOp × VmResult) → Phys → Proc → Prop
  | nil : VmRun s p [] s p
  | snoc {trace : List (VmOp × VmResult)} {s' s'' : Phys} {p' p'' : Proc} {op : VmOp}
    {r : VmResult} : VmRun s p trace s' p' → op.Fits p' →
    (op.exec p').run s' = .ok ((r, p''), s'') → VmRun s p (trace ++ [(op, r)]) s'' p''

/-! ## Refinement -/

section Refines

variable {s s' : Phys} {R : Set ℕ} {rest : Set (ℕ × ℕ)} {tramp : ℕ} {p p' : Proc} {A : PTree}
  {f : FlatMem}

/-- After a step : a step of flat memory with the same result. -/
def VmStepPost (s : Phys) (R : Set ℕ) (rest : Set (ℕ × ℕ)) (tramp : ℕ) (p : Proc) (f : FlatMem)
    (op : VmOp) (r : VmResult × Proc) (s' : Phys) : Prop :=
  ∃ A' f', AddrSpace s' R rest tramp r.2 A' ∧ Keeps rest s s' ∧
    f'.Holds (A'.view s'.mem) r.2.sz ∧ f.Step op r.1 f' ∧ op.Justified p (A'.view s'.mem) s' r.1

/-- Only giving back a part of a huge page can panic. -/
def ShrinkPanic (op : VmOp) (e : String) : Prop :=
  e = "uvmunmap split" ∧ ∃ n eager, op = .sbrk n eager ∧ n < 0

theorem VmOp.exec_spec (h : AddrSpace s R rest tramp p A) (hf : f.Holds (A.view s.mem) p.sz)
    {op : VmOp} (hfit : op.Fits p) :
    wp (op.exec p) (VmStepPost s R rest tramp p f op) (ShrinkPanic op) s := by
  cases op with
  | sbrk n eager =>
    obtain ⟨hlo, -, hfit⟩ := hfit
    rw [exec, wp_bind]
    refine wp_post (sysSbrk_spec h hlo hfit fun hneg => Or.inl ⟨rfl, n, eager, rfl, hneg⟩) ?_
    rintro ⟨r, p'⟩ s' ⟨A', h', hk, ⟨hr, hp, hview⟩ | ⟨hr, hp, hc⟩⟩
    · dsimp only at hr hp ⊢
      rw [wp_pure]
      subst hr hp
      exact ⟨A', f, h', hk, hf.congr (by rw [hview]), .sbrkFails, trivial⟩
    · dsimp only at hr hp ⊢
      rw [wp_pure]
      subst hr hp
      refine ⟨A', f.resize (sbrkSize p.sz n), h', hk, hf.resize h'.sz_le h.below hc, ?_, trivial⟩
      rw [← hf.size]
      exact .sbrk
  | load va =>
    rw [exec, wp_bind]
    refine wp_mono (userLoad_spec h) ?_ fun _ => False.elim
    rintro r s' ⟨A', hstep, hc, hr, hr0⟩
    rw [wp_pure]
    refine ⟨A', f, h.userStep hstep, hstep.keeps, hf.congr hc, ?_, ?_⟩
    · cases r with
      | none => exact .loadFails
      | some b =>
        obtain ⟨hv, rfl⟩ := hr b rfl
        exact .load (hf.read_lt hv)
    · cases r with
      | none => exact hr0 rfl
      | some b => trivial
  | store va b =>
    rw [exec, wp_bind]
    refine wp_mono (userStore_spec h) ?_ fun _ => False.elim
    rintro r s' ⟨A', hstep, ⟨rfl, hv, hc⟩ | ⟨rfl, hc, hr0⟩⟩
    · rw [wp_pure]
      exact ⟨A', f.write va [b], h.userStep hstep, hstep.keeps, hf.write hc,
        .store (by rw [hf.read_lt hv]; rfl), trivial⟩
    · rw [wp_pure]
      exact ⟨A', f, h.userStep hstep, hstep.keeps, hf.congr hc, .storeFails, hr0⟩
  | copyin srcva len =>
    rw [exec, wp_bind, h.root]
    refine wp_mono (copyin_spec h.uvm h.root h.sz_le h.topHidden h.below) ?_ fun _ => False.elim
    rintro ⟨r, bytes⟩ s' ⟨A', hstep, hc, hlen, hr, hend, hbytes⟩
    dsimp only at hlen hr hend hbytes ⊢
    rw [wp_pure]
    refine ⟨A', f, h.userStep hstep, hstep.keeps, hf.congr hc, .copyin ?_ fun i hi => ?_, ?_⟩
    · exact hr.imp_right fun hr => ⟨hr.1, hr.2.1⟩
    · have := hend (by omega)
      rw [hf.read_lt (by omega), List.getElem?_eq_getElem hi]
      congr 1
      have hget : bytes[i]? = (loadBytes (contents (A.view s.mem)) srcva bytes.length)[i]? := by
        rw [← hbytes]
      rw [List.getElem?_eq_getElem hi] at hget
      simpa [loadBytes, hi] using hget.symm
    · rcases hr with ⟨rfl, _⟩ | ⟨_, _, href⟩
      · exact Or.inl rfl
      · exact Or.inr href
  | copyout dstva src =>
    rw [exec, wp_bind, h.root]
    refine wp_mono (copyout_spec h.uvm h.root h.sz_le h.topHidden h.below) ?_ fun _ => False.elim
    rintro r s' ⟨A', k, hstep, hk, hr, hend, hc⟩
    rw [wp_pure]
    refine ⟨A', f.write dstva (src.take k), h.userStep hstep, hstep.keeps, hf.write hc,
      .copyout (hr.imp_right fun hr => ⟨hr.1, hr.2.1⟩) fun i hi => ?_, ?_⟩
    · have := hend (by omega)
      rw [hf.read_lt (by omega)]
      rfl
    · rcases hr with ⟨rfl, _⟩ | ⟨_, hlt, href⟩
      · exact Or.inl rfl
      · exact Or.inr ⟨k, hlt, href⟩
  | collapse va =>
    have hva : va + 2097152 < 2 ^ 64 := by
      simp only [Fits, maxVa] at hfit
      omega
    rw [exec, wp_bind]
    refine wp_mono (vmTryCollapse_spec h.uvm h.root h.sz_le hva) ?_ fun _ => False.elim
    rintro r s' ⟨A', h', htop, hview, hk⟩
    rw [wp_pure]
    refine ⟨A', f, h.update h' htop h.sz_le ?_, hk, hf.congr (by rw [hview]), .collapse, trivial⟩
    rw [hview]
    exact h.below

/-- Every run of the code from a process whose memory is `f` is a run of flat memory with the
same results, the memory at its end is that of the process again, and from there every step
returns, with a reason if it fails, unless a split runs out of memory. -/
theorem vmRun_refines (h : AddrSpace s R rest tramp p A) (hf : f.Holds (A.view s.mem) p.sz)
    {trace : List (VmOp × VmResult)} (hrun : VmRun s p trace s' p') :
    ∃ f', f.Run trace f' ∧
      (∃ A', AddrSpace s' R rest tramp p' A' ∧ f'.Holds (A'.view s'.mem) p'.sz) ∧
      ∀ op : VmOp, op.Fits p' →
        wp (op.exec p') (VmStepPost s' R rest tramp p' f' op) (ShrinkPanic op) s' := by
  have hinv : ∃ f', f.Run trace f' ∧ ∃ A', AddrSpace s' R rest tramp p' A' ∧
      f'.Holds (A'.view s'.mem) p'.sz := by
    induction hrun with
    | nil => exact ⟨f, .nil, A, h, hf⟩
    | snoc _ hfit hexec ih =>
      obtain ⟨f₁, hrun₁, A₁, h₁, hf₁⟩ := ih
      obtain ⟨A₂, f₂, h₂, -, hf₂, hstep, -⟩ := wp_of_run (VmOp.exec_spec h₁ hf₁ hfit) hexec
      exact ⟨f₂, hrun₁.snoc hstep, A₂, h₂, hf₂⟩
  obtain ⟨f', hrun', A', h', hf'⟩ := hinv
  exact ⟨f', hrun', ⟨A', h', hf'⟩, fun op hfit => VmOp.exec_spec h' hf' hfit⟩

/-- A process with 512 pages that are collapsed. -/
theorem vmRun_refines_sample : ∃ (s s' : Phys) (p p' : Proc) (r : VmResult) (f f' : FlatMem),
    VmRun s p [(.collapse 0, r)] s' p' ∧ f.Run [(.collapse 0, r)] f' := by
  obtain ⟨s, -, h⟩ := exists_sample false ∅ (by simp)
  have hf := FlatMem.ofView_holds (V := (sampleTree false).view s.mem) h.sz_le
  have hfit : (VmOp.collapse 0).Fits sampleProc := show 0 < maxVa by decide
  obtain ⟨⟨r, p'⟩, s', hexec, -⟩ := wp_noPanic_iff.1 (wp_mono (VmOp.exec_spec h hf hfit)
    (fun _ _ hq => hq) (by rintro e ⟨-, n, eager, hop, -⟩; cases hop))
  have hrun : VmRun s sampleProc ([] ++ [(.collapse 0, r)]) s' p' := .snoc .nil hfit hexec
  obtain ⟨f', hflat, -⟩ := vmRun_refines h hf hrun
  exact ⟨s, s', sampleProc, p', r, _, f', hrun, hflat⟩

end Refines

end Xv6Plus
