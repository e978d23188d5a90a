import Xv6Plus.FileSpec

/-!
# System calls on open files

A call starts and ends with no reference in hand : every path of `sys_dup`, `sys_close`,
`sys_pipe`, `sys_open`, `kfork` and `kexit`, a failing one too, keeps `FileInv k 0`. Runs are
sequences of calls by any processes, with other users of the allocator in between.
-/

namespace Xv6Plus

section Calls

variable {k : KernelEnd} {held : Multiset ℕ} {s s' : FileSys} {p np fd f r : ℕ}

/-! ## `pipealloc` and `fdalloc` -/

theorem not_lastClosed_opened {h : List FileEvent} {q : ℕ} :
    ¬LastClosed (h ++ [.opened f r]) q := by
  rintro ⟨⟨g, t, ht⟩, -⟩
  obtain ⟨-, he⟩ := List.append_inj' ht rfl
  exact FileEvent.noConfusion (List.singleton_inj.1 he)

/-- The assignments of `pipealloc` to two files that were just allocated. -/
theorem FileInv.makePipe {f0 f1 : ℕ} {m : Kmem} (h : FileInv k held s) (hne : f0 ≠ f1)
    (h0 : f0 ∈ held) (h1 : f1 ∈ held) (hty0 : (s.file f0).type = .none)
    (hty1 : (s.file f1).type = .none) (hfresh : ∀ g, ¬s.EndOf g r)
    (hkmem : ∃ live others, SlabRun k m live others ∧ (r, 1024) ∈ live ∧
      ∀ g q, s.EndOf g q → (q, 1024) ∈ live) :
    FileInv k held (makePipe f0 f1 r (s.setKmem m)) := by
  have hpos0 := h.ref_pos h0
  have hpos1 := h.ref_pos h1
  generalize hs' : Xv6Plus.makePipe f0 f1 r (s.setKmem m) = s'
  have hf0 : s'.file f0 = { s.file f0 with
      type := .pipe, readable := true, writable := false, pipe := r } := by
    rw [← hs']
    exact (Function.update_of_ne hne _ _).trans (Function.update_self ..)
  have hf1 : s'.file f1 = { s.file f1 with
      type := .pipe, readable := false, writable := true, pipe := r } := by
    rw [← hs']
    refine (Function.update_self ..).trans ?_
    rw [show ((((s.setKmem m).setPipe r _).setFile f0 _).record _).file f1 = s.file f1 from
      Function.update_of_ne hne.symm _ _]
  have hother : ∀ g, g ≠ f0 → g ≠ f1 → s'.file g = s.file g := fun g hg0 hg1 => by
    rw [← hs']
    exact (Function.update_of_ne hg1 _ _).trans (Function.update_of_ne hg0 _ _)
  have hnot : ∀ g q, s.EndOf g q → g ≠ f0 ∧ g ≠ f1 := by
    rintro g q hg
    constructor
    · rintro rfl
      exact FdType.noConfusion (hty0.symm.trans hg.2.1)
    · rintro rfl
      exact FdType.noConfusion (hty1.symm.trans hg.2.1)
  have hends : ∀ g q, s'.EndOf g q ↔ s.EndOf g q ∨ ((g = f0 ∨ g = f1) ∧ q = r) := by
    intro g q
    by_cases hg0 : g = f0
    · subst hg0
      simp [FileSys.EndOf, hf0, hty0, hpos0, eq_comm]
    · by_cases hg1 : g = f1
      · subst hg1
        simp [FileSys.EndOf, hf1, hty1, hpos1, eq_comm]
      · simp [FileSys.EndOf, hother g hg0 hg1, hg0, hg1]
  have hr : ∀ g, s'.EndOf g r ↔ g = f0 ∨ g = f1 := fun g => by
    rw [hends]
    simp [hfresh g]
  have hq : ∀ g q, q ≠ r → (s'.EndOf g q ↔ s.EndOf g q) := fun g q hqr => by
    rw [hends]
    simp [hqr]
  have href : ∀ g, (s'.file g).ref = (s.file g).ref := by
    intro g
    by_cases hg0 : g = f0
    · rw [hg0, hf0]
    · by_cases hg1 : g = f1
      · rw [hg1, hf1]
      · rw [hother g hg0 hg1]
  have hlog : s'.log = s.log ++ [.opened f0 r] ++ [.opened f1 r] := by
    rw [← hs']
    rfl
  refine ⟨?_, h.held_lt, fun g hg => ?_, fun g hg => ?_, fun g hg => ?_,
    fun g g' q hg hg' hw => ?_, fun g q hg w => ?_, ?_, fun g q => ?_, ?_⟩
  · rw [← hs']
    exact h.bound
  · rw [href, show s'.count g = s.count g by rw [← hs']; rfl]
    exact h.ref g hg
  · rw [href]
    exact h.beyond g hg
  · rw [href] at hg
    have hg0 : g ≠ f0 := by
      rintro rfl
      omega
    have hg1 : g ≠ f1 := by
      rintro rfl
      omega
    rw [hother g hg0 hg1]
    exact h.idle g hg
  · by_cases hqr : q = r
    · subst hqr
      rcases (hr g).1 hg with rfl | rfl
      · rcases (hr g').1 hg' with rfl | rfl
        · rfl
        · rw [hf0, hf1] at hw
          exact Bool.noConfusion hw
      · rcases (hr g').1 hg' with rfl | rfl
        · rw [hf0, hf1] at hw
          exact Bool.noConfusion hw
        · rfl
    · rw [hq _ _ hqr] at hg hg'
      obtain ⟨hg0, hg1⟩ := hnot g q hg
      obtain ⟨hg0', hg1'⟩ := hnot g' q hg'
      rw [hother g hg0 hg1, hother g' hg0' hg1'] at hw
      exact h.ends g g' q hg hg' hw
  · by_cases hqr : q = r
    · subst hqr
      have hpipe : (s'.pipe q).readopen = true ∧ (s'.pipe q).writeopen = true := by
        rw [← hs']
        simp [Xv6Plus.makePipe, FileSys.setPipe, FileSys.setFile, FileSys.record]
      cases w with
      | true => exact iff_of_true hpipe.2 ⟨f1, (hr f1).2 (.inr rfl), by rw [hf1]⟩
      | false => exact iff_of_true hpipe.1 ⟨f0, (hr f0).2 (.inl rfl), by rw [hf0]⟩
    · rw [hq _ _ hqr] at hg
      have hpipe : s'.pipe q = s.pipe q := by
        rw [← hs']
        exact Function.update_of_ne hqr _ _
      rw [hpipe, h.sides g q hg w]
      refine exists_congr fun g' => ?_
      rw [hq _ _ hqr]
      refine and_congr_right fun hg' => ?_
      obtain ⟨hg0, hg1⟩ := hnot g' q hg'
      rw [hother g' hg0 hg1]
  · obtain ⟨live, others, hrun, hmem, hlive⟩ := hkmem
    refine ⟨live, others, by rw [← hs']; exact hrun, fun g q hg => ?_⟩
    rcases (hends g q).1 hg with hg | ⟨-, rfl⟩
    · exact hlive g q hg
    · exact hmem
  · rw [hlog, openIn_snoc, openIn_snoc, h.log, hends]
    simp only [FileEvent.opened.injEq, ne_eq, reduceCtorEq, not_false_eq_true, and_true]
    tauto
  · rw [hlog]
    exact (h.frees.snoc (fun _ => FileEvent.noConfusion) fun _ => not_lastClosed_opened).snoc
      (fun _ => FileEvent.noConfusion) fun _ => not_lastClosed_opened

/-- `fileclose` of a file in hand, with the descriptors as they are. -/
theorem fileclose_held (h : FileInv k (f ::ₘ held) s) :
    wp (fileclose f) (fun _ s' => FileInv k held s' ∧ s'.ofile = s.ofile) noPanic s :=
  wp_post (fileclose_spec (o := s.ofile) h) fun _ s' ⟨hs', ho⟩ => by
    rw [← ho] at hs'
    exact ⟨hs', ho⟩

/-- After `pipealloc` : two files in hand, or none. -/
def AllocedPipe (k : KernelEnd) (held : Multiset ℕ) (s : FileSys) (r : Option (ℕ × ℕ))
    (s' : FileSys) : Prop :=
  s'.ofile = s.ofile ∧ match r with
    | none => FileInv k held s'
    | some (f0, f1) => FileInv k (f0 ::ₘ f1 ::ₘ held) s'

theorem pipealloc_spec (h : FileInv k held s) : wp pipealloc (AllocedPipe k held s) noPanic s := by
  rw [pipealloc, wp_bind]
  refine wp_post (filealloc_spec h) ?_
  rintro _ s₁ (⟨rfl, rfl⟩ | ⟨f0, rfl, hs₁, -, hty0, -, ho₁⟩)
  · rw [wp_pure]
    exact ⟨rfl, h⟩
  dsimp only
  rw [wp_bind]
  refine wp_post (filealloc_spec hs₁) ?_
  rintro _ s₂ (⟨rfl, rfl⟩ | ⟨f1, rfl, hs₂, href, hty1, hother, ho₂⟩)
  · dsimp only
    rw [wp_bind]
    refine wp_post (fileclose_held hs₁) fun _ s₂ hs₂ => ?_
    rw [wp_pure]
    exact ⟨hs₂.2.trans ho₁, hs₂.1⟩
  have hne : f0 ≠ f1 := by
    rintro rfl
    have := hs₁.ref_pos (Multiset.mem_cons_self f0 held)
    omega
  have hswap : f1 ::ₘ f0 ::ₘ held = f0 ::ₘ f1 ::ₘ held := Multiset.cons_swap f1 f0 held
  obtain ⟨live, others, hrun, hlive⟩ := hs₂.kmem
  obtain ⟨G, hinv, rfl⟩ := hrun.inv
  obtain ⟨r, m, hm, _, -, -, hr⟩ :=
    wp_noPanic_iff.1 (kmalloc_spec hinv (show pipeBytes ≤ 2048 by decide))
  have hrun' := hrun.kmalloc (by decide) hm
  dsimp only
  rw [wp_bind, wp_zoom, wp_iff_of_ok hm, wp_ite]
  refine ⟨fun hr0 => ?_, fun hr0 => ?_⟩
  · rw [if_pos hr0] at hrun'
    have hs₃ : FileInv k (f0 ::ₘ f1 ::ₘ held) (s₂.setKmem m) := by
      rw [← hswap]
      exact ⟨hs₂.bound, hs₂.held_lt, hs₂.ref, hs₂.beyond, hs₂.idle, hs₂.ends, hs₂.sides,
        ⟨_, _, hrun', hlive⟩, hs₂.log, hs₂.frees⟩
    rw [wp_bind]
    refine wp_post (fileclose_held hs₃) fun _ s₄ hs₄ => ?_
    rw [wp_bind]
    refine wp_post (fileclose_held hs₄.1) fun _ s₅ hs₅ => ?_
    rw [wp_pure]
    exact ⟨(hs₅.2.trans hs₄.2).trans (ho₂.trans ho₁), hs₅.1⟩
  · rw [if_neg hr0, assistSize_pipeBytes] at hrun'
    obtain ⟨hz, -⟩ | ⟨-, hfresh, -⟩ := hr
    · exact absurd hz hr0
    rw [assistSize_pipeBytes] at hfresh
    rw [wp_bind, wp_modify, wp_pure]
    refine ⟨ho₂.trans ho₁, ?_⟩
    dsimp only
    rw [← hswap]
    exact hs₂.makePipe hne (Multiset.mem_cons_of_mem (Multiset.mem_cons_self _ _))
      (Multiset.mem_cons_self _ _) (by rw [hother f0 hne]; exact hty0) hty1
      (fun g hg => hfresh (hlive g r hg)) ⟨_, _, hrun', Set.mem_insert _ _, fun g q hg =>
        Set.mem_insert_of_mem _ (hlive g q hg)⟩

theorem findFd_spec (s : FileSys) (p : ℕ) : ∀ {n i : ℕ}, s.findFd p n i = some fd →
    i ≤ fd ∧ fd < i + n ∧ s.ofile p fd = none
  | 0, _, h => by simp [FileSys.findFd] at h
  | n + 1, i, h => by
    rw [FileSys.findFd] at h
    split_ifs at h with ho
    · obtain rfl := Option.some.inj h
      exact ⟨le_refl _, by omega, ho⟩
    · obtain ⟨h1, h2, h3⟩ := findFd_spec s p h
      exact ⟨by omega, by omega, h3⟩

/-- After `fdalloc`. -/
def AllocedFd (s : FileSys) (p f : ℕ) (r : Option ℕ) (s' : FileSys) : Prop :=
  (r = none ∧ s' = s) ∨
    ∃ fd < nOfile, r = some fd ∧ s.ofile p fd = none ∧ s' = s.setFd p fd (some f)

theorem fdalloc_spec (s : FileSys) (p f : ℕ) : wp (fdalloc p f) (AllocedFd s p f) noPanic s := by
  rw [fdalloc, wp_bind, wp_get]
  cases hfd : s.findFd p nOfile 0 with
  | none =>
    rw [wp_pure]
    exact Or.inl ⟨rfl, rfl⟩
  | some fd =>
    obtain ⟨-, hlt, ho⟩ := findFd_spec s p hfd
    dsimp only
    rw [wp_bind, wp_modify, wp_pure]
    exact Or.inr ⟨fd, by omega, rfl, ho, rfl⟩

/-! ## One call -/

theorem argfd_spec {fd' : ℤ} (h : s.argfd p fd' = some (fd, f)) : s.ofile p fd = some f := by
  unfold FileSys.argfd at h
  split_ifs at h
  obtain ⟨g, hg, heq⟩ := Option.map_eq_some_iff.1 h
  obtain ⟨rfl, rfl⟩ := Prod.mk.inj heq
  exact hg

/-- The call keeps the invariant and the descriptors of the other processes. -/
def FilesKept (k : KernelEnd) (p : ℕ) (s s' : FileSys) : Prop :=
  FileInv k 0 s' ∧ ∀ p', p' ≠ p → s'.ofile p' = s.ofile p'

theorem setFd_ofile_of_ne {p' : ℕ} {o : Option ℕ} (h : p' ≠ p) :
    (s.setFd p fd o).ofile p' = s.ofile p' := Function.update_of_ne h _ _

/-- The descriptor is installed first and counted afterwards. -/
theorem filedup_setFd (h : FileInv k held s) (hf : f < nFile) (hpos : 0 < (s.file f).ref)
    (hp : p < nProc) (hfd : fd < nOfile) (ho : s.ofile p fd = none) :
    wp (filedup f) (fun _ s' => FileInv k held s' ∧ s'.ofile = (s.setFd p fd (some f)).ofile)
      noPanic (s.setFd p fd (some f)) := by
  have hdup : FileInv k held ((s.setFd p fd (some f)).setOfile s.ofile) := h
  refine wp_post (filedup_spec hdup hf hpos) fun _ s' ⟨hs', ho'⟩ => ⟨?_, ho'⟩
  have heq : (s'.setOfile s.ofile).setFd p fd (some f) = s' := by
    cases s'
    subst ho'
    rfl
  rw [← heq]
  exact hs'.setFd_some hp hfd ho

theorem sysDup_spec {fd : ℤ} (h : FileInv k 0 s) (hp : p < nProc) :
    wp (sysDup p fd) (fun _ => FilesKept k p s) noPanic s := by
  rw [sysDup, wp_bind, wp_get]
  cases ha : s.argfd p fd with
  | none =>
    rw [wp_pure]
    exact ⟨h, fun _ _ => rfl⟩
  | some x =>
    obtain ⟨fd₀, f⟩ := x
    have hof := argfd_spec ha
    dsimp only
    rw [wp_bind]
    refine wp_post (fdalloc_spec s p f) ?_
    rintro _ s₁ (⟨rfl, rfl⟩ | ⟨fd', hfd', rfl, ho, rfl⟩)
    · rw [wp_pure]
      exact ⟨h, fun _ _ => rfl⟩
    · dsimp only
      rw [wp_bind]
      refine wp_post (filedup_setFd h (h.bound _ _ _ hof).2.2 (h.ref_pos_of_fd hof) hp hfd' ho)
        fun _ s₂ hs₂ => ?_
      rw [wp_pure]
      refine ⟨hs₂.1, fun p' hp' => ?_⟩
      rw [hs₂.2, setFd_ofile_of_ne hp']

theorem sysClose_spec {fd : ℤ} (h : FileInv k 0 s) :
    wp (sysClose p fd) (fun _ => FilesKept k p s) noPanic s := by
  rw [sysClose, wp_bind, wp_get]
  cases ha : s.argfd p fd with
  | none =>
    rw [wp_pure]
    exact ⟨h, fun _ _ => rfl⟩
  | some x =>
    obtain ⟨fd₀, f⟩ := x
    dsimp only
    rw [wp_bind, wp_modify, wp_bind]
    refine wp_post (fileclose_held (h.setFd_none (argfd_spec ha))) fun _ s₁ hs₁ => ?_
    rw [wp_pure]
    refine ⟨hs₁.1, fun p' hp' => ?_⟩
    rw [hs₁.2, setFd_ofile_of_ne hp']

theorem closeBoth_spec {rf wf : ℕ} (h : FileInv k (rf ::ₘ wf ::ₘ 0) s) :
    wp (closeBoth rf wf) (fun _ s' => FileInv k 0 s' ∧ s'.ofile = s.ofile) noPanic s := by
  rw [closeBoth, wp_bind]
  refine wp_post (fileclose_held h) fun _ s₁ hs₁ => ?_
  rw [wp_bind]
  refine wp_post (fileclose_held hs₁.1) fun _ s₂ hs₂ => ?_
  rw [wp_pure]
  exact ⟨hs₂.1, hs₂.2.trans hs₁.2⟩

/-- Both descriptors are given up again. -/
theorem FileInv.unfd {fd0 fd1 rf wf : ℕ} (h : FileInv k 0 ((s.setFd p fd0 (some rf)).setFd p fd1
    (some wf))) (hne : fd1 ≠ fd0) : FileInv k (rf ::ₘ wf ::ₘ 0)
      ((((s.setFd p fd0 (some rf)).setFd p fd1 (some wf)).setFd p fd0 none).setFd p fd1 none) := by
  rw [Multiset.cons_swap]
  have hrf : ((s.setFd p fd0 (some rf)).setFd p fd1 (some wf)).ofile p fd0 = some rf := by
    simp [setFd_ofile, hne.symm]
  have h0 := h.setFd_none hrf
  exact h0.setFd_none (by simp [setFd_ofile, hne])

theorem sysPipe_spec {copied : Bool} (h : FileInv k 0 s) (hp : p < nProc) :
    wp (sysPipe p copied) (fun _ => FilesKept k p s) noPanic s := by
  rw [sysPipe, wp_bind]
  refine wp_post (pipealloc_spec h) ?_
  rintro (_ | ⟨rf, wf⟩) s₁ ⟨ho₁, hs₁⟩
  · rw [wp_pure]
    exact ⟨hs₁, fun p' _ => congrFun ho₁ p'⟩
  dsimp only at hs₁ ⊢
  rw [wp_bind]
  refine wp_post (fdalloc_spec s₁ p rf) ?_
  rintro _ s₂ (⟨rfl, rfl⟩ | ⟨fd0, hfd0, rfl, hnone0, rfl⟩)
  · refine wp_post (closeBoth_spec hs₁) fun _ s₃ hs₃ => ⟨hs₃.1, fun p' _ => ?_⟩
    rw [hs₃.2, ho₁]
  have hs₂ := hs₁.setFd_some hp hfd0 hnone0
  dsimp only
  rw [wp_bind]
  refine wp_post (fdalloc_spec _ p wf) ?_
  rintro _ s₃ (⟨rfl, rfl⟩ | ⟨fd1, hfd1, rfl, hnone1, rfl⟩)
  · dsimp only
    rw [wp_bind, wp_modify]
    have hrf : (s₁.setFd p fd0 (some rf)).ofile p fd0 = some rf := by simp [setFd_ofile]
    have hs₃ := hs₂.setFd_none hrf
    refine wp_post (closeBoth_spec hs₃) fun _ s₄ hs₄ => ⟨hs₄.1, fun p' hp' => ?_⟩
    rw [hs₄.2, setFd_ofile_of_ne hp', setFd_ofile_of_ne hp', ho₁]
  have hs₃ := hs₂.setFd_some hp hfd1 hnone1
  have hne : fd1 ≠ fd0 := by
    rintro rfl
    simp [setFd_ofile] at hnone1
  dsimp only
  rw [wp_ite]
  refine ⟨fun _ => ?_, fun _ => ?_⟩
  · rw [wp_pure]
    refine ⟨hs₃, fun p' hp' => ?_⟩
    rw [setFd_ofile_of_ne hp', setFd_ofile_of_ne hp', ho₁]
  · rw [wp_bind, wp_modify]
    refine wp_post (closeBoth_spec (hs₃.unfd hne)) fun _ s₄ hs₄ => ⟨hs₄.1, fun p' hp' => ?_⟩
    rw [hs₄.2, setFd_ofile_of_ne hp', setFd_ofile_of_ne hp', setFd_ofile_of_ne hp',
      setFd_ofile_of_ne hp', ho₁]

theorem openFile_spec {x : OpenInode} (h : FileInv k 0 s) (hp : p < nProc) :
    wp (openFile p x) (fun _ => FilesKept k p s) noPanic s := by
  rw [openFile, wp_bind]
  refine wp_post (filealloc_spec h) ?_
  rintro _ s₁ (⟨rfl, rfl⟩ | ⟨f, rfl, hs₁, -, hty, -, ho₁⟩)
  · rw [wp_pure]
    exact ⟨h, fun _ _ => rfl⟩
  have hmem := Multiset.mem_cons_self f 0
  dsimp only
  rw [wp_bind]
  refine wp_post (fdalloc_spec s₁ p f) ?_
  rintro _ s₂ (⟨rfl, rfl⟩ | ⟨fd, hfd, rfl, hnone, rfl⟩)
  · dsimp only
    rw [wp_bind]
    refine wp_post (fileclose_held hs₁) fun _ s₃ hs₃ => ?_
    rw [wp_pure]
    exact ⟨hs₃.1, fun p' _ => by rw [hs₃.2, ho₁]⟩
  · dsimp only
    rw [wp_bind, wp_modify, wp_pure]
    refine ⟨(hs₁.setFd_some hp hfd hnone).assign (hs₁.held_lt f hmem) (hs₁.ref_pos hmem) hty x,
      fun p' hp' => ?_⟩
    rw [← ho₁]
    exact setFd_ofile_of_ne hp'

/-! ## The loops of `kfork` and `kexit` -/

theorem forkFiles_spec (hnp : np < nProc) (hne : p ≠ np) : ∀ {n i : ℕ} {s : FileSys},
    i + n = nOfile → FileInv k 0 s → (∀ j, i ≤ j → s.ofile np j = none) →
      wp (forkFiles p np n i) (fun _ => FilesKept k np s) noPanic s
  | 0, _, s, _, h, _ => by
    rw [forkFiles, wp_pure]
    exact ⟨h, fun _ _ => rfl⟩
  | n + 1, i, s, hi, h, hnone => by
    rw [forkFiles, wp_bind, wp_get]
    cases ho : s.ofile p i with
    | none =>
      exact forkFiles_spec hnp hne (by omega) h fun j hj => hnone j (by omega)
    | some f =>
      dsimp only
      rw [wp_bind]
      refine wp_post (filedup_spec (o := s.ofile) h (h.bound _ _ _ ho).2.2 (h.ref_pos_of_fd ho)) ?_
      rintro _ s₁ ⟨hs₁, ho₁⟩
      rw [← ho₁] at hs₁
      rw [wp_bind, wp_modify]
      have hs₂ := FileInv.setFd_some (s := s₁) hs₁ hnp (show i < nOfile by omega)
        (by rw [ho₁]; exact hnone i (le_refl i))
      refine wp_post (forkFiles_spec hnp hne (by omega) hs₂ fun j hj => ?_) ?_
      · rw [setFd_ofile, if_neg (by omega), ho₁]
        exact hnone j (by omega)
      · rintro _ s₃ ⟨hs₃, hsame⟩
        refine ⟨hs₃, fun p' hp' => ?_⟩
        rw [hsame p' hp', setFd_ofile_of_ne hp', ho₁]

/-- `fileclose` before the descriptor is cleared. -/
theorem fileclose_fd (h : FileInv k 0 s) (ho : s.ofile p fd = some f) :
    wp (fileclose f) (fun _ s' => FileInv k 0 (s'.setFd p fd none) ∧ s'.ofile = s.ofile)
      noPanic s := by
  refine wp_post (fileclose_spec (o := (s.setFd p fd none).ofile) (h.setFd_none ho)) ?_
  rintro _ s' ⟨hs', ho'⟩
  refine ⟨?_, ho'⟩
  have heq : s'.setOfile (s.setFd p fd none).ofile = s'.setFd p fd none := by
    cases s'
    subst ho'
    rfl
  rw [← heq]
  exact hs'

theorem exitFiles_spec : ∀ {n i : ℕ} {s : FileSys}, i + n = nOfile → FileInv k 0 s →
    (∀ j < i, s.ofile p j = none) →
      wp (exitFiles p n i) (fun _ s' => FilesKept k p s s' ∧ ∀ j < nOfile, s'.ofile p j = none)
        noPanic s
  | 0, _, s, hi, h, hnone => by
    rw [exitFiles, wp_pure]
    exact ⟨⟨h, fun _ _ => rfl⟩, fun j hj => hnone j (by omega)⟩
  | n + 1, i, s, hi, h, hnone => by
    rw [exitFiles, wp_bind, wp_get]
    cases ho : s.ofile p i with
    | none =>
      refine exitFiles_spec (by omega) h fun j hj => ?_
      rcases Nat.lt_succ_iff_lt_or_eq.1 hj with hj | rfl
      · exact hnone j hj
      · exact ho
    | some f =>
      dsimp only
      rw [wp_bind]
      refine wp_post (fileclose_fd h ho) ?_
      rintro _ s₁ ⟨hs₁, ho₁⟩
      rw [wp_bind, wp_modify]
      refine wp_post (exitFiles_spec (by omega) hs₁ fun j hj => ?_) ?_
      · rw [setFd_ofile]
        split_ifs with hc
        · rfl
        · rw [ho₁]
          exact hnone j (by omega)
      · rintro _ s₂ ⟨⟨hs₂, hsame⟩, hall⟩
        refine ⟨⟨hs₂, fun p' hp' => ?_⟩, hall⟩
        rw [hsame p' hp', setFd_ofile_of_ne hp', ho₁]

end Calls

/-! ## Runs -/

/-- The open files, and which slots of the process table hold a process that has not exited. -/
structure FileWorld where
  sys : FileSys
  alive : ℕ → Bool

inductive FileCall
  | sysOpen (p : ℕ)
  | dup (p : ℕ) (fd : ℤ)
  | close (p : ℕ) (fd : ℤ)
  | pipe (p : ℕ)
  | fork (p : ℕ)
  | exec (p : ℕ)
  | exit (p : ℕ)
  /-- Reads and writes, and other users of the allocator. -/
  | others

/-- One call, from its start to its end. -/
inductive FileStep (k : KernelEnd) : FileWorld → FileCall → FileWorld → Prop
  | sysOpen {s s' : FileSys} {alive : ℕ → Bool} {p : ℕ} {x : OpenInode} {r : Option ℕ} :
      p < nProc → alive p = true → (openFile p x).run s = .ok (r, s') →
      FileStep k ⟨s, alive⟩ (.sysOpen p) ⟨s', alive⟩
  /-- No inode is found. -/
  | openFails {w : FileWorld} {p : ℕ} : FileStep k w (.sysOpen p) w
  | dup {s s' : FileSys} {alive : ℕ → Bool} {p : ℕ} {fd r : ℤ} :
      p < nProc → alive p = true → (sysDup p fd).run s = .ok (r, s') →
      FileStep k ⟨s, alive⟩ (.dup p fd) ⟨s', alive⟩
  | close {s s' : FileSys} {alive : ℕ → Bool} {p : ℕ} {fd : ℤ} {r : ℤ × Option ℕ} :
      p < nProc → alive p = true → (sysClose p fd).run s = .ok (r, s') →
      FileStep k ⟨s, alive⟩ (.close p fd) ⟨s', alive⟩
  | pipe {s s' : FileSys} {alive : ℕ → Bool} {p : ℕ} {copied : Bool} {r : ℤ} :
      p < nProc → alive p = true → (sysPipe p copied).run s = .ok (r, s') →
      FileStep k ⟨s, alive⟩ (.pipe p) ⟨s', alive⟩
  | fork {s s' : FileSys} {alive : ℕ → Bool} {p np : ℕ} :
      p < nProc → alive p = true → np < nProc → alive np = false →
      (forkFiles p np nOfile 0).run s = .ok ((), s') →
      FileStep k ⟨s, alive⟩ (.fork p) ⟨s', Function.update alive np true⟩
  /-- There is no free slot, or no memory for the child : `kfork` has not reached the files. -/
  | forkFails {w : FileWorld} {p : ℕ} : FileStep k w (.fork p) w
  /-- `exec` keeps the open files, whether it succeeds or not. -/
  | exec {w : FileWorld} {p : ℕ} : FileStep k w (.exec p) w
  | exit {s s' : FileSys} {alive : ℕ → Bool} {p : ℕ} :
      p < nProc → alive p = true → (exitFiles p nOfile 0).run s = .ok ((), s') →
      FileStep k ⟨s, alive⟩ (.exit p) ⟨s', Function.update alive p false⟩
  | others {s : FileSys} {alive : ℕ → Bool} {m : Kmem} {pipe : ℕ → Pipe} {off : ℕ → ℕ}
      {live others : Set (ℕ × ℕ)} :
      SlabRun k m live others → (∀ f r, s.EndOf f r → (r, 1024) ∈ live) →
      (∀ r, (pipe r).readopen = (s.pipe r).readopen) →
      (∀ r, (pipe r).writeopen = (s.pipe r).writeopen) →
      FileStep k ⟨s, alive⟩ .others
        ⟨{ s with file := fun f => { s.file f with off := off f }, pipe := pipe, kmem := m }, alive⟩

/-- The kernel starts with no open file. -/
structure FileWorld.Booted (k : KernelEnd) (w : FileWorld) : Prop where
  file : ∀ f, (w.sys.file f).ref = 0 ∧ (w.sys.file f).type = .none
  ofile : ∀ p fd, w.sys.ofile p fd = none
  log : w.sys.log = []
  kmem : ∃ live others, SlabRun k w.sys.kmem live others

/-- The invariant at the boundary of calls. -/
structure FileWorld.Ok (k : KernelEnd) (w : FileWorld) : Prop where
  inv : FileInv k 0 w.sys
  dead : ∀ p, w.alive p = false → ∀ fd, w.sys.ofile p fd = none

section Run

variable {k : KernelEnd} {w w' : FileWorld} {c : FileCall}

theorem FileWorld.Booted.ok (h : w.Booted k) : w.Ok k := by
  have hnot : ∀ f r, ¬w.sys.EndOf f r := by
    rintro f r ⟨hpos, -⟩
    have := (h.file f).1
    omega
  refine ⟨⟨fun p fd f ho => ?_, fun f hf => absurd hf (Multiset.notMem_zero f), fun f _ => ?_,
    fun f _ => (h.file f).1, fun f _ => (h.file f).2, fun f g r hf => absurd hf (hnot f r),
    fun f r hf => absurd hf (hnot f r), ?_, fun f r => ?_, ?_⟩, fun p _ => h.ofile p⟩
  · rw [h.ofile] at ho
    exact absurd ho (by simp)
  · rw [(h.file f).1, Multiset.count_zero]
    simp [FileSys.count, h.ofile]
  · obtain ⟨live, others, hrun⟩ := h.kmem
    exact ⟨live, others, hrun, fun f r hf => absurd hf (hnot f r)⟩
  · rw [h.log]
    exact iff_of_false not_since_nil (hnot f r)
  · rw [h.log]
    exact freesOk_nil

/-- A call of `p` that keeps the invariant and the descriptors of others. -/
theorem FilesKept.ok {s s' : FileSys} {alive : ℕ → Bool} {p : ℕ} (h : FilesKept k p s s')
    (hdead : ∀ p, alive p = false → ∀ fd, s.ofile p fd = none) (hp : alive p = true) :
    FileWorld.Ok k ⟨s', alive⟩ := by
  refine ⟨h.1, fun p' hp' fd => ?_⟩
  have hne : p' ≠ p := by
    rintro rfl
    exact Bool.noConfusion (hp.symm.trans hp')
  rw [h.2 p' hne]
  exact hdead p' hp' fd

theorem FileStep.ok (h : FileStep k w c w') (hw : w.Ok k) : w'.Ok k := by
  cases h with
  | sysOpen hp hlive hrun => exact (wp_of_run (openFile_spec hw.inv hp) hrun).ok hw.dead hlive
  | openFails => exact hw
  | dup hp hlive hrun => exact (wp_of_run (sysDup_spec hw.inv hp) hrun).ok hw.dead hlive
  | close hp hlive hrun => exact (wp_of_run (sysClose_spec hw.inv) hrun).ok hw.dead hlive
  | pipe hp hlive hrun => exact (wp_of_run (sysPipe_spec hw.inv hp) hrun).ok hw.dead hlive
  | @fork s s' alive p np hp hlive hnp hdead hrun =>
    have hne : p ≠ np := by
      rintro rfl
      exact Bool.noConfusion (hlive.symm.trans hdead)
    have hpost := wp_of_run (forkFiles_spec hnp hne (Nat.zero_add _) hw.inv
      fun j _ => hw.dead np hdead j) hrun
    refine ⟨hpost.1, fun p' hp' fd => ?_⟩
    have hne' : p' ≠ np := by
      rintro rfl
      simp at hp'
    rw [hpost.2 p' hne']
    simp only [Function.update_of_ne hne'] at hp'
    exact hw.dead p' hp' fd
  | forkFails => exact hw
  | exec => exact hw
  | @exit s s' alive p hp hlive hrun =>
    obtain ⟨hpost, hall⟩ := wp_of_run (exitFiles_spec (Nat.zero_add _) hw.inv
      fun j hj => absurd hj (Nat.not_lt_zero j)) hrun
    refine ⟨hpost.1, fun p' hp' fd => ?_⟩
    by_cases hpp : p' = p
    · subst hpp
      cases ho : s'.ofile p' fd with
      | none => rfl
      | some f => exact absurd (ho.symm.trans (hall fd (hpost.1.bound _ _ _ ho).2.1)) (by simp)
    · rw [hpost.2 p' hpp]
      simp only [Function.update_of_ne hpp] at hp'
      exact hw.dead p' hp' fd
  | others hrun hlive hread hwrite =>
    have hi := hw.inv
    refine ⟨⟨hi.bound, hi.held_lt, hi.ref, hi.beyond, hi.idle, hi.ends, fun f r hf w => ?_,
      ⟨_, _, hrun, hlive⟩, hi.log, hi.frees⟩, hw.dead⟩
    refine Iff.trans ?_ (hi.sides f r hf w)
    unfold Pipe.side
    rw [hread, hwrite]

end Run

/-- What holds of the open files at the boundary of calls. -/
structure FilesCounted (s : FileSys) : Prop where
  ref : ∀ f < nFile, (s.file f).ref = s.count f
  idle : ∀ f < nFile, (s.file f).ref = 0 → (s.file f).type = .none
  /-- The record says which open files are ends of which pipe. -/
  log : ∀ f r, OpenIn s.log f r ↔ s.EndOf f r
  /-- A pipe is freed right after its last end is closed, and at no other time. -/
  freed : ∀ h₁ e r, h₁ ++ [e] <+: s.log → (e = .freed r ↔ LastClosed h₁ r)
  done : ∀ r, ¬LastClosed s.log r

/-- Every call returns. -/
structure FileCallsReturn (w : FileWorld) : Prop where
  sysOpen : ∀ p < nProc, ∀ x, ∃ r, (openFile p x).run w.sys = .ok r
  dup : ∀ p < nProc, ∀ fd, ∃ r, (sysDup p fd).run w.sys = .ok r
  close : ∀ p < nProc, ∀ fd, ∃ r, (sysClose p fd).run w.sys = .ok r
  pipe : ∀ p < nProc, ∀ copied, ∃ r, (sysPipe p copied).run w.sys = .ok r
  fork : ∀ p < nProc, w.alive p = true → ∀ np < nProc, w.alive np = false →
    ∃ r, (forkFiles p np nOfile 0).run w.sys = .ok r
  exit : ∀ p < nProc, ∃ r, (exitFiles p nOfile 0).run w.sys = .ok r

theorem FileWorld.Ok.counted {k : KernelEnd} {w : FileWorld} (h : w.Ok k) : FilesCounted w.sys :=
  ⟨fun f hf => by rw [h.inv.ref f hf, Multiset.count_zero, Nat.add_zero], fun f _ => h.inv.idle f,
    h.inv.log, h.inv.frees.freed, h.inv.frees.done⟩

theorem returns_of_wp {σ α : Type} {x : Kern σ α} {Q : α → σ → Prop} {s : σ}
    (h : wp x Q noPanic s) : ∃ r, x.run s = .ok r := by
  obtain ⟨a, s', hrun, -⟩ := wp_noPanic_iff.1 h
  exact ⟨(a, s'), hrun⟩

theorem FileWorld.Ok.returns {k : KernelEnd} {w : FileWorld} (h : w.Ok k) : FileCallsReturn w where
  sysOpen _ hp _ := returns_of_wp (openFile_spec h.inv hp)
  dup _ hp _ := returns_of_wp (sysDup_spec h.inv hp)
  close _ _ _ := returns_of_wp (sysClose_spec h.inv)
  pipe _ hp _ := returns_of_wp (sysPipe_spec h.inv hp)
  fork p _ hlive np hnp hdead := by
    have hne : p ≠ np := by
      rintro rfl
      exact Bool.noConfusion (hlive.symm.trans hdead)
    exact returns_of_wp (forkFiles_spec hnp hne (Nat.zero_add _) h.inv fun j _ => h.dead np hdead j)
  exit _ _ := returns_of_wp (exitFiles_spec (Nat.zero_add _) h.inv fun j hj =>
    absurd hj (Nat.not_lt_zero j))

/-- At the boundary of calls every `ref` is the number of descriptors, a file without
references has no type, each pipe has been freed once for each time its last end was closed,
and the next call returns. -/
theorem files_counted (k : KernelEnd) (calls : List FileCall) (w : FileWorld)
    (h : Run (FileWorld.Booted k) (FileStep k) calls w) :
    FilesCounted w.sys ∧ FileCallsReturn w := by
  have hok : w.Ok k := h.invariant (P := fun _ w => w.Ok k) (fun _ hw => hw.ok)
    fun _ _ _ _ hw hs => hs.ok hw
  exact ⟨hok.counted, hok.returns⟩

/-- The state after a boot, with `init` alone. -/
def bootFiles (m : Kmem) : FileWorld where
  sys := { file _ := ⟨.none, 0, false, false, 0, 0, 0, 0⟩
           ofile _ _ := none
           pipe _ := ⟨fun _ => 0, 0, 0, false, false⟩
           kmem := m
           log := [] }
  alive p := p = 0

/-- `init` makes a pipe, forks, and the parent closes its first descriptor. -/
theorem files_counted_pipe : ∃ w, Run (FileWorld.Booted sampleEnd) (FileStep sampleEnd)
    [.pipe 0, .fork 0, .close 0 0] w ∧ FilesCounted w.sys := by
  obtain ⟨_, p, hp, -⟩ := wp_noPanic_iff.1 (kinit_spec (s := bootPhys) (by decide))
  have hk := @SlabRun.init _ _ (fun _ => kmemCacheInit 0) _
    (KallocRun.init (k := sampleEnd) rfl hp)
  have h₀ : Run (FileWorld.Booted sampleEnd) (FileStep sampleEnd) [] (bootFiles _) :=
    .start ⟨fun _ => ⟨rfl, rfl⟩, fun _ _ => rfl, rfl, _, _, hk⟩
  obtain ⟨⟨r₁, s₁⟩, hs₁⟩ := (files_counted _ _ _ h₀).2.pipe 0 (by decide) true
  have h₁ := h₀.snoc (.pipe (by decide) rfl hs₁)
  obtain ⟨⟨r₂, s₂⟩, hs₂⟩ := (files_counted _ _ _ h₁).2.fork 0 (by decide) rfl 1 (by decide) rfl
  have h₂ := h₁.snoc (.fork (by decide) rfl (by decide) rfl hs₂)
  obtain ⟨⟨r₃, s₃⟩, hs₃⟩ := (files_counted _ _ _ h₂).2.close 0 (by decide) 0
  have h₃ := h₂.snoc (.close (by decide) rfl hs₃)
  exact ⟨_, h₃, (files_counted _ _ _ h₃).1⟩

end Xv6Plus
