import Xv6Plus.File
import Xv6Plus.SlabRun

/-!
# Reference counts of open files

`FileInv k held s` : every `ref` counts the descriptors of all processes and, beside them,
the references `held` that a running system call has in hand. Each function takes references
into its hand or gives them away, so an unwinding path is right if it ends with an empty hand.
A pipe has at most one open file for each of its sides, and the `readopen` and `writeopen` of
a pipe say which of them is open.
-/

namespace Xv6Plus

/-! ## The record of pipes -/

/-- The file `f` is an open end of the pipe `r`. -/
def OpenIn (h : List FileEvent) (f r : ℕ) : Prop :=
  Since (· = .opened f r) (· = .closed f r) h

/-- The last event has closed the last open end of `r`. -/
def LastClosed (h : List FileEvent) (r : ℕ) : Prop :=
  (∃ f, [.closed f r] <:+ h) ∧ ∀ f, ¬OpenIn h f r

/-- A pipe is freed right after its last end is closed, and at no other time. -/
structure FreesOk (h : List FileEvent) : Prop where
  freed : ∀ h₁ e r, h₁ ++ [e] <+: h → (e = .freed r ↔ LastClosed h₁ r)
  done : ∀ r, ¬LastClosed h r

section Log

variable {h : List FileEvent} {e : FileEvent} {f r : ℕ}

theorem openIn_snoc {g q : ℕ} :
    OpenIn (h ++ [e]) g q ↔ e = .opened g q ∨ (OpenIn h g q ∧ e ≠ .closed g q) :=
  since_snoc

theorem freesOk_nil : FreesOk [] :=
  ⟨fun _ _ _ he => absurd (List.prefix_nil.1 he) (by simp), fun _ hl => by
    obtain ⟨⟨f, hf⟩, -⟩ := hl
    exact absurd (List.suffix_nil.1 hf) (by simp)⟩

theorem FreesOk.snoc (hok : FreesOk h) (he : ∀ r, e ≠ .freed r)
    (hl : ∀ r, ¬LastClosed (h ++ [e]) r) : FreesOk (h ++ [e]) := by
  refine ⟨fun h₁ e' r hp => ?_, hl⟩
  rcases List.prefix_concat_iff.1 hp with heq | hp
  · obtain ⟨rfl, he'⟩ := List.append_inj' heq rfl
    obtain rfl := List.singleton_inj.1 he'
    exact iff_of_false (he r) (hok.done r)
  · exact hok.freed h₁ e' r hp

/-- The last end is closed and the pipe is freed. -/
theorem FreesOk.free (hok : FreesOk h) (hl : LastClosed (h ++ [.closed f r]) r) :
    FreesOk (h ++ [.closed f r] ++ [.freed r]) := by
  have honly : ∀ q, LastClosed (h ++ [.closed f r]) q → q = r := by
    rintro q ⟨⟨g, hg⟩, -⟩
    obtain ⟨t, ht⟩ := hg
    obtain ⟨-, he⟩ := List.append_inj' ht rfl
    exact (FileEvent.closed.inj (List.singleton_inj.1 he)).2
  refine ⟨fun h₁ e q hp => ?_, fun q hq => ?_⟩
  · rcases List.prefix_concat_iff.1 hp with heq | hp
    · obtain ⟨rfl, he⟩ := List.append_inj' heq rfl
      obtain rfl := List.singleton_inj.1 he
      refine ⟨fun he => ?_, fun hq => ?_⟩
      · obtain rfl := FileEvent.freed.inj he
        exact hl
      · rw [honly q hq]
    · rcases List.prefix_concat_iff.1 hp with heq | hp
      · obtain ⟨rfl, he⟩ := List.append_inj' heq rfl
        obtain rfl := List.singleton_inj.1 he
        exact iff_of_false FileEvent.noConfusion (hok.done q)
      · exact hok.freed h₁ e q hp
  · obtain ⟨⟨g, t, ht⟩, -⟩ := hq
    obtain ⟨-, he⟩ := List.append_inj' ht rfl
    exact FileEvent.noConfusion (List.singleton_inj.1 he)

end Log

/-! ## The invariant -/

/-- One side of a pipe. -/
def Pipe.side (pi : Pipe) (writable : Bool) : Bool :=
  if writable = true then pi.writeopen else pi.readopen

/-- The file `f` is open and an end of the pipe `r`. -/
def FileSys.EndOf (s : FileSys) (f r : ℕ) : Prop :=
  0 < (s.file f).ref ∧ (s.file f).type = .pipe ∧ (s.file f).pipe = r

structure FileInv (k : KernelEnd) (held : Multiset ℕ) (s : FileSys) : Prop where
  bound : ∀ p fd f, s.ofile p fd = some f → p < nProc ∧ fd < nOfile ∧ f < nFile
  held_lt : ∀ f ∈ held, f < nFile
  ref : ∀ f < nFile, (s.file f).ref = s.count f + held.count f
  beyond : ∀ f, nFile ≤ f → (s.file f).ref = 0
  idle : ∀ f, (s.file f).ref = 0 → (s.file f).type = .none
  ends : ∀ f g r, s.EndOf f r → s.EndOf g r → (s.file f).writable = (s.file g).writable → f = g
  sides : ∀ f r, s.EndOf f r → ∀ w, ((s.pipe r).side w = true ↔
    ∃ g, s.EndOf g r ∧ (s.file g).writable = w)
  kmem : ∃ live others, SlabRun k s.kmem live others ∧ ∀ f r, s.EndOf f r → (r, 1024) ∈ live
  log : ∀ f r, OpenIn s.log f r ↔ s.EndOf f r
  frees : FreesOk s.log

/-! ## Counting descriptors -/

section Count

variable {s : FileSys} {p fd f g : ℕ}

theorem setFd_ofile {p' fd' : ℕ} {o : Option ℕ} : (s.setFd p fd o).ofile p' fd' =
    if p' = p ∧ fd' = fd then o else s.ofile p' fd' := by
  unfold FileSys.setFd
  by_cases hp : p' = p
  · subst hp
    by_cases hf : fd' = fd
    · subst hf
      simp
    · simp [hf]
  · simp [hp]

theorem count_setFd_some (hp : p < nProc) (hfd : fd < nOfile) (ho : s.ofile p fd = none) :
    (s.setFd p fd (some f)).count g = s.count g + if g = f then 1 else 0 := by
  unfold FileSys.count
  by_cases hg : g = f
  · subst hg
    rw [if_pos rfl, ← Finset.card_insert_of_notMem (a := (p, fd)) (by simp [ho])]
    refine congrArg Finset.card (Finset.ext fun ⟨p', fd'⟩ => ?_)
    rw [Finset.mem_insert, Finset.mem_filter, Finset.mem_filter, setFd_ofile]
    by_cases h : p' = p ∧ fd' = fd
    · obtain ⟨rfl, rfl⟩ := h
      simp [hp, hfd]
    · rw [if_neg h]
      simp [h]
  · rw [if_neg hg, Nat.add_zero]
    refine congrArg Finset.card (Finset.ext fun ⟨p', fd'⟩ => ?_)
    rw [Finset.mem_filter, Finset.mem_filter, setFd_ofile]
    by_cases h : p' = p ∧ fd' = fd
    · obtain ⟨rfl, rfl⟩ := h
      simp [ho, Ne.symm hg]
    · rw [if_neg h]

theorem count_setFd_none (hp : p < nProc) (hfd : fd < nOfile) (ho : s.ofile p fd = some f) :
    s.count g = (s.setFd p fd none).count g + if g = f then 1 else 0 := by
  have hself : (s.setFd p fd none).setFd p fd (some f) = s := by
    unfold FileSys.setFd
    simp [← ho]
  conv_lhs => rw [← hself]
  exact count_setFd_some hp hfd (by rw [setFd_ofile, if_pos ⟨rfl, rfl⟩])

theorem count_setFile {x : File} : (s.setFile f x).count g = s.count g := rfl

end Count

/-! ## One reference at a time -/

namespace FileInv

variable {k : KernelEnd} {held : Multiset ℕ} {s s' : FileSys} {p fd f r : ℕ}

theorem setFd_some (h : FileInv k (f ::ₘ held) s) (hp : p < nProc) (hfd : fd < nOfile)
    (ho : s.ofile p fd = none) : FileInv k held (s.setFd p fd (some f)) := by
  have hf : f < nFile := h.held_lt f (Multiset.mem_cons_self f held)
  refine ⟨fun p' fd' g hg => ?_, fun g hg => h.held_lt g (Multiset.mem_cons_of_mem hg),
    fun g hg => ?_, h.beyond, h.idle, h.ends, h.sides, h.kmem, h.log, h.frees⟩
  · rw [setFd_ofile] at hg
    split_ifs at hg with hc
    · obtain ⟨rfl, rfl⟩ := hc
      obtain rfl := Option.some.inj hg
      exact ⟨hp, hfd, hf⟩
    · exact h.bound p' fd' g hg
  · have href := h.ref g hg
    rw [Multiset.count_cons] at href
    rw [count_setFd_some hp hfd ho]
    exact href.trans (by omega)

/-- The reference of a descriptor is taken into the hand. -/
theorem setFd_none (h : FileInv k held s) (ho : s.ofile p fd = some f) :
    FileInv k (f ::ₘ held) (s.setFd p fd none) := by
  obtain ⟨hp, hfd, hf⟩ := h.bound p fd f ho
  refine ⟨fun p' fd' g hg => ?_, fun g hg => ?_, fun g hg => ?_, h.beyond, h.idle, h.ends,
    h.sides, h.kmem, h.log, h.frees⟩
  · rw [setFd_ofile] at hg
    split_ifs at hg with hc
    exact h.bound p' fd' g hg
  · rcases Multiset.mem_cons.1 hg with rfl | hg
    · exact hf
    · exact h.held_lt g hg
  · have href := h.ref g hg
    rw [count_setFd_none hp hfd ho] at href
    rw [Multiset.count_cons]
    exact href.trans (by omega)

theorem ref_pos (h : FileInv k held s) (hf : f ∈ held) : 0 < (s.file f).ref := by
  rw [h.ref f (h.held_lt f hf)]
  have := Multiset.count_pos.2 hf
  omega

theorem ref_pos_of_fd (h : FileInv k held s) (ho : s.ofile p fd = some f) :
    0 < (s.file f).ref := by
  obtain ⟨hp, hfd, hf⟩ := h.bound p fd f ho
  rw [h.ref f hf]
  have : 0 < s.count f := by
    unfold FileSys.count
    rw [Finset.card_pos]
    exact ⟨(p, fd), by simp [hp, hfd, ho]⟩
  omega

/-- A file is changed, but not as an end of a pipe. -/
theorem setFile {x : File} {held' : Multiset ℕ} (h : FileInv k held s) (hf : f < nFile)
    (hend : ∀ r, (0 < x.ref ∧ x.type = .pipe ∧ x.pipe = r) ↔ s.EndOf f r)
    (hw : x.type = .pipe → x.writable = (s.file f).writable)
    (hidle : x.ref = 0 → x.type = .none) (hcount : x.ref = s.count f + held'.count f)
    (hheld : ∀ g, g ≠ f → held'.count g = held.count g) : FileInv k held' (s.setFile f x) := by
  have hself : (s.setFile f x).file f = x := Function.update_self ..
  have hother : ∀ g, g ≠ f → (s.setFile f x).file g = s.file g :=
    fun g hg => Function.update_of_ne hg _ _
  have hends : ∀ g r, (s.setFile f x).EndOf g r ↔ s.EndOf g r := by
    intro g r
    by_cases hg : g = f
    · subst hg
      rw [FileSys.EndOf, hself]
      exact hend r
    · rw [FileSys.EndOf, hother g hg, FileSys.EndOf]
  have hwr : ∀ g r, s.EndOf g r → ((s.setFile f x).file g).writable = (s.file g).writable := by
    intro g r hg
    by_cases hgf : g = f
    · subst hgf
      rw [hself]
      exact hw ((hend r).2 hg).2.1
    · rw [hother g hgf]
  refine ⟨h.bound, fun g hg => ?_, fun g hg => ?_, fun g hg => ?_, fun g hg => ?_,
    fun g g' r hg hg' => ?_, fun g r hg w => ?_, ?_, fun g r => ?_, h.frees⟩
  · by_cases hgf : g = f
    · exact hgf ▸ hf
    · refine h.held_lt g (Multiset.count_pos.1 ?_)
      rw [← hheld g hgf]
      exact Multiset.count_pos.2 hg
  · rw [count_setFile]
    by_cases hgf : g = f
    · subst hgf
      rw [hself, hcount]
    · rw [hheld g hgf, ← h.ref g hg, hother g hgf]
  · rw [hother g (by omega)]
    exact h.beyond g hg
  · by_cases hgf : g = f
    · subst hgf
      rw [hself] at hg ⊢
      exact hidle hg
    · rw [hother g hgf] at hg ⊢
      exact h.idle g hg
  · rw [hends] at hg hg'
    rw [hwr g r hg, hwr g' r hg']
    exact h.ends g g' r hg hg'
  · rw [hends] at hg
    refine (h.sides g r hg w).trans (exists_congr fun g' => ?_)
    rw [hends]
    refine and_congr_right fun hg' => ?_
    rw [hwr g' r hg']
  · obtain ⟨live, others, hrun, hlive⟩ := h.kmem
    exact ⟨live, others, hrun, fun g r hg => hlive g r ((hends g r).1 hg)⟩
  · rw [hends]
    exact h.log g r

/-- The count of an open file changes, and nothing else. -/
theorem setRef {n : ℕ} {held' : Multiset ℕ} (h : FileInv k held s) (hf : f < nFile)
    (hpos : 0 < (s.file f).ref) (hn : 0 < n) (hcount : n = s.count f + held'.count f)
    (hheld : ∀ g, g ≠ f → held'.count g = held.count g) :
    FileInv k held' (s.setFile f { s.file f with ref := n }) :=
  h.setFile hf (fun _ => by simp [FileSys.EndOf, hpos, hn]) (fun _ => rfl)
    (fun h0 => absurd h0 (by simp only; omega)) hcount hheld

/-- The assignments of `sys_open` to a file that was just allocated. -/
theorem assign (h : FileInv k held s) (hf : f < nFile) (hpos : 0 < (s.file f).ref)
    (hty : (s.file f).type = .none) (x : OpenInode) :
    FileInv k held (s.setFile f (x.assign (s.file f))) := by
  have href : (x.assign (s.file f)).ref = (s.file f).ref := by
    unfold OpenInode.assign
    split_ifs <;> rfl
  have hne : (x.assign (s.file f)).type ≠ .pipe := by
    unfold OpenInode.assign
    split_ifs <;> exact FdType.noConfusion
  refine h.setFile hf (fun r => ?_) (fun hp => absurd hp hne) (fun h0 => ?_) ?_ fun _ _ => rfl
  · exact iff_of_false (fun hx => hne hx.2.1) (fun hx => by simp [FileSys.EndOf, hty] at hx)
  · rw [href] at h0
    omega
  · rw [href, h.ref f hf]

end FileInv

/-! ## `filealloc` and `filedup` -/

/-- The state with other descriptors. -/
def FileSys.setOfile (o : ℕ → ℕ → Option ℕ) (s : FileSys) : FileSys := { s with ofile := o }

section

variable {k : KernelEnd} {held : Multiset ℕ} {s s' : FileSys} {p fd f r : ℕ}
  {o : ℕ → ℕ → Option ℕ}

-- `sys_dup` installs the descriptor before it calls `filedup`, and `kexit` clears it after
-- `fileclose` : the two specifications leave open which descriptors are counted.
theorem filedup_spec (h : FileInv k held (s.setOfile o)) (hf : f < nFile)
    (hpos : 0 < (s.file f).ref) :
    wp (filedup f) (fun _ s' => FileInv k (f ::ₘ held) (s'.setOfile o) ∧ s'.ofile = s.ofile)
      noPanic s := by
  rw [filedup, wp_bind, wp_get, if_neg (by omega), wp_modify]
  refine ⟨h.setRef hf hpos (Nat.succ_pos _) ?_ fun g hg => Multiset.count_cons_of_ne hg _, rfl⟩
  have href : (s.file f).ref = _ := h.ref f hf
  rw [href, Multiset.count_cons_self]
  omega

theorem findFile_spec (s : FileSys) : ∀ {n i : ℕ}, s.findFile n i = some f →
    i ≤ f ∧ f < i + n ∧ (s.file f).ref = 0
  | 0, _, hf => by simp [FileSys.findFile] at hf
  | n + 1, i, hf => by
    rw [FileSys.findFile] at hf
    split_ifs at hf with hr
    · obtain rfl := Option.some.inj hf
      exact ⟨le_refl _, by omega, hr⟩
    · obtain ⟨h1, h2, h3⟩ := findFile_spec s hf
      exact ⟨by omega, by omega, h3⟩

/-- After `filealloc` : a file without a type in hand, or nothing has changed. -/
def AllocedFile (k : KernelEnd) (held : Multiset ℕ) (s : FileSys) (r : Option ℕ) (s' : FileSys) :
    Prop :=
  (r = none ∧ s' = s) ∨ ∃ f, r = some f ∧ FileInv k (f ::ₘ held) s' ∧ (s.file f).ref = 0 ∧
    (s'.file f).type = .none ∧ (∀ g, g ≠ f → s'.file g = s.file g) ∧ s'.ofile = s.ofile

theorem filealloc_spec (h : FileInv k held s) : wp filealloc (AllocedFile k held s) noPanic s := by
  rw [filealloc, wp_bind, wp_get]
  cases hf : s.findFile nFile 0 with
  | none =>
    rw [wp_pure]
    exact Or.inl ⟨rfl, rfl⟩
  | some f =>
    obtain ⟨-, hlt, href⟩ := findFile_spec s hf
    rw [Nat.zero_add] at hlt
    have hty := h.idle f href
    have hcount := h.ref f hlt
    dsimp only
    rw [wp_bind, wp_modify, wp_pure]
    refine Or.inr ⟨f, rfl, h.setFile hlt (fun r => ?_) (fun _ => rfl) (fun h0 => ?_) ?_
      fun g hg => Multiset.count_cons_of_ne hg _, href, ?_, fun g hg => ?_, rfl⟩
    · exact iff_of_false (fun hx => by simp [hty] at hx)
        (fun hx => by simp [FileSys.EndOf, hty] at hx)
    · exact absurd h0 (by simp only; omega)
    · rw [Multiset.count_cons_self]
      simp only
      omega
    · simp [FileSys.setFile, hty]
    · exact Function.update_of_ne hg _ _

/-! ## `fileclose` -/

theorem Pipe.side_pipeclose {pi : Pipe} {w w' : Bool} :
    (pi.pipeclose w).1.side w' = (pi.side w' && (w' != w)) := by
  cases w <;> cases w' <;> simp [Pipe.pipeclose, Pipe.side]

theorem FileInv.openIn_closed (h : FileInv k held s) (hend : s.EndOf f r) (g q : ℕ) :
    OpenIn (s.log ++ [.closed f r]) g q ↔ s.EndOf g q ∧ g ≠ f := by
  rw [openIn_snoc, h.log]
  refine ⟨fun hx => ?_, fun hx => .inr ⟨hx.1, fun he => hx.2 (FileEvent.closed.inj he).1.symm⟩⟩
  rcases hx with hx | ⟨hx, hne⟩
  · exact FileEvent.noConfusion hx
  · refine ⟨hx, fun hgf => ?_⟩
    subst hgf
    exact hne (by rw [hend.2.2.symm.trans hx.2.2])

/-- The last reference to an end of a pipe is dropped. -/
theorem FileInv.closeEnd {m : Kmem} {l : List FileEvent} (h : FileInv k (f ::ₘ held) s)
    (h1 : (s.file f).ref = 1) (hend : s.EndOf f r)
    (hkmem : ∃ live others, SlabRun k m live others ∧
      ∀ g q, s.EndOf g q → g ≠ f → (q, 1024) ∈ live)
    (hlog : ∀ g q, OpenIn l g q ↔ s.EndOf g q ∧ g ≠ f) (hfrees : FreesOk l) :
    FileInv k held { s with
      file := Function.update s.file f { s.file f with ref := 0, type := .none }
      pipe := Function.update s.pipe r ((s.pipe r).pipeclose (s.file f).writable).1
      kmem := m
      log := l } := by
  have hf : f < nFile := h.held_lt f (Multiset.mem_cons_self f held)
  have hcount := h.ref f hf
  rw [Multiset.count_cons_self] at hcount
  generalize hs' : ({ s with
      file := Function.update s.file f { s.file f with ref := 0, type := .none }
      pipe := Function.update s.pipe r ((s.pipe r).pipeclose (s.file f).writable).1
      kmem := m
      log := l } : FileSys) = s'
  have hself : s'.file f = { s.file f with ref := 0, type := .none } := by
    rw [← hs']
    exact Function.update_self ..
  have hother : ∀ g, g ≠ f → s'.file g = s.file g := fun g hg => by
    rw [← hs']
    exact Function.update_of_ne hg _ _
  have hends : ∀ g q, s'.EndOf g q ↔ s.EndOf g q ∧ g ≠ f := by
    intro g q
    by_cases hg : g = f
    · subst hg
      simp [FileSys.EndOf, hself]
    · simp [FileSys.EndOf, hother g hg, hg]
  have hcnt : ∀ g, s'.count g = s.count g := fun g => by rw [← hs']; rfl
  refine ⟨?_, fun g hg => h.held_lt g (Multiset.mem_cons_of_mem hg), fun g hg => ?_,
    fun g hg => ?_, fun g hg => ?_, fun g g' q hg hg' => ?_, fun g q hg w => ?_, ?_,
    fun g q => ?_, ?_⟩
  · rw [← hs']
    exact h.bound
  · rw [hcnt]
    by_cases hgf : g = f
    · subst hgf
      rw [hself]
      simp only
      omega
    · rw [hother g hgf, h.ref g hg, Multiset.count_cons_of_ne hgf]
  · rw [hother g (by omega)]
    exact h.beyond g hg
  · by_cases hgf : g = f
    · subst hgf
      rw [hself]
    · rw [hother g hgf] at hg ⊢
      exact h.idle g hg
  · rw [hends] at hg hg'
    rw [hother g hg.2, hother g' hg'.2]
    exact h.ends g g' q hg.1 hg'.1
  · -- the closed side has no other file
    rw [hends] at hg
    have hsides : (∃ g, s'.EndOf g q ∧ (s'.file g).writable = w) ↔
        ∃ g, s.EndOf g q ∧ g ≠ f ∧ (s.file g).writable = w := by
      refine exists_congr fun g' => ?_
      rw [hends, and_assoc]
      refine and_congr_right fun _ => and_congr_right fun hne => ?_
      rw [hother g' hne]
    rw [hsides]
    have hside := h.sides g q hg.1 w
    by_cases hq : q = r
    · subst hq
      have hpipe : s'.pipe q = ((s.pipe q).pipeclose (s.file f).writable).1 := by
        rw [← hs']
        exact Function.update_self ..
      rw [hpipe, Pipe.side_pipeclose, Bool.and_eq_true, bne_iff_ne, hside]
      refine ⟨fun ⟨⟨g', hg', hw⟩, hne⟩ => ⟨g', hg', ?_, hw⟩, fun ⟨g', hg', hne, hw⟩ =>
        ⟨⟨g', hg', hw⟩, fun heq => hne (h.ends g' f q hg' hend (hw.trans heq))⟩⟩
      rintro rfl
      exact hne hw.symm
    · have hpipe : s'.pipe q = s.pipe q := by
        rw [← hs']
        exact Function.update_of_ne hq _ _
      rw [hpipe, hside]
      refine exists_congr fun g' => and_congr_right fun hg' => ⟨fun hw => ⟨?_, hw⟩, fun hw => hw.2⟩
      rintro rfl
      exact hq (hg'.2.2.symm.trans hend.2.2)
  · obtain ⟨live, others, hrun, hlive⟩ := hkmem
    refine ⟨live, others, ?_, fun g q hg => hlive g q ((hends g q).1 hg).1 ((hends g q).1 hg).2⟩
    rw [← hs']
    exact hrun
  · have hl : s'.log = l := by rw [← hs']
    rw [hl, hlog, hends]
  · rw [← hs']
    exact hfrees

theorem assistSize_pipeBytes : assistSize pipeBytes = 1024 := by decide

/-- `pipeclose` for the last reference to a file of the pipe : the pipe is freed if the other
side is closed too. -/
theorem fileclose_end (h : FileInv k (f ::ₘ held) (s.setOfile o)) (h1 : (s.file f).ref = 1)
    (hend : s.EndOf f r) :
    wp (pipeclose r (s.file f).writable)
      (fun _ s' => FileInv k held (s'.setOfile o) ∧ s'.ofile = s.ofile) noPanic
      ((s.setFile f { s.file f with ref := 0, type := .none }).record (.closed f r)) := by
  have hone : (∃ g, s.EndOf g r ∧ g ≠ f) ↔ (((s.pipe r).pipeclose (s.file f).writable).1.side true =
      true ∨ ((s.pipe r).pipeclose (s.file f).writable).1.side false = true) := by
    have hsides := h.sides f r hend
    have ht : (s.pipe r).side true = true ↔ ∃ g, s.EndOf g r ∧ (s.file g).writable = true :=
      hsides true
    have hf : (s.pipe r).side false = true ↔ ∃ g, s.EndOf g r ∧ (s.file g).writable = false :=
      hsides false
    simp only [Pipe.side_pipeclose, Bool.and_eq_true, bne_iff_ne, ht, hf]
    constructor
    · rintro ⟨g, hg, hne⟩
      have hw : (s.file g).writable ≠ (s.file f).writable := fun heq =>
        hne (h.ends g f r hg hend heq)
      cases hgw : (s.file g).writable with
      | true => exact .inl ⟨⟨g, hg, hgw⟩, hgw ▸ hw⟩
      | false => exact .inr ⟨⟨g, hg, hgw⟩, hgw ▸ hw⟩
    · rintro (⟨⟨g, hg, hgw⟩, hne⟩ | ⟨⟨g, hg, hgw⟩, hne⟩)
      all_goals
        refine ⟨g, hg, ?_⟩
        rintro rfl
        exact hne hgw.symm
  have hopen := h.openIn_closed hend
  obtain ⟨live, others, hrun, hlive⟩ := h.kmem
  have hpipe : ∀ (P : ℕ → Pipe) pi, Function.update P r pi r = pi := fun _ _ =>
    Function.update_self ..
  rw [pipeclose, wp_bind, wp_modify, wp_bind, wp_get]
  simp only [FileSys.setPipe, FileSys.record, FileSys.setFile, hpipe]
  by_cases hlast : (((s.pipe r).pipeclose (s.file f).writable).1.readopen = false ∧
      ((s.pipe r).pipeclose (s.file f).writable).1.writeopen = false)
  · have hnone : ∀ g, s.EndOf g r → g = f := by
      intro g hg
      by_contra hne
      rcases hone.1 ⟨g, hg, hne⟩ with hs | hs
      · exact Bool.noConfusion (hlast.2.symm.trans hs)
      · exact Bool.noConfusion (hlast.1.symm.trans hs)
    obtain ⟨G, hinv, hobjs⟩ := hrun.inv
    have hmem : (r, assistSize pipeBytes) ∈ live := by
      rw [assistSize_pipeBytes]
      exact hlive f r hend
    rw [if_pos hlast, wp_bind, wp_zoom]
    obtain ⟨⟨⟩, m, hm, -⟩ := wp_noPanic_iff.1
      (kmfree_spec hinv (show pipeBytes ≤ 2048 by decide) (by rw [hobjs]; exact hmem))
    have hfree := hrun.kmfree (by decide) hmem hm
    change wp (kmfree r pipeBytes) _ _ (s.setOfile o).kmem
    rw [wp_iff_of_ok hm, wp_modify]
    refine ⟨h.closeEnd (l := s.log ++ [FileEvent.closed f r] ++ [FileEvent.freed r]) h1 hend
      ⟨_, others, hfree, fun g q hg hne => ⟨hlive g q hg, fun heq => ?_⟩⟩ (fun g q => ?_) ?_, rfl⟩
    · rw [Set.mem_singleton_iff, Prod.mk.injEq] at heq
      obtain ⟨rfl, -⟩ := heq
      exact hne (hnone g hg)
    · refine Iff.trans ?_ (hopen g q)
      rw [openIn_snoc]
      simp [FileSys.setOfile]
    · exact h.frees.free ⟨⟨f, List.suffix_append _ _⟩, fun g hg =>
        ((hopen g r).1 hg).2 (hnone g ((hopen g r).1 hg).1)⟩
  · rw [if_neg hlast, wp_pure]
    have hanother : ∃ g, s.EndOf g r ∧ g ≠ f := by
      rw [hone]
      by_contra hno
      rw [not_or, Bool.not_eq_true, Bool.not_eq_true] at hno
      exact hlast ⟨hno.2, hno.1⟩
    refine ⟨h.closeEnd h1 hend ⟨live, others, hrun, fun g q hg _ => hlive g q hg⟩
      hopen (h.frees.snoc (fun _ => FileEvent.noConfusion) ?_), rfl⟩
    rintro q ⟨⟨g, t, ht⟩, hq⟩
    obtain ⟨-, he⟩ := List.append_inj' ht rfl
    obtain ⟨-, rfl⟩ := FileEvent.closed.inj (List.singleton_inj.1 he)
    obtain ⟨g', hg', hne⟩ := hanother
    exact hq g' ((hopen g' _).2 ⟨hg', hne⟩)

theorem fileclose_spec (h : FileInv k (f ::ₘ held) (s.setOfile o)) :
    wp (fileclose f) (fun _ s' => FileInv k held (s'.setOfile o) ∧ s'.ofile = s.ofile)
      noPanic s := by
  have hmem := Multiset.mem_cons_self f held
  have hf : f < nFile := h.held_lt f hmem
  have hpos : 0 < (s.file f).ref := h.ref_pos hmem
  have href : (s.file f).ref = (s.setOfile o).count f + (f ::ₘ held).count f := h.ref f hf
  rw [Multiset.count_cons_self] at href
  have hheld : ∀ g, g ≠ f → held.count g = (f ::ₘ held).count g := fun g hg =>
    (Multiset.count_cons_of_ne hg held).symm
  rw [fileclose, wp_bind, wp_get, if_neg (by omega)]
  by_cases h1 : (s.file f).ref - 1 > 0
  · rw [if_pos h1, wp_bind, wp_modify, wp_pure]
    exact ⟨h.setRef hf hpos h1 (by omega) hheld, rfl⟩
  · rw [if_neg h1, wp_bind, wp_modify]
    by_cases hty : (s.file f).type = .pipe
    · rw [if_pos hty, wp_bind, wp_modify, wp_bind]
      refine wp_post (fileclose_end h (by omega) ⟨hpos, hty, rfl⟩) fun _ s' hs' => ?_
      rw [wp_pure]
      exact hs'
    · have hinv : FileInv k held
          ((s.setFile f { s.file f with ref := 0, type := .none }).setOfile o) := by
        refine h.setFile hf (fun r => ?_) (fun hp => FdType.noConfusion hp) (fun _ => rfl) ?_ hheld
        · exact iff_of_false (fun hx => FdType.noConfusion hx.2.1) (fun hx => hty hx.2.1)
        · simp only
          omega
      rw [if_neg hty, wp_ite]
      refine ⟨fun _ => ?_, fun _ => ?_⟩
      all_goals
        rw [wp_pure]
        exact ⟨hinv, rfl⟩

end

end Xv6Plus
