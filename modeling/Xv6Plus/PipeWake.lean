import Xv6Plus.Pipe

/-!
# Sleeping on a pipe

`sleep` and `wakeup` must fit together : a process sleeps on `&pi->nread` only while there is
nothing to read, and on `&pi->nwrite` only while there is no room. Every way out of `pipewrite`
and `piperead` that has changed something for others is followed by a wake-up, but one : a
writer that is killed between two rounds returns at once.
-/

namespace Xv6Plus

section Moves

variable {st st' : PipeState} {e : PipeEvent} {p : ℕ} {n : ℤ} {i : ℕ}

/-! ## The lock and the ends -/

structure PipeInv (st : PipeState) : Prop where
  nread_lt : st.pipe.nread < 2 ^ 32
  nwrite_lt : st.pipe.nwrite < 2 ^ 32
  lock : ∀ p, (st.pc p).holdsLock = true → st.lock = some p
  reading : ∀ p, (st.pc p).inRead = true → st.pipe.readopen = true
  writing : ∀ p, (st.pc p).inWrite = true → st.pipe.writeopen = true

theorem PipeInv.alone {q : ℕ} (h : PipeInv st) (hp : (st.pc p).holdsLock = true)
    (hq : (st.pc q).holdsLock = true) : q = p := by
  have := (h.lock q hq).symm.trans (h.lock p hp)
  simpa using this

/-- The process `p` gets to `c`, others wake up, and the lock changes hands. -/
theorem PipeInv.set {c : PipePc} {f : PipePc → PipePc} {l : Option ℕ} (h : PipeInv st)
    (hf : ∀ x, (f x).holdsLock = x.holdsLock ∧ (f x).inRead = x.inRead ∧
      (f x).inWrite = x.inWrite)
    (hlock : c.holdsLock = true → l = some p)
    (hother : ∀ q ≠ p, (st.pc q).holdsLock = true → l = some q)
    (hread : c.inRead = true → st.pipe.readopen = true)
    (hwrite : c.inWrite = true → st.pipe.writeopen = true) :
    PipeInv { st with pc := Function.update (fun q => f (st.pc q)) p c, lock := l } := by
  refine ⟨h.nread_lt, h.nwrite_lt, fun q hq => ?_, fun q hq => ?_, fun q hq => ?_⟩ <;>
    by_cases hqp : q = p
  · subst hqp
    exact hlock (by simpa using hq)
  · exact hother q hqp (by simpa [hqp, hf] using hq)
  · subst hqp
    exact hread (by simpa using hq)
  · exact h.reading q (by simpa [hqp, hf] using hq)
  · subst hqp
    exact hwrite (by simpa using hq)
  · exact h.writing q (by simpa [hqp, hf] using hq)

theorem PipeInv.goOn {c : PipePc} (h : PipeInv st)
    (hlock : c.holdsLock = true → (st.pc p).holdsLock = true)
    (hread : c.inRead = true → st.pipe.readopen = true)
    (hwrite : c.inWrite = true → st.pipe.writeopen = true) :
    PipeInv { st with pc := Function.update st.pc p c } :=
  h.set (f := id) (fun _ => ⟨rfl, rfl, rfl⟩) (fun hc => h.lock p (hlock hc))
    (fun q _ hq => h.lock q hq) hread hwrite

theorem PipeInv.acquire {c : PipePc} (h : PipeInv st) (hl : st.lock = none)
    (hread : c.inRead = true → st.pipe.readopen = true)
    (hwrite : c.inWrite = true → st.pipe.writeopen = true) :
    PipeInv { st with pc := Function.update st.pc p c, lock := some p } := by
  refine h.set (f := id) (fun _ => ⟨rfl, rfl, rfl⟩) (fun _ => rfl) (fun q _ hq => ?_) hread hwrite
  exact absurd (hl.symm.trans (h.lock q hq)) (by simp)

/-- The holder `p` of the lock gives it back, and some processes wake up. -/
theorem PipeInv.release {c : PipePc} {f : PipePc → PipePc} (h : PipeInv st)
    (hp : (st.pc p).holdsLock = true) (hf : ∀ x, (f x).holdsLock = x.holdsLock ∧
      (f x).inRead = x.inRead ∧ (f x).inWrite = x.inWrite)
    (hlock : c.holdsLock = false) (hread : c.inRead = true → st.pipe.readopen = true)
    (hwrite : c.inWrite = true → st.pipe.writeopen = true) :
    PipeInv { st with pc := Function.update (fun q => f (st.pc q)) p c, lock := none } := by
  refine h.set hf (fun hc => ?_) (fun q hqp hq => absurd (h.alone hp hq) hqp) hread hwrite
  exact absurd (hlock.symm.trans hc) Bool.noConfusion

/-- A wake-up changes nothing that the invariant looks at. -/
theorem PipeInv.wake (h : PipeInv st) (c : Chan) :
    PipeInv { st with pc := fun q => (st.pc q).woken c } :=
  ⟨h.nread_lt, h.nwrite_lt, fun q hq => h.lock q (by simpa using hq),
    fun q hq => h.reading q (by simpa using hq), fun q hq => h.writing q (by simpa using hq)⟩

theorem PipeState.Init.inv (hi : st.Init) : PipeInv st := by
  obtain ⟨hr, hw, -, -, -, hpc⟩ := hi
  refine ⟨by rw [hr]; decide, by rw [hw]; decide, fun p hp => ?_, fun p hp => ?_,
    fun p hp => ?_⟩ <;>
    rw [hpc] at hp <;> exact absurd hp Bool.noConfusion

theorem PipeInv.move (h : PipeInv st) (hm : PipeMove st e st') : PipeInv st' := by
  have hwoken : ∀ c x, (PipePc.woken c x).holdsLock = x.holdsLock ∧
      (PipePc.woken c x).inRead = x.inRead ∧ (PipePc.woken c x).inWrite = x.inWrite :=
    fun c x => ⟨by simp, by simp, by simp⟩
  cases hm with
  | callWrite p n hp ho => exact h.goOn nofun nofun fun _ => ho
  | callRead p n hp ho => exact h.goOn nofun (fun _ => ho) nofun
  | lockWrite p n i hp hl => exact h.acquire hl nofun fun _ => h.writing p (by rw [hp]; rfl)
  | lockRead p n hp hl => exact h.acquire hl (fun _ => h.reading p (by rw [hp]; rfl)) nofun
  | gone p n i hp _ =>
    exact h.release (f := id) (by rw [hp]; rfl) (fun _ => ⟨rfl, rfl, rfl⟩) rfl nofun nofun
  | full p n i hp hr _ =>
    exact h.release (by rw [hp]; rfl) (hwoken _) rfl nofun fun _ => h.writing p (by rw [hp]; rfl)
  | put p n i ch hp _ _ =>
    have hgo := h.goOn (p := p) (c := .writes n (i + 1)) (fun _ => by rw [hp]; rfl) nofun
      fun _ => h.writing p (by rw [hp]; rfl)
    exact ⟨h.nread_lt, Nat.mod_lt _ (by decide), hgo.lock, hgo.reading, hgo.writing⟩
  | wrote p n i e hp _ =>
    exact h.release (by rw [hp]; rfl) (hwoken _) rfl nofun nofun
  | quit p n hp _ =>
    exact h.release (f := id) (by rw [hp]; rfl) (fun _ => ⟨rfl, rfl, rfl⟩) rfl nofun nofun
  | empty p n hp _ _ =>
    exact h.release (f := id) (by rw [hp]; rfl) (fun _ => ⟨rfl, rfl, rfl⟩) rfl
      (fun _ => h.reading p (by rw [hp]; rfl)) nofun
  | start p n hp =>
    exact h.goOn (fun _ => by rw [hp]; rfl) (fun _ => h.reading p (by rw [hp]; rfl)) nofun
  | take p n i hp _ =>
    have hgo := h.goOn (p := p) (c := .copies n (i + 1)) (fun _ => by rw [hp]; rfl)
      (fun _ => h.reading p (by rw [hp]; rfl)) nofun
    exact ⟨Nat.mod_lt _ (by decide), h.nwrite_lt, hgo.lock, hgo.reading, hgo.writing⟩
  | lose p n i hp _ =>
    have hrel := h.release (p := p) (c := .outside) (by rw [hp]; rfl) (hwoken .nwrite) rfl nofun
      nofun
    exact ⟨Nat.mod_lt _ (by decide), h.nwrite_lt, hrel.lock, hrel.reading, hrel.writing⟩
  | copied p n i hp => exact h.release (by rw [hp]; rfl) (hwoken _) rfl nofun nofun
  | closeWrite hl hout =>
    have hw := h.wake .nread
    refine ⟨hw.nread_lt, hw.nwrite_lt, hw.lock, hw.reading, fun q hq => ?_⟩
    rw [inWrite_woken, hout q] at hq
    exact absurd hq Bool.noConfusion
  | closeRead hl hout =>
    have hw := h.wake .nwrite
    refine ⟨hw.nread_lt, hw.nwrite_lt, hw.lock, fun q hq => ?_, hw.writing⟩
    rw [inRead_woken, hout q] at hq
    exact absurd hq Bool.noConfusion
  | kill p sigkill =>
    have hgo := h.goOn (p := p) (c := ((st.pc p).woken .nread).woken .nwrite) (by simp)
      (fun hr => h.reading p (by simpa using hr)) fun hw => h.writing p (by simpa using hw)
    exact ⟨hgo.nread_lt, hgo.nwrite_lt, hgo.lock, hgo.reading, hgo.writing⟩

/-! ## No process sleeps for nothing -/

/-- Who sleeps has a reason to, or someone who holds the lock will wake it up. -/
structure PipeAwake (st : PipeState) : Prop where
  readers : ∀ q n, st.pc q = .sleepsEmpty n → st.pipe.writeopen = true ∧
    (st.pipe.nread = st.pipe.nwrite ∨ ∃ p n i, st.pc p = .writes n i ∧ st.killed p = false)
  writers : ∀ q n i, st.pc q = .sleepsFull n i → st.pipe.readopen = true ∧
    (st.pipe.Full ∨ ∃ p n i, st.pc p = .copies n i)

/-- No process is killed while it holds the lock in `pipewrite`. -/
def SparesWriters (st : PipeState) (e : PipeEvent) : Prop :=
  ∀ p n i, e = .kill p true → st.pc p ≠ .writes n i

theorem PipeInv.not_full (h : PipeInv st) (he : st.pipe.nread = st.pipe.nwrite) :
    ¬st.pipe.Full := by
  have := h.nread_lt
  simp only [Pipe.Full, pipeSize]
  omega

/-- While a process other than a writer holds the lock, a sleeping reader finds the pipe
empty. -/
theorem PipeAwake.empty_of_holder {q : ℕ} {m : ℤ} (ha : PipeAwake st) (h : PipeInv st)
    (hp : (st.pc p).holdsLock = true) (hnot : ∀ n i, st.pc p ≠ .writes n i)
    (hq : st.pc q = .sleepsEmpty m) : st.pipe.nread = st.pipe.nwrite := by
  rcases (ha.readers q m hq).2 with he | ⟨r, n, i, hr, -⟩
  · exact he
  · have hrp := h.alone hp (by rw [hr]; rfl : (st.pc r).holdsLock = true)
    subst hrp
    exact absurd hr (hnot n i)

/-- While a process other than a reader holds the lock, a sleeping writer finds the pipe full. -/
theorem PipeAwake.full_of_holder {q : ℕ} {m : ℤ} {j : ℕ} (ha : PipeAwake st) (h : PipeInv st)
    (hp : (st.pc p).holdsLock = true) (hnot : ∀ n i, st.pc p ≠ .copies n i)
    (hq : st.pc q = .sleepsFull m j) : st.pipe.Full := by
  rcases (ha.writers q m j hq).2 with he | ⟨r, n, i, hr⟩
  · exact he
  · have hrp := h.alone hp (by rw [hr]; rfl : (st.pc r).holdsLock = true)
    subst hrp
    exact absurd hr (hnot n i)

/-- A process that was not asleep and does not hold the lock gets to `c`. -/
theorem PipeAwake.enter {c : PipePc} {l : Option ℕ} (ha : PipeAwake st)
    (hp : (st.pc p).holdsLock = false) (hempty : ∀ n, c ≠ .sleepsEmpty n)
    (hfull : ∀ n i, c ≠ .sleepsFull n i) :
    PipeAwake { st with pc := Function.update st.pc p c, lock := l } := by
  have hkeep : ∀ q, (st.pc q).holdsLock = true → Function.update st.pc p c q = st.pc q := by
    intro q hq
    refine Function.update_of_ne ?_ _ _
    rintro rfl
    exact absurd (hp.symm.trans hq) Bool.noConfusion
  refine ⟨fun q n hq => ?_, fun q n i hq => ?_⟩ <;> by_cases hqp : q = p
  · subst hqp
    exact absurd (by simpa using hq) (hempty n)
  · obtain ⟨ho, he⟩ := ha.readers q n (by simpa [hqp] using hq)
    refine ⟨ho, he.imp_right fun ⟨r, n, i, hr, hk⟩ => ⟨r, n, i, ?_, hk⟩⟩
    exact (hkeep r (by rw [hr]; rfl)).trans hr
  · subst hqp
    exact absurd (by simpa using hq) (hfull n i)
  · obtain ⟨ho, he⟩ := ha.writers q n i (by simpa [hqp] using hq)
    refine ⟨ho, he.imp_right fun ⟨r, n, i, hr⟩ => ⟨r, n, i, ?_⟩⟩
    exact (hkeep r (by rw [hr]; rfl)).trans hr

theorem PipeState.Init.awake (hi : st.Init) : PipeAwake st := by
  obtain ⟨-, -, -, -, -, hpc⟩ := hi
  refine ⟨fun q n hq => ?_, fun q n i hq => ?_⟩ <;> rw [hpc] at hq <;>
    exact absurd hq PipePc.noConfusion

/-- Steps of a writer that holds the lock. -/
theorem PipeAwake.writer {c : PipePc} (ha : PipeAwake st) (h : PipeInv st)
    (hpc : st.pc p = .writes n i) (hempty : ∀ n, c ≠ .sleepsEmpty n)
    (hfull : ∀ n i, c = .sleepsFull n i → st.pipe.readopen = true ∧ st.pipe.Full) :
    PipeAwake { st with
      pc := Function.update (fun q => (st.pc q).woken .nread) p c, lock := none } := by
  refine ⟨fun q m hq => ?_, fun q m j hq => ?_⟩ <;> by_cases hqp : q = p
  · subst hqp
    exact absurd (by simpa using hq) (hempty m)
  · simp [hqp] at hq
  · subst hqp
    obtain ⟨ho, hf⟩ := hfull m j (by simpa using hq)
    exact ⟨ho, Or.inl hf⟩
  · have hq' : st.pc q = .sleepsFull m j := by simpa [hqp] using hq
    exact ⟨(ha.writers q m j hq').1,
      Or.inl (ha.full_of_holder h (by rw [hpc]; rfl) (by simp [hpc]) hq')⟩

theorem PipeAwake.gone (ha : PipeAwake st) (h : PipeInv st) (hpc : st.pc p = .writes n i)
    (hgone : st.pipe.readopen = false ∨ st.killed p = true) :
    PipeAwake { st with pc := Function.update st.pc p .outside, lock := none } := by
  have hp : (st.pc p).holdsLock = true := by rw [hpc]; rfl
  refine ⟨fun q m hq => ?_, fun q m j hq => ?_⟩ <;> by_cases hqp : q = p
  · subst hqp
    simp at hq
  · have hq' : st.pc q = .sleepsEmpty m := by simpa [hqp] using hq
    obtain ⟨ho, he | ⟨r, n', i', hr, hk⟩⟩ := ha.readers q m hq'
    · exact ⟨ho, Or.inl he⟩
    · -- the writer itself, and it has not been killed : the read end is open for `q`
      obtain rfl := h.alone hp (by rw [hr]; rfl : (st.pc r).holdsLock = true)
      have hopen := h.reading q (by rw [hq']; rfl)
      rcases hgone with hc | hc
      · exact absurd (hc.symm.trans hopen) Bool.noConfusion
      · exact absurd (hk.symm.trans hc) Bool.noConfusion
  · subst hqp
    simp at hq
  · have hq' : st.pc q = .sleepsFull m j := by simpa [hqp] using hq
    exact ⟨(ha.writers q m j hq').1, Or.inl (ha.full_of_holder h hp (by simp [hpc]) hq')⟩

theorem PipeAwake.put {pi : Pipe} (ha : PipeAwake st) (h : PipeInv st)
    (hpc : st.pc p = .writes n i) (hk : st.killed p = false) (hnot : ¬st.pipe.Full)
    (ho : pi.writeopen = st.pipe.writeopen) :
    PipeAwake { st with pipe := pi, pc := Function.update st.pc p (.writes n (i + 1)) } := by
  refine ⟨fun q m hq => ?_, fun q m j hq => ?_⟩ <;> by_cases hqp : q = p
  · subst hqp
    simp at hq
  · have hq' : st.pc q = .sleepsEmpty m := by simpa [hqp] using hq
    exact ⟨ho.trans (ha.readers q m hq').1, Or.inr ⟨p, n, i + 1, by simp, hk⟩⟩
  · subst hqp
    simp at hq
  · have hq' : st.pc q = .sleepsFull m j := by simpa [hqp] using hq
    exact absurd (ha.full_of_holder h (by rw [hpc]; rfl) (by simp [hpc]) hq') hnot

/-- A reader that finds the pipe empty returns or goes to sleep. -/
theorem PipeAwake.empty {c : PipePc} (ha : PipeAwake st) (h : PipeInv st)
    (hpc : st.pc p = .waits n) (he : st.pipe.nread = st.pipe.nwrite)
    (ho : ∀ m, c = .sleepsEmpty m → st.pipe.writeopen = true) (hfull : ∀ m j, c ≠ .sleepsFull m j) :
    PipeAwake { st with pc := Function.update st.pc p c, lock := none } := by
  refine ⟨fun q m hq => ?_, fun q m j hq => ?_⟩ <;> by_cases hqp : q = p
  · subst hqp
    exact ⟨ho m (by simpa using hq), Or.inl he⟩
  · exact ⟨(ha.readers q m (by simpa [hqp] using hq)).1, Or.inl he⟩
  · subst hqp
    exact absurd (by simpa using hq) (hfull m j)
  · have hq' : st.pc q = .sleepsFull m j := by simpa [hqp] using hq
    exact absurd (ha.full_of_holder h (by rw [hpc]; rfl) (by simp [hpc]) hq') (h.not_full he)

/-- A reader goes on in the second loop. -/
theorem PipeAwake.copy {pi : Pipe} (ha : PipeAwake st) (h : PipeInv st)
    (hp : (st.pc p).holdsLock = true) (hnot : ∀ n i, st.pc p ≠ .writes n i)
    (hpi : pi = st.pipe ∨ (st.pipe.nread ≠ st.pipe.nwrite ∧ pi.readopen = st.pipe.readopen)) :
    PipeAwake { st with pipe := pi, pc := Function.update st.pc p (.copies n i) } := by
  refine ⟨fun q m hq => ?_, fun q m j hq => ?_⟩ <;> by_cases hqp : q = p
  · subst hqp
    simp at hq
  · have hq' : st.pc q = .sleepsEmpty m := by simpa [hqp] using hq
    have he := ha.empty_of_holder h hp hnot hq'
    rcases hpi with rfl | ⟨hne, -⟩
    · exact ⟨(ha.readers q m hq').1, Or.inl he⟩
    · exact absurd he hne
  · subst hqp
    simp at hq
  · have hq' : st.pc q = .sleepsFull m j := by simpa [hqp] using hq
    refine ⟨?_, Or.inr ⟨p, n, i, by simp⟩⟩
    have hopen := (ha.writers q m j hq').1
    rcases hpi with rfl | ⟨-, ho⟩
    · exact hopen
    · exact ho.trans hopen

theorem PipeAwake.copied {pi : Pipe} (ha : PipeAwake st) (h : PipeInv st)
    (hpc : st.pc p = .copies n i) (hpi : pi = st.pipe ∨ st.pipe.nread ≠ st.pipe.nwrite) :
    PipeAwake { st with
      pipe := pi
      pc := Function.update (fun q => (st.pc q).woken .nwrite) p .outside
      lock := none } := by
  refine ⟨fun q m hq => ?_, fun q m j hq => ?_⟩ <;> by_cases hqp : q = p
  · subst hqp
    simp at hq
  · have hq' : st.pc q = .sleepsEmpty m := by simpa [hqp] using hq
    have he := ha.empty_of_holder h (by rw [hpc]; rfl) (by simp [hpc]) hq'
    rcases hpi with rfl | hne
    · exact ⟨(ha.readers q m hq').1, Or.inl he⟩
    · exact absurd he hne
  · subst hqp
    simp at hq
  · simp [hqp] at hq

theorem PipeAwake.kill {sigkill : Bool} (ha : PipeAwake st)
    (hspare : SparesWriters st (.kill p sigkill)) :
    PipeAwake { st with
      killed := Function.update st.killed p (st.killed p || sigkill)
      pc := Function.update st.pc p (((st.pc p).woken .nread).woken .nwrite) } := by
  refine ⟨fun q m hq => ?_, fun q m j hq => ?_⟩ <;> by_cases hqp : q = p
  · subst hqp
    simp at hq
  · obtain ⟨ho, he⟩ := ha.readers q m (by simpa [hqp] using hq)
    refine ⟨ho, he.imp_right fun ⟨r, n, i, hr, hk⟩ => ⟨r, n, i, ?_, ?_⟩⟩ <;> by_cases hrp : r = p
    · subst hrp
      simpa using hr
    · simpa [hrp] using hr
    · subst hrp
      cases sigkill with
      | false => simpa using hk
      | true => exact absurd hr (hspare r n i rfl)
    · simpa [hrp] using hk
  · subst hqp
    simp at hq
  · obtain ⟨ho, he⟩ := ha.writers q m j (by simpa [hqp] using hq)
    refine ⟨ho, he.imp_right fun ⟨r, n, i, hr⟩ => ⟨r, n, i, ?_⟩⟩
    by_cases hrp : r = p
    · subst hrp
      simpa using hr
    · simpa [hrp] using hr

theorem PipeAwake.move (ha : PipeAwake st) (h : PipeInv st) (hm : PipeMove st e st')
    (hspare : SparesWriters st e) : PipeAwake st' := by
  cases hm with
  | callWrite p n hp _ => exact ha.enter (by rw [hp]; rfl) nofun nofun
  | callRead p n hp _ => exact ha.enter (by rw [hp]; rfl) nofun nofun
  | lockWrite p n i hp _ => exact ha.enter (by rw [hp]; rfl) nofun nofun
  | lockRead p n hp _ => exact ha.enter (by rw [hp]; rfl) nofun nofun
  | gone p n i hp hgone => exact ha.gone h hp hgone
  | full p n i hp ho hf => exact ha.writer h hp nofun fun _ _ _ => ⟨ho, hf⟩
  | put p n i ch hp hk hnot => exact ha.put h hp hk hnot rfl
  | wrote p n i e hp _ => exact ha.writer h hp nofun nofun
  | quit p n hp he => exact ha.empty h hp he nofun nofun
  | empty p n hp he ho => exact ha.empty h hp he (fun _ _ => ho) nofun
  | start p n hp => exact ha.copy h (by rw [hp]; rfl) (by simp [hp]) (Or.inl rfl)
  | take p n i hp hne =>
    exact ha.copy h (by rw [hp]; rfl) (by simp [hp]) (Or.inr ⟨hne, rfl⟩)
  | lose p n i hp hne => exact ha.copied h hp (Or.inr hne)
  | copied p n i hp => exact ha.copied h hp (Or.inl rfl)
  | closeWrite hl hout =>
    refine ⟨fun q m hq => ?_, fun q m j hq => ?_⟩
    · simp at hq
    · have hq' : st.pc q = .sleepsFull m j := by simpa using hq
      exact absurd (hout q) (by rw [hq']; exact Bool.noConfusion)
  | closeRead hl hout =>
    refine ⟨fun q m hq => ?_, fun q m j hq => ?_⟩
    · have hq' : st.pc q = .sleepsEmpty m := by simpa using hq
      exact absurd (hout q) (by rw [hq']; exact Bool.noConfusion)
    · simp at hq
  | kill p sigkill => exact ha.kill hspare

end Moves

/-- As long as no process is killed while it holds the lock in `pipewrite`, whenever the lock is
free a process that sleeps on `&pi->nread` sees an empty pipe with its write end open, and one
that sleeps on `&pi->nwrite` sees a full pipe with its read end open. -/
theorem pipe_sleepers {h : List PipeEvent} {st : PipeState}
    (hrun : Run PipeState.Init (restrict PipeStep SparesWriters) h st) (hlock : st.lock = none) :
    (∀ q n, st.pc q = .sleepsEmpty n →
      st.pipe.nread = st.pipe.nwrite ∧ st.pipe.writeopen = true) ∧
    ∀ q n i, st.pc q = .sleepsFull n i →
      st.pipe.nwrite = (st.pipe.nread + pipeSize) % 2 ^ 32 ∧ st.pipe.readopen = true := by
  obtain ⟨hinv, ha⟩ : PipeInv st ∧ PipeAwake st :=
    hrun.invariant (P := fun _ st => PipeInv st ∧ PipeAwake st) (fun _ hi => ⟨hi.inv, hi.awake⟩)
      fun _ _ _ _ hp hs => ⟨hp.1.move hs.1.move, hp.2.move hp.1 hs.1.move hs.2⟩
  have hfree : ∀ p, (st.pc p).holdsLock ≠ true := fun p hp =>
    absurd (hlock.symm.trans (hinv.lock p hp)) (by simp)
  refine ⟨fun q n hq => ?_, fun q n i hq => ?_⟩
  · obtain ⟨ho, he | ⟨p, m, j, hp, -⟩⟩ := ha.readers q n hq
    · exact ⟨he, ho⟩
    · exact absurd (by rw [hp]; rfl) (hfree p)
  · obtain ⟨ho, hf | ⟨p, m, j, hp⟩⟩ := ha.writers q n i hq
    · exact ⟨hf, ho⟩
    · exact absurd (by rw [hp]; rfl) (hfree p)

/-- A reader of a new pipe has gone to sleep. -/
theorem pipe_sleepers_reader : ∃ h st,
    Run PipeState.Init (restrict PipeStep SparesWriters) h st ∧ st.lock = none ∧
      st.pc 1 = .sleepsEmpty 10 ∧ st.pipe.nread = st.pipe.nwrite := by
  have hrun : Run PipeState.Init (restrict PipeStep SparesWriters) _ _ :=
    (((Run.start newPipe_init).snoc ⟨.callRead 1 10 rfl rfl, nofun⟩).snoc
      ⟨.lockRead (p := 1) (n := 10) rfl rfl, nofun⟩).snoc ⟨.wait (p := 1) (n := 10) rfl, nofun⟩
  exact ⟨_, _, hrun, rfl, rfl, ((pipe_sleepers hrun rfl).1 1 10 rfl).1⟩

/-- A reader sleeps on the empty pipe, a writer puts in a byte and is killed before the next
round : it returns without a wake-up, and the reader sleeps on beside the byte. -/
theorem pipe_reader_stranded : ∃ h st, Run PipeState.Init PipeStep h st ∧ st.lock = none ∧
    st.pc 1 = .sleepsEmpty 10 ∧ st.pipe.nread ≠ st.pipe.nwrite := by
  have hrun : Run PipeState.Init PipeStep _ _ :=
    ((((((((Run.start newPipe_init).snoc (.callRead 1 10 rfl rfl)).snoc
      (.lockRead (p := 1) (n := 10) rfl rfl)).snoc (.wait (p := 1) (n := 10) rfl)).snoc
      (.callWrite 0 2 rfl rfl)).snoc (.lockWrite (p := 0) (n := 2) (i := 0) rfl rfl)).snoc
      (.write (p := 0) (n := 2) (i := 0) 65 rfl)).snoc (.kill 0 true)).snoc
      (.write (p := 0) (n := 2) (i := 1) 66 rfl)
  exact ⟨_, _, hrun, rfl, rfl, by decide⟩

end Xv6Plus
