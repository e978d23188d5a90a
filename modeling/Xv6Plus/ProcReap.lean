import Xv6Plus.ProcLife

/-!
# Every child is waited for once

The history of a run says for each process how often it exited and how often a `kwait`
returned it. `LifeHist` relates it to the table, `WaitInv` says that no wakeup is lost, and
every step keeps both.
-/

namespace Xv6Plus

section Reap

variable {r : Roots} {st st' : LifeState} {e : LifeEvent} {h : List LifeEvent} {p j : ℕ}

/-! ## What the history says -/

/-- What was handed out for the process `id` : by whom, its pid and its status. -/
def reapsOf (id : ℕ) (h : List LifeEvent) : List (ℕ × ℤ × ℤ) :=
  h.filterMap fun e => match e with
    | .reaped q i pid x => if i = id then some (q, pid, x) else none
    | _ => none

theorem reapsOf_snoc (id : ℕ) (h : List LifeEvent) (e : LifeEvent) :
    reapsOf id (h ++ [e]) = reapsOf id h ++ match e with
      | .reaped q i pid x => if i = id then [(q, pid, x)] else []
      | _ => [] := by
  rw [reapsOf, reapsOf, List.filterMap_append]
  congr 1
  cases e with
  | reaped q i pid x => by_cases hi : i = id <;> simp [hi]
  | _ => rfl

/-- The process `id` is in the slot `i`, and nobody has waited for it. -/
structure Present (h : List LifeEvent) (st : LifeState) (id : ℕ) (pid : ℤ) (i : ℕ) : Prop where
  used : st.phase i ≠ .unused
  born : (st.slot i).born = id
  pid : (st.slot i).pid = pid
  unreaped : reapsOf id h = []
  exited : ∀ x, .exited id x ∈ h ↔ st.phase i = .zombie ∧ (st.slot i).xstate = x

/-- The process `id` has exited, and one `kwait` has returned it. -/
def Reaped (h : List LifeEvent) (id : ℕ) (pid : ℤ) : Prop :=
  ∃ q x, reapsOf id h = [(q, pid, x)] ∧ ∀ y, .exited id y ∈ h ↔ y = x

structure LifeHist (r : Roots) (h : List LifeEvent) (st : LifeState) : Prop where
  lt : ∀ id pid, .forked id pid ∈ h → id < st.births
  fate : ∀ id pid, .forked id pid ∈ h → (∃ i, Present h st id pid i) ∨ Reaped h id pid
  origin : ∀ i, st.phase i ≠ .unused → r.Root i ∨ .forked (st.slot i).born (st.slot i).pid ∈ h
  fresh : ∀ i, st.phase i ≠ .unused → reapsOf (st.slot i).born h = []
  silent : ∀ id, st.births ≤ id → reapsOf id h = [] ∧ ∀ x, .exited id x ∉ h
  exits : ∀ id x, .exited id x ∈ h → ∃ pid, .forked id pid ∈ h

theorem LifeState.Init.hist (hi : st.Init r) : LifeHist r [] st := by
  refine ⟨nofun, nofun, fun i hu => ?_, fun _ _ => rfl, fun _ _ => ⟨rfl, nofun⟩, nofun⟩
  by_contra hc
  rw [not_or] at hc
  exact hu (phase_unused_iff.2 (hi.rest i hc.1))

/-- A step that neither makes nor ends a process. -/
theorem LifeHist.quiet (hh : LifeHist r h st)
    (hun : ∀ i, st'.phase i = .unused ↔ st.phase i = .unused)
    (hz : ∀ i, st'.phase i = .zombie ↔ st.phase i = .zombie)
    (hf : ∀ i, st.phase i ≠ .unused → (st'.slot i).born = (st.slot i).born ∧
      (st'.slot i).pid = (st.slot i).pid ∧ (st'.slot i).xstate = (st.slot i).xstate)
    (hb : st'.births = st.births) : LifeHist r (h ++ [.other]) st' := by
  have hmem : ∀ e, e ≠ LifeEvent.other → (e ∈ h ++ [.other] ↔ e ∈ h) := by
    intro e he
    simp [he]
  have hreap : ∀ id, reapsOf id (h ++ [.other]) = reapsOf id h := fun id => by
    simp [reapsOf_snoc]
  have hused : ∀ i, st'.phase i ≠ .unused → st.phase i ≠ .unused := fun i hi hc =>
    hi ((hun i).2 hc)
  refine ⟨fun id pid hm => ?_, fun id pid hm => ?_, fun i hi => ?_, fun i hi => ?_,
    fun id hid => ?_, fun id x hm => ?_⟩
  · rw [hb]
    exact hh.lt id pid ((hmem _ LifeEvent.noConfusion).1 hm)
  · rcases hh.fate id pid ((hmem _ LifeEvent.noConfusion).1 hm) with ⟨i, hp⟩ | ⟨q, x, hr, hx⟩
    · obtain ⟨h1, h2, h3⟩ := hf i hp.used
      refine Or.inl ⟨i, fun hc => hp.used ((hun i).1 hc), h1.trans hp.born, h2.trans hp.pid,
        (hreap id).trans hp.unreaped, fun x => ?_⟩
      rw [hmem _ LifeEvent.noConfusion, hp.exited x, hz, h3]
    · refine Or.inr ⟨q, x, (hreap id).trans hr, fun y => ?_⟩
      rw [hmem _ LifeEvent.noConfusion, hx y]
  · obtain ⟨h1, h2, -⟩ := hf i (hused i hi)
    rw [h1, h2, hmem _ LifeEvent.noConfusion]
    exact hh.origin i (hused i hi)
  · rw [(hf i (hused i hi)).1, hreap]
    exact hh.fresh i (hused i hi)
  · rw [hb] at hid
    obtain ⟨h1, h2⟩ := hh.silent id hid
    exact ⟨(hreap id).trans h1, fun x hx => h2 x ((hmem _ LifeEvent.noConfusion).1 hx)⟩
  · obtain ⟨pid, hp⟩ := hh.exits id x ((hmem _ LifeEvent.noConfusion).1 hm)
    exact ⟨pid, (hmem _ LifeEvent.noConfusion).2 hp⟩

theorem LifeHist.like (hh : LifeHist r h st) (hl : ∀ i, (st.slot i).Like (st'.slot i))
    (hb : st'.births = st.births) : LifeHist r (h ++ [.other]) st' := by
  have hph : ∀ i, st'.phase i = st.phase i := fun i => (hl i).phase
  exact hh.quiet (fun i => by rw [hph]) (fun i => by rw [hph])
    (fun i _ => ⟨(hl i).born, (hl i).pid, (hl i).xstate⟩) hb

theorem LifeHist.fork {pid : ℤ} (hh : LifeHist r h st) (hj : st.phase j = .unused)
    (hself : st'.phase j = .used ∧ (st'.slot j).born = st.births ∧ (st'.slot j).pid = pid)
    (hother : ∀ i, i ≠ j → st'.slot i = st.slot i) (hb : st'.births = st.births + 1) :
    LifeHist r (h ++ [.forked st.births pid]) st' := by
  have hph : ∀ i, i ≠ j → st'.phase i = st.phase i := fun i hi => by
    rw [LifeState.phase, hother i hi, LifeState.phase]
  have hreap : ∀ id, reapsOf id (h ++ [.forked st.births pid]) = reapsOf id h := fun id => by
    simp [reapsOf_snoc]
  have hexit : ∀ id x, .exited id x ∈ h ++ [.forked st.births pid] ↔ .exited id x ∈ h :=
    fun id x => by simp
  obtain ⟨hquiet, hnoexit⟩ := hh.silent st.births (le_refl _)
  refine ⟨fun id pid' hm => ?_, fun id pid' hm => ?_, fun i hi => ?_, fun i hi => ?_,
    fun id hid => ?_, fun id x hm => ?_⟩
  · rw [hb]
    rcases List.mem_append.1 hm with hm | hm
    · exact (hh.lt id pid' hm).trans (Nat.lt_succ_self _)
    · obtain ⟨rfl, -⟩ := LifeEvent.forked.inj (List.mem_singleton.1 hm)
      exact Nat.lt_succ_self _
  · rcases List.mem_append.1 hm with hm | hm
    · rcases hh.fate id pid' hm with ⟨i, hp⟩ | ⟨q, x, hr, hx⟩
      · have hij : i ≠ j := by
          rintro rfl
          exact hp.used hj
        refine Or.inl ⟨i, by rw [hph i hij]; exact hp.used, by rw [hother i hij, hp.born],
          by rw [hother i hij, hp.pid], (hreap id).trans hp.unreaped, fun x => ?_⟩
        rw [hexit, hp.exited x, hph i hij, hother i hij]
      · exact Or.inr ⟨q, x, (hreap id).trans hr, fun y => (hexit id y).trans (hx y)⟩
    · -- the new process
      obtain ⟨rfl, rfl⟩ := LifeEvent.forked.inj (List.mem_singleton.1 hm)
      refine Or.inl ⟨j, by rw [hself.1]; exact ProcState.noConfusion, hself.2.1, hself.2.2,
        (hreap _).trans hquiet, fun x => ?_⟩
      rw [hexit, hself.1]
      exact iff_of_false (hnoexit x) fun hc => absurd hc.1 ProcState.noConfusion
  · by_cases hij : i = j
    · subst hij
      rw [hself.2.1, hself.2.2]
      exact Or.inr (List.mem_append_right _ (List.mem_singleton_self _))
    · rw [hph i hij] at hi
      rw [hother i hij]
      exact (hh.origin i hi).imp_right fun hm => List.mem_append_left _ hm
  · rw [hreap]
    by_cases hij : i = j
    · subst hij
      rw [hself.2.1]
      exact hquiet
    · rw [hph i hij] at hi
      rw [hother i hij]
      exact hh.fresh i hi
  · rw [hb] at hid
    obtain ⟨h1, h2⟩ := hh.silent id (by omega)
    exact ⟨(hreap id).trans h1, fun x hx => h2 x ((hexit id x).1 hx)⟩
  · obtain ⟨pid', hp⟩ := hh.exits id x ((hexit id x).1 hm)
    exact ⟨pid', List.mem_append_left _ hp⟩

theorem LifeHist.exit {status : ℤ} (hh : LifeHist r h st) (hinv : LifeInv r st)
    (hx : ExitPost r p status st st') (hp : st.phase p = .live) (hroot : ¬r.Root p) :
    LifeHist r (h ++ [.exited (st.slot p).born status]) st' := by
  have hpu : st.phase p ≠ .unused := by rw [hp]; exact ProcState.noConfusion
  have hreap : ∀ id, reapsOf id (h ++ [.exited (st.slot p).born status]) = reapsOf id h :=
    fun id => by simp [reapsOf_snoc]
  have hfork : ∀ id pid, .forked id pid ∈ h ++ [.exited (st.slot p).born status] ↔
      .forked id pid ∈ h := fun id pid => by simp
  have hpid : ∀ i, (st'.slot i).pid = (st.slot i).pid := by
    intro i
    by_cases hip : i = p
    · rw [hip, hx.self.2.2]
    · exact (hx.other i hip).2.2
  have hunused : ∀ i, st'.phase i = .unused ↔ st.phase i = .unused := by
    intro i
    by_cases hip : i = p
    · subst hip
      rw [phase_zombie_iff.2 hx.self.1, hp]
      simp
    · rw [(hx.other i hip).1]
  refine ⟨fun id pid hm => ?_, fun id pid hm => ?_, fun i hi => ?_, fun i hi => ?_,
    fun id hid => ?_, fun id x hm => ?_⟩
  · rw [hx.births]
    exact hh.lt id pid ((hfork id pid).1 hm)
  · rcases hh.fate id pid ((hfork id pid).1 hm) with ⟨i, hpr⟩ | ⟨q, x, hr, hex⟩
    · refine Or.inl ⟨i, fun hc => hpr.used ((hunused i).1 hc), (hx.born i).trans hpr.born,
        (hpid i).trans hpr.pid, (hreap id).trans hpr.unreaped, fun x => ?_⟩
      rw [List.mem_append, List.mem_singleton, hpr.exited x]
      by_cases hip : i = p
      · -- the process that exits
        subst hip
        rw [hp, phase_zombie_iff.2 hx.self.1, hx.self.2.1, ← hpr.born]
        simp [eq_comm]
      · have hne : id ≠ (st.slot p).born := fun hc =>
          hip (hinv.born_inj i p hpr.used hpu (hpr.born.trans hc))
        rw [(hx.other i hip).1, (hx.other i hip).2.1]
        simp [hne]
    · refine Or.inr ⟨q, x, (hreap id).trans hr, fun y => ?_⟩
      have hne : id ≠ (st.slot p).born := by
        rintro rfl
        rw [hh.fresh p hpu] at hr
        exact absurd hr (by simp)
      rw [List.mem_append, List.mem_singleton, hex y]
      simp [hne]
  · rw [hx.born, hpid, hfork]
    exact hh.origin i fun hc => hi ((hunused i).2 hc)
  · rw [hx.born, hreap]
    exact hh.fresh i fun hc => hi ((hunused i).2 hc)
  · rw [hx.births] at hid
    obtain ⟨h1, h2⟩ := hh.silent id hid
    refine ⟨(hreap id).trans h1, fun x hm => ?_⟩
    rcases List.mem_append.1 hm with hm | hm
    · exact h2 x hm
    · have hb := hinv.born_lt p hpu
      obtain ⟨rfl, -⟩ := LifeEvent.exited.inj (List.mem_singleton.1 hm)
      omega
  · rcases List.mem_append.1 hm with hm | hm
    · obtain ⟨pid, hp'⟩ := hh.exits id x hm
      exact ⟨pid, (hfork id pid).2 hp'⟩
    · obtain ⟨rfl, -⟩ := LifeEvent.exited.inj (List.mem_singleton.1 hm)
      exact ⟨_, (hfork _ _).2 ((hh.origin p hpu).resolve_left hroot)⟩

theorem LifeHist.reap {q : ℕ} (hh : LifeHist r h st) (hinv : LifeInv r st)
    (hj : st.phase j = .zombie) (hself : st'.phase j = .unused)
    (hother : ∀ i, i ≠ j → st'.slot i = st.slot i) (hb : st'.births = st.births) :
    LifeHist r (h ++ [.reaped q (st.slot j).born (st.slot j).pid (st.slot j).xstate]) st' := by
  have hju : st.phase j ≠ .unused := by rw [hj]; exact ProcState.noConfusion
  have hph : ∀ i, i ≠ j → st'.phase i = st.phase i := fun i hi => by
    rw [LifeState.phase, hother i hi, LifeState.phase]
  have hmem : ∀ id x, .exited id x ∈ h ++ [.reaped q (st.slot j).born (st.slot j).pid
      (st.slot j).xstate] ↔ .exited id x ∈ h := fun id x => by simp
  have hfork : ∀ id pid, .forked id pid ∈ h ++ [.reaped q (st.slot j).born (st.slot j).pid
      (st.slot j).xstate] ↔ .forked id pid ∈ h := fun id pid => by simp
  have hreap : ∀ id, id ≠ (st.slot j).born → reapsOf id (h ++ [.reaped q (st.slot j).born
      (st.slot j).pid (st.slot j).xstate]) = reapsOf id h := fun id hne => by
    simp [reapsOf_snoc, Ne.symm hne]
  have hused : ∀ i, st'.phase i ≠ .unused → i ≠ j ∧ st.phase i ≠ .unused := by
    intro i hi
    have hij : i ≠ j := by
      rintro rfl
      exact hi hself
    exact ⟨hij, hph i hij ▸ hi⟩
  have hborn : ∀ i, i ≠ j → st.phase i ≠ .unused → (st.slot i).born ≠ (st.slot j).born :=
    fun i hij hi hc => hij (hinv.born_inj i j hi hju hc)
  refine ⟨fun id pid hm => ?_, fun id pid hm => ?_, fun i hi => ?_, fun i hi => ?_,
    fun id hid => ?_, fun id x hm => ?_⟩
  · rw [hb]
    exact hh.lt id pid ((hfork id pid).1 hm)
  · rcases hh.fate id pid ((hfork id pid).1 hm) with ⟨i, hpr⟩ | ⟨q', x, hr, hex⟩
    · by_cases hij : i = j
      · -- the process that is waited for
        subst hij
        refine Or.inr ⟨q, (st.slot i).xstate, ?_, fun y => ?_⟩
        · rw [reapsOf_snoc, hpr.unreaped]
          simp [hpr.born, hpr.pid]
        · rw [hmem, hpr.exited y, hj]
          simp [eq_comm]
      · refine Or.inl ⟨i, by rw [hph i hij]; exact hpr.used, by rw [hother i hij, hpr.born],
          by rw [hother i hij, hpr.pid], ?_, fun x => ?_⟩
        · rw [hreap id (hpr.born ▸ hborn i hij hpr.used), hpr.unreaped]
        · rw [hmem, hpr.exited x, hph i hij, hother i hij]
    · have hne : id ≠ (st.slot j).born := by
        rintro rfl
        rw [hh.fresh j hju] at hr
        exact absurd hr (by simp)
      exact Or.inr ⟨q', x, (hreap id hne).trans hr, fun y => (hmem id y).trans (hex y)⟩
  · obtain ⟨hij, hu⟩ := hused i hi
    rw [hother i hij, hfork]
    exact hh.origin i hu
  · obtain ⟨hij, hu⟩ := hused i hi
    rw [hother i hij, hreap _ (hborn i hij hu)]
    exact hh.fresh i hu
  · rw [hb] at hid
    obtain ⟨h1, h2⟩ := hh.silent id hid
    have hlt := hinv.born_lt j hju
    exact ⟨(hreap id (by omega)).trans h1, fun x hx => h2 x ((hmem id x).1 hx)⟩
  · obtain ⟨pid, hp⟩ := hh.exits id x ((hmem id x).1 hm)
    exact ⟨pid, (hfork id pid).2 hp⟩

/-! ## No wakeup is lost -/

/-- The process sleeps in `kwait`. -/
def PTable.InWait (t : PTable) (p : ℕ) : Prop :=
  (t p).state = .sleeping ∧ (t p).chan = some (.proc p)

/-- Who sleeps in `kwait` has no child to wait for. -/
structure WaitInv (r : Roots) (t : PTable) : Prop where
  root : (t r.initproc).parent = none
  apart : ∀ i, (t i).parent ≠ some i
  awake : ∀ p i, t.InWait p → (t i).parent = some p → (t i).state ≠ .zombie

theorem WaitInv.update {t : PTable} {s : PSlot} (hw : WaitInv r t)
    (hpar : s.parent = none ∨ s.parent = (t j).parent ∨ (j ≠ r.initproc ∧ s.parent ≠ some j))
    (hz : s.state = .zombie → (t j).state = .zombie ∧ s.parent = (t j).parent)
    (hs : ¬(s.state = .sleeping ∧ s.chan = some (.proc j))) :
    WaitInv r (Function.update t j s) := by
  refine ⟨?_, fun i => ?_, fun p i hp hi => ?_⟩
  · by_cases hj : r.initproc = j
    · subst hj
      rw [Function.update_self]
      rcases hpar with hn | he | ⟨hne, -⟩
      · exact hn
      · exact he.trans hw.root
      · exact absurd rfl hne
    · rw [Function.update_of_ne hj]
      exact hw.root
  · by_cases hij : i = j
    · subst hij
      rw [Function.update_self]
      rcases hpar with hn | he | ⟨-, hne⟩
      · rw [hn]
        exact nofun
      · rw [he]
        exact hw.apart i
      · exact hne
    · rw [Function.update_of_ne hij]
      exact hw.apart i
  · have hpj : p ≠ j := by
      rintro rfl
      unfold PTable.InWait at hp
      rw [Function.update_self] at hp
      exact hs hp
    have hp' : t.InWait p := by
      unfold PTable.InWait at hp
      rwa [Function.update_of_ne hpj] at hp
    by_cases hij : i = j
    · subst hij
      rw [Function.update_self] at hi ⊢
      intro hc
      obtain ⟨h1, h2⟩ := hz hc
      exact hw.awake p i hp' (h2 ▸ hi) h1
    · rw [Function.update_of_ne hij] at hi ⊢
      exact hw.awake p i hp' hi

/-- Who still sleeps after a `wakeup` has slept before, and on something else. -/
theorem asleep_of_wakeupAll {me q : ℕ} {c c' : SleepChan} {t : PTable} (hq : q ≠ me)
    (hs : (wakeupAll me c t q).state = .sleeping) (hc : (wakeupAll me c t q).chan = some c') :
    (t q).state = .sleeping ∧ (t q).chan = some c' ∧ c' ≠ c := by
  unfold wakeupAll at hs hc
  split_ifs at hs hc with hif
  refine ⟨hs, hc, ?_⟩
  rintro rfl
  exact hif ⟨hq, hs, hc⟩

theorem WaitInv.wakeupAll {t : PTable} (hw : WaitInv r t) (me : ℕ) (c : SleepChan) :
    WaitInv r (wakeupAll me c t) := by
  have hl := wakeupAll_like me c t
  refine ⟨(hl _).parent.trans hw.root, fun i => ?_, fun p i hp hi hc => ?_⟩
  · rw [(hl i).parent]
    exact hw.apart i
  · have hp' : t.InWait p := by
      unfold PTable.InWait Xv6Plus.wakeupAll at hp
      split_ifs at hp with hif
      · simp at hp
      · exact hp
    refine hw.awake p i hp' ((hl i).parent ▸ hi) ?_
    have hph := (hl i).phase
    rw [hc] at hph
    revert hph
    cases (t i).state <;> simp [RunState.phase]

theorem asleep_of_reparentLoop {me initproc q : ℕ} {c : SleepChan} (hq : q ≠ me) :
    ∀ {n i : ℕ} {t : PTable}, (reparentLoop me initproc n i t q).state = .sleeping →
    (reparentLoop me initproc n i t q).chan = some c →
    (t q).state = .sleeping ∧ (t q).chan = some c ∧
      (c = .proc initproc → ∀ k, i ≤ k → k < i + n → (t k).parent ≠ some me)
  | 0, _, _, hs, hc => ⟨hs, hc, fun _ _ _ hlt => absurd hlt (by omega)⟩
  | n + 1, i, t, hs, hc => by
    rw [reparentLoop] at hs hc
    split_ifs at hs hc with hp
    · obtain ⟨h1, h2, -⟩ := asleep_of_reparentLoop hq hs hc
      obtain ⟨h3, h4, h5⟩ := asleep_of_wakeupAll hq h1 h2
      by_cases hqi : q = i
      · subst hqi
        rw [Function.update_self] at h3 h4
        exact ⟨h3, h4, fun hc => absurd hc h5⟩
      · rw [Function.update_of_ne hqi] at h3 h4
        exact ⟨h3, h4, fun hc => absurd hc h5⟩
    · obtain ⟨h1, h2, h3⟩ := asleep_of_reparentLoop hq hs hc
      refine ⟨h1, h2, fun hc k hle hlt => ?_⟩
      by_cases hki : k = i
      · subst hki
        exact hp
      · exact h3 hc k (by omega) (by omega)

theorem asleep_of_wakeupParent {me q : ℕ} {c : SleepChan} {t : PTable} (hq : q ≠ me)
    (hs : (wakeupParent me t q).state = .sleeping) (hc : (wakeupParent me t q).chan = some c) :
    (t q).state = .sleeping ∧ (t q).chan = some c ∧
      ∀ q', (t me).parent = some q' → c ≠ .proc q' := by
  unfold wakeupParent at hs hc
  cases hp : (t me).parent with
  | none =>
    rw [hp] at hs hc
    exact ⟨hs, hc, nofun⟩
  | some q' =>
    rw [hp] at hs hc
    obtain ⟨h1, h2, h3⟩ := asleep_of_wakeupAll hq hs hc
    refine ⟨h1, h2, fun q'' hq'' => ?_⟩
    obtain rfl := Option.some.inj hq''
    exact h3

theorem WaitInv.exit {status : ℤ} (hw : WaitInv r st.slot) (hinv : LifeInv r st)
    (hlt : p < nProc) (hroot : ¬r.Root p) :
    WaitInv r (kexitTable p r.initproc status st.slot) := by
  have hx := kexit_post hinv hlt status
  refine ⟨(hx.none _).2 hw.root, fun i hi => ?_, fun q i hq hi hz => ?_⟩
  · rcases hx.parent i i hi with ⟨hp, rfl⟩ | ⟨-, hp⟩
    · exact absurd (hp.symm.trans hw.root) (by simp)
    · exact hw.apart i hp
  · have hqp : q ≠ p := by
      rintro rfl
      exact absurd (hx.self.1.symm.trans hq.1) RunState.noConfusion
    obtain ⟨hs, hc⟩ := hq
    unfold kexitTable at hs hc
    rw [Function.update_of_ne hqp] at hs hc
    obtain ⟨h1, h2, hpar⟩ := asleep_of_wakeupParent hqp hs hc
    obtain ⟨h3, h4, hkids⟩ := asleep_of_reparentLoop hqp h1 h2
    by_cases hip : i = p
    · -- the parent of `p` has been woken up
      subst hip
      refine hpar q ?_ rfl
      rw [← (wakeupParent_like i _ i).parent]
      unfold kexitTable at hi
      rwa [Function.update_self] at hi
    · rcases hx.parent i q hi with ⟨hp, rfl⟩ | ⟨-, hp⟩
      · -- and so has `initproc`, if there were children of `p`
        have hilt : i < nProc := by
          by_contra hge
          rw [(hinv.bound i (not_lt.1 hge)).2] at hp
          exact absurd hp (by simp)
        exact hkids rfl i (Nat.zero_le _) (by omega) hp
      · refine hw.awake q i ⟨h3, h4⟩ hp (phase_zombie_iff.1 ?_)
        rw [← (hx.other i hip).1]
        exact phase_zombie_iff.2 hz

/-- `kwait` goes to sleep after a scan without a find. -/
theorem WaitInv.wait {t : PTable} {b : Bool} (hw : WaitInv r t)
    (hbound : ∀ i, nProc ≤ i → (t i).parent = none) (hs : scanKids t p nProc 0 false = (none, b)) :
    WaitInv r (Function.update t p { t p with state := .sleeping, chan := some (.proc p) }) := by
  set t' := Function.update t p { t p with state := .sleeping, chan := some (.proc p) } with ht'
  have hpar : ∀ i, (t' i).parent = (t i).parent := by
    intro i
    by_cases hip : i = p
    · subst hip
      simp [ht']
    · simp [ht', hip]
  have hz : ∀ i, (t' i).state = .zombie → (t i).state = .zombie := by
    intro i hi
    by_cases hip : i = p
    · subst hip
      simp [ht'] at hi
    · simpa [ht', hip] using hi
  refine ⟨(hpar _).trans hw.root, fun i => ?_, fun q i hq hi hc => ?_⟩
  · rw [hpar]
    exact hw.apart i
  · rw [hpar] at hi
    by_cases hqp : q = p
    · subst hqp
      have hilt : i < nProc := by
        by_contra hge
        rw [hbound i (not_lt.1 hge)] at hi
        exact absurd hi (by simp)
      exact scanKids_none hs i (Nat.zero_le _) (by omega) hi (hz i hc)
    · refine hw.awake q i ?_ hi (hz i hc)
      unfold PTable.InWait at hq ⊢
      simpa [ht', hqp] using hq

/-! ## Every step -/

/-- What holds in every run. -/
structure LifeOk (r : Roots) (h : List LifeEvent) (st : LifeState) : Prop where
  inv : LifeInv r st
  hist : LifeHist r h st
  wait : WaitInv r st.slot

theorem LifeState.Init.ok (hi : st.Init r) : LifeOk r [] st := by
  refine ⟨hi.inv, hi.hist, hi.parents _, fun i => ?_, fun p i _ hp => ?_⟩
  · rw [hi.parents]
    exact nofun
  · rw [hi.parents] at hp
    exact absurd hp (by simp)

/-- One slot changes in its scheduling. -/
theorem LifeOk.schedule {s : PSlot} {pc : ℕ → LifePc} (hok : LifeOk r h st)
    (hl : (st.slot j).Like s) (hpc : ∀ q, pc q = st.pc q ∨ (pc q).child = none)
    (hw : WaitInv r (Function.update st.slot j s)) :
    LifeOk r (h ++ [.other]) { st with slot := Function.update st.slot j s, pc := pc } :=
  ⟨hok.inv.like (update_like hl) hpc rfl, hok.hist.like (update_like hl) rfl, hw⟩

theorem WaitInv.schedule {s : PSlot} (hw : WaitInv r st.slot) (hl : (st.slot j).Like s)
    (hs : ¬(s.state = .sleeping ∧ s.chan = some (.proc j))) :
    WaitInv r (Function.update st.slot j s) := by
  refine hw.update (Or.inr (Or.inl hl.parent)) (fun hz => ⟨?_, hl.parent⟩) hs
  have hph := hl.phase
  rw [hz] at hph
  exact phase_zombie_iff.1 hph.symm

/-- The child `j` of `p` goes on : it gets its parent, or it becomes runnable. -/
theorem LifeOk.goOn {s : PSlot} {c : LifePc} {pc : ℕ → LifePc} (hok : LifeOk r h st)
    (hpc : (st.pc p).child = some j) (hs : s.state = .used ∨ s.state = .runnable)
    (hpar : s.parent = some p) (hborn : s.born = (st.slot j).born)
    (hpid : s.pid = (st.slot j).pid) (hx : s.xstate = (st.slot j).xstate)
    (hc : c.child = none ∨ (c = .forked j ∧ s.state = .used))
    (hself : pc p = c) (hother : ∀ q, q ≠ p → pc q = st.pc q ∨ (pc q).child = none) :
    LifeOk r (h ++ [.other]) { st with slot := Function.update st.slot j s, pc := pc } := by
  obtain ⟨hp, hj⟩ := hok.inv.child p j hpc
  have hsp : s.state.phase = .used ∨ s.state.phase = .live := by
    rcases hs with hs | hs <;> rw [hs] <;> decide
  have hroot : j ≠ r.initproc := by
    rintro rfl
    exact absurd (hj.symm.trans (hok.inv.root _ (Or.inl rfl))) ProcState.noConfusion
  have hjp : p ≠ j := by
    rintro rfl
    exact absurd (hj.symm.trans hp) ProcState.noConfusion
  have hc' : c.child = none ∨ (c = .forked j ∧ s.state.phase = .used) :=
    hc.imp_right fun ⟨h1, h2⟩ => ⟨h1, by rw [h2]; rfl⟩
  refine ⟨hok.inv.goOn hpc hsp hpar hborn hc' hself hother,
    hok.hist.quiet (fun i => ?_) (fun i => ?_) (fun i _ => ?_) rfl,
    hok.wait.update (Or.inr (Or.inr ⟨hroot, by simpa [hpar] using hjp⟩)) (fun hz => ?_)
      fun hsl => ?_⟩
  · by_cases hij : i = j
    · subst hij
      rw [hj]
      rcases hsp with h1 | h1 <;> simp [LifeState.phase, h1]
    · simp [LifeState.phase, hij]
  · by_cases hij : i = j
    · subst hij
      rw [hj]
      rcases hsp with h1 | h1 <;> simp [LifeState.phase, h1]
    · simp [LifeState.phase, hij]
  · by_cases hij : i = j
    · subst hij
      simp [hborn, hpid, hx]
    · simp [hij]
  · rcases hs with hs | hs <;> exact absurd (hs.symm.trans hz) RunState.noConfusion
  · rcases hs with hs | hs <;> exact absurd (hs.symm.trans hsl.1) RunState.noConfusion

theorem kwaitRound_cases (t : PTable) (me : ℕ) (b : Bool) :
    (∃ i, (t i).parent = some me ∧ (t i).state = .zombie ∧ b = false ∧
      kwaitRound me b t = (.reaped (t me).born (t i).born (t i).pid (t i).xstate,
        Function.update t i (t i).free, .user)) ∨
    kwaitRound me b t = (.other, t, .user) ∨
    (∃ k, scanKids t me nProc 0 false = (none, k) ∧ kwaitRound me b t = (.other,
      Function.update t me { t me with state := .sleeping, chan := some (.proc me) },
      .waiting)) := by
  unfold kwaitRound
  rcases hs : scanKids t me nProc 0 false with ⟨_ | i, k⟩
  · simp only
    split_ifs with hk
    · exact Or.inr (Or.inl rfl)
    · exact Or.inr (Or.inr ⟨k, rfl, rfl⟩)
  · obtain ⟨-, hp, hz⟩ := scanKids_spec hs
    simp only
    split_ifs with hb
    · exact Or.inr (Or.inl rfl)
    · exact Or.inl ⟨i, hp, hz, by simpa using hb, rfl⟩

theorem LifeStep.ok (hok : LifeOk r h st) (hstep : LifeStep r st e st') :
    LifeOk r (h ++ [e]) st' := by
  have hlive : ∀ {q}, st.Runs r q → (st.slot q).state.phase = .live := fun hr => hr.phase
  have hsame : ∀ q c, (c : LifePc).child = none →
      ∀ k, Function.update st.pc q c k = st.pc k ∨ (Function.update st.pc q c k).child = none := by
    intro q c hc k
    by_cases hk : k = q
    · subst hk
      rw [Function.update_self]
      exact Or.inr hc
    · exact Or.inl (Function.update_of_ne hk _ _)
  cases hstep with
  | @fork p j hr hpc hf =>
    obtain ⟨-, hlt, hun⟩ := findUnused_spec hf
    have hj : st.phase j = .unused := phase_unused_iff.2 hun
    refine ⟨hok.inv.fork hr.phase hpc hj (by omega) rfl rfl rfl,
      hok.hist.fork hj ?_ (fun i hi => Function.update_of_ne hi _ _) rfl,
      hok.wait.update (Or.inr (Or.inl rfl)) (fun hz => RunState.noConfusion hz)
        fun hs => RunState.noConfusion hs.1⟩
    simp [LifeState.phase, RunState.phase]
  | @forkFails p j hr hpc hf =>
    obtain ⟨-, hlt, hun⟩ := findUnused_spec hf
    have hj : st.phase j = .unused := phase_unused_iff.2 hun
    refine ⟨hok.inv.free (Or.inl hj) fun q => Or.inl rfl, hok.hist.quiet (fun i => ?_)
      (fun i => ?_) (fun i hi => ?_) rfl, hok.wait.update (Or.inl rfl)
        (fun hz => RunState.noConfusion hz) fun hs => RunState.noConfusion hs.1⟩
    · by_cases hij : i = j
      · subst hij
        simp [LifeState.phase, PSlot.free, hun]
      · simp [LifeState.phase, hij]
    · by_cases hij : i = j
      · subst hij
        simp [LifeState.phase, PSlot.free, hun]
      · simp [LifeState.phase, hij]
    · have hij : i ≠ j := by
        rintro rfl
        exact hi hj
      simp [hij]
  | @setParent p j hr hpc =>
    have hchild : (st.pc p).child = some j := by rw [hpc]; rfl
    have hj : (st.slot j).state = .used := phase_used_iff.1 (hok.inv.child p j hchild).2
    exact hok.goOn hchild (Or.inl hj) rfl rfl rfl rfl (Or.inr ⟨rfl, hj⟩)
      (Function.update_self ..) fun q hq => Or.inl (Function.update_of_ne hq _ _)
  | @ready p j hr hpc =>
    have hchild : (st.pc p).child = some j := by rw [hpc]; rfl
    refine hok.goOn hchild (Or.inr rfl) (hok.inv.named p j hpc) rfl rfl rfl (Or.inl rfl)
      (Function.update_self ..) fun q hq => ?_
    rw [Function.update_of_ne hq]
    exact hsame j .user rfl q
  | @exit p status hr hpc hne =>
    have hroot : ¬r.Root p := by
      rintro (hc | hc)
      · exact hne hc
      · exact absurd (hc.symm.trans hr.2.1) Bool.noConfusion
    have hx := kexit_post hok.inv hr.1 status
    exact ⟨hok.inv.exit hx hr.phase hroot hpc, hok.hist.exit hok.inv hx hr.phase hroot,
      hok.wait.exit hok.inv hr.1 hroot⟩
  | @wait p hr hpc =>
    exact ⟨hok.inv.like (fun i => .refl _) (hsame p _ rfl) rfl,
      hok.hist.like (fun i => .refl _) rfl, hok.wait⟩
  | @scan p b hr hpc =>
    rcases kwaitRound_cases st.slot p b with ⟨i, hp, hz, -, heq⟩ | heq | ⟨k, hs, heq⟩
    · rw [heq]
      have hzi : st.phase i = .zombie := phase_zombie_iff.2 hz
      refine ⟨hok.inv.free (Or.inr hzi) (hsame p _ rfl),
        hok.hist.reap hok.inv hzi ?_ (fun k hk => Function.update_of_ne hk _ _) rfl,
        hok.wait.update (Or.inl rfl) (fun hz => RunState.noConfusion hz)
          fun hs => RunState.noConfusion hs.1⟩
      simp [LifeState.phase, PSlot.free, RunState.phase]
    · rw [heq]
      exact ⟨hok.inv.like (fun i => .refl _) (hsame p _ rfl) rfl,
        hok.hist.like (fun i => .refl _) rfl, hok.wait⟩
    · rw [heq]
      exact hok.schedule ⟨(hlive hr).symm, rfl, rfl, rfl, rfl⟩ (hsame p _ rfl)
        (hok.wait.wait (fun i hi => (hok.inv.bound i hi).2) hs)
  | @dispatch i hs =>
    have hl : (st.slot i).Like { st.slot i with state := .running, chan := none } :=
      ⟨by rw [hs]; rfl, rfl, rfl, rfl, rfl⟩
    exact hok.schedule hl (fun _ => Or.inl rfl)
      (hok.wait.schedule hl fun hc => RunState.noConfusion hc.1)
  | @yield i hs =>
    have hl : (st.slot i).Like { st.slot i with state := .runnable } :=
      ⟨by rw [hs]; rfl, rfl, rfl, rfl, rfl⟩
    exact hok.schedule hl (fun _ => Or.inl rfl)
      (hok.wait.schedule hl fun hc => RunState.noConfusion hc.1)
  | @sleep i a hs =>
    have hl : (st.slot i).Like { st.slot i with state := .sleeping, chan := some (.other a) } :=
      ⟨by rw [hs]; rfl, rfl, rfl, rfl, rfl⟩
    exact hok.schedule hl (fun _ => Or.inl rfl)
      (hok.wait.schedule hl fun hc => SleepChan.noConfusion (Option.some.inj hc.2))
  | wakeup me c =>
    exact ⟨hok.inv.like (wakeupAll_like me c _) (fun _ => Or.inl rfl) rfl,
      hok.hist.like (wakeupAll_like me c _) rfl, hok.wait.wakeupAll me c⟩
  | kill i sigkill =>
    refine hok.schedule ?hl (fun _ => Or.inl rfl) (hok.wait.schedule ?hl ?_)
    · refine ⟨?_, rfl, rfl, rfl, rfl⟩
      simp only
      split_ifs with hs
      · rw [hs]
        rfl
      · rfl
    · simp only
      split_ifs with hs
      · exact fun hc => hc.1
      · exact fun hc => hs hc.1

/-- Only a `kwait` makes a slot unused. -/
theorem LifeStep.unused {i : ℕ} (hok : LifeOk r h st) (hstep : LifeStep r st e st')
    (hu : (st.slot i).state ≠ .unused) (hu' : (st'.slot i).state = .unused) :
    ∃ p, (st.slot i).parent = some p ∧ st.phase p = .live ∧ (st.slot i).state = .zombie ∧
      e = .reaped (st.slot p).born (st.slot i).born (st.slot i).pid (st.slot i).xstate := by
  -- a step that keeps the phases does not
  have hlike : (st.slot i).Like (st'.slot i) → False := by
    intro hl
    have hph := hl.phase
    rw [hu'] at hph
    exact hu (phase_unused_iff.1 hph.symm)
  -- nor does one that changes another slot, or makes it something else
  have hupd : ∀ (j : ℕ) (s : PSlot), st'.slot = Function.update st.slot j s →
      (i = j → s.state ≠ .unused) → False := by
    intro j s hs hj
    rw [hs] at hu'
    by_cases hij : i = j
    · subst hij
      rw [Function.update_self] at hu'
      exact hj rfl hu'
    · rw [Function.update_of_ne hij] at hu'
      exact hu hu'
  cases hstep with
  | @fork p j hr hpc hf => exact absurd (hupd j _ rfl fun _ => RunState.noConfusion) id
  | @forkFails p j hr hpc hf =>
    refine absurd (hupd j _ rfl fun hij => ?_) id
    exact absurd (findUnused_spec hf).2.2 (hij ▸ hu)
  | @setParent p j hr hpc => exact absurd (hupd j _ rfl fun hij => hij ▸ hu) id
  | @ready p j hr hpc => exact absurd (hupd j _ rfl fun _ => RunState.noConfusion) id
  | @exit p status hr hpc hne =>
    have hx := kexit_post hok.inv hr.1 status
    by_cases hip : i = p
    · subst hip
      exact absurd (hx.self.1.symm.trans hu') RunState.noConfusion
    · have hph := (hx.other i hip).1
      rw [phase_unused_iff.2 hu'] at hph
      exact absurd (phase_unused_iff.1 hph.symm) hu
  | wait hr hpc => exact absurd hu' hu
  | @scan p b hr hpc =>
    rcases kwaitRound_cases st.slot p b with ⟨k, hp, hz, -, heq⟩ | heq | ⟨k, -, heq⟩
    · by_cases hik : i = k
      · subst hik
        exact ⟨p, hp, hr.phase, hz, by rw [heq]⟩
      · exact absurd (hupd k _ (by rw [heq]) fun hc => absurd hc hik) id
    · simp only [heq] at hu'
      exact absurd hu' hu
    · exact absurd (hupd p _ (by rw [heq]) fun _ => RunState.noConfusion) id
  | dispatch hs => exact absurd (hupd _ _ rfl fun _ => RunState.noConfusion) id
  | yield hs => exact absurd (hupd _ _ rfl fun _ => RunState.noConfusion) id
  | sleep a hs => exact absurd (hupd _ _ rfl fun _ => RunState.noConfusion) id
  | wakeup me c => exact absurd (hlike (wakeupAll_like me c _ i)) id
  | kill k sigkill =>
    refine absurd (hupd k _ rfl fun hik => ?_) id
    subst hik
    simp only
    split_ifs
    · exact RunState.noConfusion
    · exact hu

/-- What a `reaped` event says about the state it happens in. -/
theorem LifeStep.reaped {q id : ℕ} {pid x : ℤ} (hstep : LifeStep r st (.reaped q id pid x) st') :
    ∃ p i, (st.slot p).state = .running ∧ (st.slot p).born = q ∧
      (st.slot i).parent = some p ∧ (st.slot i).state = .zombie ∧ (st.slot i).born = id ∧
      (st.slot i).pid = pid ∧ (st.slot i).xstate = x := by
  generalize he : LifeEvent.reaped q id pid x = e at hstep
  cases hstep with
  | @scan p b hr hpc =>
    rcases kwaitRound_cases st.slot p b with ⟨i, hp, hz, -, heq⟩ | heq | ⟨k, -, heq⟩
    · rw [heq] at he
      obtain ⟨rfl, rfl, rfl, rfl⟩ := LifeEvent.reaped.inj he
      exact ⟨p, i, hr.2.2, rfl, hp, hz, rfl, rfl, rfl⟩
    · rw [heq] at he
      exact absurd he LifeEvent.noConfusion
    · rw [heq] at he
      exact absurd he LifeEvent.noConfusion
  | _ => exact absurd he LifeEvent.noConfusion

/-! ## Exit and wait -/

/-- Exit and wait deliver every child once. -/
structure ReapsOnce (r : Roots) (h : List LifeEvent) (st : LifeState) : Prop where
  /-- A zombie has somebody to wait for it. -/
  parent : ∀ i, (st.slot i).state = .zombie → ∃ q, (st.slot i).parent = some q ∧ st.Alive q
  /-- A process that was forked is in a slot until it has exited and was waited for. -/
  forked : ∀ id pid, .forked id pid ∈ h → (∃ i, Present h st id pid i) ∨ Reaped h id pid
  /-- A process that has exited is a zombie, or one `kwait` has returned its pid and status. -/
  exited : ∀ id x, .exited id x ∈ h → ∃ pid, .forked id pid ∈ h ∧
    ((reapsOf id h = [] ∧ ∃ i, (st.slot i).state = .zombie ∧ (st.slot i).born = id ∧
      (st.slot i).pid = pid ∧ (st.slot i).xstate = x) ∨ ∃ q, reapsOf id h = [(q, pid, x)])
  /-- That `kwait` was called by the parent at that moment. -/
  reaped : ∀ h₁ q id pid x, h₁ ++ [.reaped q id pid x] <+: h →
    ∃ st₁ p i, Run (LifeState.Init r) (LifeStep r) h₁ st₁ ∧ (st₁.slot p).state = .running ∧
      (st₁.slot p).born = q ∧ (st₁.slot i).parent = some p ∧ (st₁.slot i).state = .zombie ∧
      (st₁.slot i).born = id ∧ (st₁.slot i).pid = pid ∧ (st₁.slot i).xstate = x
  /-- No slot becomes unused in another way. -/
  unused : ∀ e st' i, LifeStep r st e st' → (st.slot i).state ≠ .unused →
    (st'.slot i).state = .unused →
    ∃ q, e = .reaped q (st.slot i).born (st.slot i).pid (st.slot i).xstate
  /-- A `kwait` whose `copyout` fails leaves every zombie as it is. -/
  fails : ∀ p i, st.Runs r p → (st.slot i).state = .zombie →
    (kwaitRound p true st.slot).1 = .other ∧ (kwaitRound p true st.slot).2.1 i = st.slot i
  /-- Another `kwait` by the parent of a zombie returns one. -/
  returns : ∀ p i, (st.slot i).parent = some p → (st.slot i).state = .zombie →
    ∃ k, (st.slot k).parent = some p ∧ (kwaitRound p false st.slot).1 =
      .reaped (st.slot p).born (st.slot k).born (st.slot k).pid (st.slot k).xstate
  /-- And no `kwait` sleeps while a child is a zombie. -/
  awake : ∀ p i, st.slot.InWait p → (st.slot i).parent = some p → (st.slot i).state ≠ .zombie

theorem LifeOk.parent {i : ℕ} (hok : LifeOk r h st) (hz : (st.slot i).state = .zombie) :
    ∃ q, (st.slot i).parent = some q ∧ st.Alive q := by
  have hph : st.phase i = .zombie := phase_zombie_iff.2 hz
  cases hp : (st.slot i).parent with
  | none =>
    rcases hok.inv.orphan i hp with hc | hc | hc
    · exact absurd (hph.symm.trans hc) ProcState.noConfusion
    · exact absurd (hph.symm.trans hc) ProcState.noConfusion
    · exact absurd (hph.symm.trans (hok.inv.root i hc)) ProcState.noConfusion
  | some q =>
    have hq := hok.inv.parent i q hp
    refine ⟨q, rfl, fun hc => ?_, fun hc => ?_⟩
    · exact absurd (hq.symm.trans (phase_unused_iff.2 hc)) ProcState.noConfusion
    · exact absurd (hq.symm.trans (phase_zombie_iff.2 hc)) ProcState.noConfusion

theorem LifeOk.exited {id : ℕ} {x : ℤ} (hok : LifeOk r h st) (hx : .exited id x ∈ h) :
    ∃ pid, .forked id pid ∈ h ∧
    ((reapsOf id h = [] ∧ ∃ i, (st.slot i).state = .zombie ∧ (st.slot i).born = id ∧
      (st.slot i).pid = pid ∧ (st.slot i).xstate = x) ∨ ∃ q, reapsOf id h = [(q, pid, x)]) := by
  obtain ⟨pid, hf⟩ := hok.hist.exits id x hx
  refine ⟨pid, hf, ?_⟩
  rcases hok.hist.fate id pid hf with ⟨i, hp⟩ | ⟨q, y, hr, hy⟩
  · obtain ⟨hz, hxs⟩ := (hp.exited x).1 hx
    exact Or.inl ⟨hp.unreaped, i, phase_zombie_iff.1 hz, hp.born, hp.pid, hxs⟩
  · obtain rfl := (hy x).1 hx
    exact Or.inr ⟨q, hr⟩

theorem kwaitRound_fails {t : PTable} {i : ℕ} (hp : (t p).state = .running)
    (hz : (t i).state = .zombie) :
    (kwaitRound p true t).1 = .other ∧ (kwaitRound p true t).2.1 i = t i := by
  rcases kwaitRound_cases t p true with ⟨k, -, -, hb, -⟩ | heq | ⟨k, -, heq⟩
  · exact absurd hb Bool.noConfusion
  · rw [heq]
    exact ⟨rfl, rfl⟩
  · have hip : i ≠ p := by
      rintro rfl
      exact absurd (hp.symm.trans hz) RunState.noConfusion
    rw [heq]
    exact ⟨rfl, Function.update_of_ne hip _ _⟩

theorem LifeOk.returns {i : ℕ} (hok : LifeOk r h st) (hp : (st.slot i).parent = some p)
    (hz : (st.slot i).state = .zombie) :
    ∃ k, (st.slot k).parent = some p ∧ (kwaitRound p false st.slot).1 =
      .reaped (st.slot p).born (st.slot k).born (st.slot k).pid (st.slot k).xstate := by
  have hi : i < nProc := by
    by_contra hge
    rw [(hok.inv.bound i (not_lt.1 hge)).2] at hp
    exact absurd hp (by simp)
  rcases hs : scanKids st.slot p nProc 0 false with ⟨_ | k, b⟩
  · exact absurd hz (scanKids_none hs i (Nat.zero_le _) (by omega) hp)
  · refine ⟨k, (scanKids_spec hs).2.1, ?_⟩
    simp [kwaitRound, hs]

/-- In every interleaving every process that exits is returned by one `kwait` of its parent. -/
theorem children_reaped_once (hrun : Run (LifeState.Init r) (LifeStep r) h st) :
    ReapsOnce r h st := by
  have hok : LifeOk r h st := hrun.invariant (fun _ hi => hi.ok) fun _ _ _ _ hok hs => hs.ok hok
  refine ⟨fun i hz => hok.parent hz, hok.hist.fate, fun id x hx => hok.exited hx,
    fun h₁ q id pid x hpre => ?_, fun e st' i hs hu hu' => ?_,
    fun p i hr hz => kwaitRound_fails hr.2.2 hz, fun p i hp hz => hok.returns hp hz,
    hok.wait.awake⟩
  · obtain ⟨st₁, st₂, hrun₁, hs⟩ := hrun.at_event hpre
    obtain ⟨p, i, hp⟩ := hs.reaped
    exact ⟨st₁, p, i, hrun₁, hp⟩
  · obtain ⟨p, -, -, -, he⟩ := hs.unused hok hu hu'
    exact ⟨_, he⟩

/-- `initproc` alone. -/
def bootLife : LifeState where
  slot i := ⟨if i = 0 then .running else .unused, none, false, 0, 0, none, 0⟩
  pc _ := .user
  nextpid := 2
  births := 1

theorem bootLife_init : bootLife.Init ⟨0, fun _ => false⟩ := by
  refine ⟨by decide, fun i hi => ?_, fun i hi => ?_, fun _ => rfl, fun i hi => ?_, fun _ => rfl⟩
  · obtain rfl : i = 0 := by simpa using hi
    decide
  · have : i ≠ 0 := by simpa using hi
    simp [bootLife, this]
  · have h0 : ∀ k, (bootLife.slot k).state ≠ .unused → k = 0 := by
      intro k hk
      by_contra hc
      exact hk (by simp [bootLife, hc])
    exact ⟨Nat.zero_lt_one, fun k hk _ => (h0 i hi).trans (h0 k hk).symm⟩

/-- A child exits with the status 7 before its parent waits. -/
theorem children_reaped_once_seven : ∃ h st, .exited 1 7 ∈ h ∧ reapsOf 1 h = [(0, 2, 7)] ∧
    ReapsOnce ⟨0, fun _ => false⟩ h st := by
  have hruns : ∀ {st : LifeState} {p}, p < nProc → (st.slot p).state = .running →
      st.Runs ⟨0, fun _ => false⟩ p := fun hp hs => ⟨hp, rfl, hs⟩
  have h0 : Run (LifeState.Init ⟨0, fun _ => false⟩) (LifeStep ⟨0, fun _ => false⟩) [] bootLife :=
    .start bootLife_init
  have h1 := h0.snoc (.fork (p := 0) (j := 1) (hruns (by decide) rfl) rfl rfl)
  have h2 := h1.snoc (.setParent (p := 0) (j := 1) (hruns (by decide) rfl) rfl)
  have h3 := h2.snoc (.ready (p := 0) (j := 1) (hruns (by decide) rfl) rfl)
  have h4 := h3.snoc (.dispatch (i := 1) rfl)
  have h5 := h4.snoc (.exit (p := 1) 7 (hruns (by decide) rfl) rfl (by decide))
  have h6 := h5.snoc (.wait (p := 0) (hruns (by decide) rfl) rfl)
  have h7 := h6.snoc (.scan (p := 0) false (hruns (by decide) rfl) rfl)
  exact ⟨_, _, by simp [bootLife], rfl, children_reaped_once h7⟩

end Reap

end Xv6Plus
