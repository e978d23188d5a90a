import Xv6Plus.LogOps

/-!
# The log as an atomic disk

`DiskStep` adds crashes to the steps of the operations : between two of them, between two writes of
a `commit`, and again in the recoveries. To its users the log is a disk in two versions, one that
survives and one that they write (`VersionStep`). A commit makes the second the first, and a crash
the first the second. Only a crash inside a commit may do either, and does it for all blocks.
-/

namespace Xv6Plus

inductive DiskEvent
  | wrote (b : ℕ) (data : Block)
  | committed
  | crashed (committing : Bool)
  | other

/-- The disk that survives a crash, and the disk that the operations see. -/
structure Versions where
  stable : Disk
  latest : Disk

inductive VersionStep : Versions → DiskEvent → Versions → Prop
  | write (v : Versions) (b : ℕ) (data : Block) :
      VersionStep v (.wrote b data) ⟨v.stable, Function.update v.latest b data⟩
  | commit (v : Versions) : VersionStep v .committed ⟨v.latest, v.latest⟩
  | lose (v : Versions) (committing : Bool) :
      VersionStep v (.crashed committing) ⟨v.stable, v.stable⟩
  | keep (v : Versions) : VersionStep v (.crashed true) ⟨v.latest, v.latest⟩
  | other (v : Versions) : VersionStep v .other v

/-- What a crash can leave : it cuts off the `commit` on its way, then any number of recoveries. -/
def OpState.Leaves (start : ℕ) (st : OpState) (d : Disk) : Prop :=
  ∃ k, CrashRuns (recoverTrace start) (applyWrites
    ((if st.pc = .commit then st.sys.log.commit.trace else []).take k) st.sys.log.disk) d

/-- A step of the operations, which write outside the log, or a crash and a full recovery. -/
inductive DiskStep (start : ℕ) : OpState → DiskEvent → OpState → Prop
  | write {st st' : OpState} {o b : ℕ} {data : Block} : OpStep st (.wrote o b) st' →
      st'.sys.log.cache b = some data → ¬InLog start b → b < 2 ^ 32 →
      DiskStep start st (.wrote b data) st'
  | commit {st st' : OpState} {bs : List ℕ} : OpStep st (.committed bs) st' →
      DiskStep start st .committed st'
  | other {st st' : OpState} {e : LogEvent} : OpStep st e st' → (∀ o b, e ≠ .wrote o b) →
      (∀ bs, e ≠ .committed bs) → DiskStep start st .other st'
  | crash {st st' : OpState} {d : Disk} : st.Leaves start d → st'.Init start →
      st'.sys.log.disk = (LogState.boot start d).recoverFromLog.disk →
      DiskStep start st (.crashed (st.pc = .commit)) st'

/-- The state of the log agrees with the versions. -/
def OpState.Shows (start : ℕ) (st : OpState) (v : Versions) : Prop :=
  ∀ b, ¬InLog start b → st.sys.log.disk b = v.stable b ∧ st.sys.log.bread b = v.latest b

/-- The log can recover from a crash. -/
structure Durable (start : ℕ) (st : OpState) : Prop where
  inv : ∃ h, OpInv h st
  from_start : st.sys.log.start = start
  trace : st.sys.log.trace = []
  clear : headN (st.sys.log.disk start) = 0
  outside : ∀ b ∈ st.sys.blocks, ¬InLog start b ∧ b < 2 ^ 32

section Durable

variable {start : ℕ} {st st' : OpState} {v : Versions}

theorem LogSys.Ok.bread {s : LogSys} (h : s.Ok) {b : ℕ} (hb : b ∉ s.blocks) :
    s.log.bread b = s.log.disk b :=
  LogState.bread_of_unpinned ((h.cached b).2 hb)

theorem OpState.Init.durable (h : st.Init start) (hclear : headN (st.sys.log.disk start) = 0) :
    Durable start st ∧ ∀ b, st.sys.log.bread b = st.sys.log.disk b := by
  have hno : st.sys.blocks = [] := by
    rw [LogSys.blocks, h.2.1]
    rfl
  exact ⟨⟨⟨[], h.inv⟩, h.1, h.2.2.1, hclear, by simp [hno]⟩,
    fun b => h.inv.ok.bread (by simp [hno])⟩

/-- What `commit` writes is a transaction. -/
theorem Durable.transaction (h : Durable start st) : ∃ T : Trans start,
    T.atCommit st.sys.log.disk = st.sys.log ∧ ∀ d, Settled T st.sys.log.disk T.data d →
      ∀ b, ¬InLog start b → d b = st.sys.log.bread b := by
  obtain ⟨hist, hinv⟩ := h.inv
  have hok := hinv.ok
  have hlen := LogSys.length_blocks hok.n_nonneg
  have hroom := hinv.room
  have hn : ((st.sys.log.lh.n.toNat : ℕ) : ℤ) = st.sys.log.lh.n := Int.toNat_of_nonneg hok.n_nonneg
  have hmem : ∀ i < st.sys.log.lh.n.toNat, st.sys.log.lh.block i ∈ st.sys.blocks :=
    fun i hi => LogSys.mem_blocks.2 ⟨i, hi, rfl⟩
  refine ⟨⟨st.sys.log.lh.n.toNat, st.sys.log.lh.block, st.sys.log.bread, by omega,
    fun i hi => (h.outside _ (hmem i hi)).2, fun i hi j hj => ?_,
    fun i hi => (h.outside _ (hmem i hi)).1⟩, ?_, fun d hd b hb => ?_⟩
  · exact List.inj_on_of_nodup_map hok.nodup (List.mem_range.2 hi) (List.mem_range.2 hj)
  · have hcache : (fun b => if ∃ i < st.sys.log.lh.n.toNat, st.sys.log.lh.block i = b then
        some (st.sys.log.bread b) else none) = st.sys.log.cache := by
      funext b
      simp only [← LogSys.mem_blocks]
      split_ifs with hb
      · obtain ⟨x, hx⟩ := Option.ne_none_iff_exists'.1 fun hc => (hok.cached b).1 hc hb
        rw [LogState.bread, hx, Option.getD_some]
      · exact ((hok.cached b).2 hb).symm
    show (⟨st.sys.log.disk, _, start, ⟨_, st.sys.log.lh.block⟩, []⟩ : LogState) = _
    rw [hcache, hn, ← h.trace]
    simp only [← h.from_start]
  · by_cases hmem : b ∈ st.sys.blocks
    · exact hd.home b (LogSys.mem_blocks.1 hmem)
    · rw [hd.other b (fun hc => hmem (LogSys.mem_blocks.2 hc)) hb, hok.bread hmem]

/-- `begin_op`, `end_op` and the end of a commit leave the disk and the buffers alone. -/
theorem OpStep.log_eq {h : List LogEvent} {e : LogEvent} (hs : OpStep st e st') (hinv : OpInv h st)
    (hw : ∀ o b, e ≠ .wrote o b) (hc : ∀ bs, e ≠ .committed bs) : st'.sys.log = st.sys.log := by
  cases hs with
  | «begin» _ hrun | sleep _ hrun =>
    obtain ⟨-, rfl⟩ | ⟨-, -, -, rfl⟩ := wp_of_run (LogSys.beginOp_spec _) hrun <;> rfl
  | write _ _ _ => exact absurd rfl (hw _ _)
  | «end» ho hrun =>
    obtain ⟨-, rfl⟩ := wp_of_run (LogSys.endOp_spec (hinv.committing_of_running ho)) hrun
    rfl
  | commit _ => exact absurd rfl (hc _)
  | finish _ => rfl

theorem Durable.write {o b : ℕ} {data : Block} (h : Durable start st) (hv : st.Shows start v)
    (hs : OpStep st (.wrote o b) st') (hdata : st'.sys.log.cache b = some data)
    (hb : ¬InLog start b ∧ b < 2 ^ 32) : Durable start st' ∧
      st'.Shows start ⟨v.stable, Function.update v.latest b data⟩ := by
  obtain ⟨hist, hinv⟩ := h.inv
  have hnext := hinv.step hs
  cases hs with
  | @write _ _ data' sys ho hcard hrun =>
    have hl := wp_of_run (LogSys.logWrite_spec hinv.ok (hinv.outstanding_pos ho) b data') hrun
    obtain rfl : data' = data := by simpa [hl.cache] using hdata
    refine ⟨⟨⟨_, hnext⟩, hl.start.trans h.from_start, hl.trace.trans h.trace, hl.disk ▸ h.clear,
      fun c hc => ?_⟩, fun c hc => ?_⟩
    · rw [hl.blocks] at hc
      split_ifs at hc
      · exact h.outside c hc
      · rcases List.mem_append.1 hc with hc | hc
        · exact h.outside c hc
        · rw [List.mem_singleton.1 hc]
          exact hb
    · refine ⟨hl.disk ▸ (hv c hc).1, ?_⟩
      rw [LogState.bread, hl.cache, hl.disk]
      dsimp only
      by_cases hcb : c = b
      · rw [hcb, Function.update_self, Function.update_self, Option.getD_some]
      · rw [Function.update_of_ne hcb, Function.update_of_ne hcb]
        exact (hv c hc).2

theorem Durable.commit {bs : List ℕ} (h : Durable start st) (hv : st.Shows start v)
    (hs : OpStep st (.committed bs) st') :
    Durable start st' ∧ st'.Shows start ⟨v.latest, v.latest⟩ := by
  obtain ⟨hist, hinv⟩ := h.inv
  have hnext := hinv.step hs
  obtain ⟨T, hT, hend⟩ := h.transaction
  obtain ⟨-, hset, hstart⟩ := commit_cut T h.clear
  rw [hT] at hset hstart
  cases hs with
  | commit _ =>
    have hno := LogSys.commit_blocks hinv.ok
    refine ⟨⟨⟨_, hnext⟩, hstart, rfl, hset.clear, fun b hb => ?_⟩, fun b hb => ?_⟩
    · exact absurd (hno ▸ hb) List.not_mem_nil
    · have hdisk : st.sys.commit.log.disk b = v.latest b := (hend _ hset b hb).trans (hv b hb).2
      exact ⟨hdisk, (hinv.ok.commit.bread (by simp [hno])).trans hdisk⟩

/-- A recovery gives the stable version, or the latest if a commit was cut off. -/
theorem Durable.crash {d : Disk} (h : Durable start st) (hv : st.Shows start v)
    (hd : st.Leaves start d) :
    let r := (LogState.boot start d).recoverFromLog.disk
    headN (r start) = 0 ∧ ((∀ b, ¬InLog start b → r b = v.stable b) ∨
      st.pc = .commit ∧ ∀ b, ¬InLog start b → r b = v.latest b) := by
  intro r
  obtain ⟨k, hcrash⟩ := hd
  obtain ⟨T, hT, hend⟩ := h.transaction
  have hold : Settled T st.sys.log.disk st.sys.log.disk st.sys.log.disk :=
    ⟨h.clear, fun _ _ => rfl, fun _ _ _ => rfl⟩
  have hstable : Settled T st.sys.log.disk st.sys.log.disk r →
      ∀ b, ¬InLog start b → r b = v.stable b := fun hr b hb => by
    rw [← (hv b hb).1]
    exact (em (b ∈ T.homes)).elim (hr.home b) fun hm => hr.other b hm hb
  by_cases hpc : st.pc = .commit
  · rw [if_pos hpc, ← hT] at hcrash
    have hrec : Recoverable T st.sys.log.disk d :=
      hcrash.invariant (fun _ => Recoverable.recover_cut) ((commit_cut T h.clear).1 k)
    rcases hrec.recover with hr | hr
    · exact ⟨hr.clear, Or.inl (hstable hr)⟩
    · exact ⟨hr.clear, Or.inr ⟨hpc, fun b hb => (hend r hr b hb).trans (hv b hb).2⟩⟩
  · rw [if_neg hpc, List.take_nil] at hcrash
    have hr := (hcrash.invariant (fun _ hd => hd.recover.1) hold).recover.2
    exact ⟨hr.clear, Or.inl (hstable hr)⟩

theorem Durable.step {e : DiskEvent} (h : Durable start st) (hv : st.Shows start v)
    (hs : DiskStep start st e st') :
    Durable start st' ∧ ∃ v', VersionStep v e v' ∧ st'.Shows start v' := by
  cases hs with
  | @write _ o b data hs hdata hout hlt =>
    obtain ⟨h', hv'⟩ := h.write hv hs hdata ⟨hout, hlt⟩
    exact ⟨h', _, .write v b data, hv'⟩
  | commit hs =>
    obtain ⟨h', hv'⟩ := h.commit hv hs
    exact ⟨h', _, .commit v, hv'⟩
  | other hs hw hc =>
    obtain ⟨hist, hinv⟩ := h.inv
    have hlog := hs.log_eq hinv hw hc
    refine ⟨⟨⟨_, hinv.step hs⟩, by rw [hlog, h.from_start], by rw [hlog, h.trace],
      by rw [hlog, h.clear], ?_⟩, v, .other v, ?_⟩
    · rw [LogSys.blocks, hlog]
      exact h.outside
    · rw [OpState.Shows, hlog]
      exact hv
  | crash hd hinit hdisk =>
    obtain ⟨hclear, hr⟩ := h.crash hv hd
    rw [← hdisk] at hclear hr
    obtain ⟨h', hread⟩ := hinit.durable hclear
    refine ⟨h', ?_⟩
    rcases hr with hr | ⟨hpc, hr⟩
    · exact ⟨_, .lose v _, fun b hb => ⟨hr b hb, (hread b).trans (hr b hb)⟩⟩
    · rw [decide_eq_true hpc]
      exact ⟨_, .keep v, fun b hb => ⟨hr b hb, (hread b).trans (hr b hb)⟩⟩

end Durable

end Xv6Plus
