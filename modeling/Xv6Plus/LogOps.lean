import Xv6Plus.Kern
import Xv6Plus.LogCrash
import Xv6Plus.Steps

/-!
# Transactions of `kernel/log.c` : `begin_op`, `log_write`, `end_op`

Every critical section under `log.lock` is one step. `end_op` has two of them, and between
them the operation that found itself the last one runs `commit` without the lock. Operations
are numbered, and no number is used twice.

The invariant gives every running operation the blocks it may still write. The log has room
for the blocks it holds and for all of these.
-/

namespace Xv6Plus

abbrev maxOpBlocks : ℕ := 10

/-- `struct log`, and for every block the references that `bpin` holds on its buffer. -/
structure LogSys where
  log : LogState
  outstanding : ℤ
  committing : Bool
  pins : ℕ → ℤ

namespace LogSys

/-- One round of the loop of `begin_op`; `false` is `sleep`. -/
def beginOp : Kern LogSys Bool := do
  let s ← get
  if s.committing = true then pure false
  else if s.log.lh.n + (s.outstanding + 1) * maxOpBlocks > logBlocks then pure false
  else
    modify fun s => { s with outstanding := s.outstanding + 1 }
    pure true

/-- `end_op` up to `release`; the result is `do_commit`. -/
def endOp : Kern LogSys Bool := do
  modify fun s => { s with outstanding := s.outstanding - 1 }
  let s ← get
  if s.committing = true then throw "log.committing"
  else if s.outstanding = 0 then
    modify fun s => { s with committing := true }
    pure true
  else pure false

/-- The loop of `log_write` from `i` on, with the number of entries that are left. -/
def findBlock (block : ℕ → ℕ) (blockno : ℕ) : ℕ → ℕ → ℕ
  | 0, i => i
  | k + 1, i => if block i = blockno then i else findBlock block blockno k (i + 1)

/-- `log_write` once the loop has stopped at the entry `i`. -/
def record (blockno : ℕ) (data : Block) (i : ℕ) (s : LogSys) : LogSys :=
  let new : Bool := (i : ℤ) = s.log.lh.n
  { s with
    log := { s.log with
      cache := Function.update s.log.cache blockno (some data)
      lh := ⟨if new then s.log.lh.n + 1 else s.log.lh.n,
        Function.update s.log.lh.block i blockno⟩ }
    pins := if new then Function.update s.pins blockno (s.pins blockno + 1) else s.pins }

/-- `log_write` of a buffer for the block `blockno`, whose contents the caller has changed. -/
def logWrite (blockno : ℕ) (data : Block) : Kern LogSys Unit := do
  let s ← get
  if s.log.lh.n ≥ logBlocks then throw "too big a transaction"
  else if s.outstanding < 1 then throw "log_write outside of trans"
  else
    modify (record blockno data (findBlock s.log.lh.block blockno s.log.lh.n.toNat 0))

/-- The `bunpin` calls of `install_trans`. -/
def unpinLoop (block : ℕ → ℕ) : ℕ → ℕ → (ℕ → ℤ) → ℕ → ℤ
  | 0, _, pins => pins
  | k + 1, tail, pins =>
    unpinLoop block k (tail + 1) (Function.update pins (block tail) (pins (block tail) - 1))

/-- `commit`, by the operation that ended last. -/
def commit (s : LogSys) : LogSys :=
  { s with
    log := { s.log.commit with trace := [] }
    pins := unpinLoop s.log.lh.block s.log.lh.n.toNat 0 s.pins }

/-- The blocks that the log holds. -/
def blocks (s : LogSys) : List ℕ := (List.range s.log.lh.n.toNat).map s.log.lh.block

end LogSys

/-! ## Operations -/

/-- Where the operation that commits is. -/
inductive CommitPc
  | none
  | commit
  | finish
  deriving DecidableEq

inductive LogEvent
  | began (op : ℕ)
  | slept (op : ℕ)
  | wrote (op blockno : ℕ)
  | ended (op : ℕ)
  | committed (blocks : List ℕ)
  | finished

/-- The log with the operations that use it : those between `begin_op` and `end_op`, those that
have begun at all, and what each of them has written. -/
structure OpState where
  sys : LogSys
  running : Finset ℕ
  begun : Finset ℕ
  written : ℕ → Finset ℕ
  pc : CommitPc

/-- `initlog` is through. -/
def OpState.Init (start : ℕ) (st : OpState) : Prop :=
  st.sys.log.start = start ∧ st.sys.log.lh.n = 0 ∧ st.sys.log.trace = [] ∧
    (∀ b, st.sys.log.cache b = none) ∧ st.sys.outstanding = 0 ∧ st.sys.committing = false ∧
    (∀ b, st.sys.pins b = 0) ∧ st.running = ∅ ∧ st.begun = ∅ ∧ st.pc = .none

/-- One critical section, or the `commit` of an operation. -/
inductive OpStep : OpState → LogEvent → OpState → Prop
  | begin {st : OpState} {o : ℕ} {sys : LogSys} : o ∉ st.begun →
      LogSys.beginOp.run st.sys = .ok (true, sys) →
      OpStep st (.began o) { st with
        sys := sys
        running := insert o st.running
        begun := insert o st.begun
        written := Function.update st.written o ∅ }
  | sleep {st : OpState} {o : ℕ} {sys : LogSys} : o ∉ st.begun →
      LogSys.beginOp.run st.sys = .ok (false, sys) → OpStep st (.slept o) { st with sys := sys }
  | write {st : OpState} {o b : ℕ} {data : Block} {sys : LogSys} : o ∈ st.running →
      (insert b (st.written o)).card ≤ maxOpBlocks →
      (LogSys.logWrite b data).run st.sys = .ok ((), sys) →
      OpStep st (.wrote o b) { st with
        sys := sys
        written := Function.update st.written o (insert b (st.written o)) }
  | end {st : OpState} {o : ℕ} {doCommit : Bool} {sys : LogSys} : o ∈ st.running →
      LogSys.endOp.run st.sys = .ok (doCommit, sys) →
      OpStep st (.ended o) { st with
        sys := sys
        running := st.running.erase o
        pc := if doCommit then .commit else st.pc }
  | commit {st : OpState} : st.pc = .commit →
      OpStep st (.committed st.sys.blocks) { st with sys := st.sys.commit, pc := .finish }
  | finish {st : OpState} : st.pc = .finish →
      OpStep st .finished { st with sys := { st.sys with committing := false }, pc := .none }

/-- What was written since the last commit. -/
def pending (h : List LogEvent) : Finset ℕ :=
  h.foldl (fun acc e => match e with
    | .wrote _ b => insert b acc
    | .committed _ => ∅
    | _ => acc) ∅

/-- What the operation `o` has written, in order. -/
def writesOf (o : ℕ) (h : List LogEvent) : List ℕ :=
  h.filterMap fun e => match e with
    | .wrote p b => if p = o then some b else none
    | _ => none

theorem pending_snoc (h : List LogEvent) (e : LogEvent) : pending (h ++ [e]) = match e with
    | .wrote _ b => insert b (pending h)
    | .committed _ => ∅
    | _ => pending h := by
  simp only [pending, List.foldl_append, List.foldl_cons, List.foldl_nil]

theorem writesOf_snoc (o : ℕ) (h : List LogEvent) (e : LogEvent) :
    writesOf o (h ++ [e]) = writesOf o h ++ match e with
      | .wrote p b => if p = o then [b] else []
      | _ => [] := by
  rw [writesOf, writesOf, List.filterMap_append]
  congr 1
  cases e with
  | wrote p b => by_cases hp : p = o <;> simp [hp]
  | _ => rfl

/-! ## The log as a list of blocks -/

namespace LogSys

variable {block : ℕ → ℕ} {b : ℕ} {s s' : LogSys}

theorem findBlock_spec (block : ℕ → ℕ) (b : ℕ) : ∀ k i, i ≤ findBlock block b k i ∧
    findBlock block b k i ≤ i + k ∧ (∀ j, i ≤ j → j < findBlock block b k i → block j ≠ b) ∧
    (findBlock block b k i < i + k → block (findBlock block b k i) = b)
  | 0, i => by
    simp only [findBlock]
    exact ⟨le_refl _, le_refl _, fun j h1 h2 => by omega, fun h => by omega⟩
  | k + 1, i => by
    rw [findBlock]
    split_ifs with hb
    · exact ⟨le_refl _, by omega, fun j h1 h2 => by omega, fun _ => hb⟩
    · obtain ⟨h1, h2, h3, h4⟩ := findBlock_spec block b k (i + 1)
      refine ⟨by omega, by omega, fun j hj hj' => ?_, fun h => h4 (by omega)⟩
      by_cases hji : j = i
      · rw [hji]
        exact hb
      · exact h3 j (by omega) hj'

theorem unpinLoop_of_ne (b : ℕ) : ∀ k i (pins : ℕ → ℤ), (∀ j, i ≤ j → j < i + k → block j ≠ b) →
    unpinLoop block k i pins b = pins b
  | 0, i, pins, _ => rfl
  | k + 1, i, pins, h => by
    rw [unpinLoop, unpinLoop_of_ne b k (i + 1) _ fun j h1 h2 => h j (by omega) (by omega),
      Function.update_of_ne (h i (le_refl _) (by omega)).symm]

/-- A block that is logged once is unpinned once. -/
theorem unpinLoop_of_eq (b : ℕ) : ∀ k i t (pins : ℕ → ℤ), i ≤ t → t < i + k → block t = b →
    (∀ j, i ≤ j → j < i + k → block j = b → j = t) →
    unpinLoop block k i pins b = pins b - 1
  | 0, i, t, pins, h1, h2, _, _ => by omega
  | k + 1, i, t, pins, h1, h2, h3, h4 => by
    rw [unpinLoop]
    by_cases hit : i = t
    · rw [unpinLoop_of_ne b k (i + 1) _ fun j hj hj' hb => by
          have := h4 j (by omega) (by omega) hb
          omega, hit, h3, Function.update_self]
    · rw [unpinLoop_of_eq b k (i + 1) t _ (by omega) (by omega) h3 fun j hj hj' hb =>
        h4 j (by omega) (by omega) hb, Function.update_of_ne]
      exact fun hb => hit (h4 i (le_refl _) (by omega) hb.symm)

/-- The log holds distinct blocks, and exactly their buffers are pinned, once. -/
structure Ok (s : LogSys) : Prop where
  n_nonneg : 0 ≤ s.log.lh.n
  nodup : s.blocks.Nodup
  pins : ∀ b, s.pins b = if b ∈ s.blocks then 1 else 0
  cached : ∀ b, s.log.cache b = none ↔ b ∉ s.blocks

theorem length_blocks (h : 0 ≤ s.log.lh.n) : (s.blocks.length : ℤ) = s.log.lh.n := by
  simp only [blocks, List.length_map, List.length_range]
  omega

theorem mem_blocks : b ∈ s.blocks ↔ ∃ i < s.log.lh.n.toNat, s.log.lh.block i = b := by
  simp [blocks]

/-- `begin_op` sleeps, or it is let in. -/
theorem beginOp_spec (s : LogSys) : wp beginOp (fun r s' => (r = false ∧ s' = s) ∨
    (r = true ∧ s.committing = false ∧
      s.log.lh.n + (s.outstanding + 1) * maxOpBlocks ≤ logBlocks ∧
      s' = { s with outstanding := s.outstanding + 1 })) noPanic s := by
  rw [beginOp, wp_bind, wp_get, wp_ite]
  refine ⟨fun _ => (wp_pure _).2 (Or.inl ⟨rfl, rfl⟩), fun hc => ?_⟩
  rw [wp_ite]
  refine ⟨fun _ => (wp_pure _).2 (Or.inl ⟨rfl, rfl⟩), fun hn => ?_⟩
  rw [wp_bind, wp_modify, wp_pure]
  exact Or.inr ⟨rfl, Bool.eq_false_of_not_eq_true hc, not_lt.1 hn, rfl⟩

theorem endOp_spec (h : s.committing = false) : wp endOp (fun r s' =>
    (r = true ↔ s.outstanding = 1) ∧
      s' = { s with outstanding := s.outstanding - 1, committing := r }) noPanic s := by
  rw [endOp, wp_bind, wp_modify, wp_bind, wp_get, wp_ite]
  refine ⟨fun hc => absurd hc (by simp [h]), fun _ => ?_⟩
  rw [wp_ite]
  refine ⟨fun ho => ?_, fun ho => ?_⟩
  · rw [wp_bind, wp_modify, wp_pure]
    dsimp only at ho
    exact ⟨⟨fun _ => by omega, fun _ => rfl⟩, rfl⟩
  · rw [wp_pure]
    dsimp only at ho
    exact ⟨⟨nofun, fun h1 => absurd (by omega) ho⟩, by rw [h]⟩

theorem Ok.append (h : s.Ok) (data : Block) (hb : b ∉ s.blocks) :
    (s.record b data s.log.lh.n.toNat).Ok ∧
      (s.record b data s.log.lh.n.toNat).blocks = s.blocks ++ [b] := by
  have hn := h.n_nonneg
  have hnew : ((s.log.lh.n.toNat : ℕ) : ℤ) = s.log.lh.n := by omega
  have hlen : (s.log.lh.n + 1).toNat = s.log.lh.n.toNat + 1 := by omega
  have hblocks : (s.record b data s.log.lh.n.toNat).blocks = s.blocks ++ [b] := by
    simp only [record, blocks, hnew, decide_true, if_true, hlen, List.range_succ,
      List.map_append, List.map_singleton, Function.update_self, List.append_cancel_right_eq]
    refine List.map_congr_left fun i hi => Function.update_of_ne ?_ _ _
    exact (List.mem_range.1 hi).ne
  refine ⟨⟨?_, ?_, fun c => ?_, fun c => ?_⟩, hblocks⟩
  · simp only [record, hnew, decide_true, if_true]
    omega
  · rw [hblocks]
    exact h.nodup.append (List.nodup_singleton b) (by simpa using hb)
  · rw [hblocks]
    simp only [record, hnew, decide_true, if_true]
    by_cases hc : c = b
    · subst hc
      simp [h.pins, hb]
    · simp [h.pins, hc]
  · rw [hblocks]
    simp only [record]
    by_cases hc : c = b
    · subst hc
      simp
    · simp [h.cached, hc]

/-- `log_write` of a block that is in the log already leaves the log as it is. -/
theorem Ok.absorb {i : ℕ} (h : s.Ok) (data : Block) (hi : i < s.log.lh.n.toNat)
    (hb : s.log.lh.block i = b) :
    (s.record b data i).Ok ∧ (s.record b data i).blocks = s.blocks := by
  have hold : ¬(i : ℤ) = s.log.lh.n := by omega
  have hsame : Function.update s.log.lh.block i b = s.log.lh.block := by
    rw [← hb, Function.update_eq_self]
  have hblocks : (s.record b data i).blocks = s.blocks := by
    simp only [record, blocks, hold, decide_false, Bool.false_eq_true, if_false, hsame]
  refine ⟨⟨?_, ?_, fun c => ?_, fun c => ?_⟩, hblocks⟩
  · simp only [record, hold, decide_false, Bool.false_eq_true, if_false]
    exact h.n_nonneg
  · rw [hblocks]
    exact h.nodup
  · rw [hblocks]
    simp only [record, hold, decide_false, Bool.false_eq_true, if_false]
    exact h.pins c
  · rw [hblocks]
    simp only [record]
    by_cases hc : c = b
    · subst hc
      simp [mem_blocks.2 ⟨i, hi, hb⟩]
    · simp [h.cached, hc]

/-- After `log_write` of the block `b` with the contents `data`. -/
structure Logged (s : LogSys) (b : ℕ) (data : Block) (s' : LogSys) : Prop where
  room : s.log.lh.n < logBlocks
  ok : s'.Ok
  blocks : s'.blocks = if b ∈ s.blocks then s.blocks else s.blocks ++ [b]
  outstanding : s'.outstanding = s.outstanding
  committing : s'.committing = s.committing
  disk : s'.log.disk = s.log.disk
  start : s'.log.start = s.log.start
  trace : s'.log.trace = s.log.trace
  cache : s'.log.cache = Function.update s.log.cache b (some data)

theorem logWrite_spec (h : s.Ok) (ho : 1 ≤ s.outstanding) (b : ℕ) (data : Block) :
    wp (logWrite b data) (fun _ s' => s.Logged b data s')
      (fun e => e = "too big a transaction" ∧ s.log.lh.n ≥ logBlocks) s := by
  rw [logWrite, wp_bind, wp_get, wp_ite]
  refine ⟨fun hn => (wp_throw _).2 ⟨rfl, hn⟩, fun hn => ?_⟩
  rw [wp_ite]
  refine ⟨fun hc => by omega, fun _ => ?_⟩
  have hnn := h.n_nonneg
  obtain ⟨-, hle, hbefore, hat⟩ := findBlock_spec s.log.lh.block b s.log.lh.n.toNat 0
  rw [Nat.zero_add] at hle hat
  rw [wp_modify]
  by_cases hnew : findBlock s.log.lh.block b s.log.lh.n.toNat 0 = s.log.lh.n.toNat
  · have hb : b ∉ s.blocks := fun hmem => by
      obtain ⟨i, hi, hbi⟩ := mem_blocks.1 hmem
      exact hbefore i (Nat.zero_le _) (by omega) hbi
    obtain ⟨hok, hbl⟩ := h.append data hb
    rw [hnew]
    exact ⟨not_le.1 hn, hok, by rw [if_neg hb, hbl], rfl, rfl, rfl, rfl, rfl, rfl⟩
  · have hlt : findBlock s.log.lh.block b s.log.lh.n.toNat 0 < s.log.lh.n.toNat := by omega
    have hmem : b ∈ s.blocks := mem_blocks.2 ⟨_, hlt, hat hlt⟩
    obtain ⟨hok, hbl⟩ := h.absorb data hlt (hat hlt)
    exact ⟨not_le.1 hn, hok, by rw [if_pos hmem, hbl], rfl, rfl, rfl, rfl, rfl, rfl⟩

end LogSys

/-! ## What `commit` does to the header and to the cache -/

namespace LogState

theorem bwrite_cache_none (s : LogState) (b c : ℕ) (data : Block) :
    (s.bwrite b data).cache c = none ↔ s.cache c = none := by
  by_cases hc : c = b
  · subst hc
    simp [bwrite]
  · simp [bwrite, Function.update_of_ne hc]

theorem writeLogLoop_keeps (c : ℕ) : ∀ (k i : ℕ) (s : LogState),
    (writeLogLoop k i s).lh = s.lh ∧ ((writeLogLoop k i s).cache c = none ↔ s.cache c = none)
  | 0, _, s => ⟨rfl, Iff.rfl⟩
  | k + 1, i, s => by
    obtain ⟨hlh, hc⟩ := writeLogLoop_keeps c k (i + 1)
      (s.bwrite (s.start + i + 1) (s.bread (s.lh.block i)))
    exact ⟨hlh, hc.trans (s.bwrite_cache_none _ _ _)⟩

theorem installLoop_unpins (c : ℕ) : ∀ (k i : ℕ) (s : LogState),
    (installLoop false k i s).lh = s.lh ∧ ((installLoop false k i s).cache c = none ↔
      s.cache c = none ∨ ∃ j, i ≤ j ∧ j < i + k ∧ s.lh.block j = c)
  | 0, i, s => by
    refine ⟨rfl, Iff.intro Or.inl ?_⟩
    rintro (h | ⟨j, h1, h2, -⟩)
    · exact h
    · omega
  | k + 1, i, s => by
    obtain ⟨hlh, hc⟩ := installLoop_unpins c k (i + 1) (installBlock false i s)
    refine ⟨hlh, hc.trans ?_⟩
    have hblock : (installBlock false i s).cache c = none ↔
        s.cache c = none ∨ s.lh.block i = c := by
      by_cases hci : c = s.lh.block i
      · subst hci
        simp [installBlock, bunpin]
      · simp only [installBlock, bunpin, Bool.false_eq_true, if_false, Function.update_of_ne hci,
          bwrite_cache_none]
        exact ⟨Or.inl, fun h => h.resolve_right fun he => hci he.symm⟩
    rw [hblock, or_assoc]
    refine or_congr_right ⟨?_, ?_⟩
    · rintro (h | ⟨j, h1, h2, h3⟩)
      · exact ⟨i, le_refl _, by omega, h⟩
      · exact ⟨j, by omega, by omega, h3⟩
    · rintro ⟨j, h1, h2, h3⟩
      by_cases hji : j = i
      · subst hji
        exact Or.inl h3
      · exact Or.inr ⟨j, by omega, by omega, h3⟩

/-- `commit` empties the header and unpins the blocks that were in it. -/
theorem commit_keeps (s : LogState) (c : ℕ) (hn : 0 ≤ s.lh.n) : s.commit.lh.n = 0 ∧
    (s.commit.cache c = none ↔ s.cache c = none ∨ ∃ j < s.lh.n.toNat, s.lh.block j = c) := by
  unfold commit
  split_ifs with h
  · obtain ⟨hlog, hlogc⟩ := writeLogLoop_keeps c s.lh.n.toNat 0 s
    obtain ⟨-, hinc⟩ := installLoop_unpins c s.lh.n.toNat 0 (writeHead (writeLog s))
    have hlh : (writeHead (writeLog s)).lh = s.lh := hlog
    refine ⟨rfl, ?_⟩
    rw [writeHead, bwrite_cache_none, clearHead, installTrans, hlh, hinc, hlh, writeHead,
      bwrite_cache_none, writeLog, hlogc]
    simp
  · have hz : s.lh.n.toNat = 0 := by omega
    refine ⟨by omega, ?_⟩
    simp [hz]

end LogState

namespace LogSys

variable {s : LogSys}

theorem commit_blocks (h : s.Ok) : s.commit.blocks = [] := by
  have hn : s.commit.log.lh.n = 0 := (s.log.commit_keeps 0 h.n_nonneg).1
  rw [blocks, hn]
  rfl

theorem Ok.commit (h : s.Ok) : s.commit.Ok := by
  have hn : s.commit.log.lh.n = 0 := (s.log.commit_keeps 0 h.n_nonneg).1
  refine ⟨hn.ge, ?_, fun b => ?_, fun b => ?_⟩
  · rw [commit_blocks h]
    exact List.nodup_nil
  · rw [commit_blocks h, if_neg List.not_mem_nil]
    show unpinLoop s.log.lh.block s.log.lh.n.toNat 0 s.pins b = 0
    by_cases hb : b ∈ s.blocks
    · obtain ⟨t, ht, rfl⟩ := mem_blocks.1 hb
      have hinj : ∀ j, 0 ≤ j → j < 0 + s.log.lh.n.toNat → s.log.lh.block j = s.log.lh.block t →
          j = t := fun j _ hj he =>
        List.inj_on_of_nodup_map h.nodup (List.mem_range.2 (by omega)) (List.mem_range.2 ht) he
      rw [unpinLoop_of_eq _ _ 0 t _ (Nat.zero_le _) (by omega) rfl hinj, h.pins, if_pos hb]
      rfl
    · rw [unpinLoop_of_ne b _ _ _ fun j _ hj he => hb (mem_blocks.2 ⟨j, by omega, he⟩), h.pins,
        if_neg hb]
  · rw [commit_blocks h]
    refine iff_of_true (((s.log.commit_keeps b h.n_nonneg).2).2 ?_) List.not_mem_nil
    rw [← mem_blocks, h.cached]
    exact (em _).symm

end LogSys

/-! ## The invariant -/

/-- What holds in every state of every run. -/
structure OpInv (h : List LogEvent) (st : OpState) : Prop where
  ok : st.sys.Ok
  running : st.running ⊆ st.begun
  outstanding : st.sys.outstanding = st.running.card
  committing : st.sys.committing = true ↔ st.pc ≠ .none
  alone : st.pc ≠ .none → st.running = ∅
  holds : st.sys.blocks.toFinset = pending h
  /-- Room for what is there and for what the running operations may still write. -/
  room : st.sys.blocks.length + ∑ o ∈ st.running, (maxOpBlocks - (st.written o).card) ≤ logBlocks
  written : ∀ o ∈ st.running, st.written o = (writesOf o h).toFinset ∧
    ∀ b ∈ st.written o, b ∈ st.sys.blocks
  fresh : ∀ o ∉ st.begun, writesOf o h = []
  commits : ∀ h₁ bs, h₁ ++ [.committed bs] <+: h → bs.Nodup ∧ bs.toFinset = pending h₁
  unsplit : ∀ h₁ bs, h₁ ++ [.committed bs] <+: h → ∀ o, writesOf o h₁ ≠ [] →
    o ∉ st.running ∧ o ∈ st.begun ∧ writesOf o h = writesOf o h₁

section Invariant

variable {h : List LogEvent} {st st' : OpState} {start : ℕ}

theorem OpState.Init.inv (hi : st.Init start) : OpInv [] st := by
  obtain ⟨-, hn, -, hcache, hout, hcom, hpins, hrun, hbeg, hpc⟩ := hi
  have hblocks : st.sys.blocks = [] := by
    rw [LogSys.blocks, hn]
    rfl
  refine ⟨⟨hn.ge, ?_, fun b => ?_, fun b => ?_⟩, ?_, ?_, ?_, fun _ => hrun, ?_, ?_, ?_, ?_, ?_, ?_⟩
  · simp [hblocks]
  · simp [hblocks, hpins]
  · simp [hblocks, hcache]
  · simp [hrun]
  · simp [hrun, hout]
  · simp [hcom, hpc]
  · simp [hblocks, pending]
  · simp [hblocks, hrun]
  · simp [hrun]
  · simp [writesOf]
  · simp
  · simp

/-- An event other than a commit adds no commit to the history. -/
theorem commit_before {e : LogEvent} {h₁ : List LogEvent} {bs : List ℕ}
    (hpre : h₁ ++ [.committed bs] <+: h ++ [e]) (he : ∀ bs, e ≠ .committed bs) :
    h₁ ++ [.committed bs] <+: h := by
  rcases List.prefix_concat_iff.1 hpre with heq | hpre
  · exact absurd (List.singleton_inj.1 (List.append_inj' heq rfl).2).symm (he bs)
  · exact hpre

theorem OpInv.pc_of_running {o : ℕ} (hinv : OpInv h st) (ho : o ∈ st.running) : st.pc = .none := by
  by_contra hpc
  rw [hinv.alone hpc] at ho
  exact absurd ho (Finset.notMem_empty o)

theorem OpInv.committing_of_running {o : ℕ} (hinv : OpInv h st) (ho : o ∈ st.running) :
    st.sys.committing = false := by
  rw [← Bool.not_eq_true, hinv.committing, not_not]
  exact hinv.pc_of_running ho

theorem OpInv.outstanding_pos {o : ℕ} (hinv : OpInv h st) (ho : o ∈ st.running) :
    1 ≤ st.sys.outstanding := by
  have := Finset.card_pos.2 ⟨o, ho⟩
  rw [hinv.outstanding]
  omega

theorem OpInv.begin {o : ℕ} (hinv : OpInv h st) (ho : o ∉ st.begun)
    (hcom : st.sys.committing = false)
    (hroom : st.sys.log.lh.n + (st.sys.outstanding + 1) * maxOpBlocks ≤ logBlocks) :
    OpInv (h ++ [.began o]) { st with
      sys := { st.sys with outstanding := st.sys.outstanding + 1 }
      running := insert o st.running
      begun := insert o st.begun
      written := Function.update st.written o ∅ } := by
  have hnew : o ∉ st.running := fun hc => ho (hinv.running hc)
  have hw : ∀ p, writesOf p (h ++ [.began o]) = writesOf p h := fun p => by simp [writesOf_snoc]
  have hpc : st.pc = .none := by
    by_contra hc
    simp [hinv.committing.2 hc] at hcom
  have hother : ∀ p ∈ st.running, Function.update st.written o ∅ p = st.written p :=
    fun p hp => Function.update_of_ne (fun he : p = o => hnew (he ▸ hp)) _ _
  refine ⟨⟨hinv.ok.n_nonneg, hinv.ok.nodup, hinv.ok.pins, hinv.ok.cached⟩,
    Finset.insert_subset_insert o hinv.running, ?_, hinv.committing, fun hc => absurd hpc hc, ?_,
    ?_, ?_, ?_, ?_, ?_⟩
  · dsimp only
    rw [hinv.outstanding, Finset.card_insert_of_notMem hnew]
    push_cast
    rfl
  · rw [pending_snoc]
    exact hinv.holds
  · -- the running operations take at most what `begin_op` has counted for them
    have hle : ∑ p ∈ st.running, (maxOpBlocks - (st.written p).card) ≤
        st.running.card * maxOpBlocks :=
      Finset.sum_le_card_nsmul _ _ _ fun p _ => Nat.sub_le _ _
    have hlen := LogSys.length_blocks hinv.ok.n_nonneg
    have hout := hinv.outstanding
    show st.sys.blocks.length + _ ≤ _
    dsimp only
    rw [Finset.sum_insert hnew, Function.update_self, Finset.card_empty,
      Finset.sum_congr rfl fun p hp => by rw [hother p hp]]
    rw [← hlen, hout] at hroom
    have : (st.sys.blocks.length : ℤ) + (st.running.card + 1) * maxOpBlocks ≤ logBlocks := hroom
    simp only [maxOpBlocks, logBlocks] at *
    omega
  · intro p hp
    rw [hw]
    rcases Finset.mem_insert.1 hp with rfl | hp
    · simp [hinv.fresh p ho]
    · dsimp only
      rw [hother p hp]
      exact hinv.written p hp
  · intro p hp
    rw [hw]
    exact hinv.fresh p fun hc => hp (Finset.mem_insert_of_mem hc)
  · exact fun h₁ bs hpre => hinv.commits h₁ bs (commit_before hpre nofun)
  · intro h₁ bs hpre p hp
    obtain ⟨hrun, hbeg, heq⟩ := hinv.unsplit h₁ bs (commit_before hpre nofun) p hp
    refine ⟨fun hc => ?_, Finset.mem_insert_of_mem hbeg, by rw [hw, heq]⟩
    rcases Finset.mem_insert.1 hc with rfl | hc
    · exact ho hbeg
    · exact hrun hc

theorem OpInv.sleep {o : ℕ} (hinv : OpInv h st) : OpInv (h ++ [.slept o]) st := by
  have hw : ∀ p, writesOf p (h ++ [.slept o]) = writesOf p h := fun p => by simp [writesOf_snoc]
  refine { hinv with holds := ?_, written := ?_, fresh := ?_, commits := ?_, unsplit := ?_ }
  · rw [pending_snoc]
    exact hinv.holds
  · intro p hp
    rw [hw]
    exact hinv.written p hp
  · intro p hp
    rw [hw]
    exact hinv.fresh p hp
  · exact fun h₁ bs hpre => hinv.commits h₁ bs (commit_before hpre nofun)
  · intro h₁ bs hpre p hp
    rw [hw]
    exact hinv.unsplit h₁ bs (commit_before hpre nofun) p hp

/-- A write takes the room it needs from what its operation may still write. -/
theorem OpInv.room_write {o b : ℕ} (hinv : OpInv h st) (ho : o ∈ st.running)
    (hcard : (insert b (st.written o)).card ≤ maxOpBlocks) {bs : List ℕ}
    (hbs : bs = if b ∈ st.sys.blocks then st.sys.blocks else st.sys.blocks ++ [b]) :
    bs.length + ∑ p ∈ st.running, (maxOpBlocks -
      (Function.update st.written o (insert b (st.written o)) p).card) ≤ logBlocks := by
  have hroom := hinv.room
  rw [← Finset.add_sum_erase _ _ ho] at hroom
  rw [← Finset.add_sum_erase _ _ ho, Function.update_self, Finset.sum_congr rfl fun p hp => by
    rw [Function.update_of_ne (Finset.ne_of_mem_erase hp)]]
  by_cases hb : b ∈ st.sys.blocks
  · rw [hbs, if_pos hb]
    have := Finset.card_le_card (Finset.subset_insert b (st.written o))
    omega
  · have hnew : b ∉ st.written o := fun hc => hb ((hinv.written o ho).2 b hc)
    rw [Finset.card_insert_of_notMem hnew] at hcard ⊢
    rw [hbs, if_neg hb, List.length_append, List.length_singleton]
    omega

theorem OpInv.write {o b : ℕ} {sys : LogSys} (hinv : OpInv h st) (ho : o ∈ st.running)
    (hcard : (insert b (st.written o)).card ≤ maxOpBlocks) (hok : sys.Ok)
    (hbs : sys.blocks = if b ∈ st.sys.blocks then st.sys.blocks else st.sys.blocks ++ [b])
    (hout : sys.outstanding = st.sys.outstanding) (hcom : sys.committing = st.sys.committing) :
    OpInv (h ++ [.wrote o b]) { st with
      sys := sys
      written := Function.update st.written o (insert b (st.written o)) } := by
  have hmem : ∀ c, c ∈ sys.blocks ↔ c = b ∨ c ∈ st.sys.blocks := by
    intro c
    rw [hbs]
    split_ifs with hb
    · exact ⟨Or.inr, fun hc => hc.elim (fun he => he ▸ hb) id⟩
    · rw [List.mem_append, List.mem_singleton, or_comm]
  refine ⟨hok, hinv.running, hout.trans hinv.outstanding, ?_, hinv.alone, ?_,
    hinv.room_write ho hcard hbs, ?_, ?_, ?_, ?_⟩
  · dsimp only
    rw [hcom]
    exact hinv.committing
  · rw [pending_snoc]
    dsimp only
    ext c
    rw [List.mem_toFinset, hmem, Finset.mem_insert, ← hinv.holds, List.mem_toFinset]
  · intro p hp
    dsimp only
    rw [writesOf_snoc]
    by_cases hpo : p = o
    · subst hpo
      obtain ⟨heq, hsub⟩ := hinv.written p hp
      rw [Function.update_self]
      refine ⟨?_, fun c hc => ?_⟩
      · rw [heq]
        ext c
        simp
      · rcases Finset.mem_insert.1 hc with rfl | hc
        · exact (hmem c).2 (Or.inl rfl)
        · exact (hmem c).2 (Or.inr (hsub c hc))
    · obtain ⟨heq, hsub⟩ := hinv.written p hp
      rw [Function.update_of_ne hpo]
      refine ⟨?_, fun c hc => (hmem c).2 (Or.inr (hsub c hc))⟩
      simpa [Ne.symm hpo] using heq
  · intro p hp
    have hpo : o ≠ p := fun he => hp (he ▸ hinv.running ho)
    rw [writesOf_snoc]
    simp [hpo, hinv.fresh p hp]
  · exact fun h₁ bs hpre => hinv.commits h₁ bs (commit_before hpre nofun)
  · intro h₁ bs hpre p hp
    obtain ⟨hrun, hbeg, heq⟩ := hinv.unsplit h₁ bs (commit_before hpre nofun) p hp
    -- a running operation has written nothing before the commit
    have hpo : o ≠ p := fun he => hrun (he ▸ ho)
    refine ⟨hrun, hbeg, ?_⟩
    rw [writesOf_snoc, ← heq]
    simp [hpo]

theorem OpInv.end {o : ℕ} {doCommit : Bool} (hinv : OpInv h st) (ho : o ∈ st.running)
    (hdo : doCommit = true ↔ st.sys.outstanding = 1) :
    OpInv (h ++ [.ended o]) { st with
      sys := { st.sys with outstanding := st.sys.outstanding - 1, committing := doCommit }
      running := st.running.erase o
      pc := if doCommit then .commit else st.pc } := by
  have hw : ∀ p, writesOf p (h ++ [.ended o]) = writesOf p h := fun p => by simp [writesOf_snoc]
  have hpc := hinv.pc_of_running ho
  have hcard := Finset.card_erase_add_one ho
  have hout := hinv.outstanding
  refine ⟨⟨hinv.ok.n_nonneg, hinv.ok.nodup, hinv.ok.pins, hinv.ok.cached⟩,
    (Finset.erase_subset _ _).trans hinv.running, ?_, ?_, ?_, ?_, ?_, ?_, ?_, ?_, ?_⟩
  · dsimp only
    omega
  · dsimp only
    cases doCommit <;> simp [hpc]
  · -- `do_commit` is set by the last operation
    intro hc
    dsimp only at hc ⊢
    cases doCommit with
    | false => exact absurd hpc (by simpa using hc)
    | true =>
      have h1 := hdo.1 rfl
      rw [← Finset.card_eq_zero]
      omega
  · rw [pending_snoc]
    exact hinv.holds
  · have hroom := hinv.room
    rw [← Finset.add_sum_erase _ _ ho] at hroom
    show st.sys.blocks.length + _ ≤ _
    dsimp only
    omega
  · intro p hp
    rw [hw]
    exact hinv.written p (Finset.mem_of_mem_erase hp)
  · intro p hp
    rw [hw]
    exact hinv.fresh p hp
  · exact fun h₁ bs hpre => hinv.commits h₁ bs (commit_before hpre nofun)
  · intro h₁ bs hpre p hp
    obtain ⟨hrun, hbeg, heq⟩ := hinv.unsplit h₁ bs (commit_before hpre nofun) p hp
    exact ⟨fun hc => hrun (Finset.mem_of_mem_erase hc), hbeg, by rw [hw, heq]⟩

theorem OpInv.commit (hinv : OpInv h st) (hpc : st.pc = .commit) :
    OpInv (h ++ [.committed st.sys.blocks]) { st with sys := st.sys.commit, pc := .finish } := by
  have hw : ∀ p, writesOf p (h ++ [.committed st.sys.blocks]) = writesOf p h :=
    fun p => by simp [writesOf_snoc]
  have hrun : st.running = ∅ := hinv.alone (by rw [hpc]; exact CommitPc.noConfusion)
  have hcom : st.sys.committing = true :=
    hinv.committing.2 (by rw [hpc]; exact CommitPc.noConfusion)
  refine ⟨hinv.ok.commit, hinv.running, hinv.outstanding, ?_, fun _ => hrun, ?_, ?_, ?_, ?_, ?_, ?_⟩
  · exact iff_of_true hcom CommitPc.noConfusion
  · rw [pending_snoc]
    dsimp only
    rw [LogSys.commit_blocks hinv.ok]
    rfl
  · dsimp only
    rw [LogSys.commit_blocks hinv.ok, hrun]
    simp
  · intro p hp
    dsimp only at hp
    rw [hrun] at hp
    exact absurd hp (Finset.notMem_empty p)
  · intro p hp
    rw [hw]
    exact hinv.fresh p hp
  · intro h₁ bs hpre
    rcases List.prefix_concat_iff.1 hpre with heq | hpre
    · obtain ⟨rfl, hbs⟩ := List.append_inj' heq rfl
      obtain rfl : bs = st.sys.blocks := by simpa using hbs
      exact ⟨hinv.ok.nodup, hinv.holds⟩
    · exact hinv.commits h₁ bs hpre
  · intro h₁ bs hpre p hp
    dsimp only
    rw [hw, hrun]
    refine ⟨Finset.notMem_empty p, ?_⟩
    rcases List.prefix_concat_iff.1 hpre with heq | hpre
    · obtain ⟨rfl, -⟩ := List.append_inj' heq rfl
      exact ⟨by_contra fun hc => hp (hinv.fresh p hc), rfl⟩
    · exact (hinv.unsplit h₁ bs hpre p hp).2

theorem OpInv.finish (hinv : OpInv h st) :
    OpInv (h ++ [.finished])
      { st with sys := { st.sys with committing := false }, pc := .none } := by
  have hw : ∀ p, writesOf p (h ++ [.finished]) = writesOf p h := fun p => by simp [writesOf_snoc]
  refine ⟨⟨hinv.ok.n_nonneg, hinv.ok.nodup, hinv.ok.pins, hinv.ok.cached⟩, hinv.running,
    hinv.outstanding, ?_, fun hc => absurd rfl hc, ?_, hinv.room, ?_, ?_, ?_, ?_⟩
  · simp
  · rw [pending_snoc]
    exact hinv.holds
  · intro p hp
    rw [hw]
    exact hinv.written p hp
  · intro p hp
    rw [hw]
    exact hinv.fresh p hp
  · exact fun h₁ bs hpre => hinv.commits h₁ bs (commit_before hpre nofun)
  · intro h₁ bs hpre p hp
    rw [hw]
    exact hinv.unsplit h₁ bs (commit_before hpre nofun) p hp

theorem OpInv.step {e : LogEvent} (hinv : OpInv h st) (hs : OpStep st e st') :
    OpInv (h ++ [e]) st' := by
  cases hs with
  | «begin» ho hrun =>
    obtain ⟨hr, -⟩ | ⟨-, hcom, hroom, rfl⟩ := wp_of_run (LogSys.beginOp_spec _) hrun
    · exact absurd hr Bool.noConfusion
    · exact hinv.begin ho hcom hroom
  | sleep ho hrun =>
    obtain ⟨-, rfl⟩ | ⟨hr, -⟩ := wp_of_run (LogSys.beginOp_spec _) hrun
    · exact hinv.sleep
    · exact absurd hr Bool.noConfusion
  | write ho hcard hrun =>
    have hout := hinv.outstanding_pos ho
    have hw := wp_of_run (LogSys.logWrite_spec hinv.ok hout _ _) hrun
    exact hinv.write ho hcard hw.ok hw.blocks hw.outstanding hw.committing
  | «end» ho hrun =>
    obtain ⟨hdo, rfl⟩ := wp_of_run (LogSys.endOp_spec (hinv.committing_of_running ho)) hrun
    exact hinv.end ho hdo
  | commit hpc => exact hinv.commit hpc
  | finish _ => exact hinv.finish

theorem opRun_inv (hrun : Run (OpState.Init start) OpStep h st) : OpInv h st :=
  hrun.invariant (fun _ hi => hi.inv) fun _ _ _ _ hinv hs => hinv.step hs

/-- An operation that has written fewer than `MAXOPBLOCKS` blocks can write. -/
theorem OpInv.logWrite_ok {o : ℕ} (hinv : OpInv h st) (ho : o ∈ st.running)
    (hcard : (st.written o).card < maxOpBlocks) (b : ℕ) (data : Block) :
    ∃ sys, (LogSys.logWrite b data).run st.sys = .ok ((), sys) := by
  have hroom := hinv.room
  rw [← Finset.add_sum_erase _ _ ho] at hroom
  have hlen := LogSys.length_blocks hinv.ok.n_nonneg
  have hn : ¬st.sys.log.lh.n ≥ logBlocks := by
    simp only [logBlocks] at hroom ⊢
    omega
  have hspec := wp_mono (LogSys.logWrite_spec hinv.ok (hinv.outstanding_pos ho) b data)
    (fun _ _ hq => hq) fun _ hc => hn hc.2
  obtain ⟨u, sys, hrun, -⟩ := wp_noPanic_iff.1 hspec
  exact ⟨sys, hrun⟩

/-- In every interleaving a commit waits for all operations and keeps new ones out, takes
exactly what was written since the commit before it and ends the writing of everyone it takes
from; the log holds distinct blocks, pinned once, and never more than it has room for; `end_op`
does not panic, and neither does `log_write` by an operation that has written fewer than
`MAXOPBLOCKS` different blocks. -/
theorem logOps_grouped (hrun : Run (OpState.Init start) OpStep h st) :
    (st.sys.committing = true → st.sys.outstanding = 0 ∧ st.running = ∅ ∧
      LogSys.beginOp.run st.sys = .ok (false, st.sys)) ∧
    (∀ h₁ bs, h₁ ++ [.committed bs] <+: h → bs.toFinset = pending h₁ ∧
      ∀ o, writesOf o h₁ ≠ [] → writesOf o h = writesOf o h₁) ∧
    (st.sys.log.lh.n = st.sys.blocks.length ∧ st.sys.blocks.Nodup ∧
      st.sys.blocks.toFinset = pending h ∧ st.sys.blocks.length ≤ logBlocks ∧
      ∀ b, st.sys.pins b = if b ∈ st.sys.blocks then 1 else 0) ∧
    (∀ o ∈ st.running, (∃ r sys, LogSys.endOp.run st.sys = .ok (r, sys)) ∧
      ((st.written o).card < maxOpBlocks → ∀ b data,
        ∃ sys, (LogSys.logWrite b data).run st.sys = .ok ((), sys))) := by
  have hinv := opRun_inv hrun
  refine ⟨fun hcom => ?_, fun h₁ bs hpre => ⟨(hinv.commits h₁ bs hpre).2, fun o ho =>
    (hinv.unsplit h₁ bs hpre o ho).2.2⟩, ⟨?_, hinv.ok.nodup, hinv.holds, ?_, hinv.ok.pins⟩,
    fun o ho => ⟨?_, hinv.logWrite_ok ho⟩⟩
  · have hempty := hinv.alone (hinv.committing.1 hcom)
    refine ⟨by rw [hinv.outstanding, hempty]; rfl, hempty, ?_⟩
    obtain ⟨r, sys, hr, ⟨rfl, rfl⟩ | ⟨-, hc, -⟩⟩ := wp_noPanic_iff.1 (LogSys.beginOp_spec st.sys)
    · exact hr
    · exact absurd (hc.symm.trans hcom) Bool.noConfusion
  · exact (LogSys.length_blocks hinv.ok.n_nonneg).symm
  · have hroom := hinv.room
    omega
  · obtain ⟨r, sys, hr, -⟩ := wp_noPanic_iff.1 (LogSys.endOp_spec (hinv.committing_of_running ho))
    exact ⟨r, sys, hr⟩

end Invariant

/-! ## A full log

Three operations that write ten blocks each fill the log. `log_write` tests for a full log
before it looks for the block, so a write that would be absorbed panics then. -/

/-- The log after `initlog`, when the operations below `k` have begun. -/
def begunLog (k : ℕ) : OpState where
  sys := ⟨⟨fun _ _ => 0, fun _ => none, 2, ⟨0, fun _ => 0⟩, []⟩, k, false, fun _ => 0⟩
  running := Finset.range k
  begun := Finset.range k
  written _ := ∅
  pc := .none

theorem begunLog_run : ∀ k ≤ 3, ∃ h, Run (OpState.Init 2) OpStep h (begunLog k)
  | 0, _ => ⟨[], .start ⟨rfl, rfl, rfl, fun _ => rfl, rfl, rfl, fun _ => rfl, rfl, rfl, rfl⟩⟩
  | k + 1, hk => by
    obtain ⟨h, hrun⟩ := begunLog_run k (by omega)
    have hroom : ¬((begunLog k).sys.log.lh.n + ((begunLog k).sys.outstanding + 1) * maxOpBlocks >
        (logBlocks : ℤ)) := by
      simp only [begunLog, maxOpBlocks, logBlocks]
      omega
    have hbegin : LogSys.beginOp.run (begunLog k).sys =
        .ok (true, { (begunLog k).sys with outstanding := k + 1 }) := by
      simp only [LogSys.beginOp, StateT.run_bind, StateT.run_get, pure_bind]
      rw [if_neg (show ¬(begunLog k).sys.committing = true from Bool.noConfusion), if_neg hroom]
      rfl
    have hnew : k ∉ (begunLog k).begun := Finset.notMem_range_self
    have hstep := OpStep.begin hnew hbegin
    refine ⟨_, hrun.snoc (e := .began k) ?_⟩
    convert hstep using 1
    simp [begunLog, Finset.range_add_one]

/-- The operations `0`, `1`, `2` have written the blocks from `100` on, ten each. -/
structure Filled (k : ℕ) (st : OpState) : Prop where
  running : st.running = Finset.range 3
  written : ∀ o < 3, st.written o = ((Finset.range k).filter (· / 10 = o)).image (100 + ·)
  blocks : st.sys.blocks = (List.range k).map (100 + ·)

theorem card_filled (k o : ℕ) :
    (((Finset.range k).filter (· / 10 = o)).image (100 + ·)).card ≤ maxOpBlocks := by
  refine Finset.card_image_le.trans ?_
  calc ((Finset.range k).filter (· / 10 = o)).card
      ≤ (Finset.Ico (10 * o) (10 * o + 10)).card := Finset.card_le_card fun i hi => by
        rw [Finset.mem_filter] at hi
        rw [Finset.mem_Ico]
        omega
    _ = maxOpBlocks := by simp

theorem filled_run : ∀ k ≤ 30, ∃ h st, Run (OpState.Init 2) OpStep h st ∧ Filled k st
  | 0, _ => by
    obtain ⟨h, hrun⟩ := begunLog_run 3 (le_refl _)
    exact ⟨h, _, hrun, rfl, fun o _ => rfl, rfl⟩
  | k + 1, hk => by
    obtain ⟨h, st, hrun, hf⟩ := filled_run k (by omega)
    have hinv := opRun_inv hrun
    have ho : k / 10 ∈ st.running := by
      rw [hf.running, Finset.mem_range]
      omega
    have hnew : 100 + k ∉ st.sys.blocks := by simp [hf.blocks]
    have hins : insert (100 + k) (st.written (k / 10)) =
        ((Finset.range (k + 1)).filter (· / 10 = k / 10)).image (100 + ·) := by
      rw [hf.written _ (by omega), Finset.range_add_one, Finset.filter_insert, if_pos rfl,
        Finset.image_insert]
    have hcard := card_filled (k + 1) (k / 10)
    have hlt : (st.written (k / 10)).card < maxOpBlocks := by
      rw [← hins, Finset.card_insert_of_notMem] at hcard
      · exact hcard
      · exact fun hc => hnew ((hinv.written _ ho).2 _ hc)
    obtain ⟨sys, hw⟩ := hinv.logWrite_ok ho hlt (100 + k) (fun _ => 0)
    have hbs := (wp_of_run
      (LogSys.logWrite_spec hinv.ok (hinv.outstanding_pos ho) (100 + k) _) hw).blocks
    refine ⟨_, _, hrun.snoc (.write ho (by rw [hins]; exact hcard) hw), hf.running, ?_, ?_⟩
    · intro o ho3
      dsimp only
      by_cases hok : o = k / 10
      · rw [hok, Function.update_self, hins]
      · rw [Function.update_of_ne hok, hf.written o ho3, Finset.range_add_one,
          Finset.filter_insert, if_neg (Ne.symm hok)]
    · dsimp only
      rw [hbs, if_neg hnew, hf.blocks, List.range_succ, List.map_append]
      rfl

/-- Three operations have written ten different blocks each, and one of them writes one of its
blocks again. -/
theorem logWrite_absorbed_panics : ∃ h st, Run (OpState.Init 2) OpStep h st ∧
    ∃ o ∈ st.running, ∃ b ∈ st.written o, (insert b (st.written o)).card ≤ maxOpBlocks ∧
      ∀ data, (LogSys.logWrite b data).run st.sys = .error "too big a transaction" := by
  obtain ⟨h, st, hrun, hf⟩ := filled_run 30 (le_refl _)
  have hlen := LogSys.length_blocks (opRun_inv hrun).ok.n_nonneg
  rw [hf.blocks, List.length_map, List.length_range] at hlen
  refine ⟨h, st, hrun, 0, by rw [hf.running]; decide, 100, ?_, ?_, fun data => ?_⟩
  · rw [hf.written 0 (by omega)]
    decide
  · rw [Finset.insert_eq_of_mem, hf.written 0 (by omega)]
    · exact card_filled 30 0
    · rw [hf.written 0 (by omega)]
      decide
  · simp only [LogSys.logWrite, StateT.run_bind, StateT.run_get, pure_bind]
    rw [if_pos (show st.sys.log.lh.n ≥ logBlocks from hlen.le)]
    rfl

/-- Two operations have begun, and one may write. -/
theorem logOps_grouped_two : ∃ h st, Run (OpState.Init 2) OpStep h st ∧ 0 ∈ st.running ∧
    ∃ sys, (LogSys.logWrite 100 fun _ => 0).run st.sys = .ok ((), sys) := by
  obtain ⟨h, hrun⟩ := begunLog_run 2 (by omega)
  exact ⟨h, _, hrun, by decide, ((logOps_grouped hrun).2.2.2 0 (by decide)).2 (by decide) _ _⟩

end Xv6Plus
