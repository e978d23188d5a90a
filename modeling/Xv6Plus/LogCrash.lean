import Xv6Plus.Log

/-!
# Crash atomicity of the log

A transaction `T` gives new contents to some home blocks. `commit` makes its writes in
four groups : the log blocks, the header, the home blocks, the header again. A crash
leaves the disk in one of three conditions : the header is clear and the home blocks are
old, the header names the transaction and the log holds it (`Pending`), or the header is
clear and the home blocks are new. Recovery keeps within the three at every cut and ends
in the first or the third.
-/

namespace Xv6Plus

/-- The blocks of the log, its header included. -/
def InLog (start b : ℕ) : Prop := start ≤ b ∧ b ≤ start + logBlocks

/-- A transaction as `log_write` leaves it to `commit` : distinct home blocks outside the
log, with their new contents. -/
structure Trans (start : ℕ) where
  n : ℕ
  block : ℕ → ℕ
  data : ℕ → Block
  n_le : n ≤ logBlocks
  block_lt : ∀ i < n, block i < 2 ^ 32
  block_inj : ∀ i < n, ∀ j < n, block i = block j → i = j
  outside : ∀ i < n, ¬InLog start (block i)

variable {start : ℕ}

namespace Trans

def homes (T : Trans start) : Set ℕ := {b | ∃ i < T.n, T.block i = b}

/-- The state `commit` starts in : the home blocks are pinned with their new contents. -/
def atCommit (T : Trans start) (d : Disk) : LogState where
  disk := d
  cache b := if ∃ i < T.n, T.block i = b then some (T.data b) else none
  start := start
  lh := ⟨T.n, T.block⟩
  trace := []

/-- The writes of `write_log` from position `i` on. -/
def logWrites (T : Trans start) (i k : ℕ) : List (ℕ × Block) :=
  (List.range' i k).map fun j => (start + j + 1, T.data (T.block j))

/-- The writes of `install_trans` from position `i` on. -/
def homeWrites (T : Trans start) (i k : ℕ) : List (ℕ × Block) :=
  (List.range' i k).map fun j => (T.block j, T.data (T.block j))

theorem inLog (T : Trans start) {i : ℕ} (h : i < T.n) : InLog start (start + i + 1) := by
  have hn := T.n_le
  simp only [InLog, logBlocks] at *
  omega

end Trans

/-- The state of the log after a boot, before `recover_from_log`. -/
def LogState.boot (start : ℕ) (d : Disk) : LogState where
  disk := d
  cache _ := none
  start := start
  lh := ⟨0, fun _ => 0⟩
  trace := []

theorem LogState.readHead_boot (d : Disk) : ((boot start d).readHead).lh =
    ⟨headN (d start), fun i => if (i : ℤ) < headN (d start) then read32 (d start) (4 + 4 * i)
      else 0⟩ := rfl

/-- The writes `recover_from_log` makes on a disk. -/
def recoverTrace (start : ℕ) (d : Disk) : List (ℕ × Block) :=
  (LogState.boot start d).recoverFromLog.trace

/-! ## What the procedures write -/

namespace LogState

variable {s : LogState} {T : Trans start}

/-- From `s` to `s'` only the writes `ws` were made, and no buffer was pinned. -/
structure Wrote (s : LogState) (ws : List (ℕ × Block)) (s' : LogState) : Prop where
  disk : s'.disk = applyWrites ws s.disk
  trace : s'.trace = s.trace ++ ws
  start : s'.start = s.start
  lh : s'.lh = s.lh
  unpinned : ∀ b, s.cache b = none → s'.cache b = none

theorem Wrote.refl (s : LogState) : Wrote s [] s :=
  ⟨rfl, (List.append_nil _).symm, rfl, rfl, fun _ h => h⟩

theorem Wrote.trans {s' s'' : LogState} {ws vs : List (ℕ × Block)} (h : Wrote s ws s')
    (h' : Wrote s' vs s'') : Wrote s (ws ++ vs) s'' where
  disk := by rw [h'.disk, h.disk, applyWrites_append]
  trace := by rw [h'.trace, h.trace, List.append_assoc]
  start := h'.start.trans h.start
  lh := h'.lh.trans h.lh
  unpinned b hb := h'.unpinned b (h.unpinned b hb)

theorem bread_of_unpinned {b : ℕ} (h : s.cache b = none) : s.bread b = s.disk b := by
  rw [bread, h, Option.getD_none]

theorem wrote_bwrite (s : LogState) (b : ℕ) (data : Block) :
    Wrote s [(b, data)] (s.bwrite b data) := by
  refine ⟨rfl, rfl, rfl, rfl, fun c hc => ?_⟩
  by_cases hcb : c = b
  · subst hcb
    exact (Function.update_self _ _ _).trans (by rw [hc, Option.map_none])
  · exact (Function.update_of_ne hcb _ _).trans hc

theorem wrote_bunpin (s : LogState) (b : ℕ) : Wrote s [] (s.bunpin b) := by
  refine ⟨rfl, (List.append_nil _).symm, rfl, rfl, fun c hc => ?_⟩
  by_cases hcb : c = b
  · subst hcb
    exact Function.update_self _ _ _
  · exact (Function.update_of_ne hcb _ _).trans hc

theorem wrote_writeLogLoop : ∀ {k i : ℕ} {s : LogState}, i + k ≤ T.n → s.start = start →
    s.lh.block = T.block → (∀ j < T.n, s.cache (T.block j) = some (T.data (T.block j))) →
    Wrote s (T.logWrites i k) (writeLogLoop k i s)
  | 0, i, s, _, _, _, _ => Wrote.refl s
  | k + 1, i, s, hk, hstart, hblock, hhome => by
    have hdata : s.bread (T.block i) = T.data (T.block i) := by
      rw [bread, hhome i (by omega), Option.getD_some]
    have hhome' : ∀ j < T.n, (s.bwrite (start + i + 1) (T.data (T.block i))).cache (T.block j) =
        some (T.data (T.block j)) := by
      intro j hj
      have hne : T.block j ≠ start + i + 1 := fun h => T.outside j hj (h ▸ T.inLog (by omega))
      exact (Function.update_of_ne hne _ _).trans (hhome j hj)
    rw [writeLogLoop, hstart, hblock, hdata]
    exact (wrote_bwrite s _ _).trans (wrote_writeLogLoop (by omega) hstart hblock hhome')

theorem wrote_installBlock (r : Bool) (i : ℕ) (s : LogState) :
    Wrote s [(s.lh.block i, s.bread (s.start + i + 1))] (installBlock r i s) := by
  rw [installBlock]
  split_ifs
  · exact wrote_bwrite _ _ _
  · exact (wrote_bwrite _ _ _).trans (wrote_bunpin _ _)

theorem wrote_installLoop {r : Bool} : ∀ {k i : ℕ} {s : LogState}, i + k ≤ T.n →
    s.start = start → (∀ j < T.n, s.lh.block j = T.block j) →
    (∀ j < T.n, s.disk (start + j + 1) = T.data (T.block j)) →
    (∀ b, InLog start b → s.cache b = none) →
    Wrote s (T.homeWrites i k) (installLoop r k i s)
  | 0, i, s, _, _, _, _, _ => Wrote.refl s
  | k + 1, i, s, hk, hstart, hblock, hdata, hlog => by
    have hread : s.bread (start + i + 1) = T.data (T.block i) := by
      rw [bread_of_unpinned (hlog _ (T.inLog (by omega)))]
      exact hdata i (by omega)
    have hw := wrote_installBlock r i s
    rw [hblock i (by omega), hstart, hread] at hw
    have hdata' : ∀ j < T.n, (installBlock r i s).disk (start + j + 1) = T.data (T.block j) := by
      intro j hj
      have hne : start + j + 1 ≠ T.block i :=
        fun h => T.outside i (by omega) (h ▸ T.inLog hj)
      rw [hw.disk]
      exact (Function.update_of_ne hne _ _).trans (hdata j hj)
    exact hw.trans (wrote_installLoop (by omega) (hw.start.trans hstart)
      (fun j hj => by rw [hw.lh, hblock j hj]) hdata' fun b hb => hw.unpinned b (hlog b hb))

theorem wrote_writeHead (h : s.cache s.start = none) :
    Wrote s [(s.start, putBlocks s.lh.block s.lh.n.toNat 0
      (write32 (s.disk s.start) 0 (ofInt32 s.lh.n)))] s.writeHead := by
  rw [writeHead, bread_of_unpinned h]
  exact wrote_bwrite _ _ _

/-- Clearing the log writes the header with `n = 0` and nothing else. -/
theorem writeHead_clearHead (h : s.cache s.start = none) :
    (s.clearHead.writeHead).trace = s.trace ++ [(s.start, write32 (s.disk s.start) 0 0)] ∧
      (s.clearHead.writeHead).disk =
        Function.update s.disk s.start (write32 (s.disk s.start) 0 0) := by
  have hw := wrote_writeHead (s := s.clearHead) h
  have hz : ofInt32 0 = 0 := by simp [ofInt32]
  have hn : s.clearHead.lh.n = 0 := rfl
  have hdisk : s.clearHead.disk = s.disk := rfl
  have hstart : s.clearHead.start = s.start := rfl
  rw [hn, hdisk, hstart, Int.toNat_zero, putBlocks, hz] at hw
  refine ⟨hw.trace, ?_⟩
  rw [hw.disk, hdisk, applyWrites, applyWrites]

end LogState

/-! ## The header block -/

section Header

variable {block : ℕ → ℕ}

theorem read32_putBlocks_of_lt {a : ℕ} : ∀ {k i : ℕ} {b : Block}, a + 4 ≤ 4 + 4 * i →
    read32 (putBlocks block k i b) a = read32 b a
  | 0, _, _, _ => rfl
  | k + 1, i, b, h => by
    rw [putBlocks, read32_putBlocks_of_lt (by omega), read32_write32_ne (by omega)]

theorem read32_putBlocks {j : ℕ} (hj : block j < 2 ^ 32) : ∀ {k i : ℕ} {b : Block}, i ≤ j →
    j < i + k → read32 (putBlocks block k i b) (4 + 4 * j) = block j
  | 0, _, _, h1, h2 => by omega
  | k + 1, i, b, h1, h2 => by
    rw [putBlocks]
    by_cases hij : i = j
    · subst hij
      rw [read32_putBlocks_of_lt (by omega), read32_write32_same _ _ hj]
    · exact read32_putBlocks hj (by omega) (by omega)

/-- The header block that names the transaction. -/
def Trans.header (T : Trans start) (b : Block) : Block :=
  putBlocks T.block T.n 0 (write32 b 0 T.n)

theorem headN_header (T : Trans start) (b : Block) : headN (T.header b) = T.n := by
  have hn := T.n_le
  simp only [logBlocks] at hn
  rw [headN, Trans.header, read32_putBlocks_of_lt (by omega), read32_write32_same _ _ (by omega),
    toInt32, if_pos (by omega)]

theorem read32_header (T : Trans start) (b : Block) {j : ℕ} (hj : j < T.n) :
    read32 (T.header b) (4 + 4 * j) = T.block j :=
  read32_putBlocks (T.block_lt j hj) (Nat.zero_le _) (by omega)

theorem headN_clear (b : Block) : headN (write32 b 0 0) = 0 := by
  rw [headN, read32_write32_same _ _ (by norm_num)]
  rfl

theorem ofInt32_natCast {n : ℕ} (h : n < 2 ^ 32) : ofInt32 n = n := by
  unfold ofInt32
  omega

end Header

/-! ## The three conditions of the disk -/

variable {T : Trans start} {d₀ d : Disk} {v : ℕ → Block}

/-- The header is clear, the home blocks hold `v`, and the other blocks outside the log
are those of `d₀`. -/
structure Settled (T : Trans start) (d₀ : Disk) (v : ℕ → Block) (d : Disk) : Prop where
  clear : headN (d start) = 0
  home : ∀ b ∈ T.homes, d b = v b
  other : ∀ b, b ∉ T.homes → ¬InLog start b → d b = d₀ b

/-- The header names the transaction and the log holds its contents. -/
structure Pending (T : Trans start) (d₀ d : Disk) : Prop where
  head : headN (d start) = T.n
  block : ∀ j < T.n, read32 (d start) (4 + 4 * j) = T.block j
  log : ∀ j < T.n, d (start + j + 1) = T.data (T.block j)
  other : ∀ b, b ∉ T.homes → ¬InLog start b → d b = d₀ b

/-- What a crash can leave of the transaction. -/
def Recoverable (T : Trans start) (d₀ d : Disk) : Prop :=
  Settled T d₀ d₀ d ∨ Pending T d₀ d ∨ Settled T d₀ T.data d

theorem Trans.not_inLog_of_home {b : ℕ} (hb : b ∈ T.homes) : ¬InLog start b := by
  obtain ⟨i, hi, rfl⟩ := hb
  exact T.outside i hi

theorem inLog_start (start : ℕ) : InLog start start := ⟨le_refl _, by omega⟩

theorem InLog.ne {b c : ℕ} (hb : InLog start b) (hc : ¬InLog start c) : c ≠ b := by
  rintro rfl
  exact hc hb

/-- Writes to the log that keep the header clear settle nothing new. -/
theorem Settled.write {b : ℕ} {x : Block} (h : Settled T d₀ v d) (hb : InLog start b)
    (hx : b = start → headN x = 0) : Settled T d₀ v (Function.update d b x) := by
  refine ⟨?_, fun c hc => ?_, fun c hc hlog => ?_⟩
  · by_cases hbs : start = b
    · rw [hbs, Function.update_self]
      exact hx hbs.symm
    · rw [Function.update_of_ne hbs, h.clear]
  · rw [Function.update_of_ne (hb.ne (Trans.not_inLog_of_home hc)), h.home c hc]
  · rw [Function.update_of_ne (hb.ne hlog), h.other c hc hlog]

theorem Pending.write {b : ℕ} {x : Block} (h : Pending T d₀ d) (hb : b ∈ T.homes) :
    Pending T d₀ (Function.update d b x) := by
  have hout := Trans.not_inLog_of_home hb
  have hstart : start ≠ b := ((inLog_start start).ne hout).symm
  refine ⟨?_, fun j hj => ?_, fun j hj => ?_, fun c hc hlog => ?_⟩
  · rw [Function.update_of_ne hstart, h.head]
  · rw [Function.update_of_ne hstart, h.block j hj]
  · rw [Function.update_of_ne ((T.inLog hj).ne hout).symm, h.log j hj]
  · rw [Function.update_of_ne (ne_of_mem_of_not_mem hb hc).symm, h.other c hc hlog]

/-- Once all home blocks are written, clearing the header settles the transaction. -/
theorem Pending.settle {x : Block} (h : Pending T d₀ d) (hhome : ∀ b ∈ T.homes, d b = T.data b)
    (hx : headN x = 0) : Settled T d₀ T.data (Function.update d start x) := by
  refine ⟨?_, fun c hc => ?_, fun c hc hlog => ?_⟩
  · rw [Function.update_self, hx]
  · rw [Function.update_of_ne ((inLog_start start).ne (Trans.not_inLog_of_home hc)), hhome c hc]
  · rw [Function.update_of_ne ((inLog_start start).ne hlog), h.other c hc hlog]

/-! ## The groups of writes -/

theorem mem_homeWrites {w : ℕ × Block} :
    w ∈ T.homeWrites 0 T.n ↔ ∃ j < T.n, (T.block j, T.data (T.block j)) = w := by
  simp [Trans.homeWrites]

theorem mem_logWrites {w : ℕ × Block} :
    w ∈ T.logWrites 0 T.n ↔ ∃ j < T.n, (start + j + 1, T.data (T.block j)) = w := by
  simp [Trans.logWrites]

theorem applyWrites_homeWrites {b : ℕ} (hb : b ∈ T.homes) :
    applyWrites (T.homeWrites 0 T.n) d b = T.data b := by
  obtain ⟨i, hi, rfl⟩ := hb
  refine applyWrites_of_mem ⟨_, mem_homeWrites.2 ⟨i, hi, rfl⟩, rfl⟩ fun w hw he => ?_
  obtain ⟨j, -, rfl⟩ := mem_homeWrites.1 hw
  exact congrArg T.data he

theorem applyWrites_logWrites {j : ℕ} (hj : j < T.n) :
    applyWrites (T.logWrites 0 T.n) d (start + j + 1) = T.data (T.block j) := by
  refine applyWrites_of_mem ⟨_, mem_logWrites.2 ⟨j, hj, rfl⟩, rfl⟩ fun w hw he => ?_
  obtain ⟨i, -, rfl⟩ := mem_logWrites.1 hw
  obtain rfl : i = j := by
    dsimp only at he
    omega
  rfl

theorem applyWrites_homeWrites_log {b : ℕ} (hb : InLog start b) :
    applyWrites (T.homeWrites 0 T.n) d b = d b := by
  refine applyWrites_of_ne fun w hw => ?_
  obtain ⟨j, hj, rfl⟩ := mem_homeWrites.1 hw
  exact hb.ne (T.outside j hj)

theorem applyWrites_logWrites_start : applyWrites (T.logWrites 0 T.n) d start = d start := by
  refine applyWrites_of_ne fun w hw => ?_
  obtain ⟨j, -, rfl⟩ := mem_logWrites.1 hw
  dsimp only
  omega

/-- What `recover_from_log` writes if the header names a transaction the log holds. -/
theorem recoverFromLog_spec (hhead : headN (d start) = T.n)
    (hblock : ∀ j < T.n, read32 (d start) (4 + 4 * j) = T.block j)
    (hlog : ∀ j < T.n, d (start + j + 1) = T.data (T.block j)) :
    recoverTrace start d = T.homeWrites 0 T.n ++ [(start, write32 (d start) 0 0)] ∧
      (LogState.boot start d).recoverFromLog.disk = applyWrites (recoverTrace start d) d := by
  set s := (LogState.boot start d).readHead with hs
  have hlh := @LogState.readHead_boot start d
  rw [← hs, hhead] at hlh
  have hn : s.lh.n = T.n := by rw [hlh]
  have hb : ∀ j < T.n, s.lh.block j = T.block j := by
    intro j hj
    simp only [hlh, Nat.cast_lt, if_pos hj]
    exact hblock j hj
  have hw : LogState.Wrote s (T.homeWrites 0 T.n) (s.installTrans true) := by
    rw [LogState.installTrans, hn, Int.toNat_natCast]
    exact LogState.wrote_installLoop (by omega) rfl hb hlog fun _ _ => rfl
  have hcache : (s.installTrans true).cache (s.installTrans true).start = none :=
    hw.unpinned _ rfl
  obtain ⟨htr, hdisk⟩ := LogState.writeHead_clearHead hcache
  have hstart : s.start = start := rfl
  have hd : s.disk = d := rfl
  have ht : s.trace = [] := rfl
  rw [hw.start, hw.disk, hw.trace, hstart, hd, ht, List.nil_append,
    applyWrites_homeWrites_log (inLog_start start)] at htr
  rw [hw.start, hw.disk, hstart, hd, applyWrites_homeWrites_log (inLog_start start)] at hdisk
  rw [recoverTrace, LogState.recoverFromLog, ← hs, htr]
  refine ⟨rfl, ?_⟩
  rw [hdisk, applyWrites_append, applyWrites, applyWrites]

theorem Trans.atCommit_cache (T : Trans start) (d : Disk) {b : ℕ} (hb : InLog start b) :
    (T.atCommit d).cache b = none := by
  refine if_neg ?_
  rintro ⟨i, hi, rfl⟩
  exact T.outside i hi hb

/-- What `commit` writes. -/
def Trans.commitWrites (T : Trans start) (d : Disk) : List (ℕ × Block) :=
  T.logWrites 0 T.n ++ [(start, T.header (d start))] ++ T.homeWrites 0 T.n ++
    [(start, write32 (T.header (d start)) 0 0)]

theorem commit_writes (T : Trans start) (d : Disk) (hn : 0 < T.n) :
    (T.atCommit d).commit.trace = T.commitWrites d ∧
      (T.atCommit d).commit.disk = applyWrites (T.commitWrites d) d ∧
      (T.atCommit d).commit.start = start := by
  set s := T.atCommit d with hs
  have hstart : s.start = start := rfl
  have hdisk : s.disk = d := rfl
  have htrace : s.trace = [] := rfl
  have hlh : s.lh = ⟨T.n, T.block⟩ := rfl
  have hlog : LogState.Wrote s (T.logWrites 0 T.n) s.writeLog := by
    rw [LogState.writeLog, hlh, Int.toNat_natCast]
    exact LogState.wrote_writeLogLoop (by omega) rfl rfl fun j hj => if_pos ⟨j, hj, rfl⟩
  have hhead := LogState.wrote_writeHead (s := s.writeLog)
    (by rw [hlog.start]; exact hlog.unpinned _ (T.atCommit_cache d (inLog_start start)))
  have hn32 : T.n < 2 ^ 32 := by
    have := T.n_le
    simp only [logBlocks] at this
    omega
  rw [hlog.start, hlog.lh, hlog.disk, hstart, hdisk, hlh, applyWrites_logWrites_start,
    Int.toNat_natCast, ofInt32_natCast hn32, ← Trans.header] at hhead
  have h2 := hlog.trans hhead
  have hdata : ∀ j < T.n, s.writeLog.writeHead.disk (start + j + 1) = T.data (T.block j) := by
    intro j hj
    rw [hhead.disk, applyWrites, applyWrites, Function.update_of_ne (by dsimp only; omega),
      hlog.disk, applyWrites_logWrites hj]
  have h3 : LogState.Wrote s.writeLog.writeHead (T.homeWrites 0 T.n)
      (s.writeLog.writeHead.installTrans false) := by
    rw [LogState.installTrans, h2.lh, hlh, Int.toNat_natCast]
    exact LogState.wrote_installLoop (by omega) h2.start (fun j _ => by rw [h2.lh, hlh]) hdata
      fun b hb => h2.unpinned b (T.atCommit_cache d hb)
  have h4 := h2.trans h3
  obtain ⟨hclear, hclear'⟩ :=
    LogState.writeHead_clearHead (s := s.writeLog.writeHead.installTrans false)
      (by rw [h4.start]; exact h4.unpinned _ (T.atCommit_cache d (inLog_start start)))
  have hd : (s.writeLog.writeHead.installTrans false).disk start = T.header (d start) := by
    rw [h3.disk, applyWrites_homeWrites_log (inLog_start start), hhead.disk, applyWrites,
      applyWrites, Function.update_self]
  rw [h4.start, h4.trace, hstart, htrace, List.nil_append, hd] at hclear
  rw [h4.start, h4.disk, hstart, hdisk] at hclear'
  rw [LogState.commit, hlh, if_pos (Int.natCast_pos.2 hn)]
  refine ⟨hclear, ?_, h4.start.trans hstart⟩
  rw [hclear', Trans.commitWrites, applyWrites_append _ [_], applyWrites, applyWrites]
  rw [h4.disk, hdisk] at hd
  rw [hd]

/-! ## Every cut of `commit` and of recovery -/

/-- The transaction that writes nothing, which a clear header names. -/
def Trans.empty (start : ℕ) : Trans start where
  n := 0
  block _ := 0
  data _ _ := 0
  n_le := Nat.zero_le _
  block_lt i hi := absurd hi (Nat.not_lt_zero i)
  block_inj i hi := absurd hi (Nat.not_lt_zero i)
  outside i hi := absurd hi (Nat.not_lt_zero i)

theorem Settled.recover (h : Settled T d₀ v d) :
    AtEveryCut (Settled T d₀ v) (recoverTrace start d) d ∧
      Settled T d₀ v (LogState.boot start d).recoverFromLog.disk := by
  have hno : ∀ {P : ℕ → Prop}, ∀ j < (Trans.empty start).n, P j :=
    fun j hj => absurd hj (Nat.not_lt_zero j)
  obtain ⟨htr, hdisk⟩ := recoverFromLog_spec (T := Trans.empty start) h.clear hno hno
  have hcut : AtEveryCut (Settled T d₀ v) (recoverTrace start d) d := by
    rw [htr]
    exact .cons h (.nil (h.write (inLog_start start) fun _ => headN_clear _))
  refine ⟨hcut, ?_⟩
  rw [hdisk]
  exact hcut.all

/-- The writes to the home blocks with the clearing of the header after them. -/
theorem Pending.finish {x : Block} (h : Pending T d₀ d) (hx : headN x = 0) :
    AtEveryCut (Recoverable T d₀) (T.homeWrites 0 T.n ++ [(start, x)]) d ∧
      Settled T d₀ T.data (applyWrites (T.homeWrites 0 T.n ++ [(start, x)]) d) := by
  have hpend : AtEveryCut (Pending T d₀) (T.homeWrites 0 T.n) d := by
    refine .of_step h fun w hw d hd => ?_
    obtain ⟨j, hj, rfl⟩ := mem_homeWrites.1 hw
    exact hd.write ⟨j, hj, rfl⟩
  have hend := hpend.all.settle (fun b hb => applyWrites_homeWrites hb) hx
  refine ⟨(hpend.mono fun _ hd => .inr (.inl hd)).append
    (.cons (.inr (.inl hpend.all)) (.nil (.inr (.inr hend)))), ?_⟩
  rw [applyWrites_append]
  exact hend

theorem Pending.recover (h : Pending T d₀ d) :
    AtEveryCut (Recoverable T d₀) (recoverTrace start d) d ∧
      Settled T d₀ T.data (LogState.boot start d).recoverFromLog.disk := by
  obtain ⟨htr, hdisk⟩ := recoverFromLog_spec h.head h.block h.log
  rw [hdisk, htr]
  exact h.finish (headN_clear _)

theorem Recoverable.recover_cut (h : Recoverable T d₀ d) :
    AtEveryCut (Recoverable T d₀) (recoverTrace start d) d := by
  rcases h with h | h | h
  · exact h.recover.1.mono fun _ hd => .inl hd
  · exact h.recover.1
  · exact h.recover.1.mono fun _ hd => .inr (.inr hd)

theorem Recoverable.recover (h : Recoverable T d₀ d) :
    Settled T d₀ d₀ (LogState.boot start d).recoverFromLog.disk ∨
      Settled T d₀ T.data (LogState.boot start d).recoverFromLog.disk := by
  rcases h with h | h | h
  · exact .inl h.recover.2
  · exact .inr h.recover.2
  · exact .inr h.recover.2

/-- Every cut of `commit` can be recovered from, and a `commit` that runs to its end has settled
the transaction. -/
theorem commit_cut (T : Trans start) (h : headN (d start) = 0) :
    AtEveryCut (Recoverable T d) (T.atCommit d).commit.trace d ∧
      Settled T d T.data (T.atCommit d).commit.disk ∧ (T.atCommit d).commit.start = start := by
  have hold : Settled T d d d := ⟨h, fun _ _ => rfl, fun _ _ _ => rfl⟩
  rcases Nat.eq_zero_or_pos T.n with hn | hn
  · have hnot : ¬(T.atCommit d).lh.n > 0 := by
      rw [show (T.atCommit d).lh.n = T.n from rfl, hn]
      decide
    rw [LogState.commit, if_neg hnot]
    refine ⟨.nil (.inl hold), ⟨h, fun b hb => ?_, fun _ _ _ => rfl⟩, rfl⟩
    obtain ⟨j, hj, -⟩ := hb
    omega
  · have hlog : AtEveryCut (Settled T d d) (T.logWrites 0 T.n) d := by
      refine .of_step hold fun w hw d' hd => ?_
      obtain ⟨j, hj, rfl⟩ := mem_logWrites.1 hw
      exact hd.write (T.inLog hj) fun he => absurd he (by dsimp only; omega)
    have hpend : Pending T d
        (applyWrites (T.logWrites 0 T.n ++ [(start, T.header (d start))]) d) := by
      rw [applyWrites_append, applyWrites, applyWrites]
      refine ⟨?_, fun j hj => ?_, fun j hj => ?_, fun b hb hout => ?_⟩
      · rw [Function.update_self, headN_header]
      · rw [Function.update_self, read32_header T _ hj]
      · rw [Function.update_of_ne (by dsimp only; omega), applyWrites_logWrites hj]
      · rw [Function.update_of_ne ((inLog_start start).ne hout), hlog.all.other b hb hout]
    have hcommit : AtEveryCut (Recoverable T d)
        (T.logWrites 0 T.n ++ [(start, T.header (d start))]) d := by
      refine (hlog.mono fun _ hd => .inl hd).append (.cons (.inl hlog.all) (.nil (.inr (.inl ?_))))
      rw [applyWrites_append] at hpend
      exact hpend
    obtain ⟨htrace, hdisk, hstart⟩ := commit_writes T d hn
    obtain ⟨hcut, hend⟩ := hpend.finish (headN_clear (T.header (d start)))
    rw [← applyWrites_append, ← List.append_assoc] at hend
    rw [htrace, hdisk, Trans.commitWrites]
    refine ⟨?_, hend, hstart⟩
    rw [List.append_assoc]
    exact hcommit.append hcut

/-- Crash atomicity. Let the header be clear, let `commit` be cut off after any of its
writes, and let any number of recoveries be cut off likewise. The next recovery that
completes leaves the home blocks all old or all new, every other block outside the log
as it was, and the header clear. -/
theorem commit_crash_atomic (T : Trans start) (d : Disk) (hclear : headN (d start) = 0) (k : ℕ)
    (d' : Disk) (hcrash : CrashRuns (recoverTrace start)
      (applyWrites ((T.atCommit d).commit.trace.take k) d) d') :
    let r := (LogState.boot start d').recoverFromLog.disk
    ((∀ b ∈ T.homes, r b = d b) ∨ ∀ b ∈ T.homes, r b = T.data b) ∧
      (∀ b, b ∉ T.homes → ¬InLog start b → r b = d b) ∧ headN (r start) = 0 := by
  have hrec : Recoverable T d d' :=
    hcrash.invariant (fun _ => Recoverable.recover_cut) ((commit_cut T hclear).1 k)
  rcases hrec.recover with h | h
  · exact ⟨.inl h.home, h.other, h.clear⟩
  · exact ⟨.inr h.home, h.other, h.clear⟩

/-- A transaction on the blocks 46 and 50. -/
def sampleTrans : Trans 2 where
  n := 2
  block i := 46 + 4 * i
  data _ _ := 7
  n_le := by decide
  block_lt := by omega
  block_inj := by omega
  outside i hi h := by
    have hle := h.2
    simp only [logBlocks] at hle
    omega

/-- Its commit cut off after three writes, and a recovery cut off after one. -/
theorem commit_crash_atomic_two : ∃ d d' : Disk, headN (d 2) = 0 ∧
    CrashRuns (recoverTrace 2) (applyWrites ((sampleTrans.atCommit d).commit.trace.take 3) d) d' ∧
    headN ((LogState.boot 2 d').recoverFromLog.disk 2) = 0 := by
  obtain ⟨d, hd⟩ : ∃ d : Disk, headN (d 2) = 0 := ⟨fun _ _ => 0, by decide⟩
  have hrun : CrashRuns (recoverTrace 2)
      (applyWrites ((sampleTrans.atCommit d).commit.trace.take 3) d) _ := .step 1 .refl
  obtain ⟨-, -, hend⟩ := commit_crash_atomic sampleTrans d hd 3 _ hrun
  exact ⟨d, _, hd, hrun, hend⟩

end Xv6Plus
