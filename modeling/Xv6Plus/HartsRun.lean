import Xv6Plus.Harts

/-!
# Interrupts in every schedule

The invariant says of every hart that `noff` is the number of unmatched `push_off`s of what runs
on it, and that what runs has safe code; what does not run waits in `swtch` with one unmatched
`push_off`. A step either changes one hart and what runs on it (`HartMove.put`), or it is one of
the two switches between a thread and the scheduler of its hart. What the first kind does to the
counters and to interrupts is said once, by `LocalEffect`.
-/

namespace Xv6Plus

section Cur

variable {st : HartsState} {k k' t : ℕ} {hart : Hart} {c : Ctx} {cs : CtxState}

theorem HartsState.cur_of_none (h : (st.hart k).proc = none) : st.cur k = .sched k := by
  simp [HartsState.cur, h]

theorem HartsState.cur_of_some (h : (st.hart k).proc = some t) : st.cur k = .thread t := by
  simp [HartsState.cur, h]

theorem HartsState.cur_eq_thread : st.cur k = .thread t ↔ (st.hart k).proc = some t := by
  unfold HartsState.cur
  cases (st.hart k).proc <;> simp

theorem HartsState.cur_eq_sched : st.cur k = .sched k' ↔ (st.hart k).proc = none ∧ k = k' := by
  unfold HartsState.cur
  cases (st.hart k).proc <;> simp

/-- The thread has changed its state from `RUNNING`. -/
def HartsState.away (st : HartsState) : Ctx → Bool
  | .sched _ => false
  | .thread t => decide (st.state t ≠ .running)

end Cur

/-! ## The invariant -/

structure HartsInv (st : HartsState) : Prop where
  panic : st.panic = none
  one : ∀ k k' t, (st.hart k).proc = some t → (st.hart k').proc = some t → k = k'
  noff : ∀ k, (st.hart k).noff = (st.ctx (st.cur k)).depth
  sie : ∀ k, 0 < (st.ctx (st.cur k)).depth → (st.hart k).sie = false
  safe : ∀ k, Safe (st.cur k) (st.ctx (st.cur k)).code (st.ctx (st.cur k)).depth
    (st.ctx (st.cur k)).held (st.away (st.cur k))
  card : ∀ k, (st.ctx (st.cur k)).held.card ≤ (st.ctx (st.cur k)).depth
  /-- A thread that does not run will resume with its lock. -/
  offThread : ∀ t, (∀ k, (st.hart k).proc ≠ some t) → (st.ctx (.thread t)).depth = 1 ∧
    (st.ctx (.thread t)).held = ∅ ∧
    Safe (.thread t) (st.ctx (.thread t)).code 1 {.proc t} false
  offSched : ∀ k t, (st.hart k).proc = some t →
    st.ctx (.sched k) = ⟨release (.proc t) ++ [.scan (t + 1)], 1, ∅⟩
  /-- A thread that is about to switch has its lock. -/
  away : ∀ k t, (st.hart k).proc = some t → st.state t ≠ .running →
    .proc t ∈ (st.ctx (.thread t)).held
  lock : ∀ lk k, st.lock lk = some k ↔ lk ∈ (st.ctx (st.cur k)).held

section Invariant

variable {n : ℕ} {st st' : HartsState} {e : HartEvent} {k k' t : ℕ} {hart : Hart}
  {cs : CtxState} {rest : List Instr}

theorem HartsInv.cur_inj (hinv : HartsInv st) (h : st.cur k = st.cur k') : k = k' := by
  cases hp : (st.hart k).proc with
  | none =>
    rw [HartsState.cur_of_none hp] at h
    exact ((HartsState.cur_eq_sched.1 h.symm).2).symm
  | some t =>
    rw [HartsState.cur_of_some hp] at h
    exact hinv.one k k' t hp (HartsState.cur_eq_thread.1 h.symm)

theorem HartsState.Init.inv (hi : st.Init) : HartsInv st := by
  have hcur : ∀ k, st.cur k = .sched k := fun k => HartsState.cur_of_none (hi.hart k).2
  have hproc : ∀ k t, (st.hart k).proc ≠ some t := fun k t h => by
    rw [(hi.hart k).2] at h
    cases h
  refine ⟨hi.panic, fun k _ t hk => absurd hk (hproc k t), fun k => ?_, fun k hd => ?_,
    fun k => ?_, fun k => ?_, fun t _ => ?_, fun k t hk => absurd hk (hproc k t),
    fun k t hk => absurd hk (hproc k t), fun lk k => ?_⟩
  · rw [hcur, hi.sched, (hi.hart k).1]
  · rw [hcur, hi.sched] at hd
    exact absurd hd (lt_irrefl 0)
  · rw [hcur, hi.sched]
    exact .schedulerPass
  · rw [hcur, hi.sched]
    exact le_refl _
  · rw [hi.thread]
    exact ⟨rfl, rfl, .kthreadEntry⟩
  · rw [hcur, hi.sched, hi.lock]
    simp

/-- Only the hart `k` changes : it runs `c`, in the state `cs`. What the other harts run is as it
was, and the invariant is to be shown for this hart and for the threads that do not run. -/
theorem HartsInv.frame {c : Ctx} (hinv : HartsInv st) (hpanic : st'.panic = st.panic)
    (hhart : ∀ k', k' ≠ k → st'.hart k' = st.hart k')
    (hctx : ∀ k', k' ≠ k → st'.ctx (st.cur k') = st.ctx (st.cur k'))
    (hsched : ∀ k', k' ≠ k → st'.ctx (.sched k') = st.ctx (.sched k'))
    (hthread : ∀ k' t, k' ≠ k → (st.hart k').proc = some t →
      st'.state t = st.state t ∧ (st'.hart k).proc ≠ some t)
    (hc : st'.cur k = c) (hcs : st'.ctx c = cs) (hnoff : (st'.hart k).noff = cs.depth)
    (hsie : 0 < cs.depth → (st'.hart k).sie = false) (hcard : cs.held.card ≤ cs.depth)
    (hsafe : Safe c cs.code cs.depth cs.held (st'.away c))
    (hoff : ∀ t, (∀ k', (st'.hart k').proc ≠ some t) → (st'.ctx (.thread t)).depth = 1 ∧
      (st'.ctx (.thread t)).held = ∅ ∧
      Safe (.thread t) (st'.ctx (.thread t)).code 1 {.proc t} false)
    (hon : ∀ t, (st'.hart k).proc = some t →
      st'.ctx (.sched k) = ⟨release (.proc t) ++ [.scan (t + 1)], 1, ∅⟩ ∧
        (st'.state t ≠ .running → .proc t ∈ cs.held))
    (hlock : ∀ lk k', st'.lock lk = some k' ↔ if k' = k then lk ∈ cs.held else
      st.lock lk = some k') : HartsInv st' := by
  have hcur : ∀ k', k' ≠ k → st'.cur k' = st.cur k' := fun k' hk => by
    unfold HartsState.cur
    rw [hhart k' hk]
  have hsame : ∀ k', k' ≠ k → st'.ctx (st'.cur k') = st.ctx (st.cur k') := fun k' hk => by
    rw [hcur k' hk, hctx k' hk]
  have hself : st'.ctx (st'.cur k) = cs := by rw [hc, hcs]
  have haway : ∀ k', k' ≠ k → st'.away (st'.cur k') = st.away (st.cur k') := by
    intro k' hk
    rw [hcur k' hk]
    cases hck : st.cur k' with
    | sched j => rfl
    | thread t =>
      simp only [HartsState.away, (hthread k' t hk (HartsState.cur_eq_thread.1 hck)).1]
  -- a clause about every hart : the hart `k`, and the others by the old invariant
  refine ⟨hpanic.trans hinv.panic, fun k₁ k₂ t h₁ h₂ => ?_, fun k' => ?_, fun k' => ?_,
    fun k' => ?_, fun k' => ?_, hoff, fun k' t hk' => ?_, fun k' t hk' hs => ?_, fun lk k' => ?_⟩
  · by_cases hk₁ : k₁ = k <;> by_cases hk₂ : k₂ = k
    · rw [hk₁, hk₂]
    · exact absurd (hk₁ ▸ h₁) (hthread k₂ t hk₂ (hhart k₂ hk₂ ▸ h₂)).2
    · exact absurd (hk₂ ▸ h₂) (hthread k₁ t hk₁ (hhart k₁ hk₁ ▸ h₁)).2
    · exact hinv.one k₁ k₂ t (hhart k₁ hk₁ ▸ h₁) (hhart k₂ hk₂ ▸ h₂)
  · by_cases hk : k' = k
    · rw [hk, hself, hnoff]
    · rw [hsame k' hk, hhart k' hk]
      exact hinv.noff k'
  · by_cases hk : k' = k
    · rw [hk, hself]
      exact hsie
    · rw [hsame k' hk, hhart k' hk]
      exact hinv.sie k'
  · by_cases hk : k' = k
    · rw [hk, hself, hc]
      exact hsafe
    · rw [hsame k' hk, haway k' hk, hcur k' hk]
      exact hinv.safe k'
  · by_cases hk : k' = k
    · rw [hk, hself]
      exact hcard
    · rw [hsame k' hk]
      exact hinv.card k'
  · by_cases hk : k' = k
    · rw [hk] at hk' ⊢
      exact (hon t hk').1
    · rw [hsched k' hk]
      exact hinv.offSched k' t (hhart k' hk ▸ hk')
  · by_cases hk : k' = k
    · rw [hk] at hk'
      rw [← HartsState.cur_of_some hk', hself]
      exact (hon t hk').2 hs
    · have hold : (st.hart k').proc = some t := hhart k' hk ▸ hk'
      rw [← HartsState.cur_of_some hk', hsame k' hk, HartsState.cur_of_some hold]
      exact hinv.away k' t hold ((hthread k' t hk hold).1 ▸ hs)
  · rw [hlock]
    by_cases hk : k' = k
    · rw [if_pos hk, hk, hself]
    · rw [if_neg hk, hsame k' hk]
      exact hinv.lock lk k'

/-- The hart `k` and what runs on it change. -/
theorem HartsInv.put (hinv : HartsInv st) (state : ℕ → RunState) (lock : LockId → Option ℕ)
    (hproc : hart.proc = (st.hart k).proc) (hnoff : hart.noff = cs.depth)
    (hsie : 0 < cs.depth → hart.sie = false)
    (hcard : cs.held.card ≤ cs.depth)
    (hother : ∀ k' t, k' ≠ k → (st.hart k').proc = some t → state t = st.state t)
    (haway : ∀ t, (st.hart k).proc = some t → state t ≠ .running → .proc t ∈ cs.held)
    (hsafe : Safe (st.cur k) cs.code cs.depth cs.held
      (HartsState.away { st with state := state } (st.cur k)))
    (hlock : ∀ lk k', lock lk = some k' ↔ if k' = k then lk ∈ cs.held else st.lock lk = some k') :
    HartsInv { st.put k hart (st.cur k) cs with state := state, lock := lock } := by
  set st' := { st.put k hart (st.cur k) cs with state := state, lock := lock } with hst'
  have hhartk : st'.hart k = hart := by simp [hst', HartsState.put]
  have hhart : ∀ k', k' ≠ k → st'.hart k' = st.hart k' := fun k' hk => by
    simp [hst', HartsState.put, hk]
  have hprock : (st'.hart k).proc = (st.hart k).proc := by rw [hhartk, hproc]
  have hsame : ∀ c, c ≠ st.cur k → st'.ctx c = st.ctx c := fun c hne => by
    simp [hst', HartsState.put, hne]
  have hcur : st'.cur k = st.cur k := by
    unfold HartsState.cur
    rw [hprock]
  have hne : ∀ t, (st.hart k).proc = some t → .sched k ≠ st.cur k := fun t ht => by
    rw [HartsState.cur_of_some ht]
    exact Ctx.noConfusion
  refine hinv.frame rfl hhart (fun k' hk => ?_) (fun k' hk => ?_) (fun k' t hk ht => ?_) hcur
    (by simp [hst', HartsState.put]) (hhartk ▸ hnoff) (hhartk ▸ hsie) hcard hsafe
    (fun t ht => ?_) (fun t ht => ?_) hlock
  · exact hsame _ fun h => hk (hinv.cur_inj h)
  · exact hsame _ fun h => hk (HartsState.cur_eq_sched.1 h.symm).2.symm
  · refine ⟨hother k' t hk ht, ?_⟩
    rw [hprock]
    exact fun h => hk (hinv.one k' k t ht h)
  · have hoff : ∀ k', (st.hart k').proc ≠ some t := fun k' => by
      by_cases hk : k' = k
      · rw [hk, ← hprock]
        exact ht k
      · rw [← hhart k' hk]
        exact ht k'
    rw [hsame _ fun h => hoff k (HartsState.cur_eq_thread.1 h.symm)]
    exact hinv.offThread t hoff
  · rw [hprock] at ht
    rw [hsame _ (hne t ht)]
    exact ⟨hinv.offSched k t ht, haway t ht⟩

/-- Locks and states stay as they are. -/
theorem HartsInv.put_same (hinv : HartsInv st) (hproc : hart.proc = (st.hart k).proc)
    (hnoff : hart.noff = cs.depth) (hsie : 0 < cs.depth → hart.sie = false)
    (hcard : cs.held.card ≤ cs.depth) (hheld : cs.held = (st.ctx (st.cur k)).held)
    (hsafe : Safe (st.cur k) cs.code cs.depth cs.held (st.away (st.cur k))) :
    HartsInv (st.put k hart (st.cur k) cs) := by
  refine hinv.put st.state st.lock hproc hnoff hsie hcard
    (fun _ _ _ _ => rfl) (fun t ht hs => ?_) hsafe fun lk k' => ?_
  · rw [hheld, HartsState.cur_of_some ht]
    exact hinv.away k t ht hs
  · by_cases hk : k' = k
    · rw [if_pos hk, hk, hheld]
      exact hinv.lock lk k
    · rw [if_neg hk]

/-- A thread switches to the scheduler of its hart. -/
theorem HartsInv.swtchOut (hinv : HartsInv st) (hk : (st.hart k).proc = some t)
    (hdepth : (st.ctx (.thread t)).depth = 1) (hheld : (st.ctx (.thread t)).held = {.proc t})
    (hsafe : Safe (.thread t) rest 1 {.proc t} false) (b : Bool) :
    HartsInv { st with
      hart := Function.update st.hart k { st.hart k with proc := none }
      ctx := Function.update
        (Function.update st.ctx (.thread t)
          { st.ctx (.thread t) with code := .setIntena b :: rest, held := ∅ })
        (.sched k) { st.ctx (.sched k) with held := {.proc t} } } := by
  set st' : HartsState := { st with
      hart := Function.update st.hart k { st.hart k with proc := none }
      ctx := Function.update
        (Function.update st.ctx (.thread t)
          { st.ctx (.thread t) with code := .setIntena b :: rest, held := ∅ })
        (.sched k) { st.ctx (.sched k) with held := {.proc t} } } with hst'
  have hcurk : st.cur k = .thread t := HartsState.cur_of_some hk
  have hhart : ∀ k', k' ≠ k → st'.hart k' = st.hart k' := fun k' hk' => by simp [hst', hk']
  have hhartk : st'.hart k = { st.hart k with proc := none } := by simp [hst']
  have hself : st'.ctx (.sched k) = ⟨release (.proc t) ++ [.scan (t + 1)], 1, {.proc t}⟩ := by
    simp [hst', hinv.offSched k t hk]
  have hsame : ∀ c, c ≠ .sched k → c ≠ .thread t → st'.ctx c = st.ctx c := fun c h₁ h₂ => by
    simp [hst', h₁, h₂]
  have hnoff : (st.hart k).noff = 1 := by rw [hinv.noff, hcurk, hdepth]
  refine hinv.frame rfl hhart (fun k' hk' => ?_) (fun k' hk' => ?_) (fun k' t' hk' ht' => ?_)
    (HartsState.cur_of_none (by rw [hhartk])) hself (by rw [hhartk]; exact hnoff) (fun _ => ?_)
    (Finset.card_singleton _).le .scanned (fun t' ht' => ?_) (fun t' ht' => ?_) fun lk k' => ?_
  · refine hsame _ (fun h => hk' (HartsState.cur_eq_sched.1 h).2) fun h => hk' ?_
    exact hinv.one k' k t (HartsState.cur_eq_thread.1 h) hk
  · exact hsame _ (by simp [hk']) Ctx.noConfusion
  · rw [hhartk]
    exact ⟨rfl, nofun⟩
  · rw [hhartk]
    exact hinv.sie k (by rw [hcurk, hdepth]; exact Nat.one_pos)
  · by_cases htt : t' = t
    · subst htt
      simpa [hst', hdepth] using ⟨rfl, hsafe⟩
    · rw [hsame (.thread t') Ctx.noConfusion (by simp [htt])]
      refine hinv.offThread t' fun k' hk' => ?_
      by_cases hkk : k' = k
      · rw [hkk, hk] at hk'
        exact htt (Option.some.inj hk').symm
      · exact ht' k' ((hhart k' hkk).symm ▸ hk')
  · rw [hhartk] at ht'
    cases ht'
  · rw [show st'.lock lk = st.lock lk from rfl]
    by_cases hk' : k' = k
    · rw [if_pos hk', hk', hinv.lock, hcurk, hheld]
    · rw [if_neg hk']

/-- A thread that is runnable does not run anywhere, seen from who has its lock. -/
theorem HartsInv.not_running (hinv : HartsInv st) (hk : st.cur k ≠ .thread t)
    (hlock : .proc t ∈ (st.ctx (st.cur k)).held) (hs : st.state t ≠ .running) (k' : ℕ) :
    (st.hart k').proc ≠ some t := by
  intro hk'
  have h₁ := hinv.away k' t hk' hs
  rw [← HartsState.cur_of_some hk', ← hinv.lock] at h₁
  have h₂ := (hinv.lock (.proc t) k).2 hlock
  obtain rfl := Option.some.inj (h₁.symm.trans h₂)
  exact hk (HartsState.cur_of_some hk')

/-- The scheduler of a hart switches to a thread. -/
theorem HartsInv.swtchIn (hinv : HartsInv st) (hk : (st.hart k).proc = none)
    (hdepth : (st.ctx (.sched k)).depth = 1) (hheld : (st.ctx (.sched k)).held = {.proc t})
    (hs : st.state t = .runnable) :
    HartsInv { st with
      hart := Function.update st.hart k { st.hart k with proc := some t }
      ctx := Function.update (Function.update st.ctx (.sched k)
          { st.ctx (.sched k) with code := release (.proc t) ++ [.scan (t + 1)], held := ∅ })
        (.thread t) { st.ctx (.thread t) with held := {.proc t} }
      state := Function.update st.state t .running } := by
  set st' : HartsState := { st with
      hart := Function.update st.hart k { st.hart k with proc := some t }
      ctx := Function.update (Function.update st.ctx (.sched k)
          { st.ctx (.sched k) with code := release (.proc t) ++ [.scan (t + 1)], held := ∅ })
        (.thread t) { st.ctx (.thread t) with held := {.proc t} }
      state := Function.update st.state t .running } with hst'
  have hcurk : st.cur k = .sched k := HartsState.cur_of_none hk
  have hoff : ∀ k', (st.hart k').proc ≠ some t := hinv.not_running (by rw [hcurk]; exact
    Ctx.noConfusion) (by rw [hcurk, hheld]; exact Finset.mem_singleton_self _) (by rw [hs]; exact
    RunState.noConfusion)
  obtain ⟨hdt, -, hsafe⟩ := hinv.offThread t hoff
  have hhart : ∀ k', k' ≠ k → st'.hart k' = st.hart k' := fun k' hk' => by simp [hst', hk']
  have hhartk : st'.hart k = { st.hart k with proc := some t } := by simp [hst']
  have hself : st'.ctx (.thread t) = { st.ctx (.thread t) with held := {.proc t} } := by
    simp [hst']
  have hsame : ∀ c, c ≠ .sched k → c ≠ .thread t → st'.ctx c = st.ctx c := fun c h₁ h₂ => by
    simp [hst', h₁, h₂]
  have hstatet : st'.state t = .running := by simp [hst']
  have hnoff : (st.hart k).noff = 1 := by rw [hinv.noff, hcurk, hdepth]
  have hon : ∀ {t'}, (st'.hart k).proc = some t' → t' = t := fun h => by
    rw [hhartk] at h
    exact (Option.some.inj h).symm
  refine hinv.frame rfl hhart (fun k' hk' => ?_) (fun k' hk' => ?_) (fun k' t' hk' ht' => ?_)
    (HartsState.cur_of_some (by rw [hhartk])) hself (by rw [hhartk]; exact hnoff.trans hdt.symm)
    (fun _ => ?_) ?_ ?_ (fun t' ht' => ?_) (fun t' ht' => ?_) fun lk k' => ?_
  · exact hsame _ (fun h => hk' (HartsState.cur_eq_sched.1 h).2)
      fun h => hoff k' (HartsState.cur_eq_thread.1 h)
  · exact hsame _ (by simp [hk']) Ctx.noConfusion
  · have htt : t' ≠ t := fun h => hoff k' (h ▸ ht')
    exact ⟨Function.update_of_ne htt _ _, fun h => htt (hon h)⟩
  · rw [hhartk]
    exact hinv.sie k (by rw [hcurk, hdepth]; exact Nat.one_pos)
  · dsimp only
    rw [hdt, Finset.card_singleton]
  · dsimp only [HartsState.away]
    rw [hdt, hstatet]
    exact hsafe
  · have htt : t' ≠ t := fun h => ht' k (by rw [hhartk, h])
    rw [hsame (.thread t') Ctx.noConfusion (by simp [htt])]
    refine hinv.offThread t' fun k' hk' => ?_
    by_cases hkk : k' = k
    · rw [hkk, hk] at hk'
      cases hk'
    · exact ht' k' ((hhart k' hkk).symm ▸ hk')
  · obtain rfl := hon ht'
    exact ⟨by simp [hst', hdepth], fun h => absurd hstatet h⟩
  · rw [show st'.lock lk = st.lock lk from rfl]
    by_cases hk' : k' = k
    · rw [if_pos hk', hk', hinv.lock, hcurk, hheld]
    · rw [if_neg hk']

end Invariant

/-! ## What a step can do -/

/-- Instructions that leave the counters and interrupts alone. -/
def Instr.Plain : Instr → Prop
  | .take _ | .free _ | .setState _ | .wake _ => True
  | _ => False

/-- What a step of `c` does to its hart and to itself, as long as it stays on it. -/
inductive LocalEffect (c : Ctx) (hart : Hart) (cs : CtxState) :
    HartEvent → Hart → CtxState → Prop
  | read {r : List Instr} : cs.code = .pushOff :: r →
      LocalEffect c hart cs .other hart { cs with code := .pushOff1 hart.sie :: r }
  | push {old : Bool} {r : List Instr} : cs.code = .pushOff1 old :: r →
      LocalEffect c hart cs (.push c hart.sie)
        { hart with
          sie := false
          intena := if cs.depth = 0 then old else hart.intena
          noff := cs.depth + 1 } { cs with code := r, depth := cs.depth + 1 }
  | pop {r : List Instr} : cs.code = .popOff :: r → 0 < cs.depth →
      LocalEffect c hart cs (.pop c (decide (cs.depth - 1 = 0) && hart.intena))
        { hart with noff := hart.noff - 1, sie := decide (cs.depth - 1 = 0) && hart.intena }
        { cs with code := r, depth := cs.depth - 1 }
  | plain {i : Instr} {r : List Instr} {held : Finset LockId} : cs.code = i :: r → i.Plain →
      LocalEffect c hart cs .other hart ⟨r, cs.depth, held⟩
  | setIntena {b : Bool} {r : List Instr} : cs.code = .setIntena b :: r → 0 < cs.depth →
      LocalEffect c hart cs .other { hart with intena := b } { cs with code := r }
  | trap : hart.sie = true → cs.depth = 0 → (∀ b r, cs.code ≠ .setIntena b :: r) →
      LocalEffect c hart cs .other { hart with sie := false } { cs with code := .sret :: cs.code }
  | sret {r : List Instr} : cs.code = .sret :: r → cs.depth = 0 →
      LocalEffect c hart cs .other { hart with sie := true } { cs with code := r }
  | call {op : HartCall} : cs.Calling → op.Allowed c cs →
      LocalEffect c hart cs .other hart { cs with code := op.code c ++ cs.code }
  | intrOn {r : List Instr} : cs.code = .intrOn :: r → cs.depth = 0 →
      LocalEffect c hart cs (.intrOn c) { hart with sie := true } { cs with code := r }
  | intrOff {r : List Instr} : cs.code = .intrOff :: r → cs.depth = 0 →
      LocalEffect c hart cs (.intrOff c) { hart with sie := false } { cs with code := r }
  /-- The scheduler goes on with its loop. -/
  | scan {k : ℕ} {code : List Instr} : c = .sched k →
      LocalEffect c hart cs .other hart { cs with code := code }

/-- A step changes one hart and what runs on it, or it switches. -/
inductive HartMove (st : HartsState) : HartEvent → HartsState → Prop
  | put {e : HartEvent} {hart : Hart} {cs : CtxState} (state : ℕ → RunState)
      (lock : LockId → Option ℕ) (k : ℕ) : hart.proc = (st.hart k).proc →
      LocalEffect (st.cur k) (st.hart k) (st.ctx (st.cur k)) e hart cs →
      HartMove st e { st.put k hart (st.cur k) cs with state := state, lock := lock }
  | swtchOut {rest : List Instr} (k t : ℕ) : (st.hart k).proc = some t →
      (st.ctx (.thread t)).code = .swtch :: rest → (st.ctx (.thread t)).depth = 1 →
      HartMove st .other { st with
        hart := Function.update st.hart k { st.hart k with proc := none }
        ctx := Function.update
          (Function.update st.ctx (.thread t)
            { st.ctx (.thread t) with code := .setIntena (st.hart k).intena :: rest, held := ∅ })
          (.sched k) { st.ctx (.sched k) with held := {.proc t} } }
  | swtchIn (k t : ℕ) : (∀ k', (st.hart k').proc ≠ some t) → (st.hart k).proc = none →
      (st.ctx (.thread t)).depth = 1 →
      HartMove st .other { st with
        hart := Function.update st.hart k { st.hart k with proc := some t }
        ctx := Function.update (Function.update st.ctx (.sched k)
            { st.ctx (.sched k) with code := release (.proc t) ++ [.scan (t + 1)], held := ∅ })
          (.thread t) { st.ctx (.thread t) with held := {.proc t} }
        state := Function.update st.state t .running }

section Move

variable {n : ℕ} {st st' : HartsState} {e : HartEvent} {k t : ℕ} {hart : Hart}
  {cs : CtxState} {rest : List Instr} {lk : LockId}

/-- A step that leaves locks and states alone. -/
theorem HartsInv.move_same (hinv : HartsInv st) (hproc : hart.proc = (st.hart k).proc)
    (hnoff : hart.noff = cs.depth) (hsie : 0 < cs.depth → hart.sie = false)
    (hcard : cs.held.card ≤ cs.depth) (hheld : cs.held = (st.ctx (st.cur k)).held)
    (hsafe : Safe (st.cur k) cs.code cs.depth cs.held (st.away (st.cur k)))
    (heff : LocalEffect (st.cur k) (st.hart k) (st.ctx (st.cur k)) e hart cs) :
    HartsInv (st.put k hart (st.cur k) cs) ∧ HartMove st e (st.put k hart (st.cur k) cs) :=
  ⟨hinv.put_same hproc hnoff hsie hcard hheld hsafe,
    .put st.state st.lock k hproc heff⟩

theorem HartsInv.popOff (hinv : HartsInv st)
    (hcode : (st.ctx (st.cur k)).code = .popOff :: rest) :
    let r := st.popOff k (st.cur k) { st.ctx (st.cur k) with code := rest }
    HartsInv r.2 ∧ HartMove st r.1 r.2 := by
  intro r
  have hsafe := hinv.safe k
  rw [hcode] at hsafe
  obtain ⟨hlt, hsafe⟩ := hsafe
  have hpos : 0 < (st.ctx (st.cur k)).depth := Nat.lt_of_le_of_lt (Nat.zero_le _) hlt
  have hoff : (st.hart k).sie = false := hinv.sie k hpos
  have hr : r = (.pop (st.cur k)
      (decide ((st.ctx (st.cur k)).depth - 1 = 0) && (st.hart k).intena),
      st.put k { st.hart k with
        noff := (st.hart k).noff - 1
        sie := decide ((st.ctx (st.cur k)).depth - 1 = 0) && (st.hart k).intena } (st.cur k)
        { st.ctx (st.cur k) with code := rest, depth := (st.ctx (st.cur k)).depth - 1 }) := by
    have hnoff := hinv.noff k
    simp only [r, HartsState.popOff, hoff, hnoff]
    rw [if_neg (by simp), if_neg (by omega)]
  rw [hr]
  refine hinv.move_same rfl ?_ (fun hd => ?_) ?_ rfl hsafe (.pop hcode hpos)
  · rw [hinv.noff]
  · have hne : ¬(st.ctx (st.cur k)).depth - 1 = 0 := Nat.pos_iff_ne_zero.1 hd
    simp [hne]
  · exact Nat.le_sub_one_of_lt hlt

theorem HartsInv.take (hinv : HartsInv st) (hcode : (st.ctx (st.cur k)).code = .take lk :: rest)
    (hfree : st.lock lk = none) :
    let st' := (st.put k (st.hart k) (st.cur k)
      ⟨rest, (st.ctx (st.cur k)).depth, insert lk (st.ctx (st.cur k)).held⟩).setLock lk (some k)
    HartsInv st' ∧ HartMove st .other st' := by
  have hsafe := hinv.safe k
  rw [hcode] at hsafe
  obtain ⟨hlt, hnot, hsafe⟩ := hsafe
  refine ⟨hinv.put st.state (Function.update st.lock lk (some k)) rfl (hinv.noff k) (hinv.sie k) ?_
    (fun _ _ _ _ => rfl) (fun t ht hs => ?_) hsafe fun lk' k' => ?_,
    .put st.state (Function.update st.lock lk (some k)) k rfl (.plain hcode trivial)⟩
  · rw [Finset.card_insert_of_notMem hnot]
    exact hlt
  · have hmem := hinv.away k t ht hs
    rw [← HartsState.cur_of_some ht] at hmem
    exact Finset.mem_insert_of_mem hmem
  · have hheld := hinv.lock lk' k
    by_cases hlk : lk' = lk
    · subst hlk
      rw [Function.update_self]
      by_cases hk : k' = k
      · simp [hk]
      · simp [hk, hfree, Ne.symm hk]
    · rw [Function.update_of_ne hlk]
      by_cases hk : k' = k
      · simp [hk, hheld, hlk]
      · simp [hk]

theorem HartsInv.free (hinv : HartsInv st) (hcode : (st.ctx (st.cur k)).code = .free lk :: rest) :
    st.lock lk = some k ∧
    let st' := (st.put k (st.hart k) (st.cur k)
      ⟨rest, (st.ctx (st.cur k)).depth, (st.ctx (st.cur k)).held.erase lk⟩).setLock lk none
    HartsInv st' ∧ HartMove st .other st' := by
  have hsafe := hinv.safe k
  rw [hcode] at hsafe
  obtain ⟨hmem, haway, hsafe⟩ := hsafe
  have hlock : st.lock lk = some k := (hinv.lock lk k).2 hmem
  refine ⟨hlock, hinv.put st.state (Function.update st.lock lk none) rfl (hinv.noff k)
    (hinv.sie k) ?_ (fun _ _ _ _ => rfl) (fun t ht hs => ?_) hsafe fun lk' k' => ?_,
    .put st.state (Function.update st.lock lk none) k rfl (.plain hcode trivial)⟩
  · exact Nat.le_trans (Finset.card_le_card (Finset.erase_subset _ _)) (hinv.card k)
  · have hcur := HartsState.cur_of_some ht
    have hmem' := hinv.away k t ht hs
    rw [← hcur] at hmem'
    have hne : lk ≠ .proc t := haway (by rw [hcur]; simpa [HartsState.away] using hs) t hcur
    exact Finset.mem_erase.2 ⟨Ne.symm hne, hmem'⟩
  · have hheld := hinv.lock lk' k
    by_cases hlk : lk' = lk
    · subst hlk
      rw [Function.update_self]
      by_cases hk : k' = k
      · simp [hk]
      · simp [hk, hlock, Ne.symm hk]
    · rw [Function.update_of_ne hlk]
      by_cases hk : k' = k
      · simp [hk, hheld, hlk]
      · simp [hk]

theorem HartsInv.setState {s : RunState} {i : Instr} (hinv : HartsInv st)
    (hcode : (st.ctx (st.cur k)).code = i :: rest) (hi : i.Plain)
    (hmem : .proc t ∈ (st.ctx (st.cur k)).held)
    (hsafe : Safe (st.cur k) rest (st.ctx (st.cur k)).depth (st.ctx (st.cur k)).held
      (HartsState.away { st with state := Function.update st.state t s } (st.cur k))) :
    let st' := (st.put k (st.hart k) (st.cur k)
      { st.ctx (st.cur k) with code := rest }).setState t s
    (∀ k', k' ≠ k → (st.hart k').proc ≠ some t) →
    HartsInv st' ∧ HartMove st .other st' := by
  intro st' hnot
  refine ⟨hinv.put (Function.update st.state t s) st.lock rfl (hinv.noff k) (hinv.sie k)
    (hinv.card k) (fun k' t' hk ht' => ?_) (fun t' ht' hs => ?_) hsafe fun lk k' => ?_,
    .put (Function.update st.state t s) st.lock k rfl (.plain hcode hi)⟩
  · refine Function.update_of_ne ?_ _ _
    rintro rfl
    exact hnot k' hk ht'
  · by_cases htt : t' = t
    · rw [htt]
      exact hmem
    · rw [Function.update_of_ne htt] at hs
      have := hinv.away k t' ht' hs
      rwa [← HartsState.cur_of_some ht'] at this
  · by_cases hk : k' = k
    · rw [if_pos hk, hk]
      exact hinv.lock lk k
    · rw [if_neg hk]

theorem HartsInv.swtch (hinv : HartsInv st) (hk : (st.hart k).proc = some t)
    (hcode : (st.ctx (.thread t)).code = .swtch :: rest) :
    HartsInv (st.swtch k t rest) ∧ HartMove st .other (st.swtch k t rest) := by
  have hcur := HartsState.cur_of_some hk
  have hsafe := hinv.safe k
  rw [hcur, hcode] at hsafe
  obtain ⟨hd, haway, t', heq, hheld, hsafe⟩ := hsafe
  obtain rfl := Ctx.thread.inj heq
  have hnoff : (st.hart k).noff = 1 := by rw [hinv.noff, hcur, hd]
  have hlock : st.lock (.proc t) = some k := by
    rw [hinv.lock, hcur, hheld]
    exact Finset.mem_singleton_self _
  have hstate : st.state t ≠ .running := by simpa [HartsState.away] using haway
  have hoff : (st.hart k).sie = false := hinv.sie k (by rw [hcur, hd]; exact Nat.one_pos)
  have hst : st.swtch k t rest = { st with
      hart := Function.update st.hart k { st.hart k with proc := none }
      ctx := Function.update
        (Function.update st.ctx (.thread t)
          { st.ctx (.thread t) with code := .setIntena (st.hart k).intena :: rest, held := ∅ })
        (.sched k) { st.ctx (.sched k) with held := {.proc t} } } := by
    unfold HartsState.swtch
    rw [if_neg (not_not.2 hlock), if_neg (not_not.2 hnoff), if_neg hstate, if_neg (by simp [hoff])]
  rw [hst]
  exact ⟨hinv.swtchOut hk hd hheld hsafe _, .swtchOut k t hk hcode hd⟩

theorem HartsInv.dispatch (hinv : HartsInv st) {i : ℕ}
    (hcode : (st.ctx (st.cur k)).code = .dispatch i :: rest) :
    HartsInv (st.dispatch k i) ∧ HartMove st .other (st.dispatch k i) := by
  have hsafe := hinv.safe k
  rw [hcode] at hsafe
  obtain ⟨⟨j, hj⟩, hd, hheld, -⟩ := hsafe
  obtain ⟨hnone, rfl⟩ := HartsState.cur_eq_sched.1 hj
  have hcur := HartsState.cur_of_none hnone
  rw [hcur] at hd hheld
  unfold HartsState.dispatch
  by_cases hs : st.state i = .runnable
  · rw [if_pos hs]
    have hoff := hinv.not_running (k := k) (t := i) (by rw [hcur]; exact Ctx.noConfusion)
      (by rw [hcur, hheld]; exact Finset.mem_singleton_self _) (by rw [hs]; exact
        RunState.noConfusion)
    exact ⟨hinv.swtchIn hnone hd hheld hs, .swtchIn k i hoff hnone (hinv.offThread i hoff).1⟩
  · rw [if_neg hs, ← hcur]
    refine hinv.move_same rfl (hinv.noff k) (hinv.sie k) (hinv.card k) rfl ?_ (.scan hcur)
    rw [hcur]
    dsimp only
    rw [hd, hheld]
    exact .scanned

theorem HartsInv.exec (hinv : HartsInv st) (hx : st.exec n k = some (e, st')) :
    HartsInv st' ∧ HartMove st e st' := by
  have hsafe := hinv.safe k
  unfold HartsState.exec at hx
  dsimp only at hx
  cases hcode : (st.ctx (st.cur k)).code with
  | nil =>
    rw [hcode] at hx
    cases hx
  | cons i rest =>
    rw [hcode] at hx hsafe
    cases i with
    | pushOff =>
      obtain ⟨rfl, rfl⟩ := Prod.mk.inj (Option.some.inj hx)
      exact hinv.move_same rfl (hinv.noff k) (hinv.sie k) (hinv.card k) rfl hsafe (.read hcode)
    | pushOff1 old =>
      obtain ⟨rfl, rfl⟩ := Prod.mk.inj (Option.some.inj hx)
      rw [hinv.noff k]
      exact hinv.move_same rfl rfl (fun _ => rfl) (Nat.le_succ_of_le (hinv.card k)) rfl hsafe
        (.push hcode)
    | popOff =>
      have hp := hinv.popOff hcode
      have heq := Option.some.inj hx
      dsimp only at hp
      rw [heq] at hp
      exact hp
    | take lk =>
      have hlk : lk ∉ (st.ctx (st.cur k)).held := hsafe.2.1
      cases hl : st.lock lk with
      | none =>
        simp only [hl] at hx
        obtain ⟨rfl, rfl⟩ := Prod.mk.inj (Option.some.inj hx)
        exact hinv.take hcode hl
      | some k' =>
        simp only [hl] at hx
        rw [if_neg] at hx
        · cases hx
        · rintro rfl
          exact hlk ((hinv.lock lk k').1 hl)
    | free lk =>
      obtain ⟨hl, hf⟩ := hinv.free hcode
      simp only [hl] at hx
      rw [if_neg (by simp)] at hx
      obtain ⟨rfl, rfl⟩ := Prod.mk.inj (Option.some.inj hx)
      exact hf
    | setState s =>
      obtain ⟨hs, t, hcur, hmem, hsafe⟩ := hsafe
      simp only [hcur] at hx
      obtain ⟨rfl, rfl⟩ := Prod.mk.inj (Option.some.inj hx)
      have hset := hinv.setState (t := t) (s := s) hcode trivial hmem (by
        rw [hcur] at hsafe ⊢
        simpa [HartsState.away, hs] using hsafe)
      rw [hcur] at hset
      refine hset fun k' hk' ht => hk' ?_
      exact hinv.one k' k t ht (HartsState.cur_eq_thread.1 hcur)
    | swtch =>
      obtain ⟨-, -, t, hcur, -⟩ := hsafe
      simp only [hcur] at hx
      obtain ⟨rfl, rfl⟩ := Prod.mk.inj (Option.some.inj hx)
      exact hinv.swtch (HartsState.cur_eq_thread.1 hcur) (hcur ▸ hcode)
    | setIntena b =>
      obtain ⟨rfl, rfl⟩ := Prod.mk.inj (Option.some.inj hx)
      exact hinv.move_same rfl (hinv.noff k) (hinv.sie k) (hinv.card k) rfl hsafe.2
        (.setIntena hcode (by rw [hsafe.1]; exact Nat.one_pos))
    | wake t =>
      obtain ⟨hmem, hne, hsafe⟩ := hsafe
      obtain ⟨rfl, rfl⟩ := Prod.mk.inj (Option.some.inj hx)
      by_cases hs : st.state t = .sleeping
      · rw [if_pos hs]
        refine hinv.setState hcode trivial hmem ?_ fun k' _ => ?_
        · convert hsafe using 1
          cases hc : st.cur k with
          | sched j => rfl
          | thread t' =>
            have htt : t' ≠ t := fun h => hne (by rw [hc, h])
            simp [HartsState.away, htt]
        · exact hinv.not_running hne hmem (by rw [hs]; exact RunState.noConfusion) k'
      · rw [if_neg hs]
        exact hinv.move_same rfl (hinv.noff k) (hinv.sie k) (hinv.card k) rfl hsafe
          (.plain hcode trivial)
    | intrOn =>
      obtain ⟨rfl, rfl⟩ := Prod.mk.inj (Option.some.inj hx)
      exact hinv.move_same rfl (hinv.noff k) (fun hd => absurd hsafe.1 (Nat.ne_of_gt hd))
        (hinv.card k) rfl hsafe.2 (.intrOn hcode hsafe.1)
    | intrOff =>
      obtain ⟨rfl, rfl⟩ := Prod.mk.inj (Option.some.inj hx)
      exact hinv.move_same rfl (hinv.noff k) (fun hd => absurd hsafe.1 (Nat.ne_of_gt hd))
        (hinv.card k) rfl hsafe.2 (.intrOff hcode hsafe.1)
    | sret =>
      dsimp only at hx
      by_cases hd : (st.ctx (st.cur k)).depth = 0
      · rw [if_pos hd] at hx
        obtain ⟨rfl, rfl⟩ := Prod.mk.inj (Option.some.inj hx)
        have hnone : (st.ctx (st.cur k)).held = ∅ :=
          Finset.card_eq_zero.1 (Nat.le_zero.1 (hd ▸ hinv.card k))
        refine hinv.move_same rfl (hinv.noff k) (fun h => absurd hd (Nat.ne_of_gt h)) (hinv.card k)
          rfl ?_ (.sret hcode hd)
        dsimp only
        rw [hd, hnone, hsafe.1]
        exact hsafe.2
      · rw [if_neg hd] at hx
        cases hx
    | scan i =>
      obtain ⟨⟨j, hj⟩, hd, hheld, hrest⟩ := hsafe
      obtain ⟨rfl, rfl⟩ := Prod.mk.inj (Option.some.inj hx)
      refine hinv.move_same rfl (hinv.noff k) (hinv.sie k) (hinv.card k) rfl ?_ (.scan hj)
      dsimp only
      rw [hd, hheld, hj]
      by_cases hi : i < n
      · rw [if_pos hi]
        exact .take_push (by simp) (Finset.notMem_empty _) ⟨⟨j, rfl⟩, rfl, rfl, rfl⟩
      · rw [if_neg hi]
        exact .schedulerPass
    | dispatch i =>
      obtain ⟨rfl, rfl⟩ := Prod.mk.inj (Option.some.inj hx)
      exact hinv.dispatch hcode

theorem HartStep.move (hinv : HartsInv st) (hs : HartStep n st e st') :
    HartsInv st' ∧ HartMove st e st' := by
  cases hs with
  | exec k hx => exact hinv.exec hx
  | trap k hon =>
    have hd : (st.ctx (st.cur k)).depth = 0 := by
      by_contra hne
      rw [hinv.sie k (Nat.pos_of_ne_zero hne)] at hon
      cases hon
    have haway : st.away (st.cur k) = false := by
      cases hc : st.cur k with
      | sched j => rfl
      | thread t =>
        have hproc := HartsState.cur_eq_thread.1 hc
        by_contra hne
        have hs : st.state t ≠ .running := by simpa [HartsState.away] using hne
        have hmem := hinv.away k t hproc hs
        have hcard := hinv.card k
        rw [hd, hc] at hcard
        rw [Finset.card_eq_zero.1 (Nat.le_zero.1 hcard)] at hmem
        exact Finset.notMem_empty _ hmem
    have hnone : (st.ctx (st.cur k)).held = ∅ :=
      Finset.card_eq_zero.1 (Nat.le_zero.1 (hd ▸ hinv.card k))
    have hsafe := hinv.safe k
    rw [hd, hnone, haway] at hsafe
    have hcode : ∀ b r, (st.ctx (st.cur k)).code ≠ .setIntena b :: r := by
      intro b r hcode
      rw [hcode] at hsafe
      exact Nat.zero_ne_one hsafe.1
    exact hinv.move_same rfl (hinv.noff k) (fun _ => rfl) (hinv.card k) rfl ⟨haway, hsafe⟩
      (.trap hon hd hcode)
  | call k op hc ha =>
    obtain ⟨haway, hrest⟩ := (hinv.safe k).calling hc
    refine hinv.move_same rfl (hinv.noff k) (hinv.sie k) (hinv.card k) rfl ?_ (.call hc ha)
    rw [haway]
    exact Safe.call (hinv.card k) ha hrest

end Move

end Xv6Plus
