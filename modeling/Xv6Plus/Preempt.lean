import Xv6Plus.HartsRun

/-!
# Interrupts belong to the thread

`nesting` reads off the history which `push_off`s of a thread or scheduler are unmatched, and
whether interrupts were on at the outermost one. While a thread is inside it, `intena` of the
hart it runs on, or what `sched` has saved, is that value (`RunningInv`, `WaitingInv`), so the
matching `pop_off` puts interrupts back as they were, on whichever hart.

A thread starts inside the `push_off` of the scheduler that runs it first, which has interrupts
off, so a kernel thread begins its function with interrupts off, and has them on only if it turns
them on itself.
-/

namespace Xv6Plus

/-! ## Nesting -/

structure Nesting where
  /-- The unmatched `push_off`s. -/
  depth : ℕ
  /-- Whether interrupts were on at the outermost one, if `c` itself called it. -/
  outer : Option Bool
  deriving DecidableEq, Repr

def Nesting.next (c : Ctx) (a : Nesting) : HartEvent → Nesting
  | .push c' old => if c' = c then ⟨a.depth + 1, if a.depth = 0 then some old else a.outer⟩ else a
  | .pop c' _ => if c' = c then ⟨a.depth - 1, a.outer⟩ else a
  | _ => a

/-- A thread starts with the lock that the scheduler has acquired. -/
def Nesting.start : Ctx → Nesting
  | .sched _ => ⟨0, none⟩
  | .thread _ => ⟨1, none⟩

def nesting (c : Ctx) (h : List HartEvent) : Nesting := h.foldl (Nesting.next c) (.start c)

/-- The thread has turned interrupts on, and not off since. -/
def IntrOnSince (t : ℕ) (h : List HartEvent) : Prop :=
  Since (· = .intrOn (.thread t)) (· = .intrOff (.thread t)) h

/-- Whose event it is. -/
def HartEvent.about : HartEvent → Option Ctx
  | .push c _ | .pop c _ | .intrOn c | .intrOff c => some c
  | .other => none

section Nesting

variable {c : Ctx} {h : List HartEvent} {e : HartEvent} {a : Nesting} {t : ℕ} {hart hart' : Hart}
  {cs cs' : CtxState}

theorem nesting_snoc : nesting c (h ++ [e]) = (nesting c h).next c e := by
  simp [nesting]

theorem Nesting.next_of_ne (he : e.about ≠ some c) : a.next c e = a := by
  cases e with
  | push c' old => exact if_neg fun hc => he (by rw [hc]; rfl)
  | pop c' sie => exact if_neg fun hc => he (by rw [hc]; rfl)
  | intrOn c' => rfl
  | intrOff c' => rfl
  | other => rfl

theorem intrOnSince_snoc (hon : e ≠ .intrOn (.thread t)) (hoff : e ≠ .intrOff (.thread t)) :
    IntrOnSince t (h ++ [e]) = IntrOnSince t h := by
  rw [IntrOnSince, since_snoc]
  simp [hon, hoff, IntrOnSince]

theorem intrOnSince_of_ne (he : e.about ≠ some (.thread t)) :
    IntrOnSince t (h ++ [e]) = IntrOnSince t h :=
  intrOnSince_snoc (fun heq => he (by rw [heq]; rfl)) fun heq => he (by rw [heq]; rfl)

theorem intrOnSince_other : IntrOnSince t (h ++ [.other]) = IntrOnSince t h :=
  intrOnSince_of_ne nofun

theorem LocalEffect.about (heff : LocalEffect c hart cs e hart' cs') {c' : Ctx} (hne : c ≠ c') :
    e.about ≠ some c' := by
  cases heff <;> simp [HartEvent.about, hne]

end Nesting

/-! ## The code of a thread -/

/-- What can stand next to each other in the code of a thread. -/
def Follows (i j : Instr) : Prop :=
  -- an interrupt can come between the two halves of `push_off`
  (∀ old, j = .pushOff1 old → i = .sret ∧ old = true) ∧ (∀ b, j ≠ .setIntena b) ∧
    i ≠ .intrOn ∧ i ≠ .intrOff

/-- What `intena` is to be once `sched` has put it back. -/
def intenaAt (intena : Bool) : List Instr → Bool
  | .setIntena b :: _ => b
  | _ => intena

/-- Instructions that a call begins with or consists of, those on interrupts apart. -/
def Instr.Called : Instr → Bool
  | .pushOff1 _ | .setIntena _ | .sret | .intrOn | .intrOff => false
  | _ => true

section Code

variable {c : Ctx} {cs : CtxState} {i : Instr} {r l code : List Instr} {b x : Bool} {op : HartCall}
  {on : Prop}

theorem Follows.tail (hch : (i :: r).IsChain Follows) :
    r.IsChain Follows ∧ (∀ x, intenaAt x r = x) ∧
      ∀ old r', r = .pushOff1 old :: r' → i = .sret ∧ old = true := by
  cases r with
  | nil => exact ⟨.nil, fun _ => rfl, fun _ _ h => nomatch h⟩
  | cons j r =>
    obtain ⟨⟨hold, hset, -, -⟩, hr⟩ := List.isChain_cons_cons.1 hch
    refine ⟨hr, fun x => ?_, fun old r' heq => hold old (List.cons.inj heq).1⟩
    cases j with
    | setIntena b => exact absurd rfl (hset b)
    | _ => rfl

theorem Follows.replace {j : Instr} (hch : (i :: r).IsChain Follows) (hi : i ≠ .sret)
    (hon : j ≠ .intrOn) (hoff : j ≠ .intrOff) : (j :: r).IsChain Follows := by
  cases r with
  | nil => exact .singleton _
  | cons i' r =>
    obtain ⟨⟨hold, hset, -, -⟩, hr⟩ := List.isChain_cons_cons.1 hch
    refine List.isChain_cons_cons.2 ⟨⟨fun old heq => ?_, hset, hon, hoff⟩, hr⟩
    exact absurd (hold old heq).1 hi

/-- The code of a call in front of what can stand there. -/
theorem Follows.append (hl : ∀ i ∈ l, i.Called = true) (hr : r.IsChain Follows)
    (hhead : ∀ j r', r = j :: r' → (∀ old, j ≠ .pushOff1 old) ∧ ∀ b, j ≠ .setIntena b) :
    (l ++ r).IsChain Follows := by
  have hstep : ∀ i j, i.Called = true → (∀ old, j ≠ .pushOff1 old) → (∀ b, j ≠ .setIntena b) →
      Follows i j := by
    intro i j hi hold hset
    refine ⟨fun old heq => absurd heq (hold old), hset, ?_, ?_⟩ <;>
    · rintro rfl
      cases hi
  induction l with
  | nil => exact hr
  | cons i l ih =>
    have hi := hl i (List.mem_cons_self)
    have hrest := ih fun j hj => hl j (List.mem_cons_of_mem _ hj)
    cases l with
    | nil =>
      cases r with
      | nil => exact .singleton _
      | cons j r =>
        obtain ⟨hold, hset⟩ := hhead j r rfl
        exact List.isChain_cons_cons.2 ⟨hstep i j hi hold hset, hrest⟩
    | cons j l =>
      have hj := hl j (List.mem_cons_of_mem _ List.mem_cons_self)
      refine List.isChain_cons_cons.2 ⟨hstep i j hi ?_ ?_, hrest⟩ <;>
      · rintro b rfl
        cases hj

theorem HartCall.called (hon : op ≠ .intrOn) (hoff : op ≠ .intrOff) :
    ∀ i ∈ op.code c, i.Called = true := by
  cases op with
  | intrOn => exact absurd rfl hon
  | intrOff => exact absurd rfl hoff
  | yield =>
    cases c <;>
      simp [HartCall.code, Xv6Plus.yield, sched, myproc, Xv6Plus.acquire, Xv6Plus.release,
        Instr.Called]
  | sleep lk =>
    cases c <;>
      simp [HartCall.code, Xv6Plus.sleep, sched, myproc, Xv6Plus.acquire, Xv6Plus.release,
        Instr.Called]
  | pushOff | popOff => simp [HartCall.code, Instr.Called]
  | acquire lk => simp [HartCall.code, Xv6Plus.acquire, Instr.Called]
  | release lk => simp [HartCall.code, Xv6Plus.release, Instr.Called]
  | wakeup t =>
    simp [HartCall.code, Xv6Plus.wakeup, myproc, Xv6Plus.acquire, Xv6Plus.release, Instr.Called]

theorem HartCall.sret_notMem : .sret ∉ op.code c := by
  by_cases hon : op = .intrOn
  · simp [hon, HartCall.code]
  by_cases hoff : op = .intrOff
  · simp [hoff, HartCall.code]
  intro hmem
  cases HartCall.called hon hoff _ hmem

theorem CtxState.Calling.head (hc : cs.Calling) (j : Instr) (r : List Instr)
    (hcode : cs.code = j :: r) : j = .sret := by
  rcases hc with hc | ⟨r', hc⟩
  · rw [hc] at hcode
    cases hcode
  · rw [hc] at hcode
    exact (List.cons.inj hcode).1.symm

theorem HartCall.isChain (hc : cs.Calling) (ha : op.Allowed c cs)
    (hch : cs.code.IsChain Follows) : (op.code c ++ cs.code).IsChain Follows := by
  by_cases hon : op = .intrOn
  · subst hon
    rw [ha.2.2]
    exact .singleton _
  by_cases hoff : op = .intrOff
  · subst hoff
    rw [ha.2.2]
    exact .singleton _
  refine Follows.append (HartCall.called hon hoff) hch fun j r hcode => ?_
  obtain rfl := hc.head j r hcode
  exact ⟨fun _ => Instr.noConfusion, fun _ => Instr.noConfusion⟩

/-- A call does not begin in the middle of `push_off`, nor by putting `intena` back. -/
theorem HartCall.head (hc : cs.Calling) {j : Instr} (hcode : op.code c ++ cs.code = j :: r) :
    (∀ old, j ≠ .pushOff1 old) ∧ ∀ b, j ≠ .setIntena b := by
  cases hop : op.code c with
  | nil =>
    rw [hop, List.nil_append] at hcode
    obtain rfl := hc.head j r hcode
    exact ⟨fun _ => Instr.noConfusion, fun _ => Instr.noConfusion⟩
  | cons i l =>
    rw [hop, List.cons_append] at hcode
    obtain rfl := (List.cons.inj hcode).1
    by_cases hon : op = .intrOn
    · subst hon
      obtain rfl := (List.cons.inj hop).1
      exact ⟨fun _ => Instr.noConfusion, fun _ => Instr.noConfusion⟩
    by_cases hoff : op = .intrOff
    · subst hoff
      obtain rfl := (List.cons.inj hop).1
      exact ⟨fun _ => Instr.noConfusion, fun _ => Instr.noConfusion⟩
    have hi := HartCall.called (c := c) hon hoff i (by rw [hop]; exact List.mem_cons_self)
    refine ⟨?_, ?_⟩ <;>
    · rintro b rfl
      cases hi

theorem intenaAt_of_head (h : ∀ j r, code = j :: r → ∀ b, j ≠ .setIntena b) :
    intenaAt x code = x := by
  cases code with
  | nil => rfl
  | cons j r =>
    cases j with
    | setIntena b => exact absurd rfl (h _ r rfl b)
    | _ => rfl

/-- Whether interrupts are on outside every `push_off` : a handler has them off, and a thread
that has turned them on has them on. -/
def Level (on : Prop) (code : List Instr) (b : Bool) : Prop :=
  (.sret ∈ code → b = false) ∧ (on → .sret ∉ code → b = true)

theorem Level.congr {code' : List Instr} (h : Level on code b)
    (hmem : .sret ∈ code' ↔ .sret ∈ code) : Level on code' b :=
  ⟨fun hs => h.1 (hmem.1 hs), fun ho hs => h.2 ho fun hs' => hs (hmem.2 hs')⟩

end Code

/-! ## What a thread may rely on -/

structure ThreadInv (a : Nesting) (on : Prop) (cs : CtxState) : Prop where
  depth : a.depth = cs.depth
  chain : cs.code.IsChain Follows
  once : cs.code.count .sret ≤ 1
  level : ∀ b, 0 < cs.depth → a.outer = some b → Level on cs.code b
  known : 0 < cs.depth → on ∨ .sret ∈ cs.code → a.outer ≠ none

structure RunningInv (a : Nesting) (on : Prop) (cs : CtxState) (hart : Hart) : Prop where
  intena : ∀ b, 0 < cs.depth → a.outer = some b → intenaAt hart.intena cs.code = b
  sie : cs.depth = 0 → Level on cs.code hart.sie
  read : ∀ old r, cs.code = .pushOff1 old :: r → cs.depth = 0 → old = hart.sie

def WaitingInv (a : Nesting) (cs : CtxState) : Prop :=
  ∀ b, a.outer = some b → ∀ x, intenaAt x cs.code = b

section Local

variable {a : Nesting} {on : Prop} {cs cs' : CtxState} {hart hart' : Hart} {e : HartEvent}
  {t : ℕ} {h : List HartEvent} {i : Instr} {r : List Instr}

/-- An instruction is done that is neither `sret` nor on the counters. -/
theorem ThreadInv.advance (ht : ThreadInv a on cs) (hcode : cs.code = i :: r) (hi : i ≠ .sret)
    (held : Finset LockId) : ThreadInv a on ⟨r, cs.depth, held⟩ := by
  have hmem : .sret ∈ r ↔ .sret ∈ cs.code := by simp [hcode, Ne.symm hi]
  refine ⟨ht.depth, (Follows.tail (hcode ▸ ht.chain)).1, ?_, fun b hd ho => ?_, fun hd ho => ?_⟩
  · exact Nat.le_trans (List.count_le_count_cons ..) (hcode ▸ ht.once)
  · exact (ht.level b hd ho).congr hmem
  · exact ht.known hd (ho.imp_right hmem.1)

theorem RunningInv.advance (hr : RunningInv a on cs hart) (ht : ThreadInv a on cs)
    (hcode : cs.code = i :: r) (hi : i ≠ .sret) (hset : ∀ b, i ≠ .setIntena b)
    (held : Finset LockId) : RunningInv a on ⟨r, cs.depth, held⟩ hart := by
  obtain ⟨-, hintena, hold⟩ := Follows.tail (hcode ▸ ht.chain)
  have hmem : .sret ∈ r ↔ .sret ∈ cs.code := by simp [hcode, Ne.symm hi]
  refine ⟨fun b hd ho => ?_, fun hd => (hr.sie hd).congr hmem, fun old r' heq _ => ?_⟩
  · have hx := hr.intena b hd ho
    rw [hcode, intenaAt_of_head fun j r' heq b => (List.cons.inj heq).1 ▸ hset b] at hx
    rw [hintena, hx]
  · exact absurd (hold old r' heq).1 hi

/-- The next instruction becomes another one. -/
theorem ThreadInv.replace (j : Instr) (ht : ThreadInv a on cs) (hcode : cs.code = i :: r)
    (hi : i ≠ .sret) (hj : j ≠ .sret) (hon : j ≠ .intrOn) (hoff : j ≠ .intrOff)
    (held : Finset LockId) : ThreadInv a on ⟨j :: r, cs.depth, held⟩ := by
  have hmem : .sret ∈ j :: r ↔ .sret ∈ cs.code := by simp [hcode, Ne.symm hi, Ne.symm hj]
  refine ⟨ht.depth, Follows.replace (hcode ▸ ht.chain) hi hon hoff, ?_,
    fun b hd ho => (ht.level b hd ho).congr hmem, fun hd ho => ht.known hd (ho.imp_right hmem.1)⟩
  have honce := ht.once
  rw [hcode, List.count_cons_of_ne hi] at honce
  rwa [List.count_cons_of_ne hj]

/-- `push_off` after it has read whether interrupts are on. -/
theorem LocalEffect.keeps_push {old : Bool} (hcode : cs.code = .pushOff1 old :: r)
    (ht : ThreadInv a on cs) (hr : RunningInv a on cs hart) :
    let a' : Nesting := ⟨a.depth + 1, if a.depth = 0 then some hart.sie else a.outer⟩
    let cs' : CtxState := { cs with code := r, depth := cs.depth + 1 }
    ThreadInv a' on cs' ∧ RunningInv a' on cs'
      { hart with
        sie := false
        intena := if cs.depth = 0 then old else hart.intena
        noff := cs.depth + 1 } := by
  have hmem : .sret ∈ r ↔ .sret ∈ cs.code := by simp [hcode]
  obtain ⟨hch, hintena, -⟩ := Follows.tail (hcode ▸ ht.chain)
  have honce : r.count .sret ≤ 1 := Nat.le_trans (List.count_le_count_cons ..) (hcode ▸ ht.once)
  have hat : ∀ x, intenaAt x cs.code = x := fun x => by rw [hcode]; rfl
  have hdepth := ht.depth
  refine ⟨⟨congrArg (· + 1) hdepth, hch, honce, fun b _ ho => ?_, fun _ ho => ?_⟩,
    fun b _ ho => ?_, nofun, nofun⟩
  · by_cases hd : cs.depth = 0
    · rw [hdepth, if_pos hd] at ho
      obtain rfl := Option.some.inj ho
      exact (hr.sie hd).congr hmem
    · rw [hdepth, if_neg hd] at ho
      exact (ht.level b (Nat.pos_of_ne_zero hd) ho).congr hmem
  · by_cases hd : cs.depth = 0
    · rw [hdepth, if_pos hd]
      exact Option.some_ne_none _
    · rw [hdepth, if_neg hd]
      exact ht.known (Nat.pos_of_ne_zero hd) (ho.imp_right hmem.1)
  · rw [hintena]
    by_cases hd : cs.depth = 0
    · rw [hdepth, if_pos hd] at ho
      dsimp only
      rw [if_pos hd, hr.read old r hcode hd]
      exact Option.some.inj ho
    · rw [hdepth, if_neg hd] at ho
      dsimp only
      rw [if_neg hd, ← hat hart.intena]
      exact hr.intena b (Nat.pos_of_ne_zero hd) ho

theorem LocalEffect.keeps_pop (hcode : cs.code = .popOff :: r) (hpos : 0 < cs.depth)
    (ht : ThreadInv a on cs) (hr : RunningInv a on cs hart) :
    let a' : Nesting := ⟨a.depth - 1, a.outer⟩
    let cs' : CtxState := { cs with code := r, depth := cs.depth - 1 }
    let sie := decide (cs.depth - 1 = 0) && hart.intena
    ThreadInv a' on cs' ∧ RunningInv a' on cs' { hart with noff := hart.noff - 1, sie := sie } := by
  have hmem : .sret ∈ r ↔ .sret ∈ cs.code := by simp [hcode]
  obtain ⟨hch, hintena, hold⟩ := Follows.tail (hcode ▸ ht.chain)
  have honce : r.count .sret ≤ 1 := Nat.le_trans (List.count_le_count_cons ..) (hcode ▸ ht.once)
  have hat : ∀ x, intenaAt x cs.code = x := fun x => by rw [hcode]; rfl
  refine ⟨⟨congrArg (· - 1) ht.depth, hch, honce, fun b _ ho => ?_, fun _ ho => ?_⟩,
    fun b _ ho => ?_, fun hd => ?_, fun old r' heq _ => ?_⟩
  · exact (ht.level b hpos ho).congr hmem
  · exact ht.known hpos (ho.imp_right hmem.1)
  · rw [hintena, ← hat hart.intena]
    exact hr.intena b hpos ho
  · dsimp only at hd ⊢
    rw [decide_eq_true hd, Bool.true_and]
    cases ho : a.outer with
    | none =>
      -- the scheduler called this `push_off` : the thread has done nothing about interrupts
      have hnot : ¬(on ∨ .sret ∈ cs.code) := fun h => ht.known hpos h ho
      exact ⟨fun hs => absurd (Or.inr (hmem.1 hs)) hnot, fun hon => absurd (Or.inl hon) hnot⟩
    | some b =>
      have hb := hr.intena b hpos ho
      rw [hat] at hb
      rw [hb]
      exact (ht.level b hpos ho).congr hmem
  · cases (hold old r' heq).1

theorem LocalEffect.keeps_trap (hon : hart.sie = true) (hd : cs.depth = 0)
    (hset : ∀ b r, cs.code ≠ .setIntena b :: r) (ht : ThreadInv a on cs)
    (hr : RunningInv a on cs hart) :
    let cs' : CtxState := { cs with code := .sret :: cs.code }
    ThreadInv a on cs' ∧ RunningInv a on cs' { hart with sie := false } := by
  have hpos : ¬0 < cs.depth := by omega
  have hnot : .sret ∉ cs.code := fun hs => by
    have hoff := (hr.sie hd).1 hs
    rw [hon] at hoff
    cases hoff
  refine ⟨⟨ht.depth, ?_, ?_, fun b h => absurd h hpos, fun h => absurd h hpos⟩,
    fun b h => absurd h hpos, fun _ => ⟨fun _ => rfl, fun _ hs => ?_⟩, nofun⟩
  · cases hcode : cs.code with
    | nil => exact .singleton _
    | cons j r =>
      refine List.isChain_cons_cons.2 ⟨⟨fun old hj => ⟨rfl, ?_⟩, fun b hj => ?_,
        Instr.noConfusion, Instr.noConfusion⟩, hcode ▸ ht.chain⟩
      · rw [← hon]
        exact hr.read old r (by rw [hcode, hj]) hd
      · exact hset b r (by rw [hcode, hj])
  · dsimp only
    rw [List.count_cons_self, List.count_eq_zero.2 hnot]
  · exact absurd List.mem_cons_self hs

theorem LocalEffect.keeps_sret (hcode : cs.code = .sret :: r) (hd : cs.depth = 0)
    (ht : ThreadInv a on cs) :
    let cs' : CtxState := { cs with code := r }
    ThreadInv a on cs' ∧ RunningInv a on cs' { hart with sie := true } := by
  have hpos : ¬0 < cs.depth := by omega
  obtain ⟨hch, -, hold⟩ := Follows.tail (hcode ▸ ht.chain)
  have honce := ht.once
  rw [hcode, List.count_cons_self] at honce
  have hnot : .sret ∉ r := List.count_eq_zero.1 (by omega)
  refine ⟨⟨ht.depth, hch, by dsimp only; omega, fun b h => absurd h hpos,
    fun h => absurd h hpos⟩, fun b h => absurd h hpos,
    fun _ => ⟨fun hs => absurd hs hnot, fun _ _ => rfl⟩, fun old r' heq _ => ?_⟩
  exact (hold old r' heq).2

theorem LocalEffect.keeps_call {op : HartCall} {c : Ctx} (hc : cs.Calling) (ha : op.Allowed c cs)
    (ht : ThreadInv a on cs) (hr : RunningInv a on cs hart) :
    let cs' : CtxState := { cs with code := op.code c ++ cs.code }
    ThreadInv a on cs' ∧ RunningInv a on cs' hart := by
  have hnot : .sret ∉ op.code c := HartCall.sret_notMem
  have hmem : .sret ∈ op.code c ++ cs.code ↔ .sret ∈ cs.code := by simp [hnot]
  have hat : intenaAt hart.intena cs.code = hart.intena :=
    intenaAt_of_head fun j r hj b => by
      rw [hc.head j r hj]
      exact Instr.noConfusion
  refine ⟨⟨ht.depth, HartCall.isChain hc ha ht.chain, ?_, fun b hd ho => ?_, fun hd ho => ?_⟩,
    fun b hd ho => ?_, fun hd => (hr.sie hd).congr hmem, fun old r hcode => ?_⟩
  · dsimp only
    rw [List.count_append, List.count_eq_zero.2 hnot, Nat.zero_add]
    exact ht.once
  · exact (ht.level b hd ho).congr hmem
  · exact ht.known hd (ho.imp_right hmem.1)
  · rw [intenaAt_of_head fun j r hj b => (HartCall.head hc hj).2 b, ← hat]
    exact hr.intena b hd ho
  · exact absurd rfl ((HartCall.head hc hcode).1 old)

/-- `intr_on` and `intr_off` are called by the function of a thread itself. -/
theorem LocalEffect.keeps_intr {on' : Prop} {b : Bool} (hcode : cs.code = i :: r)
    (hi : i = .intrOn ∨ i = .intrOff) (hd : cs.depth = 0) (hb : on' → b = true)
    (ht : ThreadInv a on cs) :
    let cs' : CtxState := { cs with code := r }
    ThreadInv a on' cs' ∧ RunningInv a on' cs' { hart with sie := b } := by
  have hpos : ¬0 < cs.depth := by omega
  obtain rfl : r = [] := by
    cases r with
    | nil => rfl
    | cons j r =>
      obtain ⟨⟨-, -, hon, hoff⟩, -⟩ := List.isChain_cons_cons.1 (hcode ▸ ht.chain)
      exact absurd hi (not_or.2 ⟨hon, hoff⟩)
  exact ⟨⟨ht.depth, .nil, Nat.zero_le _, fun b h => absurd h hpos, fun h => absurd h hpos⟩,
    fun b h => absurd h hpos, fun _ => ⟨nofun, fun h _ => hb h⟩, nofun⟩

/-- What one step of a running thread keeps. -/
theorem LocalEffect.keeps (heff : LocalEffect (.thread t) hart cs e hart' cs')
    (ht : ThreadInv a (IntrOnSince t h) cs) (hr : RunningInv a (IntrOnSince t h) cs hart) :
    ThreadInv (a.next (.thread t) e) (IntrOnSince t (h ++ [e])) cs' ∧
      RunningInv (a.next (.thread t) e) (IntrOnSince t (h ++ [e])) cs' hart' := by
  cases heff with
  | @read r hcode =>
    rw [intrOnSince_other]
    have hthread : ThreadInv a (IntrOnSince t h) { cs with code := .pushOff1 hart.sie :: r } :=
      ht.replace (.pushOff1 hart.sie) hcode nofun nofun nofun nofun _
    refine ⟨hthread, fun b hd ho => ?_, fun hd => ?_, fun old r' heq _ => ?_⟩
    · have hx := hr.intena b hd ho
      rw [hcode] at hx
      exact hx
    · exact (hr.sie hd).congr (by simp [hcode])
    · exact (Instr.pushOff1.inj (List.cons.inj heq).1).symm
  | @push old r hcode =>
    have hsame : IntrOnSince t (h ++ [.push (.thread t) hart.sie]) = IntrOnSince t h :=
      intrOnSince_snoc nofun nofun
    rw [hsame, Nesting.next, if_pos rfl]
    exact keeps_push hcode ht hr
  | @pop r hcode hpos =>
    have hsame : ∀ b, IntrOnSince t (h ++ [.pop (.thread t) b]) = IntrOnSince t h :=
      fun b => intrOnSince_snoc nofun nofun
    rw [hsame, Nesting.next, if_pos rfl]
    exact keeps_pop hcode hpos ht hr
  | @plain i r held hcode hi =>
    rw [intrOnSince_other]
    have hne : i ≠ .sret ∧ ∀ b, i ≠ .setIntena b := by
      cases i <;> simp_all [Instr.Plain]
    exact ⟨ht.advance hcode hne.1 held, hr.advance ht hcode hne.1 hne.2 held⟩
  | @setIntena b r hcode hpos =>
    rw [intrOnSince_other]
    refine ⟨ht.advance hcode nofun _, fun b' hd ho => ?_, fun hd => ?_, fun old r' _ hd => ?_⟩
    · rw [(Follows.tail (hcode ▸ ht.chain)).2.1]
      have hx := hr.intena b' hd ho
      rwa [hcode] at hx
    · exact absurd hd (Nat.ne_of_gt hpos)
    · exact absurd hd (Nat.ne_of_gt hpos)
  | trap hon hd hset =>
    rw [intrOnSince_other]
    exact keeps_trap hon hd hset ht hr
  | @sret r hcode hd =>
    rw [intrOnSince_other]
    exact keeps_sret hcode hd ht
  | @call op hc ha =>
    rw [intrOnSince_other]
    exact keeps_call hc ha ht hr
  | @intrOn r hcode hd => exact keeps_intr hcode (Or.inl rfl) hd (fun _ => rfl) ht
  | @intrOff r hcode hd =>
    refine keeps_intr hcode (Or.inr rfl) hd (fun hon => ?_) ht
    rcases since_snoc.1 hon with h | ⟨-, h⟩
    · cases h
    · exact absurd rfl h
  | scan hc => cases hc

/-- The scheduler of a hart only counts. -/
theorem LocalEffect.depth {c : Ctx} (heff : LocalEffect c hart cs e hart' cs')
    (hd : a.depth = cs.depth) : (a.next c e).depth = cs'.depth := by
  cases heff <;> simp [Nesting.next, hd]

end Local

/-! ## Every schedule -/

structure HartsHist (h : List HartEvent) (st : HartsState) : Prop where
  inv : HartsInv st
  depth : ∀ c, (nesting c h).depth = (st.ctx c).depth
  thread : ∀ t, ThreadInv (nesting (.thread t) h) (IntrOnSince t h) (st.ctx (.thread t))
  running : ∀ k t, (st.hart k).proc = some t →
    RunningInv (nesting (.thread t) h) (IntrOnSince t h) (st.ctx (.thread t)) (st.hart k)
  waiting : ∀ t, (∀ k, (st.hart k).proc ≠ some t) →
    WaitingInv (nesting (.thread t) h) (st.ctx (.thread t))

section Hist

variable {n : ℕ} {h : List HartEvent} {st st' : HartsState} {e : HartEvent}

theorem HartsState.Init.hist (hi : st.Init) : HartsHist [] st := by
  refine ⟨hi.inv, fun c => ?_, fun t => ?_, fun k t hk => ?_, fun t _ b hb => ?_⟩
  · cases c with
    | sched k => rw [hi.sched]; rfl
    | thread t => rw [hi.thread]; rfl
  · rw [hi.thread]
    refine ⟨rfl, ?_, ?_, nofun, fun _ ho => ?_⟩
    · rw [← List.append_nil (kthreadEntry t)]
      refine Follows.append ?_ .nil nofun
      simp [kthreadEntry, myproc, release, Instr.Called]
    · simp [kthreadEntry, myproc, release]
    · rcases ho with ho | ho
      · exact absurd ho not_since_nil
      · simp [kthreadEntry, myproc, release] at ho
  · rw [(hi.hart k).2] at hk
    cases hk
  · cases hb

/-- A switch changes two contexts, and the depth of neither. -/
theorem depth_switch {f : Ctx → CtxState} {a b c : Ctx} {x y : CtxState}
    (hx : x.depth = (f a).depth) (hy : y.depth = (f b).depth) :
    (Function.update (Function.update f a x) b y c).depth = (f c).depth := by
  simp only [Function.update_apply]
  split_ifs with h₁ h₂
  · rw [h₁, hy]
  · rw [h₂, hx]
  · rfl

/-- A step changes the threads `T`, and the others see nothing of it. -/
theorem HartsHist.changed (hh : HartsHist h st) (T : ℕ → Prop) (hinv : HartsInv st')
    (hdepth : ∀ c, (nesting c (h ++ [e])).depth = (st'.ctx c).depth)
    (hother : ∀ t, ¬T t → e.about ≠ some (.thread t) ∧
      st'.ctx (.thread t) = st.ctx (.thread t) ∧
      ∀ k, (st'.hart k).proc = some t ∨ (st.hart k).proc = some t → st'.hart k = st.hart k)
    (hself : ∀ t, T t →
      ThreadInv (nesting (.thread t) (h ++ [e])) (IntrOnSince t (h ++ [e])) (st'.ctx (.thread t)) ∧
      (∀ k, (st'.hart k).proc = some t → RunningInv (nesting (.thread t) (h ++ [e]))
        (IntrOnSince t (h ++ [e])) (st'.ctx (.thread t)) (st'.hart k)) ∧
      ((∀ k, (st'.hart k).proc ≠ some t) →
        WaitingInv (nesting (.thread t) (h ++ [e])) (st'.ctx (.thread t)))) :
    HartsHist (h ++ [e]) st' := by
  have hall : ∀ t, _ := fun t => by
    by_cases hT : T t
    · exact hself t hT
    · obtain ⟨he, hctx, hhart⟩ := hother t hT
      rw [nesting_snoc, Nesting.next_of_ne he, intrOnSince_of_ne he, hctx]
      refine ⟨hh.thread t, fun k hk => ?_, fun hnot => hh.waiting t fun k hk => ?_⟩
      · have heq := hhart k (Or.inl hk)
        rw [heq] at hk ⊢
        exact hh.running k t hk
      · exact hnot k (by rw [hhart k (Or.inr hk), hk])
  exact ⟨hinv, hdepth, fun t => (hall t).1, fun k t => (hall t).2.1 k, fun t => (hall t).2.2⟩

theorem HartsHist.put (hh : HartsHist h st) {k : ℕ} {hart : Hart} {cs : CtxState}
    {state : ℕ → RunState} {lock : LockId → Option ℕ} (hproc : hart.proc = (st.hart k).proc)
    (heff : LocalEffect (st.cur k) (st.hart k) (st.ctx (st.cur k)) e hart cs)
    (hinv : HartsInv { st.put k hart (st.cur k) cs with state := state, lock := lock }) :
    HartsHist (h ++ [e]) { st.put k hart (st.cur k) cs with state := state, lock := lock } := by
  set st' := { st.put k hart (st.cur k) cs with state := state, lock := lock } with hst'
  have hhartk : st'.hart k = hart := by simp [hst', HartsState.put]
  have hhart : ∀ k', k' ≠ k → st'.hart k' = st.hart k' := fun k' hk => by
    simp [hst', HartsState.put, hk]
  have hprock : (st'.hart k).proc = (st.hart k).proc := by rw [hhartk, hproc]
  have hself : st'.ctx (st.cur k) = cs := by simp [hst', HartsState.put]
  have hsame : ∀ c, c ≠ st.cur k → st'.ctx c = st.ctx c := fun c hc => by
    simp [hst', HartsState.put, hc]
  -- the thread that runs on `k`, if there is one
  refine hh.changed (fun t => st.cur k = .thread t) hinv (fun c => ?_) (fun t ht => ?_)
    fun t ht => ?_
  · rw [nesting_snoc]
    by_cases hc : c = st.cur k
    · rw [hc, hself]
      exact heff.depth (hh.depth _)
    · rw [Nesting.next_of_ne (heff.about (Ne.symm hc)), hsame c hc]
      exact hh.depth c
  · refine ⟨heff.about ht, hsame _ (Ne.symm ht), fun k' hk' => hhart k' ?_⟩
    rintro rfl
    rw [hprock, or_self] at hk'
    exact ht (HartsState.cur_of_some hk')
  · have hk : (st.hart k).proc = some t := HartsState.cur_eq_thread.1 ht
    rw [ht] at heff hself
    rw [nesting_snoc, hself]
    obtain ⟨hthread, hrunning⟩ := heff.keeps (hh.thread t) (hh.running k t hk)
    refine ⟨hthread, fun k' hk' => ?_, fun hnot => absurd (hprock.trans hk) (hnot k)⟩
    by_cases hkk : k' = k
    · rw [hkk, hhartk]
      exact hrunning
    · exact absurd (hh.inv.one k' k t (hhart k' hkk ▸ hk') hk) hkk

theorem HartsHist.swtchOut (hh : HartsHist h st) {k t : ℕ} {rest : List Instr}
    (hk : (st.hart k).proc = some t) (hcode : (st.ctx (.thread t)).code = .swtch :: rest)
    (hd : (st.ctx (.thread t)).depth = 1) :
    let st' : HartsState := { st with
      hart := Function.update st.hart k { st.hart k with proc := none }
      ctx := Function.update
        (Function.update st.ctx (.thread t)
          { st.ctx (.thread t) with code := .setIntena (st.hart k).intena :: rest, held := ∅ })
        (.sched k) { st.ctx (.sched k) with held := {.proc t} } }
    HartsInv st' → HartsHist (h ++ [.other]) st' := by
  intro st' hinv
  have hthread : st'.ctx (.thread t) = ⟨.setIntena (st.hart k).intena :: rest,
      (st.ctx (.thread t)).depth, ∅⟩ := by simp [st']
  have hhart : ∀ k', k' ≠ k → st'.hart k' = st.hart k' := fun k' hne => by simp [st', hne]
  have hnone : (st'.hart k).proc = none := by simp [st']
  refine hh.changed (· = t) hinv (fun c => ?_) (fun t' ht' => ⟨nofun, by simp [st', ht'],
    fun k' hk' => hhart k' ?_⟩) ?_
  · rw [nesting_snoc]
    exact (hh.depth c).trans (depth_switch (by rfl) (by rfl)).symm
  · rintro rfl
    rw [hnone, hk] at hk'
    exact hk'.elim nofun fun h => ht' (Option.some.inj h).symm
  · rintro t rfl
    rw [hthread, intrOnSince_other, nesting_snoc]
    refine ⟨(hh.thread t).replace (.setIntena _) hcode nofun nofun nofun nofun _, fun k' hk' => ?_,
      fun _ b ho x => ?_⟩
    · have hne : k' ≠ k := by
        rintro rfl
        rw [hnone] at hk'
        cases hk'
      exact absurd (hh.inv.one k' k t (hhart k' hne ▸ hk') hk) hne
    · have hx := (hh.running k t hk).intena b (by rw [hd]; exact Nat.one_pos) ho
      rw [hcode] at hx
      exact hx

theorem HartsHist.swtchIn (hh : HartsHist h st) {k t : ℕ} (hoff : ∀ k', (st.hart k').proc ≠ some t)
    (hk : (st.hart k).proc = none) (hd : (st.ctx (.thread t)).depth = 1) :
    let st' : HartsState := { st with
      hart := Function.update st.hart k { st.hart k with proc := some t }
      ctx := Function.update (Function.update st.ctx (.sched k)
          { st.ctx (.sched k) with code := release (.proc t) ++ [.scan (t + 1)], held := ∅ })
        (.thread t) { st.ctx (.thread t) with held := {.proc t} }
      state := Function.update st.state t .running }
    HartsInv st' → HartsHist (h ++ [.other]) st' := by
  intro st' hinv
  have hthread : st'.ctx (.thread t) = { st.ctx (.thread t) with held := {.proc t} } := by
    simp [st']
  have hhartk : (st'.hart k).proc = some t := by simp [st']
  refine hh.changed (· = t) hinv (fun c => ?_) (fun t' ht' => ⟨nofun, by simp [st', ht'],
    fun k' hk' => ?_⟩) ?_
  · rw [nesting_snoc]
    exact (hh.depth c).trans (depth_switch (by rfl) (by rfl)).symm
  · have hne : k' ≠ k := by
      rintro rfl
      rw [hhartk, hk] at hk'
      exact hk'.elim (fun h => ht' (Option.some.inj h).symm) nofun
    simp [st', hne]
  · rintro t rfl
    have ht := hh.thread t
    have hne : ¬(st.ctx (.thread t)).depth = 0 := by omega
    rw [hthread, intrOnSince_other, nesting_snoc]
    refine ⟨⟨ht.depth, ht.chain, ht.once, ht.level, ht.known⟩, fun k' _ => ?_,
      fun hnot => absurd hhartk (hnot k)⟩
    exact ⟨fun b _ ho => hh.waiting t hoff b ho _, fun h0 => absurd h0 hne,
      fun _ _ _ h0 => absurd h0 hne⟩

theorem HartsHist.step (hh : HartsHist h st) (hs : HartStep n st e st') :
    HartsHist (h ++ [e]) st' := by
  obtain ⟨hinv, hmove⟩ := hs.move hh.inv
  cases hmove with
  | put state lock k hproc heff => exact hh.put hproc heff hinv
  | @swtchOut rest k t hk hcode hd => exact hh.swtchOut hk hcode hd hinv
  | swtchIn k t hoff hk hd => exact hh.swtchIn hoff hk hd hinv

theorem HartsHist.of_run (hrun : Run HartsState.Init (HartStep n) h st) : HartsHist h st :=
  hrun.invariant (P := HartsHist) (fun _ hi => hi.hist) fun _ _ _ _ hh hs => hh.step hs

/-- A `pop_off` that matches the outermost `push_off` of a thread. -/
theorem HartsHist.pop {t : ℕ} {sie b : Bool} (hh : HartsHist h st)
    (hs : HartStep n st (.pop (.thread t) sie) st')
    (hn : nesting (.thread t) h = ⟨1, some b⟩) : sie = b := by
  obtain ⟨-, hmove⟩ := hs.move hh.inv
  generalize he : HartEvent.pop (.thread t) sie = e at hmove
  cases hmove with
  | put state lock k hproc heff =>
    cases heff with
    | @pop r hcode hpos =>
      obtain ⟨hcur, hsie⟩ := HartEvent.pop.inj he
      have hk := HartsState.cur_eq_thread.1 hcur.symm
      have hd := hh.depth (.thread t)
      have hr := (hh.running k t hk).intena b (by rw [← hd, hn]; exact Nat.one_pos) (by rw [hn])
      rw [← hcur] at hcode hsie
      rw [hn] at hd
      rw [hcode] at hr
      rw [hsie, ← hd, ← hr]
      rfl
    | _ => cases he
  | _ => cases he

end Hist

/-! ## Sample runs -/

/-- The harts of a list do one instruction each; one that cannot does nothing. -/
def HartsState.execs (n : ℕ) : List ℕ → HartsState → List HartEvent × HartsState
  | [], st => ([], st)
  | k :: ks, st =>
    match st.exec n k with
    | none => st.execs n ks
    | some (e, st') => (e :: (st'.execs n ks).1, (st'.execs n ks).2)

/-- The hart `k` calls `op`. -/
def HartsState.call (st : HartsState) (k : ℕ) (op : HartCall) : HartsState :=
  st.put k (st.hart k) (st.cur k)
    { st.ctx (st.cur k) with code := op.code (st.cur k) ++ (st.ctx (st.cur k)).code }

/-- The harts and processes as `main` leaves them. -/
def bootHarts : HartsState where
  hart _ := ⟨false, 0, false, none⟩
  ctx
    | .sched _ => ⟨schedulerPass, 0, ∅⟩
    | .thread t => ⟨kthreadEntry t, 1, ∅⟩
  state _ := .runnable
  lock _ := none
  panic := none

/-- The process 0 has come to its function, on hart 0. -/
def entered : List HartEvent × HartsState := bootHarts.execs 1 (List.replicate 12 0)

/-- It has turned interrupts on. -/
def turnedOn : List HartEvent × HartsState := (entered.2.call 0 .intrOn).execs 1 [0]

/-- It is in a `push_off`. -/
def pushed : List HartEvent × HartsState := (turnedOn.2.call 0 .pushOff).execs 1 [0, 0]

/-- It has matched it. -/
def popped : List HartEvent × HartsState := (pushed.2.call 0 .popOff).execs 1 [0]

section Sample

variable {n : ℕ} {h : List HartEvent} {st : HartsState}

theorem Run.execs (hrun : Run HartsState.Init (HartStep n) h st) (ks : List ℕ) :
    Run HartsState.Init (HartStep n) (h ++ (st.execs n ks).1) (st.execs n ks).2 := by
  induction ks generalizing h st with
  | nil => simpa [HartsState.execs] using hrun
  | cons k ks ih =>
    unfold HartsState.execs
    cases hx : st.exec n k with
    | none => exact ih hrun
    | some r =>
      obtain ⟨e, st'⟩ := r
      simpa using ih (hrun.snoc (.exec k hx))

theorem bootHarts_init : bootHarts.Init :=
  ⟨fun _ => ⟨rfl, rfl⟩, fun _ => rfl, fun _ => rfl, fun _ => rfl, rfl⟩

theorem entered_run : Run HartsState.Init (HartStep 1) entered.1 entered.2 :=
  (Run.start bootHarts_init).execs (List.replicate 12 0)

theorem entered_cur : entered.2.cur 0 = .thread 0 := by decide +kernel

theorem entered_code : (entered.2.ctx (.thread 0)).code = [] := by decide +kernel

theorem entered_depth : (entered.2.ctx (.thread 0)).depth = 0 := by decide +kernel

/-- The process 0, in its function, calls `op` and does some instructions. -/
theorem Run.callExecs (hrun : Run HartsState.Init (HartStep n) h st) {op : HartCall} (ks : List ℕ)
    (hcur : st.cur 0 = .thread 0) (hcode : (st.ctx (.thread 0)).code = [])
    (ha : op.Allowed (.thread 0) (st.ctx (.thread 0))) :
    Run HartsState.Init (HartStep n) (h ++ [.other] ++ ((st.call 0 op).execs n ks).1)
      ((st.call 0 op).execs n ks).2 := by
  refine (hrun.snoc (.call 0 op ?_ ?_)).execs ks
  · rw [hcur]
    exact Or.inl hcode
  · rw [hcur]
    exact ha

theorem turnedOn_run :
    Run HartsState.Init (HartStep 1) (entered.1 ++ [.other] ++ turnedOn.1) turnedOn.2 :=
  entered_run.callExecs [0] entered_cur entered_code ⟨⟨0, rfl⟩, entered_depth, entered_code⟩

theorem pushed_run : Run HartsState.Init (HartStep 1)
    (entered.1 ++ [.other] ++ turnedOn.1 ++ [.other] ++ pushed.1) pushed.2 :=
  turnedOn_run.callExecs [0, 0] (by decide +kernel) (by decide +kernel) trivial

theorem popped_run : Run HartsState.Init (HartStep 1)
    (entered.1 ++ [.other] ++ turnedOn.1 ++ [.other] ++ pushed.1 ++ [.other] ++ popped.1)
    popped.2 := by
  have hheld : (pushed.2.ctx (.thread 0)).held.card < (pushed.2.ctx (.thread 0)).depth := by
    decide +kernel
  exact pushed_run.callExecs [0] (by decide +kernel) (by decide +kernel) hheld

theorem popped_last : popped.1 = [.pop (.thread 0) true] := by decide +kernel

end Sample

/-- In every schedule, nothing panics, `noff` counts the unmatched `push_off`s of what runs on
the hart, and the `pop_off` that matches the outermost `push_off` of a thread leaves interrupts as
the thread had them then. -/
theorem interrupts_follow_thread {n : ℕ} {h : List HartEvent} {st : HartsState}
    (hrun : Run HartsState.Init (HartStep n) h st) :
    st.panic = none ∧ (∀ k, (st.hart k).noff = (nesting (st.cur k) h).depth) ∧
    ∀ h₁ t sie b, h₁ ++ [.pop (.thread t) sie] <+: h → nesting (.thread t) h₁ = ⟨1, some b⟩ →
      sie = b := by
  have hh := HartsHist.of_run hrun
  refine ⟨hh.inv.panic, fun k => ?_, fun h₁ t sie b hpre hn => ?_⟩
  · rw [hh.inv.noff, hh.depth]
  · obtain ⟨st₁, st₂, hr₁, hs⟩ := hrun.at_event hpre
    exact (HartsHist.of_run hr₁).pop hs hn

theorem interrupts_follow_thread_pop : ∃ h st,
    Run HartsState.Init (HartStep 1) (h ++ [.pop (.thread 0) true]) st ∧
      nesting (.thread 0) h = ⟨1, some true⟩ ∧ st.panic = none ∧
      (st.hart 0).noff = (nesting (st.cur 0) (h ++ [.pop (.thread 0) true])).depth := by
  have hrun := popped_run
  rw [popped_last] at hrun
  obtain ⟨hpanic, hnoff, -⟩ := interrupts_follow_thread hrun
  exact ⟨_, popped.2, hrun, by decide +kernel, hpanic, hnoff 0⟩

/-- The state of a process changes only under its lock. -/
theorem HartsInv.state_locked {n k t : ℕ} {e : HartEvent} {st st' : HartsState}
    (hinv : HartsInv st) (hx : st.exec n k = some (e, st')) (hne : st'.state t ≠ st.state t) :
    .proc t ∈ (st.ctx (st.cur k)).held := by
  have hsafe := hinv.safe k
  have hset : ∀ {u s}, st'.state = Function.update st.state u s → u = t := fun h => by
    by_contra hc
    exact hne (by rw [h, Function.update_of_ne (Ne.symm hc)])
  unfold HartsState.exec at hx
  dsimp only at hx
  cases hcode : (st.ctx (st.cur k)).code with
  | nil => simp [hcode] at hx
  | cons i rest =>
    rw [hcode] at hx hsafe
    cases i with
    | setState s =>
      obtain ⟨-, u, hcur, hmem, -⟩ := hsafe
      simp only [hcur] at hx
      obtain ⟨-, rfl⟩ := Prod.mk.inj (Option.some.inj hx)
      exact hset rfl ▸ hmem
    | wake u =>
      obtain ⟨-, rfl⟩ := Prod.mk.inj (Option.some.inj hx)
      split_ifs at hne hset
      · exact hset rfl ▸ hsafe.1
      · exact absurd rfl hne
    | dispatch i =>
      obtain ⟨-, rfl⟩ := Prod.mk.inj (Option.some.inj hx)
      unfold HartsState.dispatch at hne hset
      split_ifs at hne hset
      · rw [hsafe.2.2.1, hset rfl]
        exact Finset.mem_singleton_self _
      · exact absurd rfl hne
    | _ =>
      grind [HartsState.popOff, HartsState.swtch, HartsState.put, HartsState.panics,
        HartsState.setLock]

/-- In every schedule a thread runs on one hart at most. What runs on a hart holds the locks that
are marked with it, so no lock is held twice, and has interrupts off then. A thread that does not
run holds no lock, and who changes the state of a process has its lock. -/
theorem locks_exclude {n : ℕ} {h : List HartEvent} {st : HartsState}
    (hrun : Run HartsState.Init (HartStep n) h st) :
    (∀ k k', st.cur k = st.cur k' → k = k') ∧
    (∀ lk k, st.lock lk = some k ↔ lk ∈ (st.ctx (st.cur k)).held) ∧
    (∀ lk k, st.lock lk = some k → (st.hart k).sie = false) ∧
    (∀ t, (∀ k, (st.hart k).proc ≠ some t) → (st.ctx (.thread t)).held = ∅) ∧
    ∀ k e st' t, st.exec n k = some (e, st') → st'.state t ≠ st.state t →
      st.lock (.proc t) = some k := by
  have hinv := (HartsHist.of_run hrun).inv
  refine ⟨fun _ _ => hinv.cur_inj, hinv.lock, fun lk k hl => hinv.sie k ?_,
    fun t ht => (hinv.offThread t ht).2.1, fun k e st' t hx hne => ?_⟩
  · have hheld := (hinv.lock lk k).1 hl
    exact (Finset.card_pos.2 ⟨lk, hheld⟩).trans_le (hinv.card k)
  · exact (hinv.lock _ k).2 (hinv.state_locked hx hne)

/-- The process 0 has come to its function on hart 0, and runs on no other. -/
theorem locks_exclude_entered : entered.2.cur 0 = .thread 0 ∧
    ∀ k, entered.2.cur k = .thread 0 → k = 0 :=
  ⟨entered_cur, fun k hk => (locks_exclude entered_run).1 k 0 (hk.trans entered_cur.symm)⟩

end Xv6Plus
