import Xv6Plus.Pipe
import Xv6Plus.Ring

/-!
# The byte stream of a pipe

The counters `nread` and `nwrite` are the numbers of bytes taken and put in, modulo `2 ^ 32`.
As `PIPESIZE` divides `2 ^ 32` the places in the ring go on over the wrap, and as it is smaller
the tests for an empty and for a full pipe are right.
-/

namespace Xv6Plus

/-- The bytes that were put into the pipe, in order. -/
def accepted (h : List PipeEvent) : List UInt8 :=
  h.filterMap fun e => match e with
    | .put _ ch => some ch
    | _ => none

/-- The bytes that were handed to readers, in order. -/
def taken (h : List PipeEvent) : List UInt8 :=
  h.filterMap fun e => match e with
    | .take _ ch => some ch
    | _ => none

/-- The bytes that the process `p` has put into the pipe since it called `pipewrite`. -/
def acceptedBy (p : ℕ) (h : List PipeEvent) : List UInt8 :=
  h.foldl (fun l e => match e with
    | .writeCall q => if q = p then [] else l
    | .put q ch => if q = p then l ++ [ch] else l
    | _ => l) []

theorem accepted_snoc (h : List PipeEvent) (e : PipeEvent) :
    accepted (h ++ [e]) = accepted h ++ match e with
      | .put _ ch => [ch]
      | _ => [] := by
  rw [accepted, accepted, List.filterMap_append]
  cases e <;> rfl

theorem taken_snoc (h : List PipeEvent) (e : PipeEvent) :
    taken (h ++ [e]) = taken h ++ match e with
      | .take _ ch => [ch]
      | _ => [] := by
  rw [taken, taken, List.filterMap_append]
  cases e <;> rfl

theorem acceptedBy_snoc (p : ℕ) (h : List PipeEvent) (e : PipeEvent) :
    acceptedBy p (h ++ [e]) = match e with
      | .writeCall q => if q = p then [] else acceptedBy p h
      | .put q ch => if q = p then acceptedBy p h ++ [ch] else acceptedBy p h
      | _ => acceptedBy p h := by
  rw [acceptedBy, List.foldl_append]
  rfl

/-- The number of bytes in the pipe. -/
def Pipe.unread (pi : Pipe) : ℕ := (pi.nwrite + 2 ^ 32 - pi.nread) % 2 ^ 32

/-- The local `i` of a process inside `pipewrite`. -/
def PipePc.count : PipePc → Option ℕ
  | .wantsWrite _ i | .writes _ i | .sleepsFull _ i => some i
  | _ => none

@[simp] theorem count_woken (c : Chan) (pc : PipePc) : (pc.woken c).count = pc.count := by
  cases c <;> cases pc <;> rfl

/-- No `copyin` or `copyout` fails. -/
def NoFault (_ : PipeState) (e : PipeEvent) : Prop := ∀ p, e ≠ .fault p

/-- The ring holds what was put in and not taken out. -/
structure StreamInv (h : List PipeEvent) (st : PipeState) : Prop where
  nwrite : st.pipe.nwrite = (accepted h).length % 2 ^ 32
  nread : st.pipe.nread = (taken h).length % 2 ^ 32
  taken_le : (taken h).length ≤ (accepted h).length
  room : (accepted h).length ≤ (taken h).length + pipeSize
  taken_eq : taken h = (accepted h).take (taken h).length
  ring : RingHolds pipeSize st.pipe.data (taken h).length (accepted h)

/-- The counts of the processes inside `pipewrite` are right, and so was what they returned. -/
structure CountInv (h : List PipeEvent) (st : PipeState) : Prop where
  count : ∀ p i, (st.pc p).count = some i → i = (acceptedBy p h).length
  ret : ∀ h₁ p (r : ℤ), h₁ ++ [.writeRet p r] <+: h → r = -1 ∨ r = (acceptedBy p h₁).length

section Stream

variable {h : List PipeEvent} {st st' : PipeState} {e : PipeEvent} {p : ℕ}

theorem PipeState.Init.stream (hi : st.Init) : StreamInv [] st := by
  obtain ⟨hr, hw, -⟩ := hi
  exact ⟨hw, hr, le_refl _, Nat.zero_le _, rfl, ringHolds_nil _ _⟩

theorem StreamInv.full_iff (hinv : StreamInv h st) :
    st.pipe.Full ↔ (accepted h).length = (taken h).length + pipeSize := by
  have h1 := hinv.nwrite
  have h2 := hinv.nread
  have h3 := hinv.taken_le
  have h4 := hinv.room
  simp only [Pipe.Full, pipeSize] at *
  omega

/-- A step that neither puts nor takes a byte. -/
theorem StreamInv.quiet (hinv : StreamInv h st) (hd : st'.pipe.data = st.pipe.data)
    (hr : st'.pipe.nread = st.pipe.nread) (hw : st'.pipe.nwrite = st.pipe.nwrite)
    (hput : ∀ q ch, e ≠ .put q ch) (htake : ∀ q ch, e ≠ .take q ch) :
    StreamInv (h ++ [e]) st' := by
  have ha : accepted (h ++ [e]) = accepted h := by
    rw [accepted_snoc]
    cases e <;> simp
    exact hput _ _ rfl
  have ht : taken (h ++ [e]) = taken h := by
    rw [taken_snoc]
    cases e <;> simp
    exact htake _ _ rfl
  refine ⟨?_, ?_, ?_, ?_, ?_, ?_⟩
  · rw [hw, ha, hinv.nwrite]
  · rw [hr, ht, hinv.nread]
  · rw [ha, ht]
    exact hinv.taken_le
  · rw [ha, ht]
    exact hinv.room
  · rw [ha, ht]
    exact hinv.taken_eq
  · rw [ha, ht, hd]
    exact hinv.ring

theorem StreamInv.move (hinv : StreamInv h st) (hm : PipeMove st e st')
    (hno : ∀ q, e ≠ .fault q) : StreamInv (h ++ [e]) st' := by
  cases hm with
  | put p n i ch hp hk hnot =>
    rw [hinv.full_iff] at hnot
    have hroom := hinv.room
    have ht : taken (h ++ [.put p ch]) = taken h := by simp [taken_snoc]
    have ha : accepted (h ++ [.put p ch]) = accepted h ++ [ch] := accepted_snoc _ _
    have hlen : (accepted h ++ [ch]).length = (accepted h).length + 1 := by simp
    have hplace : st.pipe.nwrite % pipeSize = (accepted h).length % pipeSize := by
      rw [hinv.nwrite]
      exact Nat.mod_mod_of_dvd _ (by decide)
    refine ⟨?_, ?_, ?_, ?_, ?_, ?_⟩
    · dsimp only
      rw [ha, hlen, hinv.nwrite, Nat.mod_add_mod]
    · rw [ht]
      exact hinv.nread
    · rw [ha, ht, hlen]
      exact hinv.taken_le.trans (Nat.le_succ _)
    · rw [ha, ht, hlen]
      omega
    · rw [ha, ht, List.take_append_of_le_length hinv.taken_le]
      exact hinv.taken_eq
    · dsimp only
      rw [ha, ht, hplace]
      exact hinv.ring.push (by omega) ch
  | take p n i hp hne =>
    have hlt : (taken h).length < (accepted h).length := by
      refine hinv.taken_le.lt_of_ne fun heq => hne ?_
      rw [hinv.nread, hinv.nwrite, heq]
    have hplace : st.pipe.nread % pipeSize = (taken h).length % pipeSize := by
      rw [hinv.nread]
      exact Nat.mod_mod_of_dvd _ (by decide)
    have ha : accepted (h ++ [.take p (st.pipe.data (st.pipe.nread % pipeSize))]) = accepted h := by
      simp [accepted_snoc]
    have ht : taken (h ++ [.take p (st.pipe.data (st.pipe.nread % pipeSize))]) =
        taken h ++ [st.pipe.data (st.pipe.nread % pipeSize)] := taken_snoc _ _
    have hlen : (taken h ++ [st.pipe.data (st.pipe.nread % pipeSize)]).length =
        (taken h).length + 1 := by simp
    refine ⟨?_, ?_, ?_, ?_, ?_, ?_⟩
    · rw [ha]
      exact hinv.nwrite
    · dsimp only
      rw [ht, hlen, hinv.nread, Nat.mod_add_mod]
    · rw [ha, ht, hlen]
      exact hlt
    · rw [ha, ht, hlen]
      exact hinv.room.trans (by omega)
    · rw [ha, ht, hlen, hplace, hinv.ring.head hlt, ← hinv.taken_eq]
    · rw [ha, ht, hlen]
      exact hinv.ring.drop (Nat.le_succ _)
  | lose p n i hp hne => exact absurd rfl (hno p)
  | wrote p n i e hp he =>
    rcases he with rfl | rfl
    · exact hinv.quiet rfl rfl rfl nofun nofun
    · exact absurd rfl (hno p)
  | _ => exact hinv.quiet rfl rfl rfl nofun nofun

theorem PipeState.Init.counts (hi : st.Init) : CountInv [] st := by
  obtain ⟨-, -, -, -, -, hpc⟩ := hi
  refine ⟨fun p i hp => ?_, fun h₁ p r hpre => ?_⟩
  · rw [hpc] at hp
    simp [PipePc.count] at hp
  · simp at hpre

/-- The process `p` gets to `c` with the event `e`, and others wake up. -/
theorem CountInv.set {c : PipePc} {f : PipePc → PipePc} (hinv : CountInv h st)
    (hf : ∀ x, (f x).count = x.count)
    (hpc : st'.pc = Function.update (fun q => f (st.pc q)) p c)
    (hother : ∀ q ≠ p, acceptedBy q (h ++ [e]) = acceptedBy q h)
    (hself : ∀ i, c.count = some i → i = (acceptedBy p (h ++ [e])).length)
    (hret : ∀ q (r : ℤ), e = .writeRet q r → r = -1 ∨ r = (acceptedBy q h).length) :
    CountInv (h ++ [e]) st' := by
  refine ⟨fun q i hq => ?_, fun h₁ q r hpre => ?_⟩
  · rw [hpc] at hq
    by_cases hqp : q = p
    · subst hqp
      exact hself i (by simpa using hq)
    · rw [hother q hqp]
      exact hinv.count q i (by simpa [hqp, hf] using hq)
  · rcases List.prefix_concat_iff.1 hpre with heq | hpre
    · obtain ⟨rfl, he⟩ := List.append_inj' heq rfl
      exact hret q r (List.singleton_inj.1 he).symm
    · exact hinv.ret h₁ q r hpre

/-- The process `p` leaves `pipewrite`, or is not inside it. -/
theorem CountInv.leave {c : PipePc} {f : PipePc → PipePc} (hinv : CountInv h st)
    (hf : ∀ x, (f x).count = x.count)
    (hpc : st'.pc = Function.update (fun q => f (st.pc q)) p c)
    (he : ∀ q, acceptedBy q (h ++ [e]) = acceptedBy q h) (hc : ∀ i, c.count = some i →
      (st.pc p).count = some i)
    (hret : ∀ q (r : ℤ), e = .writeRet q r → r = -1 ∨ r = (acceptedBy q h).length) :
    CountInv (h ++ [e]) st' :=
  hinv.set hf hpc (fun q _ => he q) (fun i hi => by rw [he]; exact hinv.count p i (hc i hi)) hret

theorem CountInv.move (hinv : CountInv h st) (hm : PipeMove st e st') :
    CountInv (h ++ [e]) st' := by
  have hid : ∀ x : PipePc, (id x).count = x.count := fun _ => rfl
  cases hm with
  | callWrite p n hp ho =>
    refine hinv.set hid rfl (fun q hq => ?_) (fun i hi => ?_) nofun
    · simp [acceptedBy_snoc, Ne.symm hq]
    · simp [acceptedBy_snoc]
      exact (Option.some.inj hi).symm
  | callRead p n hp ho =>
    exact hinv.leave hid rfl (fun q => acceptedBy_snoc q h _) nofun nofun
  | lockWrite p n i hp hl =>
    exact hinv.leave hid rfl (fun q => acceptedBy_snoc q h _) (fun j hj => by rw [hp]; exact hj)
      nofun
  | lockRead p n hp hl =>
    exact hinv.leave hid rfl (fun q => acceptedBy_snoc q h _) nofun nofun
  | gone p n i hp _ =>
    refine hinv.leave hid rfl (fun q => acceptedBy_snoc q h _) nofun fun q r he => ?_
    exact Or.inl (PipeEvent.writeRet.inj he).2.symm
  | full p n i hp _ _ =>
    exact hinv.leave (count_woken _) rfl (fun q => acceptedBy_snoc q h _)
      (fun j hj => by rw [hp]; exact hj) nofun
  | put p n i ch hp _ _ =>
    have hi : i = (acceptedBy p h).length := hinv.count p i (by rw [hp]; rfl)
    refine hinv.set hid rfl (fun q hq => ?_) (fun j hj => ?_) nofun
    · simp [acceptedBy_snoc, Ne.symm hq]
    · simp [acceptedBy_snoc, ← hi]
      exact (Option.some.inj hj).symm
  | wrote p n i e hp he =>
    rcases he with rfl | rfl
    · refine hinv.leave (count_woken _) rfl (fun q => acceptedBy_snoc q h _) nofun
        fun q r he => ?_
      obtain ⟨rfl, rfl⟩ := PipeEvent.writeRet.inj he
      exact Or.inr (by rw [← hinv.count p i (by rw [hp]; rfl)])
    · exact hinv.leave (count_woken _) rfl (fun q => acceptedBy_snoc q h _) nofun nofun
  | quit p n hp _ => exact hinv.leave hid rfl (fun q => acceptedBy_snoc q h _) nofun nofun
  | empty p n hp _ _ => exact hinv.leave hid rfl (fun q => acceptedBy_snoc q h _) nofun nofun
  | start p n hp => exact hinv.leave hid rfl (fun q => acceptedBy_snoc q h _) nofun nofun
  | take p n i hp _ => exact hinv.leave hid rfl (fun q => acceptedBy_snoc q h _) nofun nofun
  | lose p n i hp _ =>
    exact hinv.leave (count_woken _) rfl (fun q => acceptedBy_snoc q h _) nofun nofun
  | copied p n i hp =>
    exact hinv.leave (count_woken _) rfl (fun q => acceptedBy_snoc q h _) nofun nofun
  | closeWrite hl hout =>
    exact hinv.leave (p := 0) (count_woken _) (Function.update_eq_self 0 _).symm
      (fun q => acceptedBy_snoc q h _) (by simp) nofun
  | closeRead hl hout =>
    exact hinv.leave (p := 0) (count_woken _) (Function.update_eq_self 0 _).symm
      (fun q => acceptedBy_snoc q h _) (by simp) nofun
  | kill p sigkill =>
    exact hinv.leave hid rfl (fun q => acceptedBy_snoc q h _) (by simp) nofun

/-- The bytes in the ring, from `nread` to `nwrite`. -/
theorem StreamInv.contents (hinv : StreamInv h st) :
    st.pipe.unread = (accepted h).length - (taken h).length ∧
    (accepted h).drop (taken h).length = (List.range st.pipe.unread).map fun j =>
      st.pipe.data ((st.pipe.nread + j) % 2 ^ 32 % pipeSize) := by
  have h1 := hinv.nwrite
  have h2 := hinv.nread
  have h3 := hinv.taken_le
  have h4 := hinv.room
  have hun : st.pipe.unread = (accepted h).length - (taken h).length := by
    simp only [Pipe.unread, pipeSize] at *
    omega
  refine ⟨hun, List.ext_getElem (by simp [hun]) fun j hj hj' => ?_⟩
  rw [List.length_drop] at hj
  have hplace : (st.pipe.nread + j) % 2 ^ 32 % pipeSize = ((taken h).length + j) % pipeSize := by
    rw [h2, Nat.mod_add_mod]
    exact Nat.mod_mod_of_dvd _ (by decide)
  rw [List.getElem_drop, List.getElem_map, List.getElem_range, hplace]
  refine (hinv.ring _ _ (Nat.le_add_right _ _) ?_).symm
  exact List.getElem?_eq_getElem (by omega)

end Stream

/-- What readers have got is what writers have put in, in order, up to the bytes between `nread`
and `nwrite`, of which there are at most `PIPESIZE`; and a `pipewrite` that does not return
`-1` returns how many bytes it has put in. -/
theorem pipe_stream {h : List PipeEvent} {st : PipeState}
    (hrun : Run PipeState.Init (restrict PipeStep NoFault) h st) :
    accepted h = taken h ++ (List.range st.pipe.unread).map (fun j =>
      st.pipe.data ((st.pipe.nread + j) % 2 ^ 32 % pipeSize)) ∧
    st.pipe.unread ≤ pipeSize ∧
    ∀ h₁ p (r : ℤ), h₁ ++ [.writeRet p r] <+: h → r ≠ -1 → r = (acceptedBy p h₁).length := by
  obtain ⟨hs, hc⟩ : StreamInv h st ∧ CountInv h st :=
    hrun.invariant (P := fun h st => StreamInv h st ∧ CountInv h st)
      (fun _ hi => ⟨hi.stream, hi.counts⟩) fun _ _ _ _ hp hst =>
        ⟨hp.1.move hst.1.move hst.2, hp.2.move hst.1.move⟩
  obtain ⟨hun, hdrop⟩ := hs.contents
  have hroom := hs.room
  refine ⟨?_, by omega, fun h₁ p r hpre hr => (hc.ret h₁ p r hpre).resolve_left hr⟩
  conv_lhs => rw [← List.take_append_drop (taken h).length (accepted h)]
  rw [← hs.taken_eq, hdrop]

/-- A writer has put two bytes into a new pipe and returned, and a reader has got one of them. -/
theorem pipe_stream_two : ∃ h st, Run PipeState.Init (restrict PipeStep NoFault) h st ∧
    accepted h = [65, 66] ∧ taken h = [65] ∧ st.pipe.unread ≤ pipeSize := by
  have hrun : Run PipeState.Init (restrict PipeStep NoFault) _ _ :=
    (((((((((Run.start newPipe_init).snoc ⟨.callWrite 0 2 rfl rfl, nofun⟩).snoc
      ⟨.lockWrite (p := 0) (n := 2) (i := 0) rfl rfl, nofun⟩).snoc
      ⟨.write (p := 0) (n := 2) (i := 0) 65 rfl, nofun⟩).snoc
      ⟨.write (p := 0) (n := 2) (i := 1) 66 rfl, nofun⟩).snoc
      ⟨.write (p := 0) (n := 2) (i := 2) 67 rfl, nofun⟩).snoc
      ⟨.callRead 1 1 rfl rfl, nofun⟩).snoc ⟨.lockRead (p := 1) (n := 1) rfl rfl, nofun⟩).snoc
      ⟨.wait (p := 1) (n := 1) rfl, nofun⟩).snoc ⟨.copy (p := 1) (n := 1) (i := 0) rfl, nofun⟩
  exact ⟨_, _, hrun, rfl, rfl, (pipe_stream hrun).2.1⟩

/-! ## Reads into a buffer that ends -/

namespace Pipe

/-- The second loop of `piperead` from `i` on, with the rounds that are left. `room` bytes of the
destination can be written. The result is the returned value, the pipe, and the bytes that
`copyout` has stored. -/
def copyLoop (n : ℤ) (room : ℕ) : ℕ → ℕ → Pipe → ℤ × Pipe × List UInt8
  | 0, i, pi => (i, pi, [])
  | k + 1, i, pi =>
    match pi.copyRound n i (decide (i < room)) with
    | (pi', _, .next _) =>
      let r := copyLoop n room k (i + 1) pi'
      (r.1, r.2.1, pi.data (pi.nread % pipeSize) :: r.2.2)
    | (pi', _, .ret r) => (r, pi', [])
    | (pi', _, .sleep _) => (i, pi', [])

/-- `piperead` by a process that has the lock, or `none` if it goes to sleep. -/
def piperead (pi : Pipe) (killed : Bool) (n : ℤ) (room : ℕ) : Option (ℤ × Pipe × List UInt8) :=
  match (pi.waitRound killed n).2.2 with
  | .sleep _ => none
  | .ret r => some (r, pi, [])
  | .next _ => some (copyLoop n room n.toNat 0 pi)

/-- The pipe without its first `m` bytes. -/
def advance (pi : Pipe) (m : ℕ) : Pipe := { pi with nread := (pi.nread + m) % 2 ^ 32 }

/-- The first `m` bytes in the pipe. -/
def front (pi : Pipe) (m : ℕ) : List UInt8 :=
  (List.range m).map fun j => pi.data ((pi.nread + j) % 2 ^ 32 % pipeSize)

section Piperead

variable {pi : Pipe} {n : ℤ} {room i k m : ℕ}

theorem length_front (pi : Pipe) (m : ℕ) : (pi.front m).length = m := by
  rw [front, List.length_map, List.length_range]

theorem front_succ (hr : pi.nread < 2 ^ 32) (m : ℕ) :
    pi.front (m + 1) = pi.data (pi.nread % pipeSize) :: (pi.advance 1).front m := by
  rw [front, front, List.range_succ_eq_map, List.map_cons, List.map_map, Nat.add_zero,
    Nat.mod_eq_of_lt hr]
  congr 1
  refine List.map_congr_left fun j _ => congrArg pi.data ?_
  have hmod : ((pi.nread + 1) % 2 ^ 32 + j) % 2 ^ 32 = (pi.nread + (j + 1)) % 2 ^ 32 := by omega
  exact congrArg (· % pipeSize) hmod.symm

theorem advance_add (pi : Pipe) (m k : ℕ) : (pi.advance m).advance k = pi.advance (m + k) := by
  simp only [advance, mk.injEq, and_true, true_and]
  omega

theorem advance_zero (hr : pi.nread < 2 ^ 32) : pi.advance 0 = pi := by
  rw [advance, Nat.add_zero, Nat.mod_eq_of_lt hr]

theorem unread_eq_zero (hr : pi.nread < 2 ^ 32) (hw : pi.nwrite < 2 ^ 32) :
    pi.unread = 0 ↔ pi.nread = pi.nwrite := by
  rw [unread]
  omega

theorem unread_advance (hr : pi.nread < 2 ^ 32) (hw : pi.nwrite < 2 ^ 32)
    (hne : pi.nread ≠ pi.nwrite) : (pi.advance 1).unread = pi.unread - 1 := by
  simp only [unread, advance]
  omega

theorem copyLoop_next (hi : (i : ℤ) < n) (hne : pi.nread ≠ pi.nwrite) (hroom : i < room) :
    copyLoop n room (k + 1) i pi = ((copyLoop n room k (i + 1) (pi.advance 1)).1,
      (copyLoop n room k (i + 1) (pi.advance 1)).2.1,
      pi.data (pi.nread % pipeSize) :: (copyLoop n room k (i + 1) (pi.advance 1)).2.2) := by
  rw [copyLoop, copyRound, if_pos ⟨hi, hne⟩]
  simp only [decide_eq_true hroom, if_true]
  rfl

/-- The byte is taken out before `copyout` fails. -/
theorem copyLoop_fault (hi : (i : ℤ) < n) (hne : pi.nread ≠ pi.nwrite) (hroom : ¬i < room) :
    copyLoop n room (k + 1) i pi = ((i : ℤ), pi.advance 1, []) := by
  rw [copyLoop, copyRound, if_pos ⟨hi, hne⟩]
  simp only [decide_eq_false hroom]
  rfl

theorem copyLoop_empty (heq : pi.nread = pi.nwrite) :
    copyLoop n room k i pi = ((i : ℤ), pi, []) := by
  cases k with
  | zero => rfl
  | succ k =>
    rw [copyLoop, copyRound, if_neg fun h => h.2 heq]

/-- The loop delivers what there is room for. If that is less than what is there, one byte more is
taken out. -/
theorem copyLoop_eq : ∀ {k i : ℕ} {pi : Pipe}, pi.nread < 2 ^ 32 → pi.nwrite < 2 ^ 32 →
    (i : ℤ) + k ≤ n → i ≤ room → copyLoop n room k i pi =
      if min k pi.unread ≤ room - i then
        (((i + min k pi.unread : ℕ) : ℤ), pi.advance (min k pi.unread),
          pi.front (min k pi.unread))
      else ((room : ℤ), pi.advance (room - i + 1), pi.front (room - i))
  | 0, i, pi, hr, hw, hn, hi => by
    rw [copyLoop, Nat.zero_min, if_pos (Nat.zero_le _), advance_zero hr]
    rfl
  | k + 1, i, pi, hr, hw, hn, hi => by
    have hin : (i : ℤ) < n := by omega
    by_cases hne : pi.nread = pi.nwrite
    · rw [(unread_eq_zero hr hw).2 hne, Nat.min_zero, if_pos (Nat.zero_le _), advance_zero hr,
        copyLoop_empty hne]
      rfl
    have hpos : pi.unread ≠ 0 := fun h => hne ((unread_eq_zero hr hw).1 h)
    by_cases hroom : i < room
    · have hr' : (pi.advance 1).nread < 2 ^ 32 := Nat.mod_lt _ (by decide)
      have ih := copyLoop_eq hr' hw (show ((i + 1 : ℕ) : ℤ) + k ≤ n by omega) hroom
      rw [unread_advance hr hw hne] at ih
      rw [copyLoop_next hin hne hroom, ih, show min (k + 1) pi.unread =
        min k (pi.unread - 1) + 1 by omega]
      by_cases hle : min k (pi.unread - 1) ≤ room - (i + 1)
      · rw [if_pos hle, if_pos (by omega), front_succ hr, advance_add, Nat.add_comm 1,
          Nat.add_right_comm i 1, Nat.add_assoc i]
      · obtain ⟨d, hd⟩ : ∃ d, room - i = d + 1 := ⟨room - i - 1, by omega⟩
        rw [if_neg hle, if_neg (by omega), hd, front_succ hr, advance_add,
          show room - (i + 1) = d by omega, Nat.add_comm 1]
    · obtain rfl : i = room := by omega
      have hlt : ¬min (k + 1) pi.unread ≤ i - i := by omega
      rw [copyLoop_fault hin hne hroom, if_neg hlt, Nat.sub_self]
      rfl

end Piperead

/-- What is taken out of the pipe is what was delivered : `piperead` has returned `r` and stored
`out`, and the pipe is `pi'` now. -/
structure Delivered (pi : Pipe) (n : ℤ) (room : ℕ) (r : ℤ) (pi' : Pipe) (out : List UInt8) :
    Prop where
  out : 0 ≤ r → (out.length : ℤ) = r ∧ out = pi.front out.length ∧
    pi' = pi.advance out.length
  bad : pi.nread ≠ pi.nwrite → 0 < n → room = 0 → r = -1 ∧ pi' = pi

/-- `piperead` takes out what it delivers if and only if there is room for all that it would
read. -/
theorem piperead_delivered_iff {pi : Pipe} (hr : pi.nread < 2 ^ 32) (hw : pi.nwrite < 2 ^ 32)
    (killed : Bool) (n : ℤ) (room : ℕ) :
    (∀ r pi' out, pi.piperead killed n room = some (r, pi', out) →
      pi.Delivered n room r pi' out) ↔ min n.toNat pi.unread ≤ room := by
  by_cases hempty : pi.nread = pi.nwrite
  · have hloop : copyLoop n room n.toNat 0 pi = (0, pi, []) := copyLoop_empty hempty
    refine iff_of_true (fun r pi' out h => ⟨fun h0 => ?_, fun hne => absurd hempty hne⟩) ?_
    · have hpost : (r = -1 ∨ r = 0) ∧ pi' = pi ∧ out = [] := by
        rw [piperead, waitRound, hloop] at h
        split_ifs at h <;> obtain ⟨⟩ := h
        · exact ⟨Or.inl rfl, rfl, rfl⟩
        · exact ⟨Or.inr rfl, rfl, rfl⟩
      obtain ⟨hr', rfl, rfl⟩ := hpost
      refine ⟨?_, rfl, (advance_zero hr).symm⟩
      rw [List.length_nil]
      omega
    · rw [(unread_eq_zero hr hw).2 hempty, Nat.min_zero]
      exact Nat.zero_le _
  · have hpos : pi.unread ≠ 0 := fun h => hempty ((unread_eq_zero hr hw).1 h)
    have hread : pi.piperead killed n room = some (copyLoop n room n.toNat 0 pi) := by
      rw [piperead, waitRound, if_neg fun h => hempty h.1]
    by_cases hn : n ≤ 0
    · rw [hread, Int.toNat_of_nonpos hn, copyLoop]
      refine iff_of_true ?_ (by rw [Nat.zero_min]; exact Nat.zero_le _)
      rintro _ _ _ ⟨⟩
      exact ⟨fun _ => ⟨rfl, rfl, (advance_zero hr).symm⟩, fun _ h => absurd h (by omega)⟩
    rw [hread, copyLoop_eq hr hw (by omega) (Nat.zero_le room), Nat.sub_zero, Nat.zero_add]
    by_cases hle : min n.toNat pi.unread ≤ room
    · rw [if_pos hle]
      refine iff_of_true ?_ hle
      rintro _ _ _ ⟨⟩
      refine ⟨fun _ => ?_, fun _ _ h0 => absurd hle (by omega)⟩
      rw [length_front]
      exact ⟨rfl, rfl, rfl⟩
    · rw [if_neg hle]
      refine iff_of_false (fun h => ?_) hle
      obtain ⟨-, -, hpi⟩ := (h _ _ _ rfl).out (Int.natCast_nonneg _)
      have hread := congrArg Pipe.nread hpi
      rw [length_front] at hread
      simp only [advance] at hread
      omega

/-- One byte, one process that has put it in, and no room for it. -/
def oneByte : Pipe := ⟨fun _ => 65, 0, 1, true, true⟩

theorem piperead_delivered_one :
    min (Int.toNat 1) oneByte.unread ≤ 1 ∧ ∀ r pi' out,
      oneByte.piperead false 1 1 = some (r, pi', out) → oneByte.Delivered 1 1 r pi' out :=
  ⟨by decide, (piperead_delivered_iff (by decide) (by decide) false 1 1).2 (by decide)⟩

/-- `piperead` returns `0`, as at the end of the file, and the byte is lost. -/
theorem piperead_loses_byte :
    oneByte.piperead false 1 0 = some (0, oneByte.advance 1, []) ∧
      (oneByte.advance 1).unread = 0 ∧
      ¬∀ r pi' out, oneByte.piperead false 1 0 = some (r, pi', out) →
        oneByte.Delivered 1 0 r pi' out := by
  refine ⟨rfl, rfl, fun h => ?_⟩
  exact absurd ((h 0 (oneByte.advance 1) [] rfl).bad (by decide) (by decide) rfl).1 (by decide)

end Pipe

end Xv6Plus
