import Xv6Plus.Circle
import Xv6Plus.Count
import Xv6Plus.Steps

/-!
# The buffer cache : `kernel/bio.c`

Processes share `NBUF` buffers. What a call does under `bcache.lock` is one step; between these
steps a process waits for the sleep lock of a buffer, reads the block, or is on its way out of
`brelse`. `BcacheInv` says what the steps keep : the list through `head`, one buffer for a block,
and who is counted in `refcnt`. From it follows what the cache is for : `shown` reads off the
history what a block should contain, and `ContentInv` says that `bread` returns it.

The type `D` of the contents of a block is arbitrary.
-/

namespace Xv6Plus

/-! ## The code -/

abbrev nBuf : ℕ := 30

abbrev rootDev : ℕ := 1

/-- The node `bcache.head`; the others are the numbers of the buffers. -/
abbrev bhead : ℕ := nBuf

/-- `struct buf`; `lock` is the process that has the sleep lock. -/
structure Buf (D : Type) where
  valid : Bool
  dev : ℕ
  blockno : ℕ
  lock : Option ℕ
  refcnt : ℕ
  data : D

structure Bcache (D : Type) where
  buf : ℕ → Buf D
  links : Links ℕ

/-- The buffer carries the block. -/
def Buf.Carries {D : Type} (b : Buf D) (dev blockno : ℕ) : Prop :=
  b.dev = dev ∧ b.blockno = blockno

instance {D : Type} (b : Buf D) (dev blockno : ℕ) : Decidable (b.Carries dev blockno) :=
  inferInstanceAs (Decidable (_ ∧ _))

namespace Bcache

variable {D : Type}

def set (s : Bcache D) (b : ℕ) (v : Buf D) : Bcache D := { s with buf := Function.update s.buf b v }

/-- A round of the loop of `binit`. -/
def initBuf (s : Bcache D) (b : ℕ) : Bcache D :=
  { s.set b { s.buf b with lock := none } with links := s.links.pushFront bhead b }

def binit (s : Bcache D) : Bcache D :=
  (List.range nBuf).foldl initBuf { s with links :=
    ⟨Function.update s.links.next bhead bhead, Function.update s.links.prev bhead bhead⟩ }

/-- `bget`, up to `acquiresleep`. -/
def bget (dev blockno : ℕ) (s : Bcache D) : Except String (ℕ × Bcache D) :=
  match scan s.links.next bhead (fun b => decide ((s.buf b).Carries dev blockno)) (nBuf + 1)
      (s.links.next bhead) with
  | some b => .ok (b, s.set b { s.buf b with refcnt := (s.buf b).refcnt + 1 })
  | none =>
    match scan s.links.prev bhead (fun b => decide ((s.buf b).refcnt = 0)) (nBuf + 1)
        (s.links.prev bhead) with
    | some b =>
      .ok (b, s.set b
        { s.buf b with dev := dev, blockno := blockno, valid := false, refcnt := 1 })
    | none => .error "bget: no buffers"

/-- `bread` after `bget`, when the device holds `disk`. -/
def bread (b : ℕ) (disk : ℕ → D) (s : Bcache D) : Bcache D :=
  if (s.buf b).valid = false then
    s.set b { s.buf b with data := disk (s.buf b).blockno, valid := true }
  else s

/-- `bwrite` by the process `p` : what the device holds afterwards. -/
def bwrite (p b : ℕ) (disk : ℕ → D) (s : Bcache D) : Except String (ℕ → D) :=
  if (s.buf b).lock ≠ some p then .error "bwrite"
  else .ok (Function.update disk (s.buf b).blockno (s.buf b).data)

/-- `brelse` by the process `p`, up to `acquire(&bcache.lock)`. -/
def brelse (p b : ℕ) (s : Bcache D) : Except String (Bcache D) :=
  if (s.buf b).lock ≠ some p then .error "brelse"
  else .ok (s.set b { s.buf b with lock := none })

/-- The rest of `brelse`. -/
def unref (b : ℕ) (s : Bcache D) : Bcache D :=
  let s := s.set b { s.buf b with refcnt := (s.buf b).refcnt - 1 }
  if (s.buf b).refcnt = 0 then { s with links := (s.links.unlink b).pushFront bhead b } else s

def bpin (b : ℕ) (s : Bcache D) : Bcache D :=
  s.set b { s.buf b with refcnt := (s.buf b).refcnt + 1 }

def bunpin (b : ℕ) (s : Bcache D) : Bcache D :=
  s.set b { s.buf b with refcnt := (s.buf b).refcnt - 1 }

end Bcache

/-! ## Processes -/

/-- Where a process is. -/
inductive BioPc
  | idle
  /-- At `acquiresleep` in `bget`. -/
  | waiting (b blockno : ℕ)
  /-- In `bread`, with the sleep lock. -/
  | reading (b blockno : ℕ)
  /-- In `brelse`, without the sleep lock. -/
  | leaving (b : ℕ)

structure BioState (D : Type) where
  bcache : Bcache D
  /-- What the device holds. -/
  disk : ℕ → D
  pc : ℕ → BioPc
  /-- How often a buffer is pinned. -/
  pins : ℕ → ℕ

inductive BioEvent (D : Type)
  /-- `bget` takes a buffer from the block that it carries. -/
  | recycle (dev blockno : ℕ)
  /-- A process puts contents in a buffer that it holds. -/
  | put (blockno : ℕ) (v : D)
  /-- `bwrite`. -/
  | write (blockno : ℕ) (v : D)
  /-- `bread` returns. -/
  | read (p blockno : ℕ) (v : D)
  | other

/-- What `bget` does to the buffer that it returns. -/
def Buf.event {D : Type} (b : Buf D) (dev blockno : ℕ) : BioEvent D :=
  if b.Carries dev blockno then .other else .recycle b.dev b.blockno

/-- A step of one of `n` processes. -/
inductive BioStep {D : Type} (n : ℕ) : BioState D → BioEvent D → BioState D → Prop
  | bget {st : BioState D} {p blockno b : ℕ} {s : Bcache D} : p < n → st.pc p = .idle →
      st.bcache.bget rootDev blockno = .ok (b, s) →
      BioStep n st ((st.bcache.buf b).event rootDev blockno)
        { st with bcache := s, pc := Function.update st.pc p (.waiting b blockno) }
  | acquiresleep {st : BioState D} {p b blockno : ℕ} : p < n → st.pc p = .waiting b blockno →
      (st.bcache.buf b).lock = none →
      BioStep n st .other
        { st with
          bcache := st.bcache.set b { st.bcache.buf b with lock := some p }
          pc := Function.update st.pc p (.reading b blockno) }
  | bread {st : BioState D} {p b blockno : ℕ} : p < n → st.pc p = .reading b blockno →
      BioStep n st (.read p blockno ((st.bcache.bread b st.disk).buf b).data)
        { st with
          bcache := st.bcache.bread b st.disk
          pc := Function.update st.pc p .idle }
  | put {st : BioState D} {p b : ℕ} (v : D) : p < n → st.pc p = .idle →
      (st.bcache.buf b).lock = some p →
      BioStep n st (.put (st.bcache.buf b).blockno v)
        { st with bcache := st.bcache.set b { st.bcache.buf b with data := v } }
  | bwrite {st : BioState D} {p b : ℕ} {disk : ℕ → D} : p < n → st.pc p = .idle →
      st.bcache.bwrite p b st.disk = .ok disk →
      BioStep n st (.write (st.bcache.buf b).blockno (st.bcache.buf b).data)
        { st with disk := disk }
  | brelse {st : BioState D} {p b : ℕ} {s : Bcache D} : p < n → st.pc p = .idle →
      st.bcache.brelse p b = .ok s →
      BioStep n st .other
        { st with bcache := s, pc := Function.update st.pc p (.leaving b) }
  | unref {st : BioState D} {p b : ℕ} : p < n → st.pc p = .leaving b →
      BioStep n st .other
        { st with bcache := st.bcache.unref b, pc := Function.update st.pc p .idle }
  | bpin {st : BioState D} {p b : ℕ} : p < n → st.pc p = .idle → b < nBuf →
      BioStep n st .other
        { st with
          bcache := st.bcache.bpin b
          pins := Function.update st.pins b (st.pins b + 1) }
  | bunpin {st : BioState D} {p b : ℕ} : p < n → st.pc p = .idle → b < nBuf → 0 < st.pins b →
      BioStep n st .other
        { st with
          bcache := st.bcache.bunpin b
          pins := Function.update st.pins b (st.pins b - 1) }

/-- After `binit`, from memory that is zero. -/
structure BioState.Boot {D : Type} (disk₀ : ℕ → D) (st : BioState D) : Prop where
  bcache : ∃ s : Bcache D, (∀ b, (s.buf b).valid = false ∧ (s.buf b).dev = 0 ∧
    (s.buf b).refcnt = 0 ∧ (s.buf b).lock = none) ∧ st.bcache = s.binit
  disk : st.disk = disk₀
  pc : ∀ p, st.pc p = .idle
  pins : ∀ b, st.pins b = 0

/-! ## What a block should contain -/

section Shown

variable {D : Type}

/-- What the holders of the buffer of `blockno` have last put in it, unless it was recycled. -/
def lastPut (blockno : ℕ) (o : Option D) : BioEvent D → Option D
  | .put b v => if b = blockno then some v else o
  | .recycle dev b => if dev = rootDev ∧ b = blockno then none else o
  | _ => o

/-- What was last written to the block. -/
def lastWrite (blockno : ℕ) (d : D) : BioEvent D → D
  | .write b v => if b = blockno then v else d
  | _ => d

def cached (blockno : ℕ) (h : List (BioEvent D)) : Option D := h.foldl (lastPut blockno) none

def onDisk (disk₀ : ℕ → D) (blockno : ℕ) (h : List (BioEvent D)) : D :=
  h.foldl (lastWrite blockno) (disk₀ blockno)

def shown (disk₀ : ℕ → D) (blockno : ℕ) (h : List (BioEvent D)) : D :=
  (cached blockno h).getD (onDisk disk₀ blockno h)

end Shown

/-! ## The invariant -/

/-- How a process counts in `refcnt`, apart from the one that has the sleep lock. -/
def BioPc.refs (b : ℕ) : BioPc → ℕ
  | .waiting b' _ | .leaving b' => if b' = b then 1 else 0
  | _ => 0

def Buf.holders {D : Type} (b : Buf D) : ℕ := if b.lock = none then 0 else 1

/-- The buffer that a process is busy with. -/
def PcOk {D : Type} (s : Bcache D) (p : ℕ) : BioPc → Prop
  | .idle => True
  | .waiting b blockno => b < nBuf ∧ (s.buf b).Carries rootDev blockno
  | .reading b blockno => b < nBuf ∧ (s.buf b).Carries rootDev blockno ∧ (s.buf b).lock = some p
  | .leaving b => b < nBuf

/-- All buffers stand in the list through `head`. -/
def Links.All (s : Links ℕ) : Prop := ∃ l, l.Perm (List.range nBuf) ∧ Seg s bhead l bhead

structure BcacheInv {D : Type} (n : ℕ) (st : BioState D) : Prop where
  list : st.bcache.links.All
  unique : ∀ i < nBuf, ∀ j < nBuf, ∀ blockno, (st.bcache.buf i).Carries rootDev blockno →
    (st.bcache.buf j).Carries rootDev blockno → i = j
  refcnt : ∀ i < nBuf, (st.bcache.buf i).refcnt =
    (st.bcache.buf i).holders + tally n st.pc (BioPc.refs i) + st.pins i
  lock : ∀ i p, (st.bcache.buf i).lock = some p → p < n ∧ i < nBuf ∧
    (st.bcache.buf i).dev = rootDev ∧
    ((st.bcache.buf i).valid = true ∨ ∃ blockno, st.pc p = .reading i blockno)
  pcs : ∀ p, PcOk st.bcache p (st.pc p)
  idle : ∀ p, n ≤ p → st.pc p = .idle

section Links

variable {s : Links ℕ} {b : ℕ}

theorem Links.All.mem_range {l : List ℕ} (hl : l.Perm (List.range nBuf)) {i : ℕ} :
    i ∈ l ↔ i < nBuf := by
  rw [hl.mem_iff, List.mem_range]

theorem Links.All.nodup {l : List ℕ} (hl : l.Perm (List.range nBuf)) : (bhead :: l).Nodup := by
  rw [List.nodup_cons]
  exact ⟨fun h => Nat.lt_irrefl _ ((Links.All.mem_range hl).1 h), hl.nodup_iff.2 List.nodup_range⟩

/-- Moving a buffer behind the head. -/
theorem Links.All.move (hs : s.All) (hb : b < nBuf) : ((s.unlink b).pushFront bhead b).All := by
  obtain ⟨l, hl, hseg⟩ := hs
  have hnd := Links.All.nodup hl
  obtain ⟨l₁, l₂, rfl⟩ := List.append_of_mem ((Links.All.mem_range hl).2 hb)
  have hmid : (b :: (l₁ ++ l₂)).Perm (l₁ ++ b :: l₂) := List.perm_middle.symm
  have hnd' : (bhead :: b :: (l₁ ++ l₂)).Nodup := (hmid.cons bhead).nodup_iff.2 hnd
  have hnot : b ∉ bhead :: (l₁ ++ l₂) := by
    simp only [List.nodup_cons, List.mem_cons, not_or] at hnd' ⊢
    exact ⟨Ne.symm hnd'.1.1, hnd'.2.1⟩
  refine ⟨b :: (l₁ ++ l₂), hmid.trans hl, (hseg.unlink hnd).pushFront ?_ hnot⟩
  simp only [List.nodup_cons, List.mem_cons, not_or] at hnd' ⊢
  exact ⟨hnd'.1.2, hnd'.2.2⟩

/-- The loop over the list in either direction finds a buffer iff there is one. -/
theorem Links.All.scan_next (hs : s.All) (test : ℕ → Bool) :
    match scan s.next bhead test (nBuf + 1) (s.next bhead) with
    | some b => b < nBuf ∧ test b = true
    | none => ∀ b < nBuf, test b = false := by
  obtain ⟨l, hl, hseg⟩ := hs
  have hlen : l.length = nBuf := by rw [hl.length_eq, List.length_range]
  have hnot : bhead ∉ l := (List.nodup_cons.1 (Links.All.nodup hl)).1
  rw [hseg.scan_next hnot (by omega)]
  cases hf : l.find? test with
  | some b =>
    exact ⟨(Links.All.mem_range hl).1 (List.mem_of_find?_eq_some hf), List.find?_some hf⟩
  | none =>
    intro b hb
    simpa using List.find?_eq_none.1 hf b ((Links.All.mem_range hl).2 hb)

theorem Links.All.scan_prev (hs : s.All) (test : ℕ → Bool) :
    match scan s.prev bhead test (nBuf + 1) (s.prev bhead) with
    | some b => b < nBuf ∧ test b = true
    | none => ∀ b < nBuf, test b = false := by
  obtain ⟨l, hl, hseg⟩ := hs
  have hback : Links.All ⟨s.prev, s.next⟩ :=
    ⟨l.reverse, l.reverse_perm.trans hl, hseg.reverse⟩
  exact hback.scan_next test

end Links

section Inv

variable {D : Type} {n p b blockno : ℕ} {st st' : BioState D} {s : Bcache D} {v : Buf D}
  {c : BioPc} {e : BioEvent D}

theorem Bcache.set_self : (s.set b v).buf b = v := Function.update_self ..

theorem Bcache.set_of_ne {i : ℕ} (h : i ≠ b) : (s.set b v).buf i = s.buf i :=
  Function.update_of_ne h ..

/-- `bget` finds the buffer of the block, or recycles one that nobody uses. -/
theorem Bcache.bget_cases (hlist : s.links.All) {s' : Bcache D}
    (h : s.bget rootDev blockno = .ok (b, s')) :
    b < nBuf ∧ (((s.buf b).Carries rootDev blockno ∧
        s' = s.set b { s.buf b with refcnt := (s.buf b).refcnt + 1 }) ∨
      ((∀ i < nBuf, ¬(s.buf i).Carries rootDev blockno) ∧ (s.buf b).refcnt = 0 ∧
        s' = s.set b { s.buf b with
          dev := rootDev, blockno := blockno, valid := false, refcnt := 1 })) := by
  unfold Bcache.bget at h
  have hfirst := hlist.scan_next fun b => decide ((s.buf b).Carries rootDev blockno)
  cases hf : scan s.links.next bhead (fun b => decide ((s.buf b).Carries rootDev blockno))
      (nBuf + 1) (s.links.next bhead) with
  | some i =>
    rw [hf] at hfirst h
    obtain ⟨rfl, rfl⟩ := Prod.mk.inj (Except.ok.inj h)
    exact ⟨hfirst.1, Or.inl ⟨of_decide_eq_true hfirst.2, rfl⟩⟩
  | none =>
    rw [hf] at hfirst h
    dsimp only at h
    have hsecond := hlist.scan_prev fun b => decide ((s.buf b).refcnt = 0)
    cases hp : scan s.links.prev bhead (fun b => decide ((s.buf b).refcnt = 0))
        (nBuf + 1) (s.links.prev bhead) with
    | some i =>
      rw [hp] at hsecond h
      obtain ⟨rfl, rfl⟩ := Prod.mk.inj (Except.ok.inj h)
      exact ⟨hsecond.1, Or.inr ⟨fun j hj => of_decide_eq_false (hfirst j hj),
        of_decide_eq_true hsecond.2, rfl⟩⟩
    | none =>
      rw [hp] at h
      cases h

/-- Nobody holds, awaits or pins a buffer that is not counted. -/
theorem BcacheInv.unused (hinv : BcacheInv n st) (hb : b < nBuf)
    (h0 : (st.bcache.buf b).refcnt = 0) :
    (st.bcache.buf b).lock = none ∧ (∀ p, (st.pc p).refs b = 0) ∧ st.pins b = 0 := by
  have hcount := hinv.refcnt b hb
  rw [h0] at hcount
  refine ⟨?_, fun p => ?_, by omega⟩
  · by_contra hne
    rw [Buf.holders, if_neg hne] at hcount
    omega
  · by_cases hp : p < n
    · have hle := le_tally (f := st.pc) (g := BioPc.refs b) hp
      omega
    · rw [hinv.idle p (Nat.le_of_not_lt hp)]
      rfl

/-- The buffer keeps its identity, or nobody uses it and no buffer carries the new block. -/
def Buf.Keeps (old v : Buf D) (s : Bcache D) : Prop :=
  (v.dev = old.dev ∧ v.blockno = old.blockno) ∨
    (old.refcnt = 0 ∧ v.dev = rootDev ∧ ∀ i < nBuf, ¬(s.buf i).Carries rootDev v.blockno)

/-- One buffer changes, and where one process is. -/
theorem BcacheInv.update (hinv : BcacheInv n st) (hp : p < n) (hb : b < nBuf) {links : Links ℕ}
    {pins : ℕ → ℕ} (hlinks : links.All)
    (hid : (st.bcache.buf b).Keeps v st.bcache)
    (hcount : v.refcnt + ((st.bcache.buf b).holders + (st.pc p).refs b + st.pins b) =
      (st.bcache.buf b).refcnt + (v.holders + c.refs b + pins b))
    (hother : ∀ i, i ≠ b → c.refs i = (st.pc p).refs i ∧ pins i = st.pins i)
    (hpc : PcOk (st.bcache.set b v) p c) (hread : ∀ i k, i ≠ b → st.pc p ≠ .reading i k)
    (hkeep : ∀ q, q ≠ p → (st.bcache.buf b).lock = some q → v.lock = some q)
    (hlock : ∀ q, v.lock = some q → q < n ∧ v.dev = rootDev ∧
      (v.valid = true ∨ ∃ k, Function.update st.pc p c q = .reading b k)) :
    BcacheInv n ⟨⟨(st.bcache.set b v).buf, links⟩, st.disk, Function.update st.pc p c, pins⟩ := by
  -- a buffer that another process is busy with keeps its identity
  have hsame : ∀ q k, (st.pc q).refs b ≠ 0 ∨ (st.bcache.buf b).lock ≠ none →
      (st.bcache.buf b).Carries rootDev k → v.Carries rootDev k := by
    intro q k hbusy hk
    rcases hid with ⟨hdev, hblk⟩ | ⟨h0, -, -⟩
    · exact ⟨hdev.trans hk.1, hblk.trans hk.2⟩
    · obtain ⟨hl, hr, -⟩ := hinv.unused hb h0
      rcases hbusy with h | h
      · exact absurd (hr q) h
      · exact absurd hl h
  refine ⟨hlinks, fun i hi j hj k hik hjk => ?_, fun i hi => ?_, fun i q hq => ?_, fun q => ?_,
    fun q hq => ?_⟩
  · -- only the new identity of `b` matters
    have hold : ∀ i < nBuf, i ≠ b → ∀ k, (st.bcache.buf i).Carries rootDev k →
        v.Carries rootDev k → False := by
      intro i hi hne k hk hv
      rcases hid with ⟨hdev, hblk⟩ | ⟨-, -, hnone⟩
      · exact hne (hinv.unique i hi b hb k hk ⟨hdev.symm.trans hv.1, hblk.symm.trans hv.2⟩)
      · exact hnone i hi (hv.2 ▸ hk)
    dsimp only at hik hjk
    by_cases hib : i = b <;> by_cases hjb : j = b
    · rw [hib, hjb]
    · rw [hib, Bcache.set_self] at hik
      rw [Bcache.set_of_ne hjb] at hjk
      exact absurd hik fun h => hold j hj hjb k hjk h
    · rw [hjb, Bcache.set_self] at hjk
      rw [Bcache.set_of_ne hib] at hik
      exact absurd hjk fun h => hold i hi hib k hik h
    · rw [Bcache.set_of_ne hib] at hik
      rw [Bcache.set_of_ne hjb] at hjk
      exact hinv.unique i hi j hj k hik hjk
  · have hold := hinv.refcnt i hi
    have htally := tally_update (f := st.pc) (v := c) (g := BioPc.refs i) hp
    dsimp only
    by_cases hib : i = b
    · subst hib
      rw [Bcache.set_self]
      omega
    · rw [Bcache.set_of_ne hib]
      obtain ⟨hr, hpins⟩ := hother i hib
      omega
  · dsimp only at hq ⊢
    by_cases hib : i = b
    · subst hib
      rw [Bcache.set_self] at hq ⊢
      obtain ⟨hqn, hdev, hval⟩ := hlock q hq
      exact ⟨hqn, hb, hdev, hval⟩
    · rw [Bcache.set_of_ne hib] at hq ⊢
      obtain ⟨hqn, hi, hdev, hval⟩ := hinv.lock i q hq
      refine ⟨hqn, hi, hdev, hval.imp_right fun ⟨k, hk⟩ => ⟨k, ?_⟩⟩
      have hqp : q ≠ p := fun heq => hread i k hib (heq ▸ hk)
      rw [Function.update_of_ne hqp, hk]
  · dsimp only
    by_cases hqp : q = p
    · subst hqp
      rw [Function.update_self]
      exact hpc
    · rw [Function.update_of_ne hqp]
      have hold := hinv.pcs q
      cases hq : st.pc q with
      | idle => trivial
      | waiting i k =>
        rw [hq] at hold
        refine ⟨hold.1, ?_⟩
        by_cases hib : i = b
        · subst hib
          show ((st.bcache.set i v).buf i).Carries rootDev k
          rw [Bcache.set_self]
          exact hsame q k (Or.inl (by simp [hq, BioPc.refs])) hold.2
        · show ((st.bcache.set b v).buf i).Carries rootDev k
          rw [Bcache.set_of_ne hib]
          exact hold.2
      | reading i k =>
        rw [hq] at hold
        obtain ⟨hi, hc, hl⟩ := hold
        refine ⟨hi, ?_⟩
        by_cases hib : i = b
        · subst hib
          show ((st.bcache.set i v).buf i).Carries rootDev k ∧ _
          rw [Bcache.set_self]
          exact ⟨hsame q k (Or.inr (by simp [hl])) hc, hkeep q hqp hl⟩
        · show ((st.bcache.set b v).buf i).Carries rootDev k ∧ _
          rw [Bcache.set_of_ne hib]
          exact ⟨hc, hl⟩
      | leaving i =>
        rw [hq] at hold
        exact hold
  · have hqp : q ≠ p := fun heq => Nat.not_lt.2 hq (heq ▸ hp)
    dsimp only
    rw [Function.update_of_ne hqp]
    exact hinv.idle q hq

/-- The sleep lock and the contents stay as they are. -/
theorem BcacheInv.lock_same (hinv : BcacheInv n st) (hlock : v.lock = (st.bcache.buf b).lock)
    (hdev : v.dev = (st.bcache.buf b).dev) (hvalid : v.valid = (st.bcache.buf b).valid)
    (hpc : ∀ k, st.pc p ≠ .reading b k) (q : ℕ) (hq : v.lock = some q) :
    q < n ∧ v.dev = rootDev ∧
      (v.valid = true ∨ ∃ k, Function.update st.pc p c q = .reading b k) := by
  rw [hlock] at hq
  obtain ⟨hqn, -, hd, hval⟩ := hinv.lock b q hq
  refine ⟨hqn, hdev.trans hd, hval.imp hvalid.trans fun ⟨k, hk⟩ => ⟨k, ?_⟩⟩
  have hqp : q ≠ p := fun heq => hpc k (heq ▸ hk)
  rw [Function.update_of_ne hqp, hk]

/-- A call that changes only `refcnt` and the pins. -/
theorem BcacheInv.recount (hinv : BcacheInv n st) (hp : p < n) (hb : b < nBuf) {links : Links ℕ}
    {pins : ℕ → ℕ} {m : ℕ} (hlinks : links.All) (hpc : PcOk st.bcache p c)
    (hold : ∀ i k, st.pc p ≠ .reading i k) (hnew : ∀ i k, c ≠ .reading i k)
    (hcount : m + ((st.pc p).refs b + st.pins b) =
      (st.bcache.buf b).refcnt + (c.refs b + pins b))
    (hother : ∀ i, i ≠ b → c.refs i = (st.pc p).refs i ∧ pins i = st.pins i) :
    BcacheInv n ⟨⟨(st.bcache.set b { st.bcache.buf b with refcnt := m }).buf, links⟩, st.disk,
      Function.update st.pc p c, pins⟩ := by
  refine hinv.update hp hb hlinks (Or.inl ⟨rfl, rfl⟩) ?_ hother ?_ (fun i k _ => hold i k)
    (fun _ _ h => h) (hinv.lock_same rfl rfl rfl (hold b))
  · show m + ((st.bcache.buf b).holders + (st.pc p).refs b + st.pins b) =
      (st.bcache.buf b).refcnt + ((st.bcache.buf b).holders + c.refs b + pins b)
    omega
  · cases c with
    | idle => trivial
    | waiting i k =>
      refine ⟨hpc.1, ?_⟩
      by_cases hib : i = b
      · subst hib
        rw [Bcache.set_self]
        exact hpc.2
      · rw [Bcache.set_of_ne hib]
        exact hpc.2
    | reading i k => exact absurd rfl (hnew i k)
    | leaving i => exact hpc

theorem BcacheInv.bget (hinv : BcacheInv n st) (hp : p < n) (hidle : st.pc p = .idle)
    (h : st.bcache.bget rootDev blockno = .ok (b, s)) :
    BcacheInv n { st with bcache := s, pc := Function.update st.pc p (.waiting b blockno) } := by
  obtain ⟨hb, hcase⟩ := Bcache.bget_cases hinv.list h
  have hother : ∀ i, i ≠ b → (BioPc.waiting b blockno).refs i = (st.pc p).refs i ∧
      st.pins i = st.pins i := fun i hi => by simp [hidle, BioPc.refs, Ne.symm hi]
  rcases hcase with ⟨hc, rfl⟩ | ⟨hnone, h0, rfl⟩
  · refine hinv.recount hp hb hinv.list ⟨hb, hc⟩ (by simp [hidle]) nofun ?_ hother
    simp [hidle, BioPc.refs]
    omega
  · obtain ⟨hl, -, hpins⟩ := hinv.unused hb h0
    refine hinv.update hp hb hinv.list (Or.inr ⟨h0, rfl, hnone⟩) ?_ hother ⟨hb, ?_⟩
      (by simp [hidle]) (fun q _ hq => hq) fun q hq => ?_
    · simp [hidle, BioPc.refs, Buf.holders, hl, h0]
    · rw [Bcache.set_self]
      exact ⟨rfl, rfl⟩
    · rw [show _ = none from hl] at hq
      cases hq

theorem Bcache.brelse_ok {s' : Bcache D} (h : s.brelse p b = .ok s') :
    (s.buf b).lock = some p ∧ s' = s.set b { s.buf b with lock := none } := by
  unfold Bcache.brelse at h
  by_cases hl : (s.buf b).lock = some p
  · rw [if_neg (not_not.2 hl)] at h
    exact ⟨hl, (Except.ok.inj h).symm⟩
  · rw [if_pos hl] at h
    cases h

/-- `bread` as a change of the buffer. -/
theorem Bcache.bread_eq (disk : ℕ → D) : s.bread b disk = s.set b { s.buf b with
    valid := true
    data := if (s.buf b).valid = true then (s.buf b).data else disk (s.buf b).blockno } := by
  unfold Bcache.bread
  cases hv : (s.buf b).valid with
  | false => simp
  | true =>
    simp only [Bool.true_eq_false, if_false, if_true]
    rw [← hv]
    show s = ⟨Function.update s.buf b (s.buf b), s.links⟩
    rw [Function.update_eq_self]

theorem BcacheInv.bread (hinv : BcacheInv n st) (hp : p < n) (hpc : st.pc p = .reading b blockno) :
    BcacheInv n { st with
      bcache := st.bcache.bread b st.disk
      pc := Function.update st.pc p .idle } := by
  have hold := hinv.pcs p
  rw [hpc] at hold
  rw [Bcache.bread_eq]
  refine hinv.update hp hold.1 hinv.list (Or.inl ⟨rfl, rfl⟩) ?_ (fun i hi => ?_) trivial
    (fun i k hi heq => ?_) (fun _ _ h => h) fun q hq => ?_
  · rw [hpc]
    rfl
  · rw [hpc]
    exact ⟨rfl, rfl⟩
  · rw [hpc] at heq
    exact hi (BioPc.reading.inj heq).1.symm
  · obtain ⟨hqn, -, hdev, -⟩ := hinv.lock b q hq
    exact ⟨hqn, hdev, Or.inl rfl⟩

theorem BcacheInv.unref (hinv : BcacheInv n st) (hp : p < n) (hpc : st.pc p = .leaving b) :
    BcacheInv n { st with
      bcache := st.bcache.unref b
      pc := Function.update st.pc p .idle } := by
  have hb := hinv.pcs p
  rw [hpc] at hb
  have hcount := hinv.refcnt b hb
  have hle := le_tally (f := st.pc) (g := BioPc.refs b) hp
  have hone : (st.pc p).refs b = 1 := by simp [hpc, BioPc.refs]
  have hset : ∀ {links : Links ℕ}, links.All → BcacheInv n
      ⟨⟨(st.bcache.set b { st.bcache.buf b with refcnt := (st.bcache.buf b).refcnt - 1 }).buf,
        links⟩, st.disk, Function.update st.pc p .idle, st.pins⟩ := fun hlinks => by
    refine hinv.recount hp hb hlinks trivial (by simp [hpc]) nofun ?_ fun i hi => ?_
    · rw [hone]
      show _ = (st.bcache.buf b).refcnt + (0 + st.pins b)
      omega
    · simp [hpc, BioPc.refs, Ne.symm hi]
  unfold Bcache.unref
  dsimp only
  split_ifs
  · exact hset (hinv.list.move hb)
  · exact hset hinv.list

theorem BcacheInv.step (hinv : BcacheInv n st) (hs : BioStep n st e st') : BcacheInv n st' := by
  cases hs with
  | bget hp hidle h => exact hinv.bget hp hidle h
  | @acquiresleep p b k hp hpc hfree =>
    have hold := hinv.pcs p
    rw [hpc] at hold
    refine hinv.update hp hold.1 hinv.list (Or.inl ⟨rfl, rfl⟩) ?_ (fun i hi => ?_) ⟨hold.1, ?_⟩
      (by simp [hpc]) (fun q _ hq => ?_) fun q hq => ?_
    · simp [hpc, BioPc.refs, Buf.holders, hfree]
    · simp [hpc, BioPc.refs, Ne.symm hi]
    · rw [Bcache.set_self]
      exact ⟨hold.2, rfl⟩
    · rw [hfree] at hq
      cases hq
    · obtain rfl := Option.some.inj hq
      exact ⟨hp, hold.2.1, Or.inr ⟨k, Function.update_self ..⟩⟩
  | @bread p b k hp hpc => exact hinv.bread hp hpc
  | @put p b v hp hidle hl =>
    have hb : b < nBuf := (hinv.lock b p hl).2.1
    have hset := hinv.update (c := .idle) (v := { st.bcache.buf b with data := v }) hp hb hinv.list
      (Or.inl ⟨rfl, rfl⟩) (by rw [hidle]; rfl) (fun i _ => by rw [hidle]; exact ⟨rfl, rfl⟩) trivial
      (by simp [hidle]) (fun _ _ h => h) (hinv.lock_same rfl rfl rfl (by simp [hidle]))
    rw [← hidle, Function.update_eq_self] at hset
    exact hset
  | bwrite hp hidle h =>
    exact ⟨hinv.list, hinv.unique, hinv.refcnt, hinv.lock, hinv.pcs, hinv.idle⟩
  | @brelse p b s hp hidle h =>
    obtain ⟨hl, rfl⟩ := Bcache.brelse_ok h
    have hb : b < nBuf := (hinv.lock b p hl).2.1
    refine hinv.update hp hb hinv.list (Or.inl ⟨rfl, rfl⟩) ?_ (fun i hi => ?_) hb (by simp [hidle])
      (fun q hqp hq => ?_) nofun
    · simp [hidle, BioPc.refs, Buf.holders, hl]
    · simp [hidle, BioPc.refs, Ne.symm hi]
    · rw [hl] at hq
      exact absurd (Option.some.inj hq).symm hqp
  | @unref p b hp hpc => exact hinv.unref hp hpc
  | @bpin p b hp hidle hb =>
    have hset := hinv.recount (c := .idle) (m := (st.bcache.buf b).refcnt + 1) hp hb hinv.list
      trivial (by simp [hidle]) nofun (by
        rw [hidle, Function.update_self]
        omega) fun i hi => ⟨by rw [hidle], Function.update_of_ne hi (st.pins b + 1) st.pins⟩
    rw [← hidle, Function.update_eq_self] at hset
    exact hset
  | @bunpin p b hp hidle hb hpos =>
    have hcount := hinv.refcnt b hb
    have hset := hinv.recount (c := .idle) (m := (st.bcache.buf b).refcnt - 1) hp hb hinv.list
      trivial (by simp [hidle]) nofun (by
        rw [hidle, Function.update_self]
        omega) fun i hi => ⟨by rw [hidle], Function.update_of_ne hi (st.pins b - 1) st.pins⟩
    rw [← hidle, Function.update_eq_self] at hset
    exact hset

end Inv

/-! ## Starting -/

section Boot

variable {D : Type} {n : ℕ} {disk₀ : ℕ → D} {st : BioState D} {s : Bcache D}

/-- The loop of `binit` puts the buffers behind the head one after the other. -/
theorem Bcache.foldl_initBuf (hseg : Seg s.links bhead [] bhead) :
    ∀ m ≤ nBuf, Seg ((List.range m).foldl Bcache.initBuf s).links bhead (List.range m).reverse bhead
  | 0, _ => hseg
  | m + 1, hm => by
    have hnot : ∀ i, m ≤ i → i ∉ (List.range m).reverse := fun i hi hmem => by
      rw [List.mem_reverse, List.mem_range] at hmem
      omega
    have ih := foldl_initBuf hseg m (Nat.le_of_succ_le hm)
    have hnd : (bhead :: (List.range m).reverse).Nodup :=
      List.nodup_cons.2 ⟨hnot _ (Nat.le_of_succ_le hm), List.nodup_reverse.2 List.nodup_range⟩
    rw [List.range_succ, List.foldl_append, List.reverse_append]
    refine ih.pushFront hnd fun hmem => ?_
    rcases List.mem_cons.1 hmem with h | h
    · exact absurd h (Nat.ne_of_lt hm)
    · exact hnot m (Nat.le_refl m) h

/-- `binit` changes nothing of the buffers but their locks. -/
theorem Bcache.foldl_initBuf_buf (hs : ∀ b, (s.buf b).lock = none) (l : List ℕ) :
    (l.foldl Bcache.initBuf s).buf = s.buf := by
  induction l generalizing s with
  | nil => rfl
  | cons b l ih =>
    have hsame : (s.initBuf b).buf = s.buf := by
      have hv : { s.buf b with lock := none } = s.buf b := by rw [← hs b]
      show Function.update s.buf b _ = _
      rw [hv, Function.update_eq_self]
    rw [List.foldl_cons, ih fun b' => by rw [hsame, hs], hsame]

theorem Bcache.binit_buf (hs : ∀ b, (s.buf b).lock = none) : s.binit.buf = s.buf := by
  unfold Bcache.binit
  rw [Bcache.foldl_initBuf_buf]
  exact hs

theorem BioState.Boot.inv (hi : st.Boot disk₀) : BcacheInv n st := by
  obtain ⟨s, hs, hst⟩ := hi.bcache
  have hbuf : st.bcache.buf = s.buf := by
    rw [hst, Bcache.binit_buf fun b => (hs b).2.2.2]
  refine ⟨?_, fun i _ j _ k hk => ?_, fun i _ => ?_, fun i p hp => ?_, fun p => ?_,
    fun p _ => hi.pc p⟩
  · refine ⟨(List.range nBuf).reverse, List.reverse_perm _, ?_⟩
    rw [hst]
    refine Bcache.foldl_initBuf ⟨?_, ?_⟩ nBuf (Nat.le_refl _)
    · simp
    · simp
  · rw [hbuf] at hk
    exact absurd ((hs i).2.1.symm.trans hk.1) (by decide)
  · rw [hbuf, (hs i).2.2.1, Buf.holders, if_pos (hs i).2.2.2, hi.pins,
      tally_eq_zero fun p _ => by rw [hi.pc]; rfl]
  · rw [hbuf, (hs i).2.2.2] at hp
    cases hp
  · rw [hi.pc]
    trivial

end Boot

/-! ## Contents -/

structure ContentInv {D : Type} (disk₀ : ℕ → D) (h : List (BioEvent D)) (st : BioState D) : Prop
    where
  valid : ∀ i < nBuf, ∀ blockno, (st.bcache.buf i).Carries rootDev blockno →
    (st.bcache.buf i).valid = true → (st.bcache.buf i).data = shown disk₀ blockno h
  /-- Only through a buffer that is valid are contents put. -/
  unread : ∀ blockno, (∀ i < nBuf, (st.bcache.buf i).Carries rootDev blockno →
    (st.bcache.buf i).valid = false) → cached blockno h = none
  disk : ∀ blockno, st.disk blockno = onDisk disk₀ blockno h

section Content

variable {D : Type} {n p b blockno : ℕ} {disk₀ : ℕ → D} {h : List (BioEvent D)}
  {st st' : BioState D} {e : BioEvent D}

theorem cached_snoc : cached blockno (h ++ [e]) = lastPut blockno (cached blockno h) e := by
  simp [cached]

theorem onDisk_snoc : onDisk disk₀ blockno (h ++ [e]) =
    lastWrite blockno (onDisk disk₀ blockno h) e := by
  simp [onDisk]

/-- A step that leaves the contents alone. -/
theorem ContentInv.same (hc : ContentInv disk₀ h st)
    (hbuf : ∀ i, (st'.bcache.buf i).dev = (st.bcache.buf i).dev ∧
      (st'.bcache.buf i).blockno = (st.bcache.buf i).blockno ∧
      (st'.bcache.buf i).valid = (st.bcache.buf i).valid ∧
      (st'.bcache.buf i).data = (st.bcache.buf i).data)
    (hdisk : st'.disk = st.disk) : ContentInv disk₀ (h ++ [.other]) st' := by
  refine ⟨fun i hi k hk hv => ?_, fun k hk => ?_, fun k => ?_⟩
  · obtain ⟨hdev, hblk, hval, hdata⟩ := hbuf i
    rw [hdata, shown, cached_snoc, onDisk_snoc]
    exact hc.valid i hi k ⟨hdev.symm.trans hk.1, hblk.symm.trans hk.2⟩ (hval.symm.trans hv)
  · rw [cached_snoc]
    refine hc.unread k fun i hi hik => ?_
    obtain ⟨hdev, hblk, hval, -⟩ := hbuf i
    exact hval.symm.trans (hk i hi ⟨hdev.trans hik.1, hblk.trans hik.2⟩)
  · rw [hdisk, onDisk_snoc]
    exact hc.disk k

/-- A process finds the buffer that carries a block, and only that one. -/
theorem BcacheInv.carries_iff (hinv : BcacheInv n st) {i : ℕ} (hb : b < nBuf) (hi : i < nBuf)
    (hcar : (st.bcache.buf b).Carries rootDev blockno) :
    (st.bcache.buf i).Carries rootDev blockno ↔ i = b := by
  refine ⟨fun h => hinv.unique i hi b hb blockno h hcar, ?_⟩
  rintro rfl
  exact hcar

theorem ContentInv.recycle (hc : ContentInv disk₀ h st) (hinv : BcacheInv n st) (hb : b < nBuf)
    {pc : ℕ → BioPc} {m : ℕ} :
    ContentInv disk₀ (h ++ [.recycle (st.bcache.buf b).dev (st.bcache.buf b).blockno])
      { st with
        bcache := st.bcache.set b { st.bcache.buf b with
          dev := rootDev, blockno := blockno, valid := false, refcnt := m }
        pc := pc } := by
  refine ⟨fun i hi k hk hv => ?_, fun k hk => ?_, fun k => ?_⟩
  · -- a valid buffer is another one, of another block
    dsimp only at hk hv ⊢
    have hib : i ≠ b := by
      rintro rfl
      rw [Bcache.set_self] at hv
      cases hv
    rw [Bcache.set_of_ne hib] at hk hv ⊢
    have hne : ¬((st.bcache.buf b).dev = rootDev ∧ (st.bcache.buf b).blockno = k) := fun hcar =>
      hib (hinv.unique i hi b hb k hk hcar)
    rw [shown, cached_snoc, onDisk_snoc, lastPut, if_neg hne]
    exact hc.valid i hi k hk hv
  · rw [cached_snoc, lastPut]
    split_ifs with hcar
    · rfl
    · refine hc.unread k fun i hi hik => ?_
      have hib : i ≠ b := by
        rintro rfl
        exact hcar hik
      have hold := hk i hi
      dsimp only at hold
      rw [Bcache.set_of_ne hib] at hold
      exact hold hik
  · rw [onDisk_snoc]
    exact hc.disk k

theorem ContentInv.put (hc : ContentInv disk₀ h st) (hinv : BcacheInv n st) (hb : b < nBuf)
    (hdev : (st.bcache.buf b).dev = rootDev) (hval : (st.bcache.buf b).valid = true) (v : D) :
    ContentInv disk₀ (h ++ [.put (st.bcache.buf b).blockno v])
      { st with bcache := st.bcache.set b { st.bcache.buf b with data := v } } := by
  refine ⟨fun i hi k hk hv => ?_, fun k hk => ?_, fun k => ?_⟩
  · dsimp only at hk hv ⊢
    rw [shown, cached_snoc, onDisk_snoc, lastPut]
    by_cases hib : i = b
    · subst hib
      rw [Bcache.set_self] at hk ⊢
      rw [if_pos (show (st.bcache.buf i).blockno = k from hk.2)]
      rfl
    · rw [Bcache.set_of_ne hib] at hk hv ⊢
      rw [if_neg fun heq => hib (hinv.unique i hi b hb k hk ⟨hdev, heq⟩)]
      exact hc.valid i hi k hk hv
  · have hne : (st.bcache.buf b).blockno ≠ k := fun heq => by
      have hb' := hk b hb
      dsimp only at hb'
      rw [Bcache.set_self] at hb'
      exact Bool.false_ne_true ((hb' ⟨hdev, heq⟩).symm.trans hval)
    rw [cached_snoc, lastPut, if_neg hne]
    refine hc.unread k fun i hi hik => ?_
    have hib : i ≠ b := by
      rintro rfl
      exact hne hik.2
    have hold := hk i hi
    dsimp only at hold
    rw [Bcache.set_of_ne hib] at hold
    exact hold hik
  · rw [onDisk_snoc]
    exact hc.disk k

theorem ContentInv.write (hc : ContentInv disk₀ h st) (hb : b < nBuf)
    (hdev : (st.bcache.buf b).dev = rootDev) (hval : (st.bcache.buf b).valid = true) :
    ContentInv disk₀ (h ++ [.write (st.bcache.buf b).blockno (st.bcache.buf b).data])
      { st with disk :=
        Function.update st.disk (st.bcache.buf b).blockno (st.bcache.buf b).data } := by
  have hshown := hc.valid b hb _ ⟨hdev, rfl⟩ hval
  refine ⟨fun i hi k hk hv => ?_, fun k hk => ?_, fun k => ?_⟩
  · have hput : ∀ b v, lastPut k (cached k h) (.write b v) = cached k h := fun _ _ => rfl
    rw [hc.valid i hi k hk hv, shown, shown, cached_snoc, onDisk_snoc, hput, lastWrite]
    by_cases heq : (st.bcache.buf b).blockno = k
    · rw [if_pos heq, hshown, heq, shown]
      cases cached k h <;> rfl
    · rw [if_neg heq]
  · rw [cached_snoc]
    exact hc.unread k hk
  · dsimp only
    rw [onDisk_snoc, lastWrite]
    by_cases heq : (st.bcache.buf b).blockno = k
    · rw [if_pos heq, heq, Function.update_self]
    · rw [if_neg heq, Function.update_of_ne (Ne.symm heq)]
      exact hc.disk k

theorem ContentInv.bread_data (hc : ContentInv disk₀ h st) (hinv : BcacheInv n st) (hb : b < nBuf)
    (hcar : (st.bcache.buf b).Carries rootDev blockno) :
    ((st.bcache.bread b st.disk).buf b).data = shown disk₀ blockno h := by
  rw [Bcache.bread_eq, Bcache.set_self]
  dsimp only
  split_ifs with hv
  · exact hc.valid b hb blockno hcar hv
  · have hnone : cached blockno h = none := hc.unread blockno fun i hi hi' => by
      rw [(hinv.carries_iff hb hi hcar).1 hi']
      exact Bool.not_eq_true _ ▸ hv
    rw [shown, hnone, hcar.2, hc.disk]
    rfl

theorem ContentInv.read (hc : ContentInv disk₀ h st) (hinv : BcacheInv n st) (hb : b < nBuf)
    (hcar : (st.bcache.buf b).Carries rootDev blockno) {v : D} {pc : ℕ → BioPc} :
    ContentInv disk₀ (h ++ [.read p blockno v])
      { st with bcache := st.bcache.bread b st.disk, pc := pc } := by
  have hdata := hc.bread_data hinv hb hcar
  rw [Bcache.bread_eq] at hdata ⊢
  refine ⟨fun i hi k hk hv => ?_, fun k hk => ?_, fun k => ?_⟩
  · dsimp only at hk hv ⊢
    rw [shown, cached_snoc, onDisk_snoc]
    by_cases hib : i = b
    · subst hib
      rw [Bcache.set_self] at hk
      obtain rfl : blockno = k := hcar.2.symm.trans hk.2
      exact hdata
    · rw [Bcache.set_of_ne hib] at hk hv ⊢
      exact hc.valid i hi k hk hv
  · rw [cached_snoc]
    refine hc.unread k fun i hi hik => ?_
    have hold := hk i hi
    dsimp only at hold
    by_cases hib : i = b
    · subst hib
      rw [Bcache.set_self] at hold
      exact absurd (hold hik) nofun
    · rw [Bcache.set_of_ne hib] at hold
      exact hold hik
  · rw [onDisk_snoc]
    exact hc.disk k

theorem Bcache.bwrite_ok {s : Bcache D} {disk disk' : ℕ → D} (hw : s.bwrite p b disk = .ok disk') :
    (s.buf b).lock = some p ∧ disk' = Function.update disk (s.buf b).blockno (s.buf b).data := by
  unfold Bcache.bwrite at hw
  by_cases hl : (s.buf b).lock = some p
  · rw [if_neg (not_not.2 hl)] at hw
    exact ⟨hl, (Except.ok.inj hw).symm⟩
  · rw [if_pos hl] at hw
    cases hw

/-- A process that is not in `bread` has read what it holds. -/
theorem BcacheInv.holder (hinv : BcacheInv n st) (hidle : st.pc p = .idle)
    (hl : (st.bcache.buf b).lock = some p) :
    b < nBuf ∧ (st.bcache.buf b).dev = rootDev ∧ (st.bcache.buf b).valid = true := by
  obtain ⟨-, hb, hdev, hval⟩ := hinv.lock b p hl
  refine ⟨hb, hdev, hval.resolve_right ?_⟩
  rintro ⟨k, hk⟩
  rw [hidle] at hk
  cases hk

/-- A buffer of which `bget`, `brelse` or a pin changes the rest. -/
theorem ContentInv.set (hc : ContentInv disk₀ h st) {v : Buf D} {links : Links ℕ}
    {pc : ℕ → BioPc} {pins : ℕ → ℕ}
    (hv : v.dev = (st.bcache.buf b).dev ∧ v.blockno = (st.bcache.buf b).blockno ∧
      v.valid = (st.bcache.buf b).valid ∧ v.data = (st.bcache.buf b).data) :
    ContentInv disk₀ (h ++ [.other]) ⟨⟨(st.bcache.set b v).buf, links⟩, st.disk, pc, pins⟩ := by
  refine hc.same (fun i => ?_) rfl
  dsimp only
  by_cases hib : i = b
  · subst hib
    rw [Bcache.set_self]
    exact hv
  · rw [Bcache.set_of_ne hib]
    exact ⟨rfl, rfl, rfl, rfl⟩

theorem ContentInv.step (hc : ContentInv disk₀ h st) (hinv : BcacheInv n st)
    (hs : BioStep n st e st') : ContentInv disk₀ (h ++ [e]) st' := by
  cases hs with
  | @bget p k b s hp hidle hget =>
    obtain ⟨hb, ⟨hcar, rfl⟩ | ⟨hnone, -, rfl⟩⟩ := Bcache.bget_cases hinv.list hget
    · rw [Buf.event, if_pos hcar]
      exact hc.set ⟨rfl, rfl, rfl, rfl⟩
    · rw [Buf.event, if_neg (hnone b hb)]
      exact hc.recycle hinv hb
  | acquiresleep hp hpc hfree => exact hc.set ⟨rfl, rfl, rfl, rfl⟩
  | @bread p b k hp hpc =>
    have hold := hinv.pcs p
    rw [hpc] at hold
    exact hc.read hinv hold.1 hold.2.1
  | put v hp hidle hl =>
    obtain ⟨hb, hdev, hval⟩ := hinv.holder hidle hl
    exact hc.put hinv hb hdev hval v
  | bwrite hp hidle hw =>
    obtain ⟨hl, rfl⟩ := Bcache.bwrite_ok hw
    obtain ⟨hb, hdev, hval⟩ := hinv.holder hidle hl
    exact hc.write hb hdev hval
  | brelse hp hidle hr =>
    obtain ⟨-, rfl⟩ := Bcache.brelse_ok hr
    exact hc.set ⟨rfl, rfl, rfl, rfl⟩
  | unref hp hpc =>
    unfold Bcache.unref
    dsimp only
    split_ifs
    · exact hc.set ⟨rfl, rfl, rfl, rfl⟩
    · exact hc.set ⟨rfl, rfl, rfl, rfl⟩
  | bpin hp hidle hb => exact hc.set ⟨rfl, rfl, rfl, rfl⟩
  | bunpin hp hidle hb hpos => exact hc.set ⟨rfl, rfl, rfl, rfl⟩

end Content

/-! ## Every run -/

/-- A process holds, awaits or is releasing the buffer, or it is pinned. -/
def BioState.Busy {D : Type} (n : ℕ) (st : BioState D) (b : ℕ) : Prop :=
  (st.bcache.buf b).lock ≠ none ∨ (∃ p < n, (st.pc p).refs b ≠ 0) ∨ 0 < st.pins b

section Run

variable {D : Type} {n : ℕ} {disk₀ : ℕ → D} {h : List (BioEvent D)} {st st' : BioState D}
  {e : BioEvent D}

theorem bio_inv (hrun : Run (BioState.Boot disk₀) (BioStep n) h st) :
    BcacheInv n st ∧ ContentInv disk₀ h st := by
  refine hrun.invariant (P := fun h st => BcacheInv n st ∧ ContentInv disk₀ h st)
    (fun st hi => ⟨hi.inv, ?_⟩) fun h st e st' hinv hs => ⟨hinv.1.step hs, hinv.2.step hinv.1 hs⟩
  obtain ⟨s, hs, hst⟩ := hi.bcache
  refine ⟨fun i _ k hk => ?_, fun _ _ => rfl, fun k => by rw [hi.disk]; rfl⟩
  rw [hst, Bcache.binit_buf fun b => (hs b).2.2.2] at hk
  exact absurd ((hs i).2.1.symm.trans hk.1) (by decide)

/-- Only a buffer that nobody uses gets another block. -/
theorem BcacheInv.identity (hinv : BcacheInv n st) (hs : BioStep n st e st') {i : ℕ}
    (hbusy : st.Busy n i) : (st'.bcache.buf i).dev = (st.bcache.buf i).dev ∧
      (st'.bcache.buf i).blockno = (st.bcache.buf i).blockno := by
  have hset : ∀ {b : ℕ} {v : Buf D}, v.dev = (st.bcache.buf b).dev →
      v.blockno = (st.bcache.buf b).blockno → ((st.bcache.set b v).buf i).dev =
      (st.bcache.buf i).dev ∧ ((st.bcache.set b v).buf i).blockno = (st.bcache.buf i).blockno := by
    intro b v hdev hblk
    by_cases hib : i = b
    · subst hib
      rw [Bcache.set_self]
      exact ⟨hdev, hblk⟩
    · rw [Bcache.set_of_ne hib]
      exact ⟨rfl, rfl⟩
  cases hs with
  | @bget p k b s hp hidle hget =>
    obtain ⟨hb, ⟨-, rfl⟩ | ⟨-, h0, rfl⟩⟩ := Bcache.bget_cases hinv.list hget
    · exact hset rfl rfl
    · have hib : i ≠ b := by
        rintro rfl
        obtain ⟨hl, hrefs, hpins⟩ := hinv.unused hb h0
        rcases hbusy with h | ⟨q, -, h⟩ | h
        · exact h hl
        · exact h (hrefs q)
        · omega
      dsimp only
      rw [Bcache.set_of_ne hib]
      exact ⟨rfl, rfl⟩
  | acquiresleep hp hpc hfree => exact hset rfl rfl
  | bread hp hpc =>
    dsimp only
    rw [Bcache.bread_eq]
    exact hset rfl rfl
  | put v hp hidle hl => exact hset rfl rfl
  | bwrite hp hidle hw => exact ⟨rfl, rfl⟩
  | brelse hp hidle hr =>
    obtain ⟨-, rfl⟩ := Bcache.brelse_ok hr
    exact hset rfl rfl
  | unref hp hpc =>
    dsimp only [Bcache.unref]
    split_ifs
    · exact hset rfl rfl
    · exact hset rfl rfl
  | bpin hp hidle hb => exact hset rfl rfl
  | bunpin hp hidle hb hpos => exact hset rfl rfl

end Run

/-- In every run the list through `head` has every buffer once, in both directions; no two buffers
carry one block of the root device; `refcnt` counts the processes that hold, await or are releasing
the buffer and its pins, and such a buffer keeps its block; and `bread` returns what was last put in
the buffer of the block, or what was last written to the disk if the buffer was recycled since. -/
theorem bcache_sound {D : Type} {n : ℕ} {disk₀ : ℕ → D} {h : List (BioEvent D)} {st : BioState D}
    (hrun : Run (BioState.Boot disk₀) (BioStep n) h st) :
    (∃ l, l.Perm (List.range nBuf) ∧ Seg st.bcache.links bhead l bhead) ∧
    (∀ i < nBuf, ∀ j < nBuf, ∀ blockno, (st.bcache.buf i).Carries rootDev blockno →
      (st.bcache.buf j).Carries rootDev blockno → i = j) ∧
    (∀ i < nBuf, (st.bcache.buf i).refcnt =
      (st.bcache.buf i).holders + tally n st.pc (BioPc.refs i) + st.pins i) ∧
    (∀ e st', BioStep n st e st' → ∀ i, st.Busy n i →
      (st'.bcache.buf i).dev = (st.bcache.buf i).dev ∧
      (st'.bcache.buf i).blockno = (st.bcache.buf i).blockno) ∧
    ∀ h₁ p blockno v, h₁ ++ [.read p blockno v] <+: h → v = shown disk₀ blockno h₁ := by
  obtain ⟨hinv, -⟩ := bio_inv hrun
  refine ⟨hinv.list, hinv.unique, hinv.refcnt, fun e st' hs i hi => hinv.identity hs hi,
    fun h₁ p blockno v hpre => ?_⟩
  obtain ⟨st₁, st₂, hr₁, hs⟩ := hrun.at_event hpre
  obtain ⟨hinv₁, hc₁⟩ := bio_inv hr₁
  generalize he : BioEvent.read p blockno v = e at hs
  cases hs with
  | @bread q b k hp hpc =>
    obtain ⟨-, rfl, rfl⟩ := BioEvent.read.inj he
    have hold := hinv₁.pcs q
    rw [hpc] at hold
    exact hc₁.bread_data hinv₁ hold.1 hold.2.1
  | @bget q k b s hp hidle hget =>
    rw [Buf.event] at he
    split_ifs at he
  | _ => cases he

/-- A machine with one process, and a disk on which every block contains its own number. -/
def bootBio : BioState ℕ where
  bcache := Bcache.binit ⟨fun _ => ⟨false, 0, 0, none, 0, 0⟩, ⟨fun _ => 0, fun _ => 0⟩⟩
  disk blockno := blockno
  pc _ := .idle
  pins _ := 0

theorem bootBio_boot : bootBio.Boot fun blockno => blockno :=
  ⟨⟨_, fun _ => ⟨rfl, rfl, rfl, rfl⟩, rfl⟩, rfl, fun _ => rfl, fun _ => rfl⟩

theorem bootBio_lock (b : ℕ) : (bootBio.bcache.buf b).lock = none := by
  rw [bootBio, Bcache.binit_buf fun _ => rfl]

theorem bootBio_bget : ∃ r, bootBio.bcache.bget rootDev 5 = .ok r := by
  have hok : (match bootBio.bcache.bget rootDev 5 with
    | .ok _ => true
    | .error _ => false) = true := by decide +kernel
  split at hok
  · next r hr => exact ⟨r, hr⟩
  · cases hok

theorem bcache_sound_read : ∃ e v st, Run (BioState.Boot fun blockno => blockno) (BioStep 1)
    ([e, .other] ++ [.read 0 5 v]) st ∧ v = 5 := by
  obtain ⟨⟨b, s⟩, hget⟩ := bootBio_bget
  have hinv : BcacheInv 1 bootBio := bootBio_boot.inv
  have hlock : (s.buf b).lock = none := by
    obtain ⟨-, ⟨-, rfl⟩ | ⟨-, -, rfl⟩⟩ := Bcache.bget_cases hinv.list hget
    · rw [Bcache.set_self]
      exact bootBio_lock b
    · rw [Bcache.set_self]
      exact bootBio_lock b
  have hstart : Run _ (BioStep 1) [] bootBio := .start bootBio_boot
  have hwait := hstart.snoc (BioStep.bget Nat.one_pos rfl hget)
  have hheld := hwait.snoc (BioStep.acquiresleep Nat.one_pos rfl hlock)
  have hrun := hheld.snoc (BioStep.bread Nat.one_pos rfl)
  refine ⟨_, _, _, hrun, ?_⟩
  rw [(bcache_sound hrun).2.2.2.2 _ 0 5 _ (List.prefix_rfl)]
  unfold Buf.event
  split_ifs
  · rfl
  · simp [shown, cached, lastPut, onDisk, lastWrite]

end Xv6Plus
