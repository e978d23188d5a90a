import Xv6Plus.Ring
import Xv6Plus.Steps

/-!
# The console : `kernel/console.c`

Input characters arrive by `consoleintr`, which edits the line that is being typed and commits
it when it ends; `consoleread` hands committed bytes to readers. Both work under `cons.lock`, so
what a reader does from the moment it has the lock until it sleeps or returns is one step. The
echo of the characters is left out.

What the two do together is said by `Line` : the bytes committed so far, the line that is being
edited, and how many committed bytes were taken. The indices `r`, `w` and `e` are its lengths
modulo `2 ^ 32`, and `cons.buf` is a ring of `INPUT_BUF_SIZE` places that holds what was not
taken yet (`ConsInv`).
-/

namespace Xv6Plus

/-! ## The code -/

abbrev inputBufSize : ℕ := 128

/-- `C('D')`, the end of a file. -/
abbrev ctrlD : UInt8 := 4

/-- `C('H')`, backspace. -/
abbrev ctrlH : UInt8 := 8

/-- `C('P')`, the list of processes. -/
abbrev ctrlP : UInt8 := 16

/-- `C('U')`, the end of a line that is dropped. -/
abbrev ctrlU : UInt8 := 21

/-- The delete key. -/
abbrev delKey : UInt8 := 127

abbrev newline : UInt8 := 10

abbrev carriageReturn : UInt8 := 13

/-- `cons`; the indices are 32-bit words. -/
structure Cons where
  buf : ℕ → UInt8
  r : ℕ
  w : ℕ
  e : ℕ

/-- `x - y` of 32-bit words. -/
def sub32 (x y : ℕ) : ℕ := (x + 2 ^ 32 - y) % 2 ^ 32

namespace Cons

/-- The loop for `C('U')`, with a bound on the rounds. -/
def killLine : ℕ → Cons → Cons
  | 0, c => c
  | n + 1, c =>
    if c.e ≠ c.w ∧ c.buf (sub32 c.e 1 % inputBufSize) ≠ newline then
      killLine n { c with e := sub32 c.e 1 }
    else c

def consoleintr (c : Cons) (ch : UInt8) : Cons :=
  if ch = ctrlP then c
  else if ch = ctrlU then c.killLine (sub32 c.e c.w)
  else if ch = ctrlH ∨ ch = delKey then
    if c.e ≠ c.w then { c with e := sub32 c.e 1 } else c
  else if ch ≠ 0 ∧ sub32 c.e c.r < inputBufSize then
    let ch := if ch = carriageReturn then newline else ch
    let c := { c with
      buf := Function.update c.buf (c.e % inputBufSize) ch
      e := (c.e + 1) % 2 ^ 32 }
    if ch = newline ∨ ch = ctrlD ∨ sub32 c.e c.r = inputBufSize then { c with w := c.e } else c
  else c

end Cons

/-- How a reader gives the lock back. -/
inductive ReadEnd
  /-- It sleeps, and `n` bytes are left to read. -/
  | sleep (n : ℕ)
  | done (r : ℕ)
  /-- It has consumed an end of file. -/
  | eof (r : ℕ)
  | killed
  /-- `either_copyout` has failed. -/
  | fault (r : ℕ)

/-- The loop of `consoleread` with `n` bytes left : the bytes it hands out and how it ends.
`copyout` tells whether `either_copyout` succeeds with so many bytes left. -/
def Cons.readLoop (killed : Bool) (copyout : ℕ → Bool) (target : ℕ) :
    ℕ → Cons → List UInt8 × Cons × ReadEnd
  | 0, c => ([], c, .done target)
  | n + 1, c =>
    if c.r = c.w then
      if killed = true then ([], c, .killed) else ([], c, .sleep (n + 1))
    else
      let ch := c.buf (c.r % inputBufSize)
      let c := { c with r := (c.r + 1) % 2 ^ 32 }
      if ch = ctrlD then
        if n + 1 < target then ([], { c with r := sub32 c.r 1 }, .done (target - (n + 1)))
        else ([], c, .eof (target - (n + 1)))
      else if copyout (n + 1) = false then ([], c, .fault (target - (n + 1)))
      else if ch = newline then ([ch], c, .done (target - n))
      else
        let res := readLoop killed copyout target n c
        (ch :: res.1, res.2)

/-! ## Interrupts and readers -/

/-- Where a process is. -/
inductive ReadPc
  | outside
  /-- In `consoleread` without the lock, with `n` of `target` bytes left. -/
  | wants (n target : ℕ)
  /-- Asleep on `&cons.r`. -/
  | sleeps (n target : ℕ)

inductive ConsEvent
  /-- `consoleintr` gets a character. -/
  | intr (ch : UInt8)
  /-- `consoleread` is called. -/
  | call (p : ℕ)
  /-- A reader has had the lock. -/
  | read (p : ℕ) (bytes : List UInt8) (fin : ReadEnd)
  | other

structure ConsState where
  cons : Cons
  pc : ℕ → ReadPc

/-- Where a reader is after it has had the lock. -/
def ReadEnd.pc (target : ℕ) : ReadEnd → ReadPc
  | .sleep n => .sleeps n target
  | _ => .outside

inductive ConsStep : ConsState → ConsEvent → ConsState → Prop
  | intr {st : ConsState} (ch : UInt8) :
      ConsStep st (.intr ch) { st with cons := st.cons.consoleintr ch }
  | call {st : ConsState} {p : ℕ} (n : ℤ) : st.pc p = .outside →
      ConsStep st (.call p) { st with pc := Function.update st.pc p (.wants n.toNat n.toNat) }
  | read {st : ConsState} {p n target : ℕ} (killed : Bool) (copyout : ℕ → Bool) :
      st.pc p = .wants n target →
      ConsStep st (.read p (st.cons.readLoop killed copyout target n).1
        (st.cons.readLoop killed copyout target n).2.2)
        { cons := (st.cons.readLoop killed copyout target n).2.1
          pc := Function.update st.pc p
            ((st.cons.readLoop killed copyout target n).2.2.pc target) }
  /-- A reader is woken up, by `consoleintr` or by a signal. -/
  | wake {st : ConsState} {p n target : ℕ} : st.pc p = .sleeps n target →
      ConsStep st .other { st with pc := Function.update st.pc p (.wants n target) }

structure ConsState.Init (st : ConsState) : Prop where
  r : st.cons.r = 0
  w : st.cons.w = 0
  e : st.cons.e = 0
  pc : ∀ p, st.pc p = .outside

/-! ## The lines -/

/-- The line discipline, without a buffer. -/
structure Line where
  /-- Everything committed so far. -/
  committed : List UInt8
  /-- The line that is being edited. -/
  edit : List UInt8
  /-- How many committed bytes were taken. -/
  taken : ℕ

/-- A character is typed. -/
def Line.type (l : Line) (ch : UInt8) : Line :=
  if ch = ctrlP then l
  else if ch = ctrlU then { l with edit := [] }
  else if ch = ctrlH ∨ ch = delKey then { l with edit := l.edit.dropLast }
  else if ch ≠ 0 ∧ l.committed.length + l.edit.length < l.taken + inputBufSize then
    let ch := if ch = carriageReturn then newline else ch
    if ch = newline ∨ ch = ctrlD ∨
        l.committed.length + l.edit.length + 1 = l.taken + inputBufSize then
      { l with committed := l.committed ++ (l.edit ++ [ch]), edit := [] }
    else { l with edit := l.edit ++ [ch] }
  else l

/-- The bytes that a reader has consumed without handing them out. -/
def ReadEnd.eofs : ReadEnd → List UInt8
  | .eof _ => [ctrlD]
  | _ => []

def Line.after (l : Line) : ConsEvent → Line
  | .intr ch => l.type ch
  | .read _ bytes fin => { l with taken := l.taken + (bytes ++ fin.eofs).length }
  | _ => l

/-- The line discipline after a history. -/
def lineOf (h : List ConsEvent) : Line := h.foldl Line.after ⟨[], [], 0⟩

theorem lineOf_snoc (h : List ConsEvent) (e : ConsEvent) :
    lineOf (h ++ [e]) = (lineOf h).after e := by
  rw [lineOf, List.foldl_append]
  rfl

/-- The bytes that were handed to readers, in order. -/
def handed (h : List ConsEvent) : List UInt8 :=
  h.flatMap fun e => match e with
    | .read _ bytes _ => bytes
    | _ => []

theorem handed_snoc (h : List ConsEvent) (e : ConsEvent) :
    handed (h ++ [e]) = handed h ++ match e with
      | .read _ bytes _ => bytes
      | _ => [] := by
  rw [handed, List.flatMap_append]
  cases e <;> simp [handed]

/-- How many ends of file were consumed. -/
def eofsRead (h : List ConsEvent) : ℕ :=
  (h.map fun e => match e with
    | .read _ _ fin => fin.eofs.length
    | _ => 0).sum

theorem eofsRead_snoc (h : List ConsEvent) (e : ConsEvent) :
    eofsRead (h ++ [e]) = eofsRead h + match e with
      | .read _ _ fin => fin.eofs.length
      | _ => 0 := by
  rw [eofsRead, List.map_append, List.sum_append]
  cases e <;> simp [eofsRead]

/-- The bytes that were handed to `p` since it called `consoleread`. -/
def handedTo (p : ℕ) (h : List ConsEvent) : List UInt8 :=
  h.foldl (fun l e => match e with
    | .call q => if q = p then [] else l
    | .read q bytes _ => if q = p then l ++ bytes else l
    | _ => l) []

theorem handedTo_snoc (p : ℕ) (h : List ConsEvent) (e : ConsEvent) :
    handedTo p (h ++ [e]) = match e with
      | .call q => if q = p then [] else handedTo p h
      | .read q bytes _ => if q = p then handedTo p h ++ bytes else handedTo p h
      | _ => handedTo p h := by
  rw [handedTo, List.foldl_append]
  rfl

/-! ## The buffer holds the lines -/

/-- The console `c` with `INPUT_BUF_SIZE` places stands for the lines `l`. -/
structure Cons.Holds (c : Cons) (l : Line) : Prop where
  r : c.r = l.taken % 2 ^ 32
  w : c.w = l.committed.length % 2 ^ 32
  e : c.e = (l.committed.length + l.edit.length) % 2 ^ 32
  taken_le : l.taken ≤ l.committed.length
  room : l.committed.length + l.edit.length ≤ l.taken + inputBufSize
  ring : RingHolds inputBufSize c.buf l.taken (l.committed ++ l.edit)
  /-- A line ends with its first newline. -/
  edit : newline ∉ l.edit

section Console

variable {h : List ConsEvent} {st st' : ConsState} {e : ConsEvent} {c : Cons} {l : Line}
  {p n target : ℕ}

theorem sub32_one {k : ℕ} (hk : 0 < k) : sub32 (k % 2 ^ 32) 1 = (k - 1) % 2 ^ 32 := by
  unfold sub32
  omega

/-- The difference of two counters that are not far apart. -/
theorem sub32_counters {i j : ℕ} (hle : i ≤ j) (hlt : j < i + 2 ^ 32) :
    sub32 (j % 2 ^ 32) (i % 2 ^ 32) = j - i := by
  unfold sub32
  omega

theorem mod_inputBufSize (k : ℕ) : k % 2 ^ 32 % inputBufSize = k % inputBufSize :=
  Nat.mod_mod_of_dvd k (by decide)

theorem Cons.Holds.erase (hc : c.Holds l) (hne : l.edit ≠ []) :
    ({ c with e := sub32 c.e 1 } : Cons).Holds { l with edit := l.edit.dropLast } := by
  have hpos := List.length_pos_iff.2 hne
  have hsplit := List.dropLast_append_getLast hne
  have hlen : l.edit.dropLast.length = l.edit.length - 1 := List.length_dropLast
  refine ⟨hc.r, hc.w, ?_, hc.taken_le, ?_, ?_,
    fun hm => hc.edit ((List.dropLast_sublist _).subset hm)⟩
  · have hadd : l.committed.length + l.edit.length - 1 =
        l.committed.length + (l.edit.length - 1) := by omega
    dsimp only
    rw [hc.e, sub32_one (by omega), hlen, hadd]
  · have := hc.room
    dsimp only
    omega
  · have hring := hc.ring
    rw [← hsplit, ← List.append_assoc] at hring
    exact hring.shrink

/-- The index `e` has reached `w` when the line is empty. -/
theorem Cons.Holds.e_eq_w (hc : c.Holds l) : c.e = c.w ↔ l.edit = [] := by
  have := hc.taken_le
  have := hc.room
  rw [hc.e, hc.w, ← List.length_eq_zero_iff]
  simp only [inputBufSize] at *
  omega

theorem Cons.Holds.killLine : ∀ {n : ℕ} {c : Cons} {l : Line}, c.Holds l → l.edit.length = n →
    (c.killLine n).Holds { l with edit := [] }
  | 0, c, l, hc, hn => by
    obtain ⟨committed, edit, taken⟩ := l
    obtain rfl := List.length_eq_zero_iff.1 hn
    exact hc
  | n + 1, c, l, hc, hn => by
    have hne : l.edit ≠ [] := List.ne_nil_of_length_eq_add_one hn
    -- the byte before `e` is the last one of the line
    have hlast : c.buf (sub32 c.e 1 % inputBufSize) ≠ newline := by
      have hget : (l.committed ++ l.edit)[l.committed.length + l.edit.length - 1]? =
          some (l.edit.getLast hne) := by
        rw [List.getElem?_append_right (by omega), List.getLast_eq_getElem,
          List.getElem?_eq_getElem (by omega)]
        congr 2
        omega
      have hbuf := hc.ring (l.committed.length + l.edit.length - 1) _
        (by have := hc.taken_le; omega) hget
      rw [hc.e, sub32_one (by omega), mod_inputBufSize, hbuf]
      intro heq
      exact hc.edit (heq ▸ List.getLast_mem hne)
    rw [Cons.killLine, if_pos ⟨fun he => hne (hc.e_eq_w.1 he), hlast⟩]
    refine Cons.Holds.killLine (l := { l with edit := l.edit.dropLast }) (hc.erase hne) ?_
    rw [List.length_dropLast]
    omega

theorem Cons.Holds.push (hc : c.Holds l)
    (hfit : l.committed.length + l.edit.length < l.taken + inputBufSize) (ch : UInt8)
    (hch : ch ≠ newline) :
    ({ c with
      buf := Function.update c.buf (c.e % inputBufSize) ch
      e := (c.e + 1) % 2 ^ 32 } : Cons).Holds { l with edit := l.edit ++ [ch] } := by
  refine ⟨hc.r, hc.w, ?_, hc.taken_le, ?_, ?_, ?_⟩
  · simp only [hc.e, List.length_append, List.length_singleton]
    omega
  · simp only [List.length_append, List.length_singleton]
    omega
  · have hring := hc.ring.push (by rwa [List.length_append]) ch
    rw [List.length_append, List.append_assoc] at hring
    simpa only [hc.e, mod_inputBufSize] using hring
  · simpa using ⟨hc.edit, Ne.symm hch⟩

theorem Cons.Holds.commit (hc : c.Holds l)
    (hfit : l.committed.length + l.edit.length < l.taken + inputBufSize) (ch : UInt8) :
    ({ c with
      buf := Function.update c.buf (c.e % inputBufSize) ch
      w := (c.e + 1) % 2 ^ 32
      e := (c.e + 1) % 2 ^ 32 } : Cons).Holds
      { l with committed := l.committed ++ (l.edit ++ [ch]), edit := [] } := by
  refine ⟨hc.r, ?_, ?_, ?_, ?_, ?_, List.not_mem_nil⟩
  · simp only [hc.e, List.length_append, List.length_singleton]
    omega
  · simp only [hc.e, List.length_append, List.length_singleton, List.length_nil]
    omega
  · have := hc.taken_le
    simp only [List.length_append]
    omega
  · simp only [List.length_append, List.length_singleton, List.length_nil]
    omega
  · have hring := hc.ring.push (by rwa [List.length_append]) ch
    rw [List.length_append, List.append_assoc] at hring
    simpa only [hc.e, mod_inputBufSize, List.append_nil] using hring

/-- `consoleintr` is the line discipline. -/
theorem Cons.Holds.consoleintr (hc : c.Holds l) (ch : UInt8) :
    (c.consoleintr ch).Holds (l.type ch) := by
  have hle := hc.taken_le
  have hroom := hc.room
  unfold Cons.consoleintr Line.type
  by_cases hP : ch = ctrlP
  · rwa [if_pos hP, if_pos hP]
  rw [if_neg hP, if_neg hP]
  by_cases hU : ch = ctrlU
  · rw [if_pos hU, if_pos hU]
    refine hc.killLine ?_
    rw [hc.e, hc.w, sub32_counters (by omega) (by simp only [inputBufSize] at hroom; omega)]
    omega
  rw [if_neg hU, if_neg hU]
  by_cases hH : ch = ctrlH ∨ ch = delKey
  · rw [if_pos hH, if_pos hH]
    by_cases he : c.e = c.w
    · have hnil := hc.e_eq_w.1 he
      have hsame : ({ l with edit := l.edit.dropLast } : Line) = l := by
        rw [hnil, List.dropLast_nil, ← hnil]
      rwa [if_neg (not_not.2 he), hsame]
    · rw [if_pos he]
      exact hc.erase fun hnil => he (hc.e_eq_w.2 hnil)
  rw [if_neg hH, if_neg hH]
  -- the test for a full buffer is the one of the lines
  have hfull : sub32 c.e c.r < inputBufSize ↔
      l.committed.length + l.edit.length < l.taken + inputBufSize := by
    rw [hc.e, hc.r, sub32_counters (by omega) (by simp only [inputBufSize] at hroom; omega)]
    omega
  by_cases hfit : ch ≠ 0 ∧ sub32 c.e c.r < inputBufSize
  · have hfit' := hfull.1 hfit.2
    have hline : ch ≠ 0 ∧ l.committed.length + l.edit.length < l.taken + inputBufSize :=
      ⟨hfit.1, hfit'⟩
    rw [if_pos hfit, if_pos hline]
    have hlast : sub32 ((c.e + 1) % 2 ^ 32) c.r = inputBufSize ↔
        l.committed.length + l.edit.length + 1 = l.taken + inputBufSize := by
      have hnext : (c.e + 1) % 2 ^ 32 = (l.committed.length + l.edit.length + 1) % 2 ^ 32 := by
        rw [hc.e]
        omega
      rw [hnext, hc.r, sub32_counters (by omega) (by simp only [inputBufSize] at hfit'; omega)]
      omega
    simp only [hlast]
    generalize (if ch = carriageReturn then newline else ch) = ch
    split_ifs with hend
    · exact hc.commit hfit' ch
    · exact hc.push hfit' ch fun hch => hend (Or.inl hch)
  · rw [if_neg hfit, if_neg fun hc' => hfit ⟨hc'.1, hfull.2 hc'.2⟩]
    exact hc

/-! ## Readers take what was committed -/

theorem Cons.Holds.take (hc : c.Holds l) (hlt : l.taken < l.committed.length) :
    ({ c with r := (c.r + 1) % 2 ^ 32 } : Cons).Holds { l with taken := l.taken + 1 } ∧
      l.committed.take (l.taken + 1) = l.committed.take l.taken ++
        [c.buf (c.r % inputBufSize)] := by
  have hroom := hc.room
  constructor
  · refine ⟨?_, hc.w, hc.e, hlt, ?_, hc.ring.drop (Nat.le_succ _), hc.edit⟩
    · simp only [hc.r]
      omega
    · dsimp only
      omega
  · have hhead := hc.ring.head (by rw [List.length_append]; omega)
    rw [List.take_append_of_le_length hlt, List.take_append_of_le_length hc.taken_le] at hhead
    rw [hhead, hc.r, mod_inputBufSize]

theorem Cons.Holds.r_eq_w (hc : c.Holds l) : c.r = c.w ↔ l.taken = l.committed.length := by
  have := hc.taken_le
  have := hc.room
  rw [hc.r, hc.w]
  simp only [inputBufSize] at *
  omega

/-- What a reader with `n` of `target` bytes left does while it has the lock. -/
structure ReadPost (n target : ℕ) (bytes : List UInt8) (fin : ReadEnd) : Prop where
  no_eof : ctrlD ∉ bytes
  line : newline ∉ bytes.dropLast
  sleep : ∀ m, fin = .sleep m → m + bytes.length = n ∧ newline ∉ bytes
  done : ∀ r, fin = .done r → r + n = target + bytes.length
  eof : ∀ r, fin = .eof r → bytes = [] ∧ r = 0 ∧ n = target

theorem ReadPost.nil {fin : ReadEnd} (hsleep : ∀ m, fin = .sleep m → m = n)
    (hdone : ∀ r, fin = .done r → r + n = target)
    (heof : ∀ r, fin = .eof r → r = 0 ∧ n = target) : ReadPost n target [] fin where
  no_eof := List.not_mem_nil
  line := List.not_mem_nil
  sleep m hm := ⟨hsleep m hm, List.not_mem_nil⟩
  done r hr := hdone r hr
  eof r hr := ⟨rfl, heof r hr⟩

theorem ReadPost.cons {bytes : List UInt8} {fin : ReadEnd} {ch : UInt8}
    (hp : ReadPost n target bytes fin) (hn : n + 1 ≤ target) (hD : ch ≠ ctrlD)
    (hnl : ch ≠ newline) : ReadPost (n + 1) target (ch :: bytes) fin where
  no_eof := by simpa using ⟨Ne.symm hD, hp.no_eof⟩
  line := by
    cases bytes with
    | nil => simp
    | cons b bs =>
      rw [List.dropLast_cons_cons]
      simpa using ⟨Ne.symm hnl, hp.line⟩
  sleep m hm := by
    obtain ⟨hlen, hno⟩ := hp.sleep m hm
    exact ⟨by rw [List.length_cons]; omega, by simpa using ⟨Ne.symm hnl, hno⟩⟩
  done r hr := by
    have := hp.done r hr
    rw [List.length_cons]
    omega
  eof r hr := absurd (hp.eof r hr).2.2 (by omega)

theorem Cons.Holds.readLoop {killed : Bool} {copyout : ℕ → Bool} {target : ℕ} :
    ∀ {n : ℕ} {c : Cons} {l : Line}, c.Holds l → n ≤ target →
    (∀ r, (c.readLoop killed copyout target n).2.2 ≠ .fault r) →
    let res := c.readLoop killed copyout target n
    res.2.1.Holds { l with taken := l.taken + (res.1 ++ res.2.2.eofs).length } ∧
      l.committed.take (l.taken + (res.1 ++ res.2.2.eofs).length) =
        l.committed.take l.taken ++ (res.1 ++ res.2.2.eofs) ∧
      ReadPost n target res.1 res.2.2
  | 0, c, l, hc, hn, _ => by
    refine ⟨hc, by simp [Cons.readLoop, ReadEnd.eofs], .nil nofun (fun r hr => ?_) nofun⟩
    rw [ReadEnd.done.inj hr, Nat.add_zero]
  | n + 1, c, l, hc, hn, hfault => by
    intro res
    have hres : res = c.readLoop killed copyout target (n + 1) := rfl
    rw [Cons.readLoop] at hres
    by_cases hrw : c.r = c.w
    · rw [if_pos hrw] at hres
      cases killed with
      | true =>
        rw [hres]
        exact ⟨hc, by simp [ReadEnd.eofs], .nil nofun nofun nofun⟩
      | false =>
        rw [hres]
        exact ⟨hc, by simp [ReadEnd.eofs], .nil (fun m hm => (ReadEnd.sleep.inj hm).symm)
          nofun nofun⟩
    rw [if_neg hrw] at hres
    have hlt : l.taken < l.committed.length :=
      lt_of_le_of_ne hc.taken_le fun heq => hrw (hc.r_eq_w.2 heq)
    obtain ⟨hc', hhead⟩ := hc.take hlt
    dsimp only at hres
    generalize hch : c.buf (c.r % inputBufSize) = ch at hres hhead
    by_cases hD : ch = ctrlD
    · rw [if_pos hD] at hres
      by_cases hlast : n + 1 < target
      · -- the end of file is left for the next read
        rw [if_pos hlast] at hres
        have hr : sub32 ((c.r + 1) % 2 ^ 32) 1 = c.r := by
          have := hc.r
          unfold sub32
          omega
        rw [hr] at hres
        rw [hres]
        refine ⟨hc, by simp [ReadEnd.eofs], .nil nofun (fun r hr => ?_) nofun⟩
        rw [← ReadEnd.done.inj hr]
        omega
      · rw [if_neg hlast] at hres
        rw [hres]
        refine ⟨hc', ?_, .nil nofun nofun fun r hr => ?_⟩
        · rw [hD] at hhead
          exact hhead
        · rw [← ReadEnd.eof.inj hr]
          omega
    rw [if_neg hD] at hres
    by_cases hcopy : copyout (n + 1) = false
    · rw [if_pos hcopy] at hres
      exact absurd (congrArg (fun x => x.2.2) hres) (hfault _)
    rw [if_neg hcopy] at hres
    by_cases hnl : ch = newline
    · rw [if_pos hnl] at hres
      rw [hres]
      refine ⟨hc', hhead, ⟨by simpa using Ne.symm hD, by simp, nofun, fun r hr => ?_, nofun⟩⟩
      rw [← ReadEnd.done.inj hr, List.length_singleton]
      omega
    · rw [if_neg hnl] at hres
      have hsame : (Cons.readLoop killed copyout target n { c with r := (c.r + 1) % 2 ^ 32 }).2.2 =
          res.2.2 := by rw [hres]
      have hno : ∀ r, (Cons.readLoop killed copyout target n
          { c with r := (c.r + 1) % 2 ^ 32 }).2.2 ≠ .fault r := by
        rw [hsame]
        exact hfault
      obtain ⟨h1, h2, h3⟩ := Cons.Holds.readLoop hc' (Nat.le_of_succ_le hn) hno
      dsimp only at h1 h2
      rw [hres]
      generalize Cons.readLoop killed copyout target n { c with r := (c.r + 1) % 2 ^ 32 } = rest
        at h1 h2 h3
      have hadd : l.taken + 1 + (rest.1 ++ rest.2.2.eofs).length =
          l.taken + ((ch :: rest.1) ++ rest.2.2.eofs).length := by
        simp only [List.length_append, List.length_cons]
        omega
      rw [hadd] at h1 h2
      refine ⟨h1, ?_, h3.cons hn hD hnl⟩
      rw [h2, hhead, List.append_assoc]
      rfl

/-! ## All interleavings -/

/-- `either_copyout` succeeds. -/
def ConsNoFault (_ : ConsState) (e : ConsEvent) : Prop :=
  ∀ p bytes r, e ≠ .read p bytes (.fault r)

/-- The reader is in a call, with `n` of `target` bytes left. -/
def ReadPc.Inside (pc : ReadPc) (n target : ℕ) : Prop :=
  pc = .wants n target ∨ pc = .sleeps n target

structure ConsInv (h : List ConsEvent) (st : ConsState) : Prop where
  holds : st.cons.Holds (lineOf h)
  handed : handed h = ((lineOf h).committed.take (lineOf h).taken).filter (· ≠ ctrlD)
  eofs : eofsRead h = ((lineOf h).committed.take (lineOf h).taken).count ctrlD
  inside : ∀ p n target, (st.pc p).Inside n target →
    n + (handedTo p h).length = target ∧ newline ∉ handedTo p h
  line : ∀ p, newline ∉ (handedTo p h).dropLast

theorem Line.type_committed (l : Line) (ch : UInt8) : l.committed <+: (l.type ch).committed ∧
    (l.type ch).taken = l.taken := by
  unfold Line.type
  dsimp only
  split_ifs
  all_goals first
    | exact ⟨List.prefix_rfl, rfl⟩
    | exact ⟨List.prefix_append _ _, rfl⟩

theorem ConsState.Init.inv (hi : st.Init) : ConsInv [] st := by
  refine ⟨⟨hi.r, hi.w, hi.e, le_refl _, Nat.zero_le _, ringHolds_nil _ _, List.not_mem_nil⟩, rfl,
    rfl, fun p n target hp => ?_, fun p => List.not_mem_nil⟩
  rcases hp with hp | hp <;> rw [hi.pc] at hp <;> cases hp

/-- A character is typed : what was taken stays what was committed first. -/
theorem ConsInv.intr (hinv : ConsInv h st) (ch : UInt8) :
    ConsInv (h ++ [.intr ch]) { st with cons := st.cons.consoleintr ch } := by
  obtain ⟨⟨t, ht⟩, htaken⟩ := (lineOf h).type_committed ch
  have hline : lineOf (h ++ [.intr ch]) = (lineOf h).type ch := lineOf_snoc h _
  have htake : (lineOf (h ++ [.intr ch])).committed.take (lineOf (h ++ [.intr ch])).taken =
      (lineOf h).committed.take (lineOf h).taken := by
    rw [hline, htaken, ← ht, List.take_append_of_le_length hinv.holds.taken_le]
  have hto : ∀ p, handedTo p (h ++ [.intr ch]) = handedTo p h := fun p => handedTo_snoc p h _
  refine ⟨hline ▸ hinv.holds.consoleintr ch, ?_, ?_, fun p n target hp => ?_, fun p => ?_⟩
  · rw [htake, handed_snoc, ← hinv.handed]
    exact List.append_nil _
  · rw [htake, eofsRead_snoc, ← hinv.eofs]
    rfl
  · rw [hto]
    exact hinv.inside p n target hp
  · rw [hto]
    exact hinv.line p

/-- Events at which nothing is taken. -/
theorem ConsInv.quiet (hinv : ConsInv h st) (he : e = .call p ∨ e = .other)
    (hcons : st'.cons = st.cons)
    (hpc : ∀ q n target, (st'.pc q).Inside n target →
      (e ≠ .call q ∧ (st.pc q).Inside n target) ∨ (e = .call q ∧ n = target)) :
    ConsInv (h ++ [e]) st' := by
  have hline : lineOf (h ++ [e]) = lineOf h := by
    rw [lineOf_snoc]
    rcases he with rfl | rfl <;> rfl
  have hnew : ∀ q, e = .call q → handedTo q (h ++ [e]) = [] := by
    rintro q rfl
    rw [handedTo_snoc]
    exact if_pos rfl
  have hold : ∀ q, e ≠ .call q → handedTo q (h ++ [e]) = handedTo q h := by
    intro q hq
    rw [handedTo_snoc]
    rcases he with rfl | rfl
    · exact if_neg fun hpq => hq (by rw [hpq])
    · rfl
  refine ⟨by rw [hline, hcons]; exact hinv.holds, ?_, ?_, fun q n target hq => ?_, fun q => ?_⟩
  · rw [hline, handed_snoc, ← hinv.handed]
    rcases he with rfl | rfl <;> exact List.append_nil _
  · rw [hline, eofsRead_snoc, ← hinv.eofs]
    rcases he with rfl | rfl <;> rfl
  · rcases hpc q n target hq with ⟨hcall, hq⟩ | ⟨hcall, rfl⟩
    · rw [hold q hcall]
      exact hinv.inside q n target hq
    · rw [hnew q hcall]
      exact ⟨rfl, List.not_mem_nil⟩
  · by_cases hcall : e = .call q
    · rw [hnew q hcall]
      exact List.not_mem_nil
    · rw [hold q hcall]
      exact hinv.line q

/-- A reader has had the lock. -/
theorem ConsInv.read {killed : Bool} {copyout : ℕ → Bool} (hinv : ConsInv h st)
    (hpc : st.pc p = .wants n target)
    (hfault : ∀ r, (st.cons.readLoop killed copyout target n).2.2 ≠ .fault r) :
    ReadPost n target (st.cons.readLoop killed copyout target n).1
        (st.cons.readLoop killed copyout target n).2.2 ∧
      ConsInv (h ++ [.read p (st.cons.readLoop killed copyout target n).1
        (st.cons.readLoop killed copyout target n).2.2])
        { cons := (st.cons.readLoop killed copyout target n).2.1
          pc := Function.update st.pc p
            ((st.cons.readLoop killed copyout target n).2.2.pc target) } := by
  obtain ⟨hlen, hnl⟩ := hinv.inside p n target (Or.inl hpc)
  obtain ⟨hholds, htake, hpost⟩ := hinv.holds.readLoop (by omega) hfault
  generalize st.cons.readLoop killed copyout target n = res at hholds htake hpost
  obtain ⟨bytes, cons, fin⟩ := res
  dsimp only at hholds htake hpost ⊢
  have hline : lineOf (h ++ [.read p bytes fin]) =
      { lineOf h with taken := (lineOf h).taken + (bytes ++ fin.eofs).length } := lineOf_snoc h _
  have hto : ∀ q, handedTo q (h ++ [.read p bytes fin]) =
      if p = q then handedTo q h ++ bytes else handedTo q h := fun q => handedTo_snoc q h _
  have hcount : fin.eofs.count ctrlD = fin.eofs.length := by cases fin <;> rfl
  have hnone : fin.eofs.filter (· ≠ ctrlD) = [] := by cases fin <;> rfl
  have hbytes : bytes.filter (· ≠ ctrlD) = bytes := by
    refine List.filter_eq_self.2 fun x hx => decide_eq_true ?_
    rintro rfl
    exact hpost.no_eof hx
  refine ⟨hpost, hline ▸ hholds, ?_, ?_, fun q m target' hq => ?_, fun q => ?_⟩
  · rw [hline, handed_snoc, hinv.handed]
    dsimp only
    rw [htake, List.filter_append, List.filter_append, hnone, List.append_nil, hbytes]
  · rw [hline, eofsRead_snoc, hinv.eofs]
    dsimp only
    rw [htake, List.count_append, List.count_append, hcount,
      List.count_eq_zero_of_not_mem hpost.no_eof, Nat.zero_add]
  · rw [hto]
    dsimp only at hq
    by_cases hqp : q = p
    · subst hqp
      rw [Function.update_self] at hq
      rw [if_pos rfl]
      -- the reader is inside only if it sleeps
      cases fin with
      | sleep k =>
        obtain ⟨rfl, rfl⟩ : k = m ∧ target = target' := by
          rcases hq with hq | hq <;> cases hq
          exact ⟨rfl, rfl⟩
        obtain ⟨hk, hno⟩ := hpost.sleep k rfl
        refine ⟨?_, fun hmem => ?_⟩
        · rw [List.length_append]
          omega
        · rcases List.mem_append.1 hmem with hmem | hmem
          · exact hnl hmem
          · exact hno hmem
      | _ => rcases hq with hq | hq <;> cases hq
    · rw [Function.update_of_ne hqp] at hq
      rw [if_neg (Ne.symm hqp)]
      exact hinv.inside q m target' hq
  · rw [hto]
    by_cases hqp : p = q
    · subst hqp
      rw [if_pos rfl]
      intro hmem
      rcases List.eq_nil_or_concat' bytes with rfl | ⟨bs, b, rfl⟩
      · rw [List.append_nil] at hmem
        exact hnl ((List.dropLast_sublist _).subset hmem)
      · rw [← List.append_assoc, List.dropLast_concat] at hmem
        rcases List.mem_append.1 hmem with hmem | hmem
        · exact hnl hmem
        · have hl := hpost.line
          rw [List.dropLast_concat] at hl
          exact hl hmem
    · rw [if_neg hqp]
      exact hinv.line q

theorem ConsStep.inv (hinv : ConsInv h st) (hs : restrict ConsStep ConsNoFault st e st') :
    ConsInv (h ++ [e]) st' := by
  obtain ⟨hs, hno⟩ := hs
  cases hs with
  | intr ch => exact hinv.intr ch
  | @call p n hpc =>
    refine hinv.quiet (p := p) (Or.inl rfl) rfl fun q m target hq => ?_
    dsimp only at hq
    by_cases hqp : q = p
    · subst hqp
      rw [Function.update_self] at hq
      rcases hq with hq | hq
      · obtain ⟨rfl, rfl⟩ := ReadPc.wants.inj hq
        exact Or.inr ⟨rfl, rfl⟩
      · cases hq
    · rw [Function.update_of_ne hqp] at hq
      exact Or.inl ⟨fun he => hqp (ConsEvent.call.inj he).symm, hq⟩
  | read killed copyout hpc => exact (hinv.read hpc fun r hr => hno _ _ r (by rw [hr])).2
  | @wake p n target hpc =>
    refine hinv.quiet (p := 0) (Or.inr rfl) rfl fun q m target' hq => ?_
    dsimp only at hq
    refine Or.inl ⟨nofun, ?_⟩
    by_cases hqp : q = p
    · subst hqp
      rw [Function.update_self] at hq
      rcases hq with hq | hq
      · obtain ⟨rfl, rfl⟩ := ReadPc.wants.inj hq
        exact Or.inr hpc
      · cases hq
    · rwa [Function.update_of_ne hqp] at hq

/-- The console hands out the lines that were typed. -/
structure ConsoleOk (h : List ConsEvent) (st : ConsState) : Prop where
  /-- The indices are counters modulo `2 ^ 32`, -/
  indices : st.cons.r = (lineOf h).taken % 2 ^ 32 ∧
    st.cons.w = (lineOf h).committed.length % 2 ^ 32 ∧
    st.cons.e = ((lineOf h).committed.length + (lineOf h).edit.length) % 2 ^ 32
  /-- in order, and no more than the size of the buffer apart. -/
  order : (lineOf h).taken ≤ (lineOf h).committed.length ∧
    (lineOf h).committed.length + (lineOf h).edit.length ≤ (lineOf h).taken + inputBufSize
  /-- What was not taken or erased is in the buffer. -/
  stored : RingHolds inputBufSize st.cons.buf (lineOf h).taken
    ((lineOf h).committed ++ (lineOf h).edit)
  /-- No character erases what was committed. -/
  kept : ∀ ch, (lineOf h).committed <+: (lineOf (h ++ [.intr ch])).committed
  /-- Readers get the committed bytes in order, without the ends of file, -/
  handed : handed h = ((lineOf h).committed.take (lineOf h).taken).filter (· ≠ ctrlD)
  /-- each of which is consumed once, -/
  eofs : eofsRead h = ((lineOf h).committed.take (lineOf h).taken).count ctrlD
  /-- by a call that returns nothing. -/
  eof : ∀ h₁ p bytes r, h₁ ++ [.read p bytes (.eof r)] <+: h →
    r = 0 ∧ handedTo p (h₁ ++ [.read p bytes (.eof r)]) = []
  /-- Other calls return how many bytes they have handed out, -/
  done : ∀ h₁ p bytes r, h₁ ++ [.read p bytes (.done r)] <+: h →
    r = (handedTo p (h₁ ++ [.read p bytes (.done r)])).length
  /-- none of them after a newline. -/
  line : ∀ p, newline ∉ (handedTo p h).dropLast

theorem console_lines (hrun : Run ConsState.Init (restrict ConsStep ConsNoFault) h st) :
    ConsoleOk h st := by
  have hall : ∀ {h st}, Run ConsState.Init (restrict ConsStep ConsNoFault) h st →
      ConsInv h st := fun hrun =>
    hrun.invariant (fun _ hi => hi.inv) fun _ _ _ _ hinv hs => ConsStep.inv hinv hs
  -- what the reader of a `read` event had done before
  have hread : ∀ {h₁ p bytes fin}, h₁ ++ [.read p bytes fin] <+: h →
      ∃ n target, n + (handedTo p h₁).length = target ∧ ReadPost n target bytes fin := by
    intro h₁ p bytes fin hpre
    obtain ⟨st₁, st₂, hrun₁, hs, hno⟩ := hrun.at_event hpre
    generalize he : ConsEvent.read p bytes fin = e at hs hno
    cases hs with
    | @read q n target killed copyout hpc =>
      obtain ⟨rfl, rfl, rfl⟩ := ConsEvent.read.inj he
      have hinv := hall hrun₁
      exact ⟨n, target, (hinv.inside _ n target (Or.inl hpc)).1,
        (hinv.read hpc fun r hr => hno _ _ r (by rw [hr])).1⟩
    | _ => cases he
  have hinv := hall hrun
  refine ⟨⟨hinv.holds.r, hinv.holds.w, hinv.holds.e⟩, ⟨hinv.holds.taken_le, hinv.holds.room⟩,
    hinv.holds.ring, fun ch => ?_, hinv.handed, hinv.eofs, fun h₁ p bytes r hpre => ?_,
    fun h₁ p bytes r hpre => ?_, hinv.line⟩
  · rw [lineOf_snoc]
    exact ((lineOf h).type_committed ch).1
  · obtain ⟨n, target, hlen, hpost⟩ := hread hpre
    obtain ⟨rfl, hr, hn⟩ := hpost.eof r rfl
    refine ⟨hr, ?_⟩
    rw [handedTo_snoc]
    simp only [if_true, List.append_nil]
    exact List.length_eq_zero_iff.1 (by omega)
  · obtain ⟨n, target, hlen, hpost⟩ := hread hpre
    have := hpost.done r rfl
    rw [handedTo_snoc]
    simp only [if_true, List.length_append]
    omega

end Console

/-- The line `a`, typed after a `b` that was erased, and an end of file; two readers. -/
theorem console_lines_two : ∃ h st, ConsoleOk h st ∧ handed h = [97, newline] ∧
    .read 1 [] (.eof 0) ∈ h := by
  have h0 : Run ConsState.Init (restrict ConsStep ConsNoFault) []
      ⟨⟨fun _ => 0, 0, 0, 0⟩, fun _ => .outside⟩ := .start ⟨rfl, rfl, rfl, fun _ => rfl⟩
  have hintr : ∀ {h st} ch, Run ConsState.Init (restrict ConsStep ConsNoFault) h st →
      Run ConsState.Init (restrict ConsStep ConsNoFault) (h ++ [.intr ch])
        { st with cons := st.cons.consoleintr ch } := fun ch hrun =>
    hrun.snoc ⟨.intr ch, fun _ _ _ he => ConsEvent.noConfusion he⟩
  have h1 := hintr ctrlD (hintr carriageReturn (hintr 97 (hintr delKey (hintr 98 h0))))
  have h2 := h1.snoc ⟨.call (p := 0) 5 rfl, fun _ _ _ he => ConsEvent.noConfusion he⟩
  have h3 := h2.snoc ⟨.read (p := 0) false (fun _ => true) rfl, fun _ _ _ he => by
    injection he with _ _ h
    cases h⟩
  have h4 := h3.snoc ⟨.call (p := 1) 5 rfl, fun _ _ _ he => ConsEvent.noConfusion he⟩
  have h5 := h4.snoc ⟨.read (p := 1) false (fun _ => true) rfl, fun _ _ _ he => by
    injection he with _ _ h
    cases h⟩
  exact ⟨_, _, console_lines h5, rfl, List.mem_append_right _ (List.mem_singleton.2 rfl)⟩

end Xv6Plus
