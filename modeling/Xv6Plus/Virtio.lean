import Xv6Plus.Kern
import Xv6Plus.Ring
import Xv6Plus.Steps

/-!
# The disk driver and its device : `kernel/virtio_disk.c`

Any number of processes call `virtio_disk_rw`; the device and `virtio_disk_intr` run beside them.
What the driver does while it holds `vdisk_lock` is cut where the device can tell : between
writing an entry of the `avail` ring and moving `avail->idx`, and after every round of the loop
of `virtio_disk_intr`. A caller has the sleep lock of its buffer, so two callers have different
buffers.

`Reqs` is the protocol without rings and descriptors : requests, each at a stage, and the order
in which they were made available and completed. The rings and the indices, which wrap, are
compared with it in `VirtioRun`.
-/

namespace Xv6Plus

/-! ## The code -/

/-- `NUM`. -/
abbrev virtqNum : ℕ := 8

/-- `VRING_DESC_F_NEXT`. -/
abbrev descNext : ℕ := 1

/-- `VRING_DESC_F_WRITE`. -/
abbrev descWrite : ℕ := 2

/-- What a descriptor points to. -/
inductive DescAddr
  | null
  /-- `&disk.ops[i]`. -/
  | ops (i : ℕ)
  /-- `b->data`. -/
  | data (b : ℕ)
  /-- `&disk.info[i].status`. -/
  | status (i : ℕ)
  deriving DecidableEq, Repr

/-- `struct virtq_desc`. -/
structure Desc where
  addr : DescAddr
  len : ℕ
  flags : ℕ
  next : ℕ
  deriving DecidableEq, Repr

/-- `struct virtio_blk_req`. -/
structure BlkReq where
  type : ℕ
  reserved : ℕ
  sector : ℕ

/-- An element of `disk.info`. -/
structure BlkInfo where
  b : Option ℕ
  status : ℕ

/-- `disk`, the rings, and `b->disk` of the buffers. -/
structure Vdisk where
  free : ℕ → Bool
  desc : ℕ → Desc
  availRing : ℕ → ℕ
  /-- `avail->idx`, 16 bits. -/
  availIdx : ℕ
  usedRing : ℕ → ℕ
  /-- `used->idx`, 16 bits. -/
  usedIdx : ℕ
  /-- `disk.used_idx`, 16 bits. -/
  seenIdx : ℕ
  info : ℕ → BlkInfo
  ops : ℕ → BlkReq
  /-- `b->disk`. -/
  owned : ℕ → Bool

namespace Vdisk

def allocDesc : Kern Vdisk (Option ℕ) := do
  let s ← get
  match (List.range virtqNum).find? s.free with
  | some i =>
    modify fun s => { s with free := Function.update s.free i false }
    pure (some i)
  | none => pure none

def freeDesc (i : ℕ) : Kern Vdisk Unit := do
  let s ← get
  if i ≥ virtqNum then throw "free_desc 1"
  else if s.free i = true then throw "free_desc 2"
  else modify fun s => { s with
    desc := Function.update s.desc i ⟨.null, 0, 0, 0⟩
    free := Function.update s.free i true }

/-- `free_chain`. Every round frees a descriptor or panics, so `NUM + 1` rounds are enough. -/
def freeChain : ℕ → ℕ → Kern Vdisk Unit
  | 0, _ => throw "free_chain"
  | n + 1, i => do
    let s ← get
    let flag := (s.desc i).flags
    let nxt := (s.desc i).next
    freeDesc i
    if flag &&& descNext ≠ 0 then freeChain n nxt else pure ()

def alloc3Desc : Kern Vdisk (Option (ℕ × ℕ × ℕ)) := do
  match ← allocDesc with
  | none => pure none
  | some i =>
    match ← allocDesc with
    | none => do
      freeDesc i
      pure none
    | some j =>
      match ← allocDesc with
      | none => do
        freeDesc i
        freeDesc j
        pure none
      | some k => pure (some (i, j, k))

/-- `virtio_disk_rw` once it has three descriptors, up to the write of the ring. -/
def format (b sector : ℕ) (write : Bool) (i j k : ℕ) (s : Vdisk) : Vdisk :=
  { s with
    ops := Function.update s.ops i ⟨if write = true then 1 else 0, 0, sector⟩
    desc := Function.update (Function.update (Function.update s.desc
      i ⟨.ops i, 16, descNext, j⟩)
      j ⟨.data b, 1024, (if write = true then 0 else descWrite) ||| descNext, k⟩)
      k ⟨.status i, 1, descWrite, 0⟩
    info := Function.update s.info i ⟨some b, 0xff⟩
    owned := Function.update s.owned b true
    availRing := Function.update s.availRing (s.availIdx % virtqNum) i }

/-- A round of the first loop of `virtio_disk_rw`, and what follows if it gets descriptors. -/
def request (b blockno : ℕ) (write : Bool) : Kern Vdisk (Option ℕ) := do
  match ← alloc3Desc with
  | none => pure none
  | some (i, j, k) => do
    modify (format b (blockno * 2 % 2 ^ 32) write i j k)
    pure (some i)

/-- `disk.avail->idx += 1`. -/
def publish (s : Vdisk) : Vdisk := { s with availIdx := (s.availIdx + 1) % 2 ^ 16 }

/-- The end of `virtio_disk_rw`. -/
def finish (i : ℕ) : Kern Vdisk Unit := do
  modify fun s => { s with info := Function.update s.info i { s.info i with b := none } }
  freeChain (virtqNum + 1) i

/-- A round of the loop of `virtio_disk_intr`, with the chain and the buffer that it finds. -/
def intrRound : Kern Vdisk (Option (ℕ × ℕ)) := do
  let s ← get
  if s.seenIdx = s.usedIdx then pure none
  else
    let id := s.usedRing (s.seenIdx % virtqNum)
    if (s.info id).status ≠ 0 then throw "virtio_disk_intr status"
    else match (s.info id).b with
      -- a store through a null pointer
      | none => throw "kerneltrap"
      | some b => do
        modify fun s => { s with
          owned := Function.update s.owned b false
          seenIdx := (s.seenIdx + 1) % 2 ^ 16 }
        pure (some (id, b))

/-- The device completes the chain `id` : it writes the status and an entry of the used ring. -/
def complete (id : ℕ) (s : Vdisk) : Vdisk :=
  let info := match (s.desc (s.desc (s.desc id).next).next).addr with
    | .status i => Function.update s.info i { s.info i with status := 0 }
    | _ => s.info
  { s with
    info := info
    usedRing := Function.update s.usedRing (s.usedIdx % virtqNum) id
    usedIdx := (s.usedIdx + 1) % 2 ^ 16 }

end Vdisk

/-! ## Callers, interrupts and the device -/

/-- Where a process is. -/
inductive VPc
  | idle
  /-- In the loop for descriptors. -/
  | wanting (b blockno : ℕ) (write : Bool)
  /-- Before `disk.avail->idx += 1`. -/
  | publishing (b id : ℕ)
  /-- In the loop for `b->disk`. -/
  | waiting (b id : ℕ)
  deriving DecidableEq

/-- The buffer of the call. -/
def VPc.buf : VPc → Option ℕ
  | .idle => none
  | .wanting b _ _ | .publishing b _ | .waiting b _ => some b

/-- Who holds `vdisk_lock`. -/
inductive VOwner
  | caller (p : ℕ)
  | intr
  deriving DecidableEq

structure VState where
  vd : Vdisk
  /-- How far the device has taken entries of the avail ring, 16 bits. -/
  devIdx : ℕ
  /-- The chains the device works on. -/
  working : Finset ℕ
  lock : Option VOwner
  pc : ℕ → VPc
  panic : Option String

inductive VEvent
  | format (p b id : ℕ)
  | publish (id : ℕ)
  /-- The device takes a chain. -/
  | take (id : ℕ)
  /-- The device completes it. -/
  | complete (id : ℕ)
  /-- `virtio_disk_intr` clears `b->disk`. -/
  | clear (id b : ℕ)
  /-- `virtio_disk_rw` returns. -/
  | done (p b id : ℕ)
  | other
  deriving DecidableEq

inductive VStep : VState → VEvent → VState → Prop
  | call {st : VState} {p b blockno : ℕ} {write : Bool} : st.pc p = .idle →
      (∀ q, (st.pc q).buf ≠ some b) →
      VStep st .other { st with pc := Function.update st.pc p (.wanting b blockno write) }
  /-- No descriptors : the process sleeps, and tries again. -/
  | retry {st : VState} {p b blockno : ℕ} {write : Bool} {vd : Vdisk} : st.lock = none →
      st.pc p = .wanting b blockno write →
      (Vdisk.request b blockno write).run st.vd = .ok (none, vd) →
      VStep st .other { st with vd := vd }
  | format {st : VState} {p b blockno id : ℕ} {write : Bool} {vd : Vdisk} : st.lock = none →
      st.pc p = .wanting b blockno write →
      (Vdisk.request b blockno write).run st.vd = .ok (some id, vd) →
      VStep st (.format p b id) { st with
        vd := vd
        lock := some (.caller p)
        pc := Function.update st.pc p (.publishing b id) }
  | publish {st : VState} {p b id : ℕ} : st.lock = some (.caller p) →
      st.pc p = .publishing b id →
      VStep st (.publish id) { st with
        vd := st.vd.publish
        lock := none
        pc := Function.update st.pc p (.waiting b id) }
  | finish {st : VState} {p b id : ℕ} {vd : Vdisk} : st.lock = none → st.pc p = .waiting b id →
      st.vd.owned b = false → (Vdisk.finish id).run st.vd = .ok ((), vd) →
      VStep st (.done p b id) { st with vd := vd, pc := Function.update st.pc p .idle }
  | intrStart {st : VState} : st.lock = none → VStep st .other { st with lock := some .intr }
  | intrRound {st : VState} {id b : ℕ} {vd : Vdisk} : st.lock = some .intr →
      Vdisk.intrRound.run st.vd = .ok (some (id, b), vd) →
      VStep st (.clear id b) { st with vd := vd }
  | intrEnd {st : VState} {vd : Vdisk} : st.lock = some .intr →
      Vdisk.intrRound.run st.vd = .ok (none, vd) →
      VStep st .other { st with vd := vd, lock := none }
  | take {st : VState} : st.devIdx ≠ st.vd.availIdx →
      VStep st (.take (st.vd.availRing (st.devIdx % virtqNum))) { st with
        devIdx := (st.devIdx + 1) % 2 ^ 16
        working := insert (st.vd.availRing (st.devIdx % virtqNum)) st.working }
  | complete {st : VState} {id : ℕ} : id ∈ st.working →
      VStep st (.complete id) { st with vd := st.vd.complete id, working := st.working.erase id }
  | requestPanic {st : VState} {p b blockno : ℕ} {write : Bool} {msg : String} : st.lock = none →
      st.pc p = .wanting b blockno write →
      (Vdisk.request b blockno write).run st.vd = .error msg →
      VStep st .other { st with panic := some msg }
  | finishPanic {st : VState} {p b id : ℕ} {msg : String} : st.lock = none →
      st.pc p = .waiting b id → st.vd.owned b = false →
      (Vdisk.finish id).run st.vd = .error msg →
      VStep st .other { st with panic := some msg }
  | intrPanic {st : VState} {msg : String} : st.lock = some .intr →
      Vdisk.intrRound.run st.vd = .error msg →
      VStep st .other { st with panic := some msg }

/-- After `virtio_disk_init`. -/
structure VState.Boot (st : VState) : Prop where
  free : ∀ i < virtqNum, st.vd.free i = true
  idx : st.vd.availIdx = 0 ∧ st.vd.usedIdx = 0 ∧ st.vd.seenIdx = 0 ∧ st.devIdx = 0
  working : st.working = ∅
  lock : st.lock = none
  pc : ∀ p, st.pc p = .idle
  panic : st.panic = none

/-! ## The protocol -/

/-- How far a request has come. -/
inductive ReqStage
  | formatted
  | submitted
  | taken
  | completed
  | cleared
  deriving DecidableEq

/-- A request of the process `p` for the buffer `b`; the number of its first descriptor is its
key, `mid` and `last` are the others. -/
structure Req where
  p : ℕ
  b : ℕ
  mid : ℕ
  last : ℕ
  stage : ReqStage

def Req.chain (id : ℕ) (r : Req) : List ℕ := [id, r.mid, r.last]

structure Reqs where
  req : ℕ → Option Req
  /-- The requests made available so far, in order. -/
  avail : List ℕ
  /-- How many of them the device has taken. -/
  taken : ℕ
  /-- The requests completed so far, in order. -/
  used : List ℕ
  /-- How many of them `virtio_disk_intr` has seen. -/
  seen : ℕ

/-- The request comes to another stage. -/
def Reqs.move (A : Reqs) (id : ℕ) (r : Req) (s : ReqStage) : ℕ → Option Req :=
  Function.update A.req id (some { r with stage := s })

/-- A request is formed from free descriptors and goes through its stages one after the other; the
device takes requests in order, and completed ones are seen in order. -/
inductive ReqStep : Reqs → VEvent → Reqs → Prop
  | format {A : Reqs} (p b id mid last : ℕ) : [id, mid, last].Nodup →
      (∀ i ∈ [id, mid, last], i < virtqNum ∧ ∀ id' r, A.req id' = some r → i ∉ r.chain id') →
      ReqStep A (.format p b id)
        { A with req := Function.update A.req id (some ⟨p, b, mid, last, .formatted⟩) }
  | publish {A : Reqs} {id : ℕ} {r : Req} : A.req id = some r → r.stage = .formatted →
      ReqStep A (.publish id) { A with req := A.move id r .submitted, avail := A.avail ++ [id] }
  | take {A : Reqs} {id : ℕ} {r : Req} : A.req id = some r → r.stage = .submitted →
      A.avail[A.taken]? = some id →
      ReqStep A (.take id) { A with req := A.move id r .taken, taken := A.taken + 1 }
  | complete {A : Reqs} {id : ℕ} {r : Req} : A.req id = some r → r.stage = .taken →
      ReqStep A (.complete id) { A with req := A.move id r .completed, used := A.used ++ [id] }
  | clear {A : Reqs} {id : ℕ} {r : Req} : A.req id = some r → r.stage = .completed →
      A.used[A.seen]? = some id →
      ReqStep A (.clear id r.b) { A with req := A.move id r .cleared, seen := A.seen + 1 }
  | done {A : Reqs} {id : ℕ} {r : Req} : A.req id = some r → r.stage = .cleared →
      ReqStep A (.done r.p r.b id) { A with req := Function.update A.req id none }
  | other {A : Reqs} : ReqStep A .other A

/-- No requests. -/
def Reqs.Start (A : Reqs) : Prop := A = ⟨fun _ => none, [], 0, [], 0⟩

def InStage (req : ℕ → Option Req) (s : ReqStage) (id : ℕ) : Prop :=
  ∃ r, req id = some r ∧ r.stage = s

/-- The requests at the stage `s` are those of the queue that were not taken out. -/
structure Queued (req : ℕ → Option Req) (s : ReqStage) (l : List ℕ) (d : ℕ) : Prop where
  le : d ≤ l.length
  nodup : (l.drop d).Nodup
  mem : ∀ id, id ∈ l.drop d ↔ InStage req s id

section Queued

variable {req req' : ℕ → Option Req} {s s' : ReqStage} {l : List ℕ} {d id : ℕ} {r : Req}

theorem inStage_update_of_ne {id' : ℕ} (hne : id' ≠ id) {o : Option Req} :
    InStage (Function.update req id o) s id' ↔ InStage req s id' := by
  rw [InStage, InStage, Function.update_of_ne hne]

theorem inStage_update_self {o : Option Req} :
    InStage (Function.update req id o) s id ↔ ∃ r, o = some r ∧ r.stage = s := by
  rw [InStage, Function.update_self]

theorem Queued.push (hp : Queued req s l d) (hnot : ¬InStage req s id) (hr : r.stage = s) :
    Queued (Function.update req id (some r)) s (l ++ [id]) d := by
  have hdrop : (l ++ [id]).drop d = l.drop d ++ [id] := List.drop_append_of_le_length hp.le
  have hid : id ∉ l.drop d := fun h => hnot ((hp.mem id).1 h)
  refine ⟨Nat.le_trans hp.le (by simp), ?_, fun i => ?_⟩
  · rw [hdrop]
    exact hp.nodup.append (List.nodup_singleton id) (by simpa using hid)
  · rw [hdrop, List.mem_append, List.mem_singleton, hp.mem]
    by_cases hi : i = id
    · subst hi
      simp [inStage_update_self, hr]
    · simp [inStage_update_of_ne hi, hi]

theorem Queued.pop (hp : Queued req s l d) (hd : l[d]? = some id) (hr : r.stage ≠ s) :
    Queued (Function.update req id (some r)) s l (d + 1) := by
  obtain ⟨hlt, hid⟩ := List.getElem?_eq_some_iff.1 hd
  have hdrop : l.drop d = id :: l.drop (d + 1) := by rw [List.drop_eq_getElem_cons hlt, hid]
  have hnd := hp.nodup
  rw [hdrop, List.nodup_cons] at hnd
  refine ⟨hlt, hnd.2, fun i => ?_⟩
  by_cases hi : i = id
  · subst hi
    simp [inStage_update_self, hr, hnd.1]
  · have hmem := hp.mem i
    rw [hdrop, List.mem_cons] at hmem
    rw [inStage_update_of_ne hi, ← hmem]
    simp [hi]

/-- A request changes that is not in the queue, before or after. -/
theorem Queued.frame (hp : Queued req s l d) (hnot : ¬InStage req s id) {o : Option Req}
    (ho : ∀ r, o = some r → r.stage ≠ s) : Queued (Function.update req id o) s l d := by
  refine ⟨hp.le, hp.nodup, fun i => ?_⟩
  rw [hp.mem]
  by_cases hi : i = id
  · subst hi
    rw [inStage_update_self]
    exact ⟨fun h => absurd h hnot, fun ⟨r, hr, hs⟩ => absurd hs (ho r hr)⟩
  · rw [inStage_update_of_ne hi]

theorem not_inStage (hr : req id = some r) (hs : r.stage ≠ s) : ¬InStage req s id := by
  rintro ⟨r', hr', hs'⟩
  rw [hr] at hr'
  obtain rfl := Option.some.inj hr'
  exact hs hs'

theorem length_le_of_nodup_lt {n : ℕ} (hnd : l.Nodup) (hlt : ∀ i ∈ l, i < n) : l.length ≤ n := by
  have hsub : l ⊆ List.range n := fun i hi => List.mem_range.2 (hlt i hi)
  have hlen := (List.subperm_of_subset hnd hsub).length_le
  rwa [List.length_range] at hlen

theorem Queued.lt (hq : Queued req s l d) (hbound : ∀ id r, req id = some r → id < virtqNum) :
    ∀ i ∈ l.drop d, i < virtqNum := fun i hi => by
  obtain ⟨r, hr, -⟩ := (hq.mem i).1 hi
  exact hbound i r hr

/-- There is room in the ring for another request. -/
theorem Queued.room (hq : Queued req s l d) (hbound : ∀ id r, req id = some r → id < virtqNum)
    (hid : id < virtqNum) (hnot : ¬InStage req s id) : l.length < d + virtqNum := by
  have hnd : (id :: l.drop d).Nodup :=
    List.nodup_cons.2 ⟨fun h => hnot ((hq.mem id).1 h), hq.nodup⟩
  have hlen := length_le_of_nodup_lt hnd (List.forall_mem_cons.2 ⟨hid, hq.lt hbound⟩)
  rw [List.length_cons, List.length_drop] at hlen
  have := hq.le
  omega

end Queued

/-- What the protocol keeps. -/
structure Reqs.Inv (A : Reqs) : Prop where
  chain : ∀ id r, A.req id = some r → (r.chain id).Nodup ∧ ∀ i ∈ r.chain id, i < virtqNum
  disjoint : ∀ id r id' r' i, A.req id = some r → A.req id' = some r' → i ∈ r.chain id →
    i ∈ r'.chain id' → id = id'
  avail : Queued A.req .submitted A.avail A.taken
  used : Queued A.req .completed A.used A.seen

section Inv

variable {A A' : Reqs} {e : VEvent} {id : ℕ} {r : Req}

theorem Reqs.Start.inv (h : A.Start) : A.Inv := by
  subst h
  exact ⟨nofun, nofun, ⟨Nat.le_refl _, List.nodup_nil, by simp [InStage]⟩,
    ⟨Nat.le_refl _, List.nodup_nil, by simp [InStage]⟩⟩

theorem Reqs.Inv.lt (hinv : A.Inv) (hr : A.req id = some r) : id < virtqNum :=
  (hinv.chain id r hr).2 id List.mem_cons_self

/-- The request after it has moved, or another one. -/
theorem Reqs.move_cases {s : ReqStage} {id' : ℕ} {r' : Req} (h : A.move id r s id' = some r') :
    (id' = id ∧ r' = { r with stage := s }) ∨ (id' ≠ id ∧ A.req id' = some r') := by
  unfold Reqs.move at h
  by_cases hid : id' = id
  · subst hid
    rw [Function.update_self] at h
    exact Or.inl ⟨rfl, (Option.some.inj h).symm⟩
  · rw [Function.update_of_ne hid] at h
    exact Or.inr ⟨hid, h⟩

/-- A request keeps its descriptors from stage to stage. -/
theorem Reqs.move_chain {s : ReqStage} (hr : A.req id = some r) {id' : ℕ} {r' : Req}
    (h : A.move id r s id' = some r') :
    ∃ r₀, A.req id' = some r₀ ∧ r₀.chain id' = r'.chain id' := by
  rcases Reqs.move_cases h with ⟨rfl, rfl⟩ | ⟨-, h⟩
  · exact ⟨r, hr, rfl⟩
  · exact ⟨r', h, rfl⟩

theorem Reqs.Inv.move (hinv : A.Inv) (hr : A.req id = some r) {s : ReqStage} {avail used : List ℕ}
    {taken seen : ℕ} (havail : Queued (A.move id r s) .submitted avail taken)
    (hused : Queued (A.move id r s) .completed used seen) :
    Reqs.Inv ⟨A.move id r s, avail, taken, used, seen⟩ := by
  refine ⟨fun id' r' h => ?_, fun id₁ r₁ id₂ r₂ i h₁ h₂ hi₁ hi₂ => ?_, havail, hused⟩
  · obtain ⟨r₀, h₀, hc⟩ := Reqs.move_chain hr h
    rw [← hc]
    exact hinv.chain id' r₀ h₀
  · obtain ⟨r₃, h₃, hc₁⟩ := Reqs.move_chain hr h₁
    obtain ⟨r₄, h₄, hc₂⟩ := Reqs.move_chain hr h₂
    exact hinv.disjoint id₁ r₃ id₂ r₄ i h₃ h₄ (hc₁ ▸ hi₁) (hc₂ ▸ hi₂)

theorem ReqStep.inv (hs : ReqStep A e A') (hinv : A.Inv) : A'.Inv := by
  cases hs with
  | format p b id mid last hnd hfree =>
    have hnone : A.req id = none := by
      cases hr : A.req id with
      | none => rfl
      | some r => exact absurd List.mem_cons_self ((hfree id List.mem_cons_self).2 id r hr)
    have hnot : ∀ s, ¬InStage A.req s id := by
      rintro s ⟨r, hr, -⟩
      rw [hnone] at hr
      cases hr
    -- the new request, or an old one
    have hcase : ∀ id' r, Function.update A.req id (some ⟨p, b, mid, last, .formatted⟩) id' =
        some r → (id' = id ∧ r.chain id' = [id, mid, last]) ∨ A.req id' = some r := by
      intro id' r h
      by_cases hid : id' = id
      · subst hid
        rw [Function.update_self] at h
        obtain rfl := Option.some.inj h
        exact Or.inl ⟨rfl, rfl⟩
      · rw [Function.update_of_ne hid] at h
        exact Or.inr h
    refine ⟨fun id' r h => ?_, fun id₁ r₁ id₂ r₂ i h₁ h₂ hi₁ hi₂ => ?_,
      hinv.avail.frame (hnot _) (by rintro _ ⟨⟩; nofun),
      hinv.used.frame (hnot _) (by rintro _ ⟨⟩; nofun)⟩
    · rcases hcase id' r h with ⟨-, hc⟩ | h
      · rw [hc]
        exact ⟨hnd, fun i hi => (hfree i hi).1⟩
      · exact hinv.chain id' r h
    · rcases hcase id₁ r₁ h₁ with ⟨heq₁, hc₁⟩ | hr₁ <;>
        rcases hcase id₂ r₂ h₂ with ⟨heq₂, hc₂⟩ | hr₂
      · rw [heq₁, heq₂]
      · exact absurd hi₂ ((hfree i (hc₁ ▸ hi₁)).2 id₂ r₂ hr₂)
      · exact absurd hi₁ ((hfree i (hc₂ ▸ hi₂)).2 id₁ r₁ hr₁)
      · exact hinv.disjoint id₁ r₁ id₂ r₂ i hr₁ hr₂ hi₁ hi₂
  | publish hr hst =>
    exact hinv.move hr (hinv.avail.push (not_inStage hr (by simp [hst])) rfl)
      (hinv.used.frame (not_inStage hr (by simp [hst])) (by rintro _ ⟨⟩; nofun))
  | take hr hst hnext =>
    exact hinv.move hr (hinv.avail.pop hnext nofun)
      (hinv.used.frame (not_inStage hr (by simp [hst])) (by rintro _ ⟨⟩; nofun))
  | complete hr hst =>
    exact hinv.move hr (hinv.avail.frame (not_inStage hr (by simp [hst])) (by rintro _ ⟨⟩; nofun))
      (hinv.used.push (not_inStage hr (by simp [hst])) rfl)
  | clear hr hst hnext =>
    exact hinv.move hr (hinv.avail.frame (not_inStage hr (by simp [hst])) (by rintro _ ⟨⟩; nofun))
      (hinv.used.pop hnext nofun)
  | @done id r hr hst =>
    have hold : ∀ id' r', Function.update A.req id none id' = some r' → A.req id' = some r' := by
      intro id' r' h
      by_cases hid : id' = id
      · subst hid
        rw [Function.update_self] at h
        cases h
      · rwa [Function.update_of_ne hid] at h
    exact ⟨fun id' r' h => hinv.chain id' r' (hold id' r' h),
      fun id₁ r₁ id₂ r₂ i h₁ h₂ =>
        hinv.disjoint id₁ r₁ id₂ r₂ i (hold id₁ r₁ h₁) (hold id₂ r₂ h₂),
      hinv.avail.frame (not_inStage hr (by simp [hst])) nofun,
      hinv.used.frame (not_inStage hr (by simp [hst])) nofun⟩
  | other => exact hinv

end Inv

end Xv6Plus
