import Xv6Plus.Virtio

/-!
# The disk driver keeps the protocol

`VRel` relates the driver, its rings and the device to the requests of `Reqs` : which descriptors
are free, how those of a request are linked, where its process is, and that the entries of the
rings that were not consumed yet stand where the indices, which wrap, lead to. Every step is a step
of the protocol (`VRel.step`), so every history is one of the protocol.
-/

namespace Xv6Plus

/-! ## Descriptors -/

namespace Vdisk

variable {s : Vdisk} {i : ℕ}

theorem allocDesc_spec : wp allocDesc (fun o s' => match o with
    | some i => i < virtqNum ∧ s.free i = true ∧
      s' = { s with free := Function.update s.free i false }
    | none => s' = s) noPanic s := by
  unfold allocDesc
  simp only [wp_bind, wp_get]
  cases hf : (List.range virtqNum).find? s.free with
  | some i =>
    have hi : i < virtqNum := List.mem_range.1 (List.mem_of_find?_eq_some hf)
    simp only [wp_bind, wp_modify, wp_pure]
    exact ⟨hi, List.find?_some hf, trivial⟩
  | none => simp only [wp_pure]

theorem freeDesc_spec (hi : i < virtqNum) (hf : s.free i = false) :
    wp (freeDesc i) (fun _ s' => s' = { s with
      desc := Function.update s.desc i ⟨.null, 0, 0, 0⟩
      free := Function.update s.free i true }) noPanic s := by
  unfold freeDesc
  simp only [wp_bind, wp_get, wp_ite]
  refine ⟨fun h => absurd hi (Nat.not_lt.2 h), fun _ => ⟨fun h => ?_, fun _ => by simp⟩⟩
  rw [hf] at h
  cases h

/-- The descriptors `l` are allocated. -/
def allocate (s : Vdisk) (l : List ℕ) : Vdisk :=
  { s with free := fun i => if i ∈ l then false else s.free i }

/-- A failed allocation frees again what it had got. -/
structure Undone (s s' : Vdisk) : Prop where
  free : s'.free = s.free
  desc : ∀ i, s.free i = false → s'.desc i = s.desc i
  rest : s' = { s with free := s'.free, desc := s'.desc }

theorem Undone.refl : Undone s s := ⟨rfl, fun _ _ => rfl, rfl⟩

/-- Allocating and freeing a descriptor around a failed allocation. -/
theorem Undone.wrap {s' : Vdisk} (hi : s.free i = true)
    (h : Undone { s with free := Function.update s.free i false } s') :
    Undone s { s' with
      desc := Function.update s'.desc i ⟨.null, 0, 0, 0⟩
      free := Function.update s'.free i true } := by
  obtain ⟨hfree, hdesc, hrest⟩ := h
  refine ⟨?_, fun j hj => ?_, ?_⟩
  · rw [hfree, Function.update_idem, ← hi, Function.update_eq_self]
  · have hne : j ≠ i := by
      rintro rfl
      rw [hi] at hj
      cases hj
    dsimp only
    rw [Function.update_of_ne hne, hdesc j (by rw [← hj]; exact Function.update_of_ne hne ..)]
  · rw [hrest]

theorem alloc3Desc_spec : wp alloc3Desc (fun o s' => match o with
    | some (i, j, k) => [i, j, k].Nodup ∧ (∀ x ∈ [i, j, k], x < virtqNum ∧ s.free x = true) ∧
        s' = s.allocate [i, j, k]
    | none => Undone s s') noPanic s := by
  unfold alloc3Desc
  rw [wp_bind]
  refine wp_post allocDesc_spec fun o s₁ h₁ => ?_
  cases o with
  | none =>
    rw [wp_pure, h₁]
    exact .refl
  | some i =>
    obtain ⟨hi, hfi, rfl⟩ := h₁
    rw [wp_bind]
    refine wp_post allocDesc_spec fun o s₂ h₂ => ?_
    cases o with
    | none =>
      obtain rfl : s₂ = _ := h₂
      rw [wp_bind]
      refine wp_post (freeDesc_spec hi (Function.update_self ..)) ?_
      rintro _ s' rfl
      rw [wp_pure]
      exact .wrap hfi .refl
    | some j =>
      obtain ⟨hj, hfj, rfl⟩ := h₂
      have hji : j ≠ i := by
        rintro rfl
        simp at hfj
      rw [wp_bind]
      refine wp_post allocDesc_spec fun o s₃ h₃ => ?_
      cases o with
      | none =>
        obtain rfl : s₃ = _ := h₃
        dsimp only at hfj
        rw [Function.update_of_ne hji] at hfj
        dsimp only
        -- the first is freed first : as if it had been allocated last
        rw [Function.update_comm hji.symm, wp_bind]
        refine wp_post (freeDesc_spec hi (Function.update_self ..)) ?_
        rintro _ s₄ rfl
        rw [wp_bind]
        refine wp_post (freeDesc_spec hj ?_) ?_
        · dsimp only
          rw [Function.update_of_ne hji, Function.update_of_ne hji, Function.update_self]
        rintro _ s₅ rfl
        rw [wp_pure]
        refine .wrap hfj (.wrap ?_ .refl)
        dsimp only
        rw [Function.update_of_ne hji.symm, hfi]
      | some k =>
        obtain ⟨hk, hfk, rfl⟩ := h₃
        have hkj : k ≠ j := by
          rintro rfl
          simp at hfk
        have hki : k ≠ i := by
          rintro rfl
          simp [Ne.symm hji] at hfk
        dsimp only at hfj hfk
        rw [Function.update_of_ne hji] at hfj
        rw [Function.update_of_ne hkj, Function.update_of_ne hki] at hfk
        rw [wp_pure]
        refine ⟨by simp [Ne.symm hji, Ne.symm hki, Ne.symm hkj], ?_, ?_⟩
        · simp [hi, hj, hk, hfi, hfj, hfk]
        · unfold allocate
          congr 1
          funext x
          simp only [Function.update_apply, List.mem_cons, List.not_mem_nil, or_false]
          split_ifs <;> simp_all

/-- The descriptors `l` form a chain. -/
def ChainOf (s : Vdisk) : List ℕ → Prop
  | [] => False
  | [i] => (s.desc i).flags &&& descNext = 0
  | i :: j :: l => (s.desc i).flags &&& descNext ≠ 0 ∧ (s.desc i).next = j ∧ ChainOf s (j :: l)

/-- The descriptors `l` are freed. -/
def deallocate (s : Vdisk) (l : List ℕ) : Vdisk :=
  { s with
    free := fun i => if i ∈ l then true else s.free i
    desc := fun i => if i ∈ l then ⟨.null, 0, 0, 0⟩ else s.desc i }

theorem ChainOf.congr {s' : Vdisk} {l : List ℕ} (h : s.ChainOf l)
    (hs : ∀ i ∈ l, s'.desc i = s.desc i) : s'.ChainOf l := by
  induction l with
  | nil => exact h
  | cons i l ih =>
    cases l with
    | nil =>
      unfold ChainOf at h ⊢
      rwa [hs i List.mem_cons_self]
    | cons j l =>
      obtain ⟨hflag, hnext, ht⟩ := h
      refine ⟨?_, ?_, ih ht fun k hk => hs k (List.mem_cons_of_mem _ hk)⟩
      · rwa [hs i List.mem_cons_self]
      · rwa [hs i List.mem_cons_self]

theorem deallocate_cons {l : List ℕ} :
    ({ s with
      desc := Function.update s.desc i ⟨.null, 0, 0, 0⟩
      free := Function.update s.free i true } : Vdisk).deallocate l = s.deallocate (i :: l) := by
  unfold deallocate
  congr 1
  · funext j
    by_cases hl : j ∈ l <;> by_cases hj : j = i <;> simp [hl, hj]
  · funext j
    by_cases hl : j ∈ l <;> by_cases hj : j = i <;> simp [hl, hj]

theorem freeChain_spec {l : List ℕ} {n : ℕ} (hchain : s.ChainOf (i :: l)) (hnd : (i :: l).Nodup)
    (hl : ∀ j ∈ i :: l, j < virtqNum ∧ s.free j = false) (hn : l.length < n) :
    wp (freeChain n i) (fun _ s' => s' = s.deallocate (i :: l)) noPanic s := by
  induction l generalizing s i n with
  | nil =>
    obtain ⟨n, rfl⟩ : ∃ m, n = m + 1 := ⟨n - 1, by omega⟩
    obtain ⟨hi, hf⟩ := hl i List.mem_cons_self
    unfold freeChain
    simp only [wp_bind, wp_get]
    refine wp_post (freeDesc_spec hi hf) ?_
    rintro _ s' rfl
    have hflag : (s.desc i).flags &&& descNext = 0 := hchain
    rw [if_neg (not_not.2 hflag), wp_pure, ← deallocate_cons]
    unfold deallocate
    simp
  | cons j l ih =>
    obtain ⟨n, rfl⟩ : ∃ m, n = m + 1 := ⟨n - 1, by omega⟩
    obtain ⟨hi, hf⟩ := hl i List.mem_cons_self
    obtain ⟨hflag, hnext, ht⟩ := hchain
    have hnot := (List.nodup_cons.1 hnd).1
    unfold freeChain
    simp only [wp_bind, wp_get]
    refine wp_post (freeDesc_spec hi hf) ?_
    rintro _ s' rfl
    rw [if_pos hflag, hnext, ← deallocate_cons]
    have hne : ∀ k ∈ j :: l, k ≠ i := fun k hk heq => hnot (heq ▸ hk)
    refine ih (ht.congr fun k hk => Function.update_of_ne (hne k hk) ..)
      (List.nodup_cons.1 hnd).2 (fun k hk => ?_) (by simpa using hn)
    obtain ⟨hk', hfk⟩ := hl k (List.mem_cons_of_mem _ hk)
    exact ⟨hk', (Function.update_of_ne (hne k hk) ..).trans hfk⟩

theorem finish_spec {mid last : ℕ} (hchain : s.ChainOf [i, mid, last])
    (hnd : [i, mid, last].Nodup)
    (hl : ∀ j ∈ [i, mid, last], j < virtqNum ∧ s.free j = false) :
    wp (finish i) (fun _ s' => s' = ({ s with
      info := Function.update s.info i { s.info i with b := none } } : Vdisk).deallocate
        [i, mid, last]) noPanic s := by
  unfold finish
  simp only [wp_bind, wp_modify]
  exact freeChain_spec (hchain.congr fun _ _ => rfl) hnd hl (by simp)

theorem request_spec {b blockno : ℕ} {write : Bool} :
    wp (request b blockno write) (fun o s' => match o with
      | some i => ∃ mid last, [i, mid, last].Nodup ∧
          (∀ x ∈ [i, mid, last], x < virtqNum ∧ s.free x = true) ∧
          s' = (s.allocate [i, mid, last]).format b (blockno * 2 % 2 ^ 32) write i mid last
      | none => Undone s s') noPanic s := by
  unfold request
  rw [wp_bind]
  refine wp_post alloc3Desc_spec fun o s₁ h₁ => ?_
  cases o with
  | none =>
    rw [wp_pure]
    exact h₁
  | some idx =>
    obtain ⟨i, j, k⟩ := idx
    obtain ⟨hnd, hfree, rfl⟩ := h₁
    simp only [wp_bind, wp_modify, wp_pure]
    exact ⟨j, k, hnd, hfree, rfl⟩

/-- A round of `virtio_disk_intr`, when what it finds is in order. -/
theorem intrRound_spec (hok : s.seenIdx ≠ s.usedIdx →
      (s.info (s.usedRing (s.seenIdx % virtqNum))).status = 0 ∧
      (s.info (s.usedRing (s.seenIdx % virtqNum))).b ≠ none) :
    wp intrRound (fun o s' => match o with
      | some (id, b) => s.seenIdx ≠ s.usedIdx ∧ id = s.usedRing (s.seenIdx % virtqNum) ∧
          (s.info id).b = some b ∧ s' = { s with
            owned := Function.update s.owned b false
            seenIdx := (s.seenIdx + 1) % 2 ^ 16 }
      | none => s' = s) noPanic s := by
  unfold intrRound
  simp only [wp_bind, wp_get, wp_ite, wp_pure]
  refine ⟨fun _ => trivial, fun hne => ?_⟩
  obtain ⟨hstatus, hb⟩ := hok hne
  refine ⟨fun h => absurd hstatus h, fun _ => ?_⟩
  cases hinfo : (s.info (s.usedRing (s.seenIdx % virtqNum))).b with
  | none => exact absurd hinfo hb
  | some b =>
    simp only [wp_bind, wp_modify, wp_pure]
    exact ⟨hne, trivial, hinfo, trivial⟩

end Vdisk

/-! ## The relation -/

/-- The driver has written down the request. -/
structure Built (s : Vdisk) (id : ℕ) (r : Req) : Prop where
  chain : s.ChainOf (r.chain id)
  addr : (s.desc r.last).addr = .status id
  b : (s.info id).b = some r.b
  owned : s.owned r.b = true ↔ r.stage ≠ .cleared
  status : r.stage = .completed → (s.info id).status = 0

/-- Where the process of a request is. -/
def Req.pc (id : ℕ) (r : Req) : VPc :=
  if r.stage = .formatted then .publishing r.b id else .waiting r.b id

/-- The descriptors and the requests. -/
structure DescRel (vd : Vdisk) (req : ℕ → Option Req) : Prop where
  free : ∀ i < virtqNum, vd.free i = true ↔ ∀ id r, req id = some r → i ∉ r.chain id
  built : ∀ id r, req id = some r → Built vd id r

/-- The processes and the requests; `slot` is the next entry of the avail ring. -/
structure ProcRel (pc : ℕ → VPc) (lock : Option VOwner) (slot : ℕ) (req : ℕ → Option Req) :
    Prop where
  stands : ∀ id r, req id = some r → pc r.p = r.pc id
  /-- A call that has descriptors has a request. -/
  owner : ∀ p b id, pc p = .publishing b id ∨ pc p = .waiting b id → ∃ r, req id = some r ∧ r.p = p
  publishing : ∀ p b id, pc p = .publishing b id → lock = some (.caller p) ∧ slot = id
  bufs : ∀ p q b, (pc p).buf = some b → (pc q).buf = some b → p = q

/-- The next entry of the avail ring. -/
def Vdisk.slot (s : Vdisk) : ℕ := s.availRing (s.availIdx % virtqNum)

/-- The rings and the queues of the protocol. -/
structure RingRel (vd : Vdisk) (devIdx : ℕ) (A : Reqs) : Prop where
  avail : RingHolds virtqNum vd.availRing A.taken A.avail
  availIdx : vd.availIdx = A.avail.length % 2 ^ 16
  devIdx : devIdx = A.taken % 2 ^ 16
  used : RingHolds virtqNum vd.usedRing A.seen A.used
  usedIdx : vd.usedIdx = A.used.length % 2 ^ 16
  seenIdx : vd.seenIdx = A.seen % 2 ^ 16

structure VRel (st : VState) (A : Reqs) : Prop where
  inv : A.Inv
  panic : st.panic = none
  descs : DescRel st.vd A.req
  procs : ProcRel st.pc st.lock st.vd.slot A.req
  working : ∀ id, id ∈ st.working ↔ InStage A.req .taken id
  rings : RingRel st.vd st.devIdx A

section Desc

variable {vd vd' : Vdisk} {A : Reqs} {id : ℕ} {r : Req} {s : ReqStage}

theorem Built.congr (hb : Built vd id r) (hdesc : ∀ i ∈ r.chain id, vd'.desc i = vd.desc i)
    (hinfo : vd'.info id = vd.info id) (howned : vd'.owned r.b = vd.owned r.b) :
    Built vd' id r := by
  refine ⟨hb.chain.congr hdesc, ?_, ?_, ?_, ?_⟩
  · rw [hdesc r.last (by simp [Req.chain]), hb.addr]
  · rw [hinfo, hb.b]
  · rw [howned, hb.owned]
  · rw [hinfo]
    exact hb.status

theorem DescRel.not_free (hd : DescRel vd A.req) (hinv : A.Inv) (hr : A.req id = some r) {i : ℕ}
    (hi : i ∈ r.chain id) : vd.free i = false := by
  by_contra h
  rw [Bool.not_eq_false] at h
  exact (hd.free i ((hinv.chain id r hr).2 i hi)).1 h id r hr hi

theorem DescRel.undone (hd : DescRel vd A.req) (hinv : A.Inv) (hu : Vdisk.Undone vd vd') :
    DescRel vd' A.req := by
  refine ⟨?_, fun id r hr => ?_⟩
  · rw [hu.free]
    exact hd.free
  · refine (hd.built id r hr).congr (fun i hi => hu.desc i (hd.not_free hinv hr hi)) ?_ ?_
    · rw [hu.rest]
    · rw [hu.rest]

theorem DescRel.format {p b sector mid last : ℕ} {write : Bool} (hd : DescRel vd A.req)
    (hnd : [id, mid, last].Nodup)
    (hnew : ∀ i ∈ [id, mid, last], ∀ id' r, A.req id' = some r → i ∉ r.chain id')
    (hb : ∀ id' r, A.req id' = some r → r.b ≠ b) :
    DescRel ((vd.allocate [id, mid, last]).format b sector write id mid last)
      (Function.update A.req id (some ⟨p, b, mid, last, .formatted⟩)) := by
  have hcase : ∀ id' r, Function.update A.req id (some ⟨p, b, mid, last, .formatted⟩) id' = some r →
      (id' = id ∧ r = ⟨p, b, mid, last, .formatted⟩) ∨ (id' ≠ id ∧ A.req id' = some r) := by
    intro id' r h
    by_cases hid : id' = id
    · subst hid
      rw [Function.update_self] at h
      exact Or.inl ⟨rfl, (Option.some.inj h).symm⟩
    · rw [Function.update_of_ne hid] at h
      exact Or.inr ⟨hid, h⟩
  simp only [List.nodup_cons, List.mem_cons, List.not_mem_nil, or_false, not_or] at hnd
  obtain ⟨⟨him, hil⟩, hml, -⟩ := hnd
  refine ⟨fun i hi => ?_, fun id' r h => ?_⟩
  · show (if i ∈ [id, mid, last] then false else vd.free i) = true ↔ _
    by_cases hmem : i ∈ [id, mid, last]
    · rw [if_pos hmem]
      refine ⟨nofun, fun h => ?_⟩
      exact absurd hmem (h id _ (Function.update_self ..))
    · rw [if_neg hmem, hd.free i hi]
      refine ⟨fun h id' r hr => ?_, fun h id' r hr => ?_⟩
      · rcases hcase id' r hr with ⟨rfl, rfl⟩ | ⟨-, hr⟩
        · exact hmem
        · exact h id' r hr
      · have hne : id' ≠ id := by
          rintro rfl
          exact hnew id' List.mem_cons_self id' r hr List.mem_cons_self
        exact h id' r (by rw [Function.update_of_ne hne, hr])
  · rcases hcase id' r h with ⟨rfl, rfl⟩ | ⟨hne, hr⟩
    · refine ⟨?_, ?_, ?_, ?_, nofun⟩
      · simp [Req.chain, Vdisk.ChainOf, Vdisk.format, him, hil, hml]
      · simp [Vdisk.format]
      · simp [Vdisk.format]
      · simp [Vdisk.format]
    · refine (hd.built id' r hr).congr (fun i hi => ?_) ?_ ?_
      · have hne' : ∀ x ∈ [id, mid, last], i ≠ x := fun x hx heq =>
          hnew x hx id' r hr (heq ▸ hi)
        simp only [List.mem_cons, List.not_mem_nil, or_false, forall_eq_or_imp,
          forall_eq] at hne'
        simp [Vdisk.format, Vdisk.allocate, hne'.1, hne'.2.1, hne'.2.2]
      · simp [Vdisk.format, Vdisk.allocate, hne]
      · simp [Vdisk.format, Vdisk.allocate, hb id' r hr]

/-- A request moves on; `vd'` differs from `vd` in its `info` or in `b->disk` at most. -/
theorem DescRel.move (hd : DescRel vd A.req) (hr : A.req id = some r)
    (hfree : vd'.free = vd.free) (hdesc : vd'.desc = vd.desc)
    (hself : Built vd' id { r with stage := s })
    (hother : ∀ id' r', id' ≠ id → A.req id' = some r' → vd'.info id' = vd.info id' ∧
      vd'.owned r'.b = vd.owned r'.b) : DescRel vd' (A.move id r s) := by
  refine ⟨fun i hi => ?_, fun id' r' h => ?_⟩
  · rw [hfree, hd.free i hi]
    refine ⟨fun h id' r' hr' => ?_, fun h id' r' hr' => ?_⟩
    · obtain ⟨r₀, hr₀, hc⟩ := Reqs.move_chain hr hr'
      rw [← hc]
      exact h id' r₀ hr₀
    · by_cases hid : id' = id
      · subst hid
        rw [hr] at hr'
        obtain rfl := Option.some.inj hr'
        exact h id' { r with stage := s } (by rw [Reqs.move, Function.update_self])
      · exact h id' r' (by rw [Reqs.move, Function.update_of_ne hid, hr'])
  · rcases Reqs.move_cases h with ⟨rfl, rfl⟩ | ⟨hid, hr'⟩
    · exact hself
    · obtain ⟨hinfo, howned⟩ := hother id' r' hid hr'
      exact (hd.built id' r' hr').congr (fun i _ => by rw [hdesc]) hinfo howned

/-- The request comes to a stage that only the queues tell. -/
theorem DescRel.move_same (hd : DescRel vd A.req) (hr : A.req id = some r)
    (hold : r.stage ≠ .cleared) (hnew : s ≠ .cleared) (hs : s ≠ .completed)
    (hfree : vd'.free = vd.free) (hdesc : vd'.desc = vd.desc) (hinfo : vd'.info = vd.info)
    (howned : vd'.owned = vd.owned) : DescRel vd' (A.move id r s) := by
  have hb := hd.built id r hr
  refine hd.move hr hfree hdesc ?_ fun _ _ _ _ => by rw [hinfo, howned]; exact ⟨rfl, rfl⟩
  refine ⟨hb.chain.congr fun i _ => by rw [hdesc], by rw [hdesc]; exact hb.addr,
    by rw [hinfo]; exact hb.b, ?_, fun h => absurd h hs⟩
  rw [howned, hb.owned]
  exact ⟨fun _ => hnew, fun _ => hold⟩

/-- The device finds the status byte of the request. -/
theorem Built.complete (hb : Built vd id r) :
    (vd.complete id).info = Function.update vd.info id { vd.info id with status := 0 } := by
  obtain ⟨-, hmid, -, hlast, -⟩ := hb.chain
  unfold Vdisk.complete
  dsimp only
  rw [hmid, hlast, hb.addr]

theorem DescRel.finish (hd : DescRel vd A.req) (hinv : A.Inv) (hr : A.req id = some r) :
    DescRel (({ vd with info := Function.update vd.info id { vd.info id with b := none } } :
      Vdisk).deallocate (r.chain id)) (Function.update A.req id none) := by
  have hold : ∀ id' r', Function.update A.req id none id' = some r' →
      id' ≠ id ∧ A.req id' = some r' := by
    intro id' r' h
    by_cases hid : id' = id
    · subst hid
      rw [Function.update_self] at h
      cases h
    · rw [Function.update_of_ne hid] at h
      exact ⟨hid, h⟩
  refine ⟨fun i hi => ?_, fun id' r' h => ?_⟩
  · show (if i ∈ r.chain id then true else vd.free i) = true ↔ _
    by_cases hmem : i ∈ r.chain id
    · rw [if_pos hmem]
      refine ⟨fun _ id' r' hr' hi' => ?_, fun _ => rfl⟩
      obtain ⟨hne, hr'⟩ := hold id' r' hr'
      exact hne (hinv.disjoint id' r' id r i hr' hr hi' hmem)
    · rw [if_neg hmem, hd.free i hi]
      refine ⟨fun h id' r' hr' => h id' r' (hold id' r' hr').2, fun h id' r' hr' => ?_⟩
      by_cases hid : id' = id
      · subst hid
        rw [hr] at hr'
        rw [← Option.some.inj hr']
        exact hmem
      · exact h id' r' (by rw [Function.update_of_ne hid, hr'])
  · obtain ⟨hne, hr'⟩ := hold id' r' h
    refine (hd.built id' r' hr').congr (fun i hi => ?_) (Function.update_of_ne hne ..) rfl
    exact if_neg fun hi' => hne (hinv.disjoint id' r' id r i hr' hr hi hi')

end Desc

section Proc

variable {pc : ℕ → VPc} {lock : Option VOwner} {slot slot' id p b : ℕ} {A : Reqs} {r : Req}
  {s : ReqStage}

theorem Req.pc_buf : (r.pc id).buf = some r.b := by
  unfold Req.pc
  split_ifs <;> rfl

/-- The buffer of a process that is not in a request is not that of one. -/
theorem ProcRel.buf_ne (hp : ProcRel pc lock slot A.req) (hb : (pc p).buf = some b)
    (hr : A.req id = some r) (hne : r.p ≠ p) : r.b ≠ b := by
  rintro rfl
  refine hne (hp.bufs r.p p r.b ?_ hb)
  rw [hp.stands id r hr, Req.pc_buf]

theorem ProcRel.unique (hp : ProcRel pc lock slot A.req) {id' : ℕ} {r' : Req}
    (hr : A.req id = some r) (hr' : A.req id' = some r') (heq : r.p = r'.p) : id = id' := by
  have h := hp.stands id r hr
  have h' := hp.stands id' r' hr'
  rw [heq, h'] at h
  unfold Req.pc at h
  split_ifs at h <;> injection h with _ hid <;> exact hid.symm

theorem ProcRel.bufs_ne (hp : ProcRel pc lock slot A.req) {id' : ℕ} {r' : Req}
    (hr : A.req id = some r) (hr' : A.req id' = some r') (hne : id' ≠ id) : r'.b ≠ r.b := by
  refine hp.buf_ne (p := r.p) ?_ hr' fun heq => hne (hp.unique hr' hr heq)
  rw [hp.stands id r hr, Req.pc_buf]

theorem ProcRel.call (hp : ProcRel pc lock slot A.req) (hidle : pc p = .idle)
    (hb : ∀ q, (pc q).buf ≠ some b) {c : VPc} (hc : c.buf = some b)
    (hnot : ∀ b id, c ≠ .publishing b id ∧ c ≠ .waiting b id) :
    ProcRel (Function.update pc p c) lock slot A.req := by
  have hother : ∀ q d, Function.update pc p c q = d → (∀ b id, d ≠ .publishing b id ∧
      d ≠ .waiting b id) ∨ pc q = d := by
    rintro q _ rfl
    by_cases hq : q = p
    · subst hq
      rw [Function.update_self]
      exact Or.inl hnot
    · rw [Function.update_of_ne hq]
      exact Or.inr rfl
  refine ⟨fun id r hr => ?_, fun q b' id h => ?_, fun q b' id h => ?_, fun q₁ q₂ b' h₁ h₂ => ?_⟩
  · have hne : r.p ≠ p := by
      intro heq
      have hst := hp.stands id r hr
      rw [heq, hidle] at hst
      have hbuf : (r.pc id).buf = some r.b := Req.pc_buf
      rw [← hst] at hbuf
      cases hbuf
    rw [Function.update_of_ne hne]
    exact hp.stands id r hr
  · rcases h with h | h
    · exact hp.owner q b' id (Or.inl ((hother q _ h).resolve_left fun h' => (h' b' id).1 rfl))
    · exact hp.owner q b' id (Or.inr ((hother q _ h).resolve_left fun h' => (h' b' id).2 rfl))
  · exact hp.publishing q b' id ((hother q _ h).resolve_left fun h' => (h' b' id).1 rfl)
  · by_cases hq₁ : q₁ = p <;> by_cases hq₂ : q₂ = p
    · rw [hq₁, hq₂]
    · rw [hq₁, Function.update_self, hc] at h₁
      rw [Function.update_of_ne hq₂] at h₂
      exact absurd (h₁ ▸ h₂) (hb q₂)
    · rw [hq₂, Function.update_self, hc] at h₂
      rw [Function.update_of_ne hq₁] at h₁
      exact absurd (h₂ ▸ h₁) (hb q₁)
    · rw [Function.update_of_ne hq₁] at h₁
      rw [Function.update_of_ne hq₂] at h₂
      exact hp.bufs q₁ q₂ b' h₁ h₂

/-- The processes go on, each with the buffer it has. -/
theorem ProcRel.bufs_update (hp : ProcRel pc lock slot A.req) {c : VPc}
    (hc : ∀ b, c.buf = some b → (pc p).buf = some b) (q₁ q₂ b : ℕ)
    (h₁ : (Function.update pc p c q₁).buf = some b)
    (h₂ : (Function.update pc p c q₂).buf = some b) : q₁ = q₂ := by
  have hold : ∀ q, (Function.update pc p c q).buf = some b → (pc q).buf = some b := by
    intro q h
    by_cases hq : q = p
    · subst hq
      rw [Function.update_self] at h
      exact hc b h
    · rwa [Function.update_of_ne hq] at h
  exact hp.bufs q₁ q₂ b (hold q₁ h₁) (hold q₂ h₂)

theorem ProcRel.format (hp : ProcRel pc none slot A.req) {blockno : ℕ} {write : Bool}
    (hpc : pc p = .wanting b blockno write) (hnone : A.req id = none) {mid last : ℕ} :
    ProcRel (Function.update pc p (.publishing b id)) (some (.caller p)) id
      (Function.update A.req id (some ⟨p, b, mid, last, .formatted⟩)) := by
  have hnopub : ∀ q b' id', pc q ≠ .publishing b' id' := fun q b' id' h =>
    absurd (hp.publishing q b' id' h).1 nofun
  have hold : ∀ id' r, A.req id' = some r → r.p ≠ p := by
    intro id' r hr heq
    have hst := hp.stands id' r hr
    rw [heq, hpc] at hst
    unfold Req.pc at hst
    split_ifs at hst
  refine ⟨fun id' r h => ?_, fun q b' id' h => ?_, fun q b' id' h => ?_, hp.bufs_update ?_⟩
  · by_cases hid : id' = id
    · subst hid
      rw [Function.update_self] at h
      obtain rfl := Option.some.inj h
      exact Function.update_self ..
    · rw [Function.update_of_ne hid] at h
      rw [Function.update_of_ne (hold id' r h)]
      exact hp.stands id' r h
  · by_cases hq : q = p
    · subst hq
      rw [Function.update_self] at h
      obtain rfl : id = id' := by
        rcases h with h | h
        · exact (VPc.publishing.inj h).2
        · cases h
      exact ⟨_, Function.update_self .., rfl⟩
    · rw [Function.update_of_ne hq] at h
      obtain ⟨r, hr, hrp⟩ := hp.owner q b' id' h
      have hid : id' ≠ id := by
        rintro rfl
        rw [hnone] at hr
        cases hr
      exact ⟨r, by rw [Function.update_of_ne hid, hr], hrp⟩
  · by_cases hq : q = p
    · subst hq
      rw [Function.update_self] at h
      exact ⟨rfl, (VPc.publishing.inj h).2⟩
    · rw [Function.update_of_ne hq] at h
      exact absurd h (hnopub q b' id')
  · intro b' hb'
    rw [hpc]
    exact hb'

/-- The requests that processes have are the same, by their keys. -/
theorem ProcRel.owner_move (hp : ProcRel pc lock slot A.req) (hr : A.req id = some r) {q b' id' : ℕ}
    (h : pc q = .publishing b' id' ∨ pc q = .waiting b' id') :
    ∃ r', A.move id r s id' = some r' ∧ r'.p = q := by
  obtain ⟨r₀, hr₀, hq⟩ := hp.owner q b' id' h
  by_cases hid : id' = id
  · subst hid
    rw [hr] at hr₀
    obtain rfl := Option.some.inj hr₀
    exact ⟨{ r with stage := s }, by rw [Reqs.move, Function.update_self], hq⟩
  · exact ⟨r₀, by rw [Reqs.move, Function.update_of_ne hid, hr₀], hq⟩

theorem ProcRel.publish (hp : ProcRel pc (some (.caller p)) slot A.req) (hr : A.req id = some r)
    (hrp : r.p = p) (hst : r.stage = .formatted) :
    ProcRel (Function.update pc p (.waiting r.b id)) none slot' (A.move id r .submitted) := by
  have hpc : pc p = .publishing r.b id := by
    rw [← hrp, hp.stands id r hr, Req.pc, if_pos hst]
  have hnopub : ∀ q b' id', Function.update pc p (.waiting r.b id) q ≠ .publishing b' id' := by
    intro q b' id' h
    by_cases hq : q = p
    · subst hq
      rw [Function.update_self] at h
      cases h
    · rw [Function.update_of_ne hq] at h
      have hlock := (hp.publishing q b' id' h).1
      exact hq (VOwner.caller.inj (Option.some.inj hlock)).symm
  refine ⟨fun id' r' h => ?_, fun q b' id' h => ?_, fun q b' id' h => absurd h (hnopub q b' id'),
    hp.bufs_update ?_⟩
  · rcases Reqs.move_cases h with ⟨rfl, rfl⟩ | ⟨hid, hr'⟩
    · dsimp only
      rw [hrp, Function.update_self, Req.pc, if_neg nofun]
    · have hne : r'.p ≠ p := fun heq => hid (hp.unique hr' hr (heq.trans hrp.symm))
      rw [Function.update_of_ne hne]
      exact hp.stands id' r' hr'
  · by_cases hq : q = p
    · subst hq
      rw [Function.update_self] at h
      obtain rfl : id = id' := by
        rcases h with h | h
        · cases h
        · exact (VPc.waiting.inj h).2
      exact hp.owner_move hr (Or.inl hpc)
    · rw [Function.update_of_ne hq] at h
      exact hp.owner_move hr h
  · intro b' hb'
    rw [hpc]
    exact hb'

/-- The device or the interrupt handler moves a request on. -/
theorem ProcRel.move (hp : ProcRel pc lock slot A.req) (hr : A.req id = some r)
    (hold : r.stage ≠ .formatted) (hnew : s ≠ .formatted) :
    ProcRel pc lock slot (A.move id r s) := by
  refine ⟨fun id' r' h => ?_, fun q b' id' h => hp.owner_move hr h, hp.publishing, hp.bufs⟩
  rcases Reqs.move_cases h with ⟨rfl, rfl⟩ | ⟨-, hr'⟩
  · have hst := hp.stands id' r hr
    rw [Req.pc, if_neg hold] at hst
    rw [Req.pc, if_neg hnew]
    exact hst
  · exact hp.stands id' r' hr'

theorem ProcRel.done (hp : ProcRel pc lock slot A.req) (hr : A.req id = some r) :
    ProcRel (Function.update pc r.p .idle) lock slot (Function.update A.req id none) := by
  have hold : ∀ q d, Function.update pc r.p .idle q = d → d ≠ .idle → q ≠ r.p ∧ pc q = d := by
    rintro q _ rfl hd
    by_cases hq : q = r.p
    · rw [hq, Function.update_self] at hd
      exact absurd rfl hd
    · rw [Function.update_of_ne hq]
      exact ⟨hq, rfl⟩
  refine ⟨fun id' r' h => ?_, fun q b' id' h => ?_, fun q b' id' h => ?_,
    hp.bufs_update nofun⟩
  · have hid : id' ≠ id := by
      rintro rfl
      rw [Function.update_self] at h
      cases h
    rw [Function.update_of_ne hid] at h
    rw [Function.update_of_ne fun heq => hid (hp.unique h hr heq)]
    exact hp.stands id' r' h
  · have hq : q ≠ r.p ∧ (pc q = .publishing b' id' ∨ pc q = .waiting b' id') := by
      rcases h with h | h
      · exact ⟨(hold q _ h nofun).1, Or.inl (hold q _ h nofun).2⟩
      · exact ⟨(hold q _ h nofun).1, Or.inr (hold q _ h nofun).2⟩
    obtain ⟨r', hr', hrq⟩ := hp.owner q b' id' hq.2
    have hid : id' ≠ id := by
      rintro rfl
      rw [hr] at hr'
      exact hq.1 (by rw [← hrq, Option.some.inj hr'])
    exact ⟨r', by rw [Function.update_of_ne hid, hr'], hrq⟩
  · exact hp.publishing q b' id' (hold q _ h nofun).2

end Proc

section Rings

variable {vd vd' : Vdisk} {devIdx id : ℕ} {A : Reqs} {req : ℕ → Option Req}

/-- The indices are 16-bit words, and a ring has `NUM` places. -/
theorem mod_word_mod (n : ℕ) : n % 2 ^ 16 % virtqNum = n % virtqNum :=
  Nat.mod_mod_of_dvd n (by decide)

theorem mod_word_succ (n : ℕ) : (n % 2 ^ 16 + 1) % 2 ^ 16 = (n + 1) % 2 ^ 16 := by
  omega

/-- If the indices differ, the queue is not empty. -/
theorem mod_word_ne {d n : ℕ} (hle : d ≤ n) (hne : d % 2 ^ 16 ≠ n % 2 ^ 16) : d < n := by
  rcases Nat.lt_or_eq_of_le hle with h | h
  · exact h
  · exact absurd (by rw [h]) hne

/-- Descriptors are written, and an entry that the device does not see yet. -/
theorem RingRel.format (hr : RingRel vd devIdx A) (hroom : A.avail.length < A.taken + virtqNum)
    (havail : vd'.availRing = Function.update vd.availRing (vd.availIdx % virtqNum) id)
    (haidx : vd'.availIdx = vd.availIdx) (hused : vd'.usedRing = vd.usedRing)
    (huidx : vd'.usedIdx = vd.usedIdx) (hseen : vd'.seenIdx = vd.seenIdx) :
    RingRel vd' devIdx { A with req := req } := by
  refine ⟨?_, haidx.trans hr.availIdx, hr.devIdx, hused ▸ hr.used, huidx.trans hr.usedIdx,
    hseen.trans hr.seenIdx⟩
  rw [havail, hr.availIdx, mod_word_mod]
  exact (hr.avail.push hroom id).shrink

theorem RingRel.publish (hr : RingRel vd devIdx A) (hroom : A.avail.length < A.taken + virtqNum)
    (hslot : vd.slot = id) :
    RingRel vd.publish devIdx { A with req := req, avail := A.avail ++ [id] } := by
  refine ⟨?_, ?_, hr.devIdx, hr.used, hr.usedIdx, hr.seenIdx⟩
  · have hpush := hr.avail.push hroom id
    rw [Vdisk.slot, hr.availIdx, mod_word_mod] at hslot
    rw [← hslot, Function.update_eq_self, hslot] at hpush
    exact hpush
  · show (vd.availIdx + 1) % 2 ^ 16 = _
    rw [hr.availIdx, mod_word_succ, List.length_append, List.length_singleton]

/-- The device takes the entry that is next in the queue. -/
theorem RingRel.next (hr : RingRel vd devIdx A) (hlt : A.taken < A.avail.length) :
    A.avail[A.taken]? = some (vd.availRing (devIdx % virtqNum)) := by
  rw [hr.devIdx, mod_word_mod, hr.avail A.taken _ (Nat.le_refl _) (List.getElem?_eq_getElem hlt)]
  exact List.getElem?_eq_getElem hlt

theorem RingRel.take (hr : RingRel vd devIdx A) :
    RingRel vd ((devIdx + 1) % 2 ^ 16) { A with req := req, taken := A.taken + 1 } :=
  ⟨hr.avail.drop (Nat.le_succ _), hr.availIdx, by rw [hr.devIdx, mod_word_succ], hr.used,
    hr.usedIdx, hr.seenIdx⟩

theorem RingRel.complete (hr : RingRel vd devIdx A)
    (hroom : A.used.length < A.seen + virtqNum) :
    RingRel (vd.complete id) devIdx { A with req := req, used := A.used ++ [id] } := by
  refine ⟨hr.avail, hr.availIdx, hr.devIdx, ?_, ?_, hr.seenIdx⟩
  · show RingHolds virtqNum (Function.update vd.usedRing (vd.usedIdx % virtqNum) id) A.seen _
    rw [hr.usedIdx, mod_word_mod]
    exact hr.used.push hroom id
  · show (vd.usedIdx + 1) % 2 ^ 16 = _
    rw [hr.usedIdx, mod_word_succ, List.length_append, List.length_singleton]

/-- `virtio_disk_intr` reads the entry that is next in the queue. -/
theorem RingRel.seen (hr : RingRel vd devIdx A) (hlt : A.seen < A.used.length) :
    A.used[A.seen]? = some (vd.usedRing (vd.seenIdx % virtqNum)) := by
  rw [hr.seenIdx, mod_word_mod, hr.used A.seen _ (Nat.le_refl _) (List.getElem?_eq_getElem hlt)]
  exact List.getElem?_eq_getElem hlt

theorem RingRel.clear (hr : RingRel vd devIdx A) {b : ℕ} :
    RingRel { vd with
      owned := Function.update vd.owned b false
      seenIdx := (vd.seenIdx + 1) % 2 ^ 16 } devIdx { A with req := req, seen := A.seen + 1 } := by
  refine ⟨hr.avail, hr.availIdx, hr.devIdx, hr.used.drop (Nat.le_succ _), hr.usedIdx, ?_⟩
  show (vd.seenIdx + 1) % 2 ^ 16 = _
  rw [hr.seenIdx, mod_word_succ]

end Rings

/-! ## Steps -/

section Step

variable {st st' : VState} {A : Reqs} {e : VEvent}

theorem VState.Boot.rel (hb : st.Boot) : VRel st ⟨fun _ => none, [], 0, [], 0⟩ := by
  obtain ⟨ha, hu, hs, hd⟩ := hb.idx
  refine ⟨Reqs.Start.inv rfl, hb.panic, ⟨fun i hi => ?_, nofun⟩,
    ⟨nofun, fun p b id h => ?_, fun p b id h => ?_, fun p q b h => ?_⟩, fun id => ?_,
    ⟨ringHolds_nil _ _, ha, hd, ringHolds_nil _ _, hu, hs⟩⟩
  · simp [hb.free i hi]
  · rw [hb.pc] at h
    exact h.elim nofun nofun
  · rw [hb.pc] at h
    cases h
  · rw [hb.pc] at h
    cases h
  · simp [hb.working, InStage]

/-- Nothing that the requests depend on changes. -/
theorem VRel.frame (hrel : VRel st A) (hpanic : st'.panic = none) (hdescs : DescRel st'.vd A.req)
    (hprocs : ProcRel st'.pc st'.lock st'.vd.slot A.req) (hworking : st'.working = st.working)
    (hrings : RingRel st'.vd st'.devIdx A) : VRel st' A :=
  ⟨hrel.inv, hpanic, hdescs, hprocs, by rw [hworking]; exact hrel.working, hrings⟩

/-- A request that moves on is at work in the device iff its new stage says so. -/
theorem working_move {id : ℕ} {r : Req} {s : ReqStage} {w : Finset ℕ}
    (hold : ∀ id, id ∈ st.working ↔ InStage A.req .taken id)
    (hother : ∀ id', id' ≠ id → (id' ∈ w ↔ id' ∈ st.working)) (hself : id ∈ w ↔ s = .taken)
    (id' : ℕ) : id' ∈ w ↔ InStage (A.move id r s) .taken id' := by
  by_cases hid : id' = id
  · subst hid
    rw [hself, Reqs.move, inStage_update_self]
    simp
  · rw [hother id' hid, hold, Reqs.move, inStage_update_of_ne hid]

theorem VRel.request (hrel : VRel st A) {p b blockno : ℕ} {write : Bool} (hlock : st.lock = none)
    (hpc : st.pc p = .wanting b blockno write) {mid last id : ℕ} (hnd : [id, mid, last].Nodup)
    (hfree : ∀ x ∈ [id, mid, last], x < virtqNum ∧ st.vd.free x = true) :
    ∃ A', ReqStep A (.format p b id) A' ∧ VRel { st with
      vd := (st.vd.allocate [id, mid, last]).format b (blockno * 2 % 2 ^ 32) write id mid last
      lock := some (.caller p)
      pc := Function.update st.pc p (.publishing b id) } A' := by
  have hnew : ∀ i ∈ [id, mid, last], i < virtqNum ∧ ∀ id' r, A.req id' = some r →
      i ∉ r.chain id' := fun i hi =>
    ⟨(hfree i hi).1, (hrel.descs.free i (hfree i hi).1).1 (hfree i hi).2⟩
  have hnone : A.req id = none := by
    cases hr : A.req id with
    | none => rfl
    | some r => exact absurd List.mem_cons_self ((hnew id List.mem_cons_self).2 id r hr)
  have hnot : ∀ s, ¬InStage A.req s id := by
    rintro s ⟨r, hr, -⟩
    rw [hnone] at hr
    cases hr
  have hstep := ReqStep.format (A := A) p b id mid last hnd hnew
  have hprocs := hrel.procs
  rw [hlock] at hprocs
  have hroom := hrel.inv.avail.room (fun _ _ => hrel.inv.lt) (hnew id List.mem_cons_self).1 (hnot _)
  refine ⟨_, hstep, hstep.inv hrel.inv, hrel.panic, ?_, ?_, fun id' => ?_, ?_⟩
  · refine hrel.descs.format hnd (fun i hi => (hnew i hi).2) fun id' r hr => ?_
    refine hprocs.buf_ne (p := p) (by rw [hpc]; rfl) hr fun heq => ?_
    have hst := hprocs.stands id' r hr
    rw [heq, hpc] at hst
    unfold Req.pc at hst
    split_ifs at hst
  · have hslot : ((st.vd.allocate [id, mid, last]).format b (blockno * 2 % 2 ^ 32) write id mid
        last).slot = id := Function.update_self ..
    dsimp only
    rw [hslot]
    exact hprocs.format hpc hnone
  · rw [hrel.working]
    by_cases hid : id' = id
    · subst hid
      rw [inStage_update_self]
      exact ⟨fun h => absurd h (hnot _), by rintro ⟨_, ⟨⟩, h⟩; cases h⟩
    · rw [inStage_update_of_ne hid]
  · exact hrel.rings.format hroom rfl rfl rfl rfl rfl

theorem VRel.publish (hrel : VRel st A) {p b id : ℕ} (hlock : st.lock = some (.caller p))
    (hpc : st.pc p = .publishing b id) :
    ∃ A', ReqStep A (.publish id) A' ∧ VRel { st with
      vd := st.vd.publish
      lock := none
      pc := Function.update st.pc p (.waiting b id) } A' := by
  obtain ⟨r, hr, hrp⟩ := hrel.procs.owner p b id (Or.inl hpc)
  have hst := hrel.procs.stands id r hr
  rw [hrp, hpc] at hst
  unfold Req.pc at hst
  split_ifs at hst with hstage
  obtain rfl := (VPc.publishing.inj hst).1
  have hstep := ReqStep.publish hr hstage
  have hprocs := hrel.procs
  rw [hlock] at hprocs
  have hroom := hrel.inv.avail.room (fun _ _ => hrel.inv.lt) (hrel.inv.lt hr)
    (not_inStage hr (by simp [hstage]))
  refine ⟨_, hstep, hstep.inv hrel.inv, hrel.panic, ?_, hprocs.publish hr hrp hstage,
    working_move hrel.working (fun _ _ => Iff.rfl) ?_, hrel.rings.publish hroom ?_⟩
  · exact hrel.descs.move_same hr (by simp [hstage]) nofun nofun rfl rfl rfl rfl
  · rw [hrel.working]
    exact ⟨fun h => absurd h (not_inStage hr (by simp [hstage])), nofun⟩
  · exact (hprocs.publishing p r.b id hpc).2

theorem VRel.take (hrel : VRel st A) (hne : st.devIdx ≠ st.vd.availIdx) :
    ∃ A', ReqStep A (.take (st.vd.availRing (st.devIdx % virtqNum))) A' ∧ VRel { st with
      devIdx := (st.devIdx + 1) % 2 ^ 16
      working := insert (st.vd.availRing (st.devIdx % virtqNum)) st.working } A' := by
  have hq := hrel.inv.avail
  have hlt : A.taken < A.avail.length := by
    refine mod_word_ne hq.le ?_
    rwa [← hrel.rings.devIdx, ← hrel.rings.availIdx]
  have hnext := hrel.rings.next hlt
  generalize st.vd.availRing (st.devIdx % virtqNum) = id at hnext ⊢
  have hmem : id ∈ A.avail.drop A.taken := by
    obtain ⟨_, hid⟩ := List.getElem?_eq_some_iff.1 hnext
    rw [List.drop_eq_getElem_cons hlt, hid]
    exact List.mem_cons_self
  obtain ⟨r, hr, hstage⟩ := (hq.mem id).1 hmem
  have hstep := ReqStep.take hr hstage hnext
  refine ⟨_, hstep, hstep.inv hrel.inv, hrel.panic, ?_,
    hrel.procs.move hr (by simp [hstage]) nofun,
    working_move hrel.working (fun id' hid => by simp [hid]) (by simp), hrel.rings.take⟩
  exact hrel.descs.move_same hr (by simp [hstage]) nofun nofun rfl rfl rfl rfl

theorem VRel.complete (hrel : VRel st A) {id : ℕ} (hid : id ∈ st.working) :
    ∃ A', ReqStep A (.complete id) A' ∧
      VRel { st with vd := st.vd.complete id, working := st.working.erase id } A' := by
  obtain ⟨r, hr, hstage⟩ := (hrel.working id).1 hid
  have hb := hrel.descs.built id r hr
  have hstep := ReqStep.complete hr hstage
  have hroom := hrel.inv.used.room (fun _ _ => hrel.inv.lt) (hrel.inv.lt hr)
    (not_inStage hr (by simp [hstage]))
  refine ⟨_, hstep, hstep.inv hrel.inv, hrel.panic, ?_,
    hrel.procs.move hr (by simp [hstage]) nofun,
    working_move hrel.working (fun id' hne => by simp [hne]) (by simp), hrel.rings.complete hroom⟩
  refine hrel.descs.move hr rfl rfl ⟨hb.chain.congr fun _ _ => rfl, hb.addr, ?_, ?_, fun _ => ?_⟩
    fun id' r' hne _ => ⟨?_, rfl⟩
  · rw [hb.complete, Function.update_self]
    exact hb.b
  · have howned : (st.vd.complete id).owned = st.vd.owned := rfl
    rw [howned, hb.owned]
    simp [hstage]
  · rw [hb.complete, Function.update_self]
  · dsimp only
    rw [hb.complete, Function.update_of_ne hne]

/-- The entry that `virtio_disk_intr` reads is a request that was completed. -/
theorem VRel.posted (hrel : VRel st A) (hne : st.vd.seenIdx ≠ st.vd.usedIdx) :
    ∃ r, A.req (st.vd.usedRing (st.vd.seenIdx % virtqNum)) = some r ∧ r.stage = .completed ∧
      A.used[A.seen]? = some (st.vd.usedRing (st.vd.seenIdx % virtqNum)) := by
  have hq := hrel.inv.used
  have hlt : A.seen < A.used.length := by
    refine mod_word_ne hq.le ?_
    rwa [← hrel.rings.seenIdx, ← hrel.rings.usedIdx]
  have hnext := hrel.rings.seen hlt
  obtain ⟨_, hid⟩ := List.getElem?_eq_some_iff.1 hnext
  have hmem : A.used[A.seen] ∈ A.used.drop A.seen := by
    rw [List.drop_eq_getElem_cons hlt]
    exact List.mem_cons_self
  rw [hid] at hmem
  obtain ⟨r, hr, hstage⟩ := (hq.mem _).1 hmem
  exact ⟨r, hr, hstage, hnext⟩

/-- So the round of the loop does not panic. -/
theorem VRel.intrRound_spec (hrel : VRel st A) :
    wp Vdisk.intrRound (fun o s' => match o with
      | some (id, b) => st.vd.seenIdx ≠ st.vd.usedIdx ∧
          id = st.vd.usedRing (st.vd.seenIdx % virtqNum) ∧
          (st.vd.info id).b = some b ∧ s' = { st.vd with
            owned := Function.update st.vd.owned b false
            seenIdx := (st.vd.seenIdx + 1) % 2 ^ 16 }
      | none => s' = st.vd) noPanic st.vd := by
  refine Vdisk.intrRound_spec fun hne => ?_
  obtain ⟨r, hr, hstage, -⟩ := hrel.posted hne
  have hb := hrel.descs.built _ r hr
  exact ⟨hb.status hstage, by rw [hb.b]; exact Option.some_ne_none _⟩

theorem VRel.clear (hrel : VRel st A) {id b : ℕ} (hne : st.vd.seenIdx ≠ st.vd.usedIdx)
    (hid : id = st.vd.usedRing (st.vd.seenIdx % virtqNum)) (hb : (st.vd.info id).b = some b) :
    ∃ A', ReqStep A (.clear id b) A' ∧ VRel { st with vd := { st.vd with
      owned := Function.update st.vd.owned b false
      seenIdx := (st.vd.seenIdx + 1) % 2 ^ 16 } } A' := by
  obtain ⟨r, hr, hstage, hnext⟩ := hrel.posted hne
  rw [← hid] at hr hnext
  have hbuilt := hrel.descs.built id r hr
  obtain rfl : r.b = b := Option.some.inj (hbuilt.b.symm.trans hb)
  have hstep := ReqStep.clear hr hstage hnext
  refine ⟨_, hstep, hstep.inv hrel.inv, hrel.panic, ?_,
    hrel.procs.move hr (by simp [hstage]) nofun,
    working_move hrel.working (fun _ _ => Iff.rfl) ?_, hrel.rings.clear⟩
  · refine hrel.descs.move hr rfl rfl ⟨hbuilt.chain.congr fun _ _ => rfl, hbuilt.addr, hbuilt.b,
      ?_, nofun⟩ fun id' r' hid' hr' => ⟨rfl, ?_⟩
    · simp
    · exact Function.update_of_ne (hrel.procs.bufs_ne hr hr' hid') ..
  · rw [hrel.working]
    exact ⟨fun h => absurd h (not_inStage hr (by simp [hstage])), nofun⟩

/-- A call that finds `b->disk` cleared has a request that was cleared. -/
theorem VRel.cleared (hrel : VRel st A) {p b id : ℕ} (hpc : st.pc p = .waiting b id)
    (howned : st.vd.owned b = false) :
    ∃ r, A.req id = some r ∧ r.p = p ∧ r.b = b ∧ r.stage = .cleared := by
  obtain ⟨r, hr, hrp⟩ := hrel.procs.owner p b id (Or.inr hpc)
  have hst := hrel.procs.stands id r hr
  rw [hrp, hpc] at hst
  unfold Req.pc at hst
  split_ifs at hst
  obtain rfl := (VPc.waiting.inj hst).1
  refine ⟨r, hr, hrp, rfl, ?_⟩
  by_contra hne
  have hset := (hrel.descs.built id r hr).owned.2 hne
  rw [howned] at hset
  cases hset

theorem VRel.finish_spec (hrel : VRel st A) {id : ℕ} {r : Req} (hr : A.req id = some r) :
    wp (Vdisk.finish id) (fun _ s' => s' = ({ st.vd with
      info := Function.update st.vd.info id { st.vd.info id with b := none } } :
        Vdisk).deallocate (r.chain id)) noPanic st.vd := by
  obtain ⟨hnd, hlt⟩ := hrel.inv.chain id r hr
  exact Vdisk.finish_spec (hrel.descs.built id r hr).chain hnd fun i hi =>
    ⟨hlt i hi, hrel.descs.not_free hrel.inv hr hi⟩

theorem VRel.finish (hrel : VRel st A) {id : ℕ} {r : Req} (hr : A.req id = some r)
    (hstage : r.stage = .cleared) :
    let info := Function.update st.vd.info id { st.vd.info id with b := none }
    ∃ A', ReqStep A (.done r.p r.b id) A' ∧ VRel { st with
      vd := Vdisk.deallocate { st.vd with info := info } (r.chain id),
      pc := Function.update st.pc r.p .idle } A' := by
  have hstep := ReqStep.done hr hstage
  refine ⟨_, hstep, hstep.inv hrel.inv, hrel.panic, hrel.descs.finish hrel.inv hr,
    hrel.procs.done hr, fun id' => ?_,
    ⟨hrel.rings.avail, hrel.rings.availIdx, hrel.rings.devIdx, hrel.rings.used,
      hrel.rings.usedIdx, hrel.rings.seenIdx⟩⟩
  rw [hrel.working]
  by_cases hid : id' = id
  · subst hid
    rw [inStage_update_self]
    exact ⟨fun h => absurd h (not_inStage hr (by simp [hstage])), nofun⟩
  · rw [inStage_update_of_ne hid]

/-- Every step of the driver and of the device is one of the protocol. -/
theorem VRel.step (hrel : VRel st A) (hs : VStep st e st') :
    ∃ A', ReqStep A e A' ∧ VRel st' A' := by
  cases hs with
  | @call p b blockno write hidle hb =>
    refine ⟨A, .other, hrel.frame hrel.panic hrel.descs ?_ rfl hrel.rings⟩
    exact hrel.procs.call hidle hb rfl fun _ _ => ⟨nofun, nofun⟩
  | retry hlock hpc hreq =>
    have hu : Vdisk.Undone _ _ := wp_of_run Vdisk.request_spec hreq
    have hrest := hu.rest
    refine ⟨A, .other, hrel.frame hrel.panic (hrel.descs.undone hrel.inv hu) ?_ rfl ?_⟩
    · rw [hrest]
      exact hrel.procs
    · rw [hrest]
      exact ⟨hrel.rings.avail, hrel.rings.availIdx, hrel.rings.devIdx, hrel.rings.used,
        hrel.rings.usedIdx, hrel.rings.seenIdx⟩
  | format hlock hpc hreq =>
    obtain ⟨mid, last, hnd, hfree, rfl⟩ := wp_of_run Vdisk.request_spec hreq
    exact hrel.request hlock hpc hnd hfree
  | publish hlock hpc => exact hrel.publish hlock hpc
  | finish hlock hpc howned hfin =>
    obtain ⟨r, hr, rfl, rfl, hstage⟩ := hrel.cleared hpc howned
    obtain rfl := wp_of_run (hrel.finish_spec hr) hfin
    exact hrel.finish hr hstage
  | intrStart hlock =>
    refine ⟨A, .other, hrel.frame hrel.panic hrel.descs ?_ rfl hrel.rings⟩
    have hprocs := hrel.procs
    rw [hlock] at hprocs
    exact ⟨hprocs.stands, hprocs.owner, fun p b id h => absurd (hprocs.publishing p b id h).1 nofun,
      hprocs.bufs⟩
  | intrRound hlock hround =>
    obtain ⟨hne, hid, hb, rfl⟩ := wp_of_run hrel.intrRound_spec hround
    exact hrel.clear hne hid hb
  | intrEnd hlock hround =>
    obtain rfl := wp_of_run hrel.intrRound_spec hround
    refine ⟨A, .other, hrel.frame hrel.panic hrel.descs ?_ rfl hrel.rings⟩
    have hprocs := hrel.procs
    rw [hlock] at hprocs
    exact ⟨hprocs.stands, hprocs.owner, fun p b id h => absurd (hprocs.publishing p b id h).1 nofun,
      hprocs.bufs⟩
  | take hne => exact hrel.take hne
  | complete hid => exact hrel.complete hid
  | requestPanic hlock hpc hreq => exact (wp_of_panic Vdisk.request_spec hreq).elim
  | finishPanic hlock hpc howned hfin =>
    obtain ⟨r, hr, -, -, -⟩ := hrel.cleared hpc howned
    exact (wp_of_panic (hrel.finish_spec hr) hfin).elim
  | intrPanic hlock hround => exact (wp_of_panic hrel.intrRound_spec hround).elim

end Step

/-- In every run nothing panics, and the history is one of the protocol : requests are formed from
three free descriptors, `b->disk` of each is cleared once, by the interrupt after the device has
completed it, and only then does its call return. A descriptor is free iff no request has it, no
two requests share one, and the entries of the rings that were not consumed are not overwritten. -/
theorem virtio_follows_protocol {h : List VEvent} {st : VState}
    (hrun : Run VState.Boot VStep h st) :
    st.panic = none ∧ ∃ A, Run Reqs.Start ReqStep h A ∧
      (∀ i < virtqNum, st.vd.free i = true ↔ ∀ id r, A.req id = some r → i ∉ r.chain id) ∧
      (∀ id r, A.req id = some r → (r.chain id).Nodup ∧ (∀ i ∈ r.chain id, i < virtqNum) ∧
        st.vd.ChainOf (r.chain id) ∧ (st.vd.info id).b = some r.b ∧
        (st.vd.owned r.b = true ↔ r.stage ≠ .cleared)) ∧
      (∀ id r id' r' i, A.req id = some r → A.req id' = some r' → i ∈ r.chain id →
        i ∈ r'.chain id' → id = id') ∧
      RingHolds virtqNum st.vd.availRing A.taken A.avail ∧
      RingHolds virtqNum st.vd.usedRing A.seen A.used := by
  have hrel : ∃ A, Run Reqs.Start ReqStep h A ∧ VRel st A := by
    refine hrun.invariant (P := fun h st => ∃ A, Run Reqs.Start ReqStep h A ∧ VRel st A)
      (fun st hb => ⟨_, .start rfl, hb.rel⟩) fun h st e st' hrel hs => ?_
    obtain ⟨A, hA, hrel⟩ := hrel
    obtain ⟨A', hstep, hrel'⟩ := hrel.step hs
    exact ⟨A', hA.snoc hstep, hrel'⟩
  obtain ⟨A, hA, hrel⟩ := hrel
  refine ⟨hrel.panic, A, hA, hrel.descs.free, fun id r hr => ?_, hrel.inv.disjoint,
    hrel.rings.avail, hrel.rings.used⟩
  obtain ⟨hnd, hlt⟩ := hrel.inv.chain id r hr
  have hb := hrel.descs.built id r hr
  exact ⟨hnd, hlt, hb.chain, hb.b, hb.owned⟩

/-- The driver as `virtio_disk_init` leaves it. -/
def bootVdisk : VState where
  vd := ⟨fun _ => true, fun _ => ⟨.null, 0, 0, 0⟩, fun _ => 0, 0, fun _ => 0, 0, 0,
    fun _ => ⟨none, 0⟩, fun _ => ⟨0, 0, 0⟩, fun _ => false⟩
  devIdx := 0
  working := ∅
  lock := none
  pc _ := .idle
  panic := none

theorem bootVdisk_boot : bootVdisk.Boot :=
  ⟨fun _ _ => rfl, ⟨rfl, rfl, rfl, rfl⟩, rfl, rfl, fun _ => rfl, rfl⟩

theorem bootVdisk_request :
    ∃ vd, (Vdisk.request 7 3 true).run bootVdisk.vd = .ok (some 0, vd) := by
  have hok : (match (Vdisk.request 7 3 true).run bootVdisk.vd with
    | .ok (o, _) => o
    | .error _ => none) = some 0 := by decide +kernel
  split at hok
  · next o vd hr =>
    subst hok
    exact ⟨vd, hr⟩
  · cases hok

theorem virtio_follows_protocol_write : ∃ st A,
    Run VState.Boot VStep [.other, .format 0 7 0, .publish 0] st ∧ st.panic = none ∧
      Run Reqs.Start ReqStep [.other, .format 0 7 0, .publish 0] A := by
  obtain ⟨vd, hreq⟩ := bootVdisk_request
  have hcall : Run VState.Boot VStep [.other]
      { bootVdisk with pc := Function.update bootVdisk.pc 0 (.wanting 7 3 true) } :=
    (Run.start bootVdisk_boot).snoc (VStep.call rfl nofun)
  have hformat := hcall.snoc (VStep.format rfl (Function.update_self ..) hreq)
  have hrun := hformat.snoc (VStep.publish rfl rfl)
  obtain ⟨hpanic, A, hA, -⟩ := virtio_follows_protocol hrun
  exact ⟨_, A, hrun, hpanic, hA⟩

end Xv6Plus
