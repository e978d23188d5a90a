import Xv6Plus.FsDir

/-!
# Paths

The elements of a path are its maximal runs of characters other than `/`, cut to `DIRSIZ` bytes.
`skipelem` takes them off one by one, and `namex` follows them from directory to directory
(`follow`). It takes a reference to every directory before it drops the one to its parent, so that
at its end it has one reference in hand or none.
-/

namespace Xv6Plus

/-! ## Elements -/

/-- The elements of a path. -/
def elems (path : List UInt8) : List (List UInt8) :=
  ((path.splitOnP (· == slash)).filter (· ≠ [])).map (List.take dirSiz)

section Elems

variable {path rest name : List UInt8}

theorem elems_nil : elems [] = [] := rfl

theorem elems_slash : elems (slash :: path) = elems path := by
  rw [elems, elems, List.splitOnP_cons_eq_if_modifyHead, if_pos (by simp)]
  rfl

theorem elems_dropWhile : ∀ path : List UInt8, elems (path.dropWhile (· = slash)) = elems path
  | [] => rfl
  | c :: path => by
    by_cases hc : c = slash
    · rw [List.dropWhile_cons_of_pos (by simpa using hc), elems_dropWhile path, hc, elems_slash]
    · rw [List.dropWhile_cons_of_neg (by simpa using hc)]

theorem head_dropWhile {p : UInt8 → Bool} : ∀ {path : List UInt8},
    ∀ c ∈ (path.dropWhile p).head?, p c = false
  | [], c, hc => absurd hc (Option.not_mem_none c)
  | b :: path, c, hc => by
    by_cases hb : p b
    · rw [List.dropWhile_cons_of_pos hb] at hc
      exact head_dropWhile c hc
    · rw [List.dropWhile_cons_of_neg hb] at hc
      obtain rfl := Option.some.inj hc
      simpa using hb

theorem elems_start (hne : path ≠ []) (hpath : ∀ c ∈ path.head?, c ≠ slash) :
    path.takeWhile (· ≠ slash) ≠ [] ∧ elems path =
      (path.takeWhile (· ≠ slash)).take dirSiz :: elems (path.dropWhile (· ≠ slash)) := by
  have hsplit := List.takeWhile_append_dropWhile (p := fun c => decide (c ≠ slash)) (l := path)
  have hrun : ∀ c ∈ path.takeWhile (· ≠ slash), (c == slash) = false := fun c hc => by
    simpa using List.mem_takeWhile_imp hc
  have hrest := @head_dropWhile (fun c => decide (c ≠ slash)) path
  have hname : path.takeWhile (· ≠ slash) ≠ [] := by
    cases path with
    | nil => exact absurd rfl hne
    | cons c path =>
      rw [List.takeWhile_cons_of_pos (by simpa using hpath c rfl)]
      exact List.cons_ne_nil _ _
  refine ⟨hname, ?_⟩
  generalize path.takeWhile (· ≠ slash) = name at hsplit hrun hname ⊢
  generalize path.dropWhile (· ≠ slash) = rest at hsplit hrest ⊢
  subst hsplit
  cases rest with
  | nil =>
    rw [List.append_nil, elems, List.splitOnP_eq_singleton hrun]
    simp [hname, elems_nil]
  | cons c rest =>
    obtain rfl : c = slash := by simpa using hrest c rfl
    rw [elems_slash, elems, List.splitOnP_append_cons_of_forall_mem hrun _ (by simp)]
    simp [hname, elems]

theorem skipelem_none (h : skipelem path = none) : elems path = [] := by
  simp only [skipelem] at h
  split_ifs at h with h0
  rw [← elems_dropWhile, h0, elems_nil]

theorem skipelem_eq_none : skipelem path = none ↔ elems path = [] := by
  refine ⟨skipelem_none, fun h => ?_⟩
  rw [← elems_dropWhile] at h
  simp only [skipelem]
  rw [if_pos]
  by_contra hne
  obtain ⟨-, hstart⟩ := elems_start hne fun c hc => by simpa using head_dropWhile c hc
  rw [h] at hstart
  exact List.cons_ne_nil _ _ hstart.symm

/-- `skipelem` takes off one element, and leaves no slashes in front of the next. -/
theorem skipelem_some (h : skipelem path = some (name, rest)) :
    elems path = name :: elems rest ∧ rest.length < path.length ∧
      (rest = [] ↔ elems rest = []) := by
  simp only [skipelem] at h
  split_ifs at h with h0
  obtain ⟨rfl, rfl⟩ := Prod.mk.inj (Option.some.inj h)
  have hlen := (List.dropWhile_suffix (l := path) (fun c => decide (c = slash))).length_le
  have hhead : ∀ c ∈ (path.dropWhile (· = slash)).head?, c ≠ slash := fun c hc => by
    simpa using head_dropWhile c hc
  obtain ⟨hname, helems⟩ := elems_start h0 hhead
  rw [elems_dropWhile] at helems
  refine ⟨by rw [helems, elems_dropWhile], ?_, fun h => by rw [h, elems_nil], fun hnil => ?_⟩
  · have h1 := (List.dropWhile_suffix (l := (path.dropWhile (· = slash)).dropWhile (· ≠ slash))
      (fun c => decide (c = slash))).length_le
    have h2 := congrArg List.length (List.takeWhile_append_dropWhile
      (p := fun c => decide (c ≠ slash)) (l := path.dropWhile (· = slash)))
    have h3 := List.length_pos_of_ne_nil hname
    rw [List.length_append] at h2
    omega
  · by_contra hne
    obtain ⟨-, hstart⟩ := elems_start hne fun c hc => by simpa using head_dropWhile c hc
    rw [hnil] at hstart
    exact List.cons_ne_nil _ _ hstart.symm

/-- `skipelem` until it returns 0, with the calls that are left. -/
def skipAll : ℕ → List UInt8 → List (List UInt8)
  | 0, _ => []
  | n + 1, path =>
    match skipelem path with
    | none => []
    | some (name, rest) => name :: skipAll n rest

theorem skipAll_eq : ∀ {n : ℕ} {path : List UInt8}, path.length < n → skipAll n path = elems path
  | 0, _, hn => absurd hn (Nat.not_lt_zero _)
  | n + 1, path, hn => by
    rw [skipAll]
    cases hskip : skipelem path with
    | none => exact (skipelem_none hskip).symm
    | some x =>
      obtain ⟨name, rest⟩ := x
      obtain ⟨helems, hlen, -⟩ := skipelem_some hskip
      dsimp only
      rw [skipAll_eq (by omega), helems]

end Elems

/-! ## The tree -/

/-- The inode that a directory names. -/
def lookup (l : List Dirent) (name : List UInt8) : Option ℕ :=
  (l.find? fun de => decide (de.Named name)).map Dirent.inum

theorem Absent.lookup {l : List Dirent} {name : List UInt8} (h : Absent l name) :
    lookup l name = none := by
  rw [Xv6Plus.lookup, List.find?_eq_none.2 fun de hde => by simpa using h de hde]
  rfl

theorem FoundAt.lookup {l : List Dirent} {name : List UInt8} {k : ℕ} {de : Dirent}
    (h : FoundAt l name k de) : lookup l name = some de.inum := by
  have hfind : l.find? (fun de => decide (de.Named name)) = some de := by
    obtain ⟨hk, rfl⟩ := List.getElem?_eq_some_iff.1 h.entry
    refine List.find?_eq_some_iff_getElem.2 ⟨by simpa using h.named, k, hk, rfl, fun j hj => ?_⟩
    simpa using h.first j hj _ (List.getElem?_eq_getElem (hj.trans hk))
  rw [Xv6Plus.lookup, hfind]
  rfl

/-- The contents of a directory. -/
def dirOf (node : ℕ → Option Node) (i : ℕ) : Option (List Dirent) :=
  match node i with
  | some nd => if nd.type = tDir then some (dirents nd.data) else none
  | none => none

/-- The inode that the elements of a path lead to. -/
def follow (node : ℕ → Option Node) : ℕ → List (List UInt8) → Option ℕ
  | i, [] => some i
  | i, c :: cs => (dirOf node i).bind fun l => (lookup l c).bind fun j => follow node j cs

/-- The directory that all elements of a path but the last lead to. -/
def followParent (node : ℕ → Option Node) (i : ℕ) (cs : List (List UInt8)) : Option ℕ :=
  if cs = [] then none else (follow node i cs.dropLast).filter fun j => (dirOf node j).isSome

/-- What `namex` looks for. -/
def target (node : ℕ → Option Node) (nameiparent : Bool) (i : ℕ) (cs : List (List UInt8)) :
    Option ℕ :=
  if nameiparent then followParent node i cs else follow node i cs

section Tree

variable {node : ℕ → Option Node} {np : Bool} {i : ℕ} {c : List UInt8} {cs : List (List UInt8)}

theorem dirOf_some {nd : Node} (h : node i = some nd) (ht : nd.type = tDir) :
    dirOf node i = some (dirents nd.data) := by
  simp only [dirOf, h, if_pos ht]

theorem dirOf_none {nd : Node} (h : node i = some nd) (ht : nd.type ≠ tDir) :
    dirOf node i = none := by
  simp only [dirOf, h, if_neg ht]

theorem target_cons (h : ¬(np = true ∧ cs = [])) : target node np i (c :: cs) =
    (dirOf node i).bind fun l => (lookup l c).bind fun j => target node np j cs := by
  cases np with
  | false => rfl
  | true =>
    have hcs : cs ≠ [] := fun h0 => h ⟨rfl, h0⟩
    simp only [target, followParent, if_true, if_neg hcs, if_neg (List.cons_ne_nil c cs),
      List.dropLast_cons_of_ne_nil hcs, follow]
    cases dirOf node i with
    | none => rfl
    | some l =>
      simp only [Option.bind_some]
      cases lookup l c <;> rfl

theorem target_last : target node true i [c] = if (dirOf node i).isSome then some i else none := by
  simp only [target, followParent, if_true, if_neg (List.cons_ne_nil c []), List.dropLast_singleton,
    follow, Option.filter_some]

theorem target_of_not_dir (h : dirOf node i = none) : target node np i (c :: cs) = none := by
  by_cases hc : np = true ∧ cs = []
  · rw [hc.1, hc.2, target_last, h]
    rfl
  · rw [target_cons hc, h, Option.bind_none]

/-- Some inode on the way is not a directory, or lacks the element. -/
def Lost (node : ℕ → Option Node) (i : ℕ) (cs : List (List UInt8)) : Prop :=
  ∃ cs₁ c cs₂ j, cs = cs₁ ++ c :: cs₂ ∧ follow node i cs₁ = some j ∧
    (dirOf node j).bind (lookup · c) = none

theorem follow_eq_none : ∀ {cs : List (List UInt8)} {i : ℕ},
    follow node i cs = none ↔ Lost node i cs
  | [], i => by
    refine iff_of_false (Option.some_ne_none i) ?_
    rintro ⟨cs₁, c, cs₂, j, h, -⟩
    simp at h
  | c :: cs, i => by
    have hstep : follow node i (c :: cs) =
        ((dirOf node i).bind (lookup · c)).bind fun j => follow node j cs := by
      rw [follow, Option.bind_assoc]
    rw [hstep]
    cases hnext : (dirOf node i).bind (lookup · c) with
    | none =>
      rw [Option.bind_none]
      exact iff_of_true rfl ⟨[], c, cs, i, rfl, rfl, hnext⟩
    | some j =>
      rw [Option.bind_some, follow_eq_none]
      constructor
      · rintro ⟨cs₁, c', cs₂, k, rfl, hk, hlost⟩
        refine ⟨c :: cs₁, c', cs₂, k, rfl, ?_, hlost⟩
        rw [follow, ← Option.bind_assoc, hnext, Option.bind_some, hk]
      · rintro ⟨cs₁, c', cs₂, k, heq, hk, hlost⟩
        cases cs₁ with
        | nil =>
          obtain ⟨rfl, -⟩ := List.cons.inj heq
          obtain rfl := Option.some.inj hk
          rw [hnext] at hlost
          exact absurd hlost (Option.some_ne_none j)
        | cons c₁ cs₁ =>
          obtain ⟨rfl, rfl⟩ := List.cons.inj heq
          rw [follow, ← Option.bind_assoc, hnext, Option.bind_some] at hk
          exact ⟨cs₁, c', cs₂, k, rfl, hk, hlost⟩

theorem followParent_eq_none : followParent node i cs = none ↔ cs = [] ∨
    Lost node i cs.dropLast ∨ ∃ j, follow node i cs.dropLast = some j ∧ dirOf node j = none := by
  rw [followParent, ← follow_eq_none]
  split_ifs with h0
  · exact iff_of_true rfl (.inl h0)
  · cases follow node i cs.dropLast with
    | none => exact iff_of_true rfl (.inr (.inl rfl))
    | some j => simp [h0, Option.filter_some]

theorem followParent_eq_some {j : ℕ} (h : followParent node i cs = some j) :
    follow node i cs.dropLast = some j := by
  rw [followParent] at h
  split_ifs at h
  exact (Option.filter_eq_some_iff.1 h).1

end Tree

/-! ## References in hand -/

/-- `iget` may stop when `m` entries of the inode table are in use, unless that is fewer than there
are. -/
def IgetRoom (E : String → Prop) (m : ℕ) : Prop := nInode ≤ m → E "iget: no inodes"

theorem IgetRoom.mono {E : String → Prop} {m m' : ℕ} (h : IgetRoom E m) (hle : m' ≤ m) :
    IgetRoom E m' := fun hm => h (hm.trans hle)

namespace Fs

/-- The inodes in the table. -/
def busy (s : Fs) : Finset ℕ :=
  ((Finset.range nInode).filter fun e => 0 < (s.itable e).ref).image fun e => (s.itable e).inum

/-- A lookup that started in `s₀` has the references `hand`. -/
structure Look (s₀ : Fs) (hand : Multiset ℕ) (s : Fs) : Prop where
  quiet : Quiet s₀ s
  refs : ∀ i, s.refs i = s₀.refs i + hand.count i

section Look

variable {s₀ s s' : Fs} {hand : Multiset ℕ} {e i j : ℕ} {E : String → Prop}

theorem mem_busy : i ∈ s.busy ↔ ∃ e, s.Holds e i := by
  simp only [busy, Finset.mem_image, Finset.mem_filter, Finset.mem_range, Holds, and_assoc]

theorem mem_busy_iff_refs (h : FsInv s) : i ∈ s.busy ↔ 0 < s.refs i := by
  rw [mem_busy]
  exact ⟨fun ⟨_, he⟩ => h.table.refs_pos he, exists_holds⟩

theorem Full.card_busy (hf : s.Full) (h : FsInv s) : s.busy.card = nInode := by
  have hall : (Finset.range nInode).filter (fun e => 0 < (s.itable e).ref) =
      Finset.range nInode :=
    Finset.filter_true_of_mem fun e he => Nat.pos_of_ne_zero (hf e (Finset.mem_range.1 he))
  rw [busy, hall, Finset.card_image_of_injOn, Finset.card_range]
  intro e he e' he' hee
  have he := Finset.mem_range.1 (Finset.mem_coe.1 he)
  have he' := Finset.mem_range.1 (Finset.mem_coe.1 he')
  exact h.table.once e e' _ ⟨he, Nat.pos_of_ne_zero (hf e he), rfl⟩
    ⟨he', Nat.pos_of_ne_zero (hf e' he'), hee.symm⟩

/-- The table holds what it held before and what is in hand. -/
theorem card_busy_le (h₀ : FsInv s₀) (h : FsInv s)
    (hr : ∀ i, s.refs i = s₀.refs i + hand.count i) : s.busy.card ≤ s₀.busy.card + hand.card := by
  have hsub : s.busy ⊆ s₀.busy ∪ hand.toFinset := by
    intro i hi
    rw [mem_busy_iff_refs h, hr] at hi
    rw [Finset.mem_union, mem_busy_iff_refs h₀, Multiset.mem_toFinset, ← Multiset.count_pos]
    omega
  refine (Finset.card_le_card hsub).trans ((Finset.card_union_le _ _).trans ?_)
  exact Nat.add_le_add_left (Multiset.toFinset_card_le hand) _

theorem IgetRoom.full (hE : IgetRoom E s.busy.card) (h : FsInv s) :
    s.Full → E "iget: no inodes" := fun hf => hE (hf.card_busy h).ge

theorem Look.refl (h : FsInv s) : Look s 0 s := ⟨.refl h, fun i => by simp⟩

theorem Look.full (h : Look s₀ hand s) (h₀ : FsInv s₀)
    (hE : IgetRoom E (s₀.busy.card + hand.card)) : s.Full → E "iget: no inodes" :=
  IgetRoom.full (hE.mono (card_busy_le h₀ h.quiet.inv h.refs)) h.quiet.inv

theorem Look.took (h : Look s₀ hand s) (ht : Took s i e s') : Look s₀ (i ::ₘ hand) s' := by
  refine ⟨h.quiet.trans ht.quiet, fun j => ?_⟩
  rw [ht.refs, Function.update_apply, Multiset.count_cons, h.refs]
  split_ifs with hj
  · rw [hj, Nat.add_assoc]
  · rw [h.refs, Nat.add_zero]

theorem Look.same (h : Look s₀ hand s) (hq : Quiet s s') (hr : s'.refs = s.refs) :
    Look s₀ hand s' := ⟨h.quiet.trans hq, fun i => by rw [hr, h.refs]⟩

theorem Look.iput (h : Look s₀ (i ::ₘ hand) s) (h₀ : FsInv s₀) (he : s.Holds e i)
    (hl : e ∉ s.locks) : wp (iput e) (fun _ s' => Look s₀ hand s' ∧ s'.locks = s.locks ∧
      ∀ e' j, s.Holds e' j → j ∈ hand → s'.Holds e' j) E s := by
  have hri := h.refs i
  rw [Multiset.count_cons_self] at hri
  have hno : ¬(s.refs i = 1 ∧ s.Orphan i) := by
    rintro ⟨h1, n, hn, h0⟩
    rw [h.quiet.node] at hn
    exact h₀.linked hn (by omega) h0
  refine wp_post (iput_keep h.quiet.inv he (fun _ => hl) hno) fun _ s' hp => ?_
  refine ⟨⟨⟨hp.inv, hp.sys.trans h.quiet.sys, hp.stale.trans h.quiet.stale, hp.sb.trans h.quiet.sb,
    fun e' j h' => ?_⟩, fun j => ?_⟩, hp.locks, fun e' j h' hj => (hp.stays e' j h' ?_).1⟩
  · obtain ⟨h1, h2⟩ := h.quiet.stays e' j h'
    obtain ⟨h3, h4⟩ := hp.stays e' j h1 fun hj => by
      have := h₀.table.refs_pos (hj ▸ h')
      omega
    exact ⟨h3, h4 ∘ h2⟩
  · rw [hp.refs, Function.update_apply]
    split_ifs with hj
    · rw [hj, hri, Nat.add_succ_sub_one]
    · rw [h.refs, Multiset.count_cons_of_ne hj]
  · rintro rfl
    have := Multiset.count_pos.2 hj
    omega

theorem Look.iunlockput (h : Look s₀ (i ::ₘ hand) s) (h₀ : FsInv s₀) (he : s.Holds e i)
    (hl : e ∈ s.locks) : wp (iunlockput e) (fun _ s' => Look s₀ hand s' ∧
      s'.locks = s.locks \ {e} ∧ ∀ e' j, s.Holds e' j → j ∈ hand → s'.Holds e' j) E s := by
  rw [Fs.iunlockput, wp_bind]
  refine wp_post (iunlock_spec h.quiet.inv he hl) ?_
  rintro _ t ⟨hq, hr, hlk⟩
  rw [← hlk]
  refine wp_post ((h.same hq hr).iput h₀ (hq.stays e i he).1 (by rw [hlk]; exact fun h => h.2 rfl))
    fun _ s' ⟨hlook, hl', hst⟩ => ⟨hlook, hl', fun e' j h' => hst e' j (hq.stays e' j h').1⟩

end Look

/-! ## `namex` -/

/-- A directory names an inode that is not in use. -/
def Dangling (s : Fs) : Prop := ∃ d nd, s.node d = some nd ∧ nd.type = tDir ∧
  ∃ de ∈ dirents nd.data, de.inum ≠ 0 ∧ s.node de.inum = none

/-- What `namex` returns : the inode that it was to find, with a reference to it in hand. The parent
of the last element has been locked. -/
def Walked (s : Fs) (np : Bool) (i : ℕ) (cs : List (List UInt8)) (r : Option (ℕ × List UInt8))
    (s' : Fs) : Prop :=
  s'.locks = s.locks ∧
    ((r = none ∧ target s.node np i cs = none ∧ Look s 0 s') ∨
      ∃ e name j, r = some (e, name) ∧ target s.node np i cs = some j ∧ Look s {j} s' ∧
        s'.Holds e j ∧ (np = true → cs.getLast? = some name ∧ (s'.itable e).valid = true))

section Namex

variable {s₀ : Fs} {np : Bool} {E : String → Prop}

theorem namexLoop_spec (h₀ : FsInv s₀) (hlocks : s₀.locks = ∅)
    (hroom : IgetRoom E (s₀.busy.card + 1)) (hdang : s₀.Dangling → E "ilock: no type") :
    ∀ {n ip i : ℕ} {path name : List UInt8} {s : Fs}, path.length < n →
    Look s₀ {i} s → s.Holds ip i → s.locks = ∅ → (s₀.node i = none → E "ilock: no type") →
    wp (namexLoop np n ip path name) (Walked s₀ np i (elems path)) E s
  | 0, ip, i, path, name, s, hn, _, _, _, _ => absurd hn (Nat.not_lt_zero _)
  | n + 1, ip, i, path, name, s, hn, hlook, he, hl, hi => by
    rw [namexLoop]
    cases hskip : skipelem path with
    | none =>
      have hnil := skipelem_none hskip
      dsimp only
      rw [hnil]
      cases np with
      | true =>
        rw [if_pos rfl, wp_bind]
        refine wp_post (hlook.iput h₀ he (by rw [hl]; exact Set.notMem_empty _)) ?_
        rintro _ s' ⟨hlook', hl', -⟩
        rw [wp_pure]
        exact ⟨by rw [hl', hl, hlocks], .inl ⟨rfl, rfl, hlook'⟩⟩
      | false =>
        rw [if_neg Bool.false_ne_true, wp_pure]
        exact ⟨by rw [hl, hlocks], .inr ⟨ip, name, i, rfl, rfl, hlook, he,
          fun h => absurd h Bool.false_ne_true⟩⟩
    | some x =>
      obtain ⟨c, rest⟩ := x
      obtain ⟨helems, hlen, hrest⟩ := skipelem_some hskip
      dsimp only
      rw [helems, wp_bind]
      refine wp_post (ilock_spec hlook.quiet.inv he (by rw [hlook.quiet.node]; exact hi)
        (by rw [hl]; exact fun h => absurd h (Set.notMem_empty _))) fun _ s₁ hlk => ?_
      have hlook₁ := hlook.same hlk.quiet hlk.refs
      have hlocks₁ : s₁.locks = {ip} := by rw [hlk.locks, hl, insert_empty_eq]
      have hmem : ip ∈ s₁.locks := by rw [hlocks₁]; rfl
      obtain ⟨hlive, hdin⟩ := hlk.quiet.inv.table.valid ip i hlk.holds hlk.valid
      have hnode : s₁.node i = some (nodeOf s₁.view (s₁.inodes i)) := node_of_live hlive
      have hnode₀ : s₀.node i = some (nodeOf s₁.view (s₁.inodes i)) := by
        rw [← hlook₁.quiet.node, hnode]
      have hout : ∀ t : Fs, t.locks = s₁.locks \ {ip} → t.locks = s₀.locks := fun t ht => by
        rw [ht, hlocks₁, Set.sdiff_self, hlocks]
      rw [wp_bind, wp_inode, hdin, wp_ite]
      refine ⟨fun htype => ?_, fun htype => ?_⟩
      · rw [wp_bind]
        refine wp_post (hlook₁.iunlockput h₀ hlk.holds hmem) ?_
        rintro _ s' ⟨hlook', hl', -⟩
        rw [wp_pure]
        exact ⟨hout _ hl', .inl ⟨rfl, target_of_not_dir (dirOf_none hnode₀ htype), hlook'⟩⟩
      · have htype : (nodeOf s₁.view (s₁.inodes i)).type = tDir := not_not.1 htype
        have hdir := dirOf_some hnode₀ htype
        rw [wp_ite]
        refine ⟨fun hlast => ?_, fun hmore => ?_⟩
        · rw [wp_bind]
          refine wp_post (iunlock_spec hlk.quiet.inv hlk.holds hmem) ?_
          rintro _ s' ⟨hq, hr, hl'⟩
          obtain ⟨rfl, h0⟩ := hlast
          rw [wp_pure, hrest.1 h0]
          refine ⟨hout _ hl', .inr ⟨ip, c, i, rfl, ?_, hlook₁.same hq hr,
            (hq.stays ip i hlk.holds).1, fun _ => ⟨rfl, (hq.stays ip i hlk.holds).2 hlk.valid⟩⟩⟩
          rw [target_last, hdir]
          rfl
        · have hcons : ¬(np = true ∧ elems rest = []) := fun h => hmore ⟨h.1, hrest.2 h.2⟩
          rw [wp_bind]
          refine wp_post (dirlookup_spec hlk.quiet.inv ⟨hlk.holds, hlk.valid, hnode, htype⟩
            fun _ => hlook₁.full h₀ hroom) ?_
          rintro _ s₂ (⟨rfl, hs, habs⟩ | ⟨k, de, next, rfl, hfound, htook⟩)
          · obtain rfl := hs.symm
            dsimp only
            rw [wp_bind]
            refine wp_post (hlook₁.iunlockput h₀ hlk.holds hmem) ?_
            rintro _ s' ⟨hlook', hl', -⟩
            rw [wp_pure]
            refine ⟨hout _ hl', .inl ⟨rfl, ?_, hlook'⟩⟩
            rw [target_cons hcons, hdir, Option.bind_some, habs.lookup, Option.bind_none]
          · dsimp only
            have hlook₂ := hlook₁.took htook
            rw [show de.inum ::ₘ {i} = i ::ₘ {de.inum} from Multiset.cons_swap _ _ 0] at hlook₂
            rw [wp_bind]
            refine wp_post (hlook₂.iunlockput h₀ (htook.quiet.stays ip i hlk.holds).1
              (by rw [htook.locks]; exact hmem)) ?_
            rintro _ s₃ ⟨hlook₃, hl₃, hstays⟩
            rw [htook.locks] at hl₃
            refine wp_post (namexLoop_spec h₀ hlocks hroom hdang (by omega) hlook₃
              (hstays next _ htook.holds (Multiset.mem_singleton_self _))
              (by rw [hout _ hl₃, hlocks]) fun h0 => hdang ?_) fun r s' hw => ?_
            · exact ⟨i, _, hnode₀, htype, de, List.mem_of_getElem? hfound.entry, hfound.named.1, h0⟩
            · rw [Walked] at hw ⊢
              rw [target_cons hcons, hdir, Option.bind_some, hfound.lookup, Option.bind_some]
              refine ⟨hw.1, hw.2.imp_right ?_⟩
              rintro ⟨e, nm, j, hr, ht, hlook', he', hlast⟩
              refine ⟨e, nm, j, hr, ht, hlook', he', fun hnp => ⟨?_, (hlast hnp).2⟩⟩
              rw [List.getLast?_cons, (hlast hnp).1]
              rfl

/-- The inode that a path starts from. -/
def start (c : ℕ) (path : List UInt8) : ℕ := if path.head? = some slash then rootIno else c

/-- `namex` of a process whose current directory is the inode `c`. -/
theorem namex_spec {s : Fs} {cwd c : ℕ} {path : List UInt8} (h : FsInv s) (hlocks : s.locks = ∅)
    (hroom : IgetRoom E (s.busy.card + 1)) (hdang : s.Dangling → E "ilock: no type")
    (hcwd : s.Holds cwd c) (hstart : s.node (start c path) = none → E "ilock: no type") :
    wp (namex cwd path np) (Walked s np (start c path) (elems path)) E s := by
  have hloop : ∀ e s', Took s (start c path) e s' →
      wp (namexLoop np (path.length + 1) e path [])
        (Walked s np (start c path) (elems path)) E s' :=
    fun e s' ht => namexLoop_spec h hlocks hroom hdang (Nat.lt_succ_self _) ((Look.refl h).took ht)
      ht.holds (ht.locks.trans hlocks) hstart
  rw [namex, wp_ite, wp_bind, wp_bind]
  unfold start at hloop ⊢
  refine ⟨fun hslash => ?_, fun hslash => ?_⟩
  · rw [if_pos hslash] at hloop ⊢
    exact wp_post (iget_spec h ⟨le_refl 1, h.root⟩
      (IgetRoom.full (hroom.mono (Nat.le_succ _)) h)) hloop
  · rw [if_neg hslash] at hloop ⊢
    refine wp_post (idup_spec h hcwd) ?_
    rintro r s' ⟨rfl, ht⟩
    exact hloop r s' ht

/-- `namex` uses the elements of the path only. -/
theorem namexLoop_congr : ∀ {n n' ip : ℕ} {path path' name : List UInt8},
    elems path = elems path' → path.length < n → path'.length < n' →
    namexLoop np n ip path name = namexLoop np n' ip path' name
  | 0, _, _, _, _, _, _, hn, _ => absurd hn (Nat.not_lt_zero _)
  | _, 0, _, _, _, _, _, _, hn => absurd hn (Nat.not_lt_zero _)
  | n + 1, n' + 1, ip, path, path', name, heq, hn, hn' => by
    rw [namexLoop, namexLoop]
    cases hskip : skipelem path with
    | none => rw [skipelem_eq_none.2 (heq.symm.trans (skipelem_none hskip))]
    | some x =>
      obtain ⟨c, rest⟩ := x
      obtain ⟨helems, hlen, hrest⟩ := skipelem_some hskip
      cases hskip' : skipelem path' with
      | none =>
        rw [heq, skipelem_none hskip'] at helems
        exact absurd helems.symm (List.cons_ne_nil _ _)
      | some x =>
        obtain ⟨c', rest'⟩ := x
        obtain ⟨helems', hlen', hrest'⟩ := skipelem_some hskip'
        rw [heq, helems'] at helems
        obtain ⟨rfl, hsame⟩ := List.cons.inj helems
        have hnil : rest = [] ↔ rest' = [] := by rw [hrest, hrest', hsame]
        dsimp only
        simp only [hnil, namexLoop_congr hsame.symm (show rest.length < n by omega)
          (show rest'.length < n' by omega)]

/-- Path resolution follows the elements of the path. `namex` stops if the inode table is full. -/
theorem namex_follows {s : Fs} {cwd c : ℕ} (path : List UInt8) (h : FsInv s) (hlocks : s.locks = ∅)
    (htree : ¬s.Dangling) (hroot : s.node rootIno ≠ none) (hcwd : s.Holds cwd c)
    (hc : s.node c ≠ none) :
    skipAll (path.length + 1) path = elems path ∧
    wp (namex cwd path false) (fun r s' =>
      (r = none ↔ Lost s.node (start c path) (elems path)) ∧
      ∀ e name, r = some (e, name) → ∃ j, follow s.node (start c path) (elems path) = some j ∧
        s'.Holds e j) (fun e => e = "iget: no inodes" ∧ nInode ≤ s.busy.card + 1) s ∧
    wp (namex cwd path true) (fun r s' =>
      (r = none ↔ elems path = [] ∨ Lost s.node (start c path) (elems path).dropLast ∨
        ∃ j, follow s.node (start c path) (elems path).dropLast = some j ∧
          dirOf s.node j = none) ∧
      ∀ e name, r = some (e, name) →
        (∃ j, follow s.node (start c path) (elems path).dropLast = some j ∧ s'.Holds e j) ∧
        (elems path).getLast? = some name)
      (fun e => e = "iget: no inodes" ∧ nInode ≤ s.busy.card + 1) s ∧
    ∀ path', (path'.head? = some slash ↔ path.head? = some slash) → elems path' = elems path →
      ∀ np, namex cwd path' np = namex cwd path np := by
  have hstart : s.node (start c path) ≠ none := by
    unfold start
    split_ifs
    · exact hroot
    · exact hc
  have hspec : ∀ np, wp (namex cwd path np) (Walked s np (start c path) (elems path))
      (fun e => e = "iget: no inodes" ∧ nInode ≤ s.busy.card + 1) s := fun np =>
    namex_spec h hlocks (fun hfull => ⟨rfl, hfull⟩) (fun hd => absurd hd htree) hcwd
      fun h0 => absurd h0 hstart
  refine ⟨skipAll_eq (Nat.lt_succ_self _), wp_post (hspec false) ?_, wp_post (hspec true) ?_, ?_⟩
  · rintro r s' ⟨-, ⟨rfl, ht, -⟩ | ⟨e, name, j, rfl, ht, -, he, -⟩⟩
    · exact ⟨iff_of_true rfl (follow_eq_none.1 ht), nofun⟩
    · have ht : follow s.node (start c path) (elems path) = some j := ht
      refine ⟨iff_of_false nofun fun hl => ?_, fun e' name' heq => ⟨j, ht, ?_⟩⟩
      · rw [follow_eq_none.2 hl] at ht
        exact Option.some_ne_none j ht.symm
      · obtain ⟨rfl, -⟩ := Prod.mk.inj (Option.some.inj heq)
        exact he
  · rintro r s' ⟨-, ⟨rfl, ht, -⟩ | ⟨e, name, j, rfl, ht, -, he, hlast⟩⟩
    · exact ⟨iff_of_true rfl (followParent_eq_none.1 ht), nofun⟩
    · have ht : followParent s.node (start c path) (elems path) = some j := ht
      refine ⟨iff_of_false nofun fun hl => ?_, fun e' name' heq => ?_⟩
      · rw [followParent_eq_none.2 hl] at ht
        exact Option.some_ne_none j ht.symm
      · obtain ⟨rfl, rfl⟩ := Prod.mk.inj (Option.some.inj heq)
        exact ⟨⟨j, followParent_eq_some ht, he⟩, (hlast rfl).1⟩
  · intro path' hslash helems np
    have hloop : ∀ ip, namexLoop np (path'.length + 1) ip path' [] =
        namexLoop np (path.length + 1) ip path [] :=
      fun ip => namexLoop_congr helems (Nat.lt_succ_self _) (Nat.lt_succ_self _)
    simp only [namex, hloop, hslash]

end Namex

end Fs

/-! ## A small disk -/

/-- The superblock of a disk with 200 blocks. -/
def sampleSb : Superblock := ⟨fsMagic, 200, 164, 16, 31, 2, 33, 35⟩

/-- The root directory. -/
def sampleRoot : Dinode := ⟨tDir, 0, 0, 1, 48, fun k => if k = 0 then 36 else 0⟩

/-- A file of one block. -/
def sampleFile : Dinode := ⟨tFile, 0, 0, 1, 1024, fun k => if k = 0 then 37 else 0⟩

/-- `.`, `..` and the file `f`. -/
def sampleEntries : List UInt8 :=
  Dirent.toBytes ⟨1, nameField [46]⟩ ++ Dirent.toBytes ⟨1, nameField [46, 46]⟩ ++
    Dirent.toBytes ⟨2, nameField [102]⟩

def sampleDisk : Disk := fun b =>
  if b = 33 then putDinode (putDinode zeroBlock 1 sampleRoot) 2 sampleFile
  else if b = 36 then putBytes zeroBlock 0 sampleEntries
  else zeroBlock

/-- The file system after boot. -/
def sampleFs : Fs where
  sys := ⟨⟨sampleDisk, fun _ => none, 2, ⟨0, fun _ => 0⟩, []⟩, 0, false, fun _ => 0⟩
  stale := fun _ => none
  sb := sampleSb
  itable := fun _ => ⟨0, 0, 0, false, false, Dinode.zero⟩

section Sample

variable {i : ℕ}

theorem sample_fits : sampleRoot.Fits ∧ sampleFile.Fits := by
  constructor <;> refine ⟨by decide, by decide, by decide, by decide, by decide, fun k => ?_, ?_⟩
  all_goals simp only [sampleRoot, sampleFile]
  · split_ifs <;> norm_num
  · exact fun k hk => if_neg (by omega)
  · split_ifs <;> norm_num
  · exact fun k hk => if_neg (by omega)

theorem sample_inode (h : i < 16) : sampleFs.inodes i =
    if i = 1 then sampleRoot else if i = 2 then sampleFile else Dinode.zero := by
  have hb : iBlock i sampleSb = 33 := by
    rw [iBlock, Nat.div_eq_of_lt h]
    rfl
  show getDinode (sampleDisk (iBlock i sampleSb)) (i % 16) = _
  rw [hb, Nat.mod_eq_of_lt h, sampleDisk, if_pos rfl]
  split_ifs with h1 h2
  · rw [h1, getDinode_putDinode_ne (by decide), getDinode_putDinode_same _ _ sample_fits.1]
  · rw [h2, getDinode_putDinode_same _ _ sample_fits.2]
  · rw [getDinode_putDinode_ne (Ne.symm h2), getDinode_putDinode_ne (Ne.symm h1),
      getDinode_zeroBlock]

theorem sample_live : Live sampleFs.sb sampleFs.inodes i ↔ i = 1 ∨ i = 2 := by
  constructor
  · rintro ⟨h1, h2, h3⟩
    by_contra hno
    rw [not_or] at hno
    rw [sample_inode h2, if_neg hno.1, if_neg hno.2] at h3
    exact h3 rfl
  · rintro (rfl | rfl)
    · exact ⟨by decide, show 1 < 16 by decide, by rw [sample_inode (by decide)]; decide⟩
    · exact ⟨by decide, show 2 < 16 by decide, by rw [sample_inode (by decide)]; decide⟩

theorem sample_whole (hl : Live sampleFs.sb sampleFs.inodes i) :
    Whole sampleFs.view (sampleFs.inodes i) := by
  have hsize : (sampleFs.inodes i).size ≤ 1024 ∧
      slotAddr sampleFs.view (sampleFs.inodes i) (blkSlot 0) ≠ 0 := by
    obtain rfl | rfl := sample_live.1 hl
    all_goals
      rw [sample_inode (by decide)]
      decide
  refine ⟨by omega, fun bn hbn => ?_⟩
  obtain rfl : bn = 0 := by omega
  exact hsize.2

theorem sample_root : sampleFs.node 1 = some ⟨tDir, 0, 0, 1, sampleEntries⟩ := by
  have hl : Live sampleFs.sb sampleFs.inodes 1 := sample_live.2 (Or.inl rfl)
  rw [Fs.node_of_live hl, nodeOf]
  have hb : fileBytes sampleFs.view (sampleFs.inodes 1) = sampleEntries := by
    rw [sample_inode (by decide), if_pos rfl]
    show fileBytes sampleDisk sampleRoot = sampleEntries
    decide
  rw [hb, sample_inode (by decide), if_pos rfl]
  rfl

theorem sample_file : sampleFs.node 2 =
    some ⟨tFile, 0, 0, 1, List.replicate 1024 0⟩ := by
  have hl : Live sampleFs.sb sampleFs.inodes 2 := sample_live.2 (Or.inr rfl)
  rw [Fs.node_of_live hl, nodeOf]
  have hb : fileBytes sampleFs.view (sampleFs.inodes 2) = List.replicate 1024 0 := by
    rw [sample_inode (by decide), if_neg (by decide), if_pos rfl, List.eq_replicate_iff]
    refine ⟨by simp [fileBytes, sampleFile], fun x hx => ?_⟩
    obtain ⟨k, hk, rfl⟩ := List.mem_map.1 hx
    have hk : k < 1024 := List.mem_range.1 hk
    rw [fileByte, Nat.div_eq_of_lt hk]
    rfl
  rw [hb, sample_inode (by decide), if_neg (by decide), if_pos rfl]
  rfl

theorem sample_dir : DirOk sampleSb sampleEntries := by
  refine ⟨by decide, fun k hk => ?_⟩
  have hk : k < 3 := by
    have : sampleEntries.length = 48 := by decide
    omega
  interval_cases k <;> decide

theorem sample_inv : FsInv sampleFs := by
  have hno : ∀ e i, ¬sampleFs.Holds e i := fun e i h => absurd h.2.1 (lt_irrefl 0)
  refine ⟨by decide, fun i => sample_whole, fun i n hn ht => ?_, ⟨fun e i h => absurd h (hno e i),
    fun e _ i h => absurd h (hno e i), fun e i h => absurd h (hno e i), fun _ _ _ => rfl⟩,
    fun i n hn h0 => ?_⟩
  · obtain rfl | rfl := sample_live.1 (Fs.node_eq_some.1 hn).1
    · rw [sample_root] at hn
      obtain rfl := Option.some.inj hn
      exact sample_dir
    · rw [sample_file] at hn
      obtain rfl := Option.some.inj hn
      cases ht
  · obtain rfl | rfl := sample_live.1 (Fs.node_eq_some.1 hn).1
    · rw [sample_root] at hn
      obtain rfl := Option.some.inj hn
      cases h0
    · rw [sample_file] at hn
      obtain rfl := Option.some.inj hn
      cases h0

/-- The file is open, in the entry `0` of the table. -/
def openFs : Fs := sampleFs.setInode 0 ⟨rootDev, 2, 1, false, true, sampleFile⟩

theorem open_inv : FsInv openFs ∧ openFs.Holds 0 2 := by
  have hl : Live sampleFs.sb sampleFs.inodes 2 := sample_live.2 (Or.inr rfl)
  have hrefs : sampleFs.refs 2 = 0 := tally_eq_zero fun e _ => by
    split_ifs <;> rfl
  have htook := Fs.Took.fresh (e := 0) sample_inv (by decide) rfl ⟨hl.1, hl.2.1⟩ hrefs
  have hkeep := Fs.Quiet.keep (x := ⟨rootDev, 2, 1, false, true, sampleFile⟩) htook.quiet.inv
    htook.holds ⟨Nat.one_pos, rfl⟩ (by rw [Fs.setInode_self]) (fun _ => ?_) fun _ => rfl
  · rw [Fs.setInode_setInode] at hkeep
    exact ⟨hkeep.1.inv, hkeep.2⟩
  · rw [htook.quiet.inodes, htook.quiet.sb, sample_inode (by decide)]
    exact ⟨hl, rfl⟩

end Sample

namespace Fs

theorem open_node {i : ℕ} : openFs.node i =
    if i = 1 then some ⟨tDir, 0, 0, 1, sampleEntries⟩
    else if i = 2 then some ⟨tFile, 0, 0, 1, List.replicate 1024 0⟩ else none := by
  split_ifs with h1 h2
  · rw [h1]
    exact sample_root
  · rw [h2]
    exact sample_file
  · refine node_eq_none.2 fun hl => ?_
    rcases sample_live.1 (show Live sampleFs.sb sampleFs.inodes i from hl) with h | h
    · exact h1 h
    · exact h2 h

theorem open_tree : ¬openFs.Dangling := by
  rintro ⟨d, nd, hn, ht, de, hde, h0, hnone⟩
  rw [open_node] at hn
  split_ifs at hn
  · obtain rfl := Option.some.inj hn
    have hall : ∀ de ∈ dirents sampleEntries, de.inum = 1 ∨ de.inum = 2 := by decide
    rw [open_node] at hnone
    rcases hall de hde with h | h
    · rw [if_pos h] at hnone
      exact Option.some_ne_none _ hnone
    · rw [h, if_neg (by decide), if_pos rfl] at hnone
      exact Option.some_ne_none _ hnone
  · obtain rfl := Option.some.inj hn
    exact absurd ht (by decide)

theorem open_itable (e : ℕ) : openFs.itable e =
    if e = 0 then ⟨rootDev, 2, 1, false, true, sampleFile⟩
    else ⟨0, 0, 0, false, false, Dinode.zero⟩ :=
  Function.update_apply ..

theorem open_locks : openFs.locks = ∅ := by
  refine Set.eq_empty_of_forall_notMem fun e he => ?_
  have hlock : (openFs.itable e).locked = false := by
    rw [open_itable]
    split_ifs <;> rfl
  exact Bool.false_ne_true (hlock.symm.trans he.2)

theorem open_busy : openFs.busy.card ≤ 1 := by
  refine Finset.card_le_one.2 fun i hi j hj => ?_
  have hall : ∀ i ∈ openFs.busy, i = 2 := by
    intro i hi
    obtain ⟨e, -, hpos, hinum⟩ := mem_busy.1 hi
    rw [open_itable] at hpos hinum
    split_ifs at hpos hinum
    · exact hinum.symm
    · exact absurd hpos (by decide)
  rw [hall i hi, hall j hj]

/-- The path `/f`. -/
theorem namex_follows_open : wp (namex 0 [47, 102] false)
    (fun r s' => ∃ e name, r = some (e, name) ∧ s'.Holds e 2) noPanic openFs := by
  have hcwd : openFs.Holds 0 2 := open_inv.2
  obtain ⟨-, hw, -⟩ := namex_follows [47, 102] open_inv.1
    open_locks open_tree (by rw [open_node]; exact Option.some_ne_none _) hcwd
    (by rw [open_node]; exact Option.some_ne_none _)
  have hroot : openFs.node 1 = some ⟨tDir, 0, 0, 1, sampleEntries⟩ := by
    rw [open_node]
    rfl
  have hfollow : follow openFs.node (start 2 [47, 102]) (elems [47, 102]) = some 2 := by
    rw [show start 2 [47, 102] = 1 from rfl, show elems [47, 102] = [[102]] by decide, follow,
      dirOf_some hroot rfl,
      Option.bind_some, show lookup (dirents sampleEntries) [102] = some 2 by decide]
    rfl
  refine wp_mono hw ?_ ?_
  · rintro (_ | ⟨e, name⟩) s' ⟨hnone, hsome⟩
    · rw [follow_eq_none.2 (hnone.1 rfl)] at hfollow
      exact absurd hfollow.symm (Option.some_ne_none 2)
    · obtain ⟨j, hj, he⟩ := hsome e name rfl
      rw [hfollow] at hj
      obtain rfl := Option.some.inj hj
      exact ⟨e, name, rfl, he⟩
  · rintro _ ⟨-, hfull⟩
    have := open_busy
    simp only [nInode] at hfull
    omega

end Fs

end Xv6Plus
