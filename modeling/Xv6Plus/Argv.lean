import Xv6Plus.AddrSpace

/-!
# The arguments on the stack

`kexec` copies the strings of `argv` downwards from the top of the stack, each to an address that
is a multiple of 16, and below them the array of the pointers to them. `argSlots` are the addresses
of the strings, `putArgs` is the memory with the strings and `putArgv` the memory with the array
too. The strings and the array can be read back (`putArgv_arg`, `putArgv_word`), and they do not
overlap.
-/

namespace Xv6Plus

/-- The next multiple of 16. -/
def up16 (n : ℕ) : ℕ := (n + 15) / 16 * 16

/-- The room that the strings take. -/
def argsSize : List (List UInt8) → ℕ
  | [] => 0
  | arg :: argv => up16 (arg.length + 1) + argsSize argv

/-- The room that the strings and the array of `argc + 1` pointers take. -/
def stackNeed (argv : List (List UInt8)) : ℕ := argsSize argv + up16 (8 * (argv.length + 1))

/-- The addresses of the strings, below `sp`. -/
def argSlots : ℕ → List (List UInt8) → List ℕ
  | _, [] => []
  | sp, arg :: argv => (sp - up16 (arg.length + 1)) :: argSlots (sp - up16 (arg.length + 1)) argv

/-- The memory after the strings have been copied. -/
def putArgs (C : Mem) : ℕ → List (List UInt8) → Mem
  | _, [] => C
  | sp, arg :: argv =>
    putArgs (storeBytes C (sp - up16 (arg.length + 1)) (arg ++ [0])) (sp - up16 (arg.length + 1))
      argv

/-- The memory after the array has been copied too. -/
def putArgv (C : Mem) (top : ℕ) (argv : List (List UInt8)) : Mem :=
  storeBytes (putArgs C top argv) (top - stackNeed argv) (wordBytes (argSlots top argv ++ [0]))

section Store

variable {C : Mem} {a : ℕ} {data : List UInt8}

theorem storeBytes_of_not {x : ℕ} (h : x < a ∨ a + data.length ≤ x) :
    storeBytes C a data x = C x :=
  if_neg (by omega)

theorem loadBytes_storeBytes : loadBytes (storeBytes C a data) a data.length = data := by
  refine List.ext_getElem? fun j => ?_
  by_cases hj : j < data.length
  · rw [loadBytes_getElem? hj, storeBytes, if_pos (by omega), Nat.add_sub_cancel_left,
      List.getD_eq_getElem?_getD, List.getElem?_eq_getElem hj, Option.getD_some]
  · rw [List.getElem?_eq_none (by rw [loadBytes_length]; omega),
      List.getElem?_eq_none (by omega)]

end Store

section Words

theorem wordBytes_cons (w : ℕ) (ws : List ℕ) :
    wordBytes (w :: ws) = (List.range 8).map (fun i => UInt8.ofNat (w / 256 ^ i)) ++ wordBytes ws :=
  rfl

theorem wordBytes_length (ws : List ℕ) : (wordBytes ws).length = 8 * ws.length := by
  induction ws with
  | nil => rfl
  | cons w ws ih =>
    rw [wordBytes_cons, List.length_append, List.length_map, List.length_range, ih,
      List.length_cons]
    omega

theorem wordBytes_getElem? {ws : List ℕ} {i j w : ℕ} (hi : ws[i]? = some w) (hj : j < 8) :
    (wordBytes ws)[8 * i + j]? = some (UInt8.ofNat (w / 256 ^ j)) := by
  induction ws generalizing i with
  | nil => cases hi
  | cons v ws ih =>
    have hlen : ((List.range 8).map fun i => UInt8.ofNat (v / 256 ^ i)).length = 8 := by
      rw [List.length_map, List.length_range]
    rw [wordBytes_cons]
    cases i with
    | zero =>
      obtain rfl : v = w := Option.some.inj hi
      rw [List.getElem?_append_left (by omega), Nat.mul_zero, Nat.zero_add, List.getElem?_map,
        List.getElem?_range hj, Option.map_some]
    | succ i =>
      rw [List.getElem?_append_right (by omega), hlen,
        show 8 * (i + 1) + j - 8 = 8 * i + j by omega]
      exact ih hi

theorem read64_wordBytes {C : Mem} {a i w : ℕ} {ws : List ℕ} (hi : ws[i]? = some w)
    (hw : w < 2 ^ 64) : read64 (storeBytes C a (wordBytes ws)) (a + 8 * i) = w := by
  obtain ⟨hlt, -⟩ := List.getElem?_eq_some_iff.1 hi
  have hdigits : ∀ j < 8, storeBytes C a (wordBytes ws) (a + 8 * i + j) =
      UInt8.ofNat (w / 256 ^ j) := by
    intro j hj
    rw [storeBytes, if_pos (by rw [wordBytes_length]; omega),
      show a + 8 * i + j - a = 8 * i + j by omega, List.getD_eq_getElem?_getD,
      wordBytes_getElem? hi hj, Option.getD_some]
  rw [read64, readLE_of_digits hdigits]
  exact Nat.mod_eq_of_lt (by norm_num at hw ⊢; exact hw)

end Words

section Args

variable {C : Mem} {sp i j : ℕ} {arg arg' : List UInt8} {argv : List (List UInt8)}

theorem up16_ge (n : ℕ) : n ≤ up16 n := by
  rw [up16]
  omega

theorem argsSize_aligned : ∀ argv : List (List UInt8), argsSize argv % 16 = 0
  | [] => rfl
  | arg :: argv => by
    have := argsSize_aligned argv
    rw [argsSize, up16]
    omega

theorem stackNeed_aligned (argv : List (List UInt8)) : stackNeed argv % 16 = 0 := by
  have := argsSize_aligned argv
  rw [stackNeed, up16]
  omega

theorem argSlots_length : ∀ (argv : List (List UInt8)) (sp : ℕ),
    (argSlots sp argv).length = argv.length
  | [], _ => rfl
  | _ :: argv, sp => by rw [argSlots, List.length_cons, List.length_cons, argSlots_length argv]

/-- From `sp` on the memory is unchanged. -/
theorem putArgs_above {x : ℕ} (hx : sp ≤ x) (h : argsSize argv ≤ sp) :
    putArgs C sp argv x = C x := by
  induction argv generalizing C sp with
  | nil => rfl
  | cons arg argv ih =>
    have hge := up16_ge (arg.length + 1)
    rw [argsSize] at h
    rw [putArgs, ih (by omega) (by omega), storeBytes_of_not]
    right
    rw [List.length_append, List.length_singleton]
    omega

/-- The address of a string, which lies between the top and the end of all strings. -/
theorem argSlots_getElem? (C : Mem) (sp : ℕ) (hi : argv[i]? = some arg) (h : argsSize argv ≤ sp) :
    ∃ a, (argSlots sp argv)[i]? = some a ∧ sp - argsSize argv ≤ a ∧ a + arg.length + 1 ≤ sp ∧
      loadBytes (putArgs C sp argv) a (arg.length + 1) = arg ++ [0] := by
  induction argv generalizing C sp i with
  | nil => cases hi
  | cons first argv ih =>
    have hge := up16_ge (first.length + 1)
    rw [argsSize] at h ⊢
    cases i with
    | zero =>
      obtain rfl : first = arg := Option.some.inj hi
      refine ⟨_, rfl, by omega, by omega, ?_⟩
      have hlen : first.length + 1 = (first ++ [0]).length := by
        rw [List.length_append, List.length_singleton]
      rw [putArgs]
      -- the strings that follow are below
      refine (loadBytes_congr fun j _ => putArgs_above (by omega) (by omega)).trans ?_
      rw [hlen]
      exact loadBytes_storeBytes
    | succ i =>
      obtain ⟨a, ha, h1, h2, hload⟩ := ih (storeBytes C (sp - up16 (first.length + 1))
        (first ++ [0])) (sp - up16 (first.length + 1)) hi (by omega)
      exact ⟨a, ha, by omega, by omega, hload⟩

/-- A later string is below an earlier one. -/
theorem argSlots_lt {a b : ℕ} (hij : i < j) (ha : (argSlots sp argv)[i]? = some a)
    (hj : argv[j]? = some arg') (hb : (argSlots sp argv)[j]? = some b) (h : argsSize argv ≤ sp) :
    b + arg'.length + 1 ≤ a := by
  induction argv generalizing sp i j with
  | nil => cases hj
  | cons first argv ih =>
    rw [argsSize] at h
    obtain ⟨j, rfl⟩ : ∃ j', j = j' + 1 := ⟨j - 1, by omega⟩
    cases i with
    | zero =>
      obtain rfl : _ = a := Option.some.inj ha
      have hj' : argv[j]? = some arg' := hj
      obtain ⟨b', hb', -, hle, -⟩ := argSlots_getElem? (fun _ => 0)
        (sp - up16 (first.length + 1)) hj' (by omega)
      obtain rfl : b' = b := Option.some.inj (hb'.symm.trans hb)
      exact hle
    | succ i => exact ih (by omega) ha hj hb (by omega)

end Args

/-! ## Reading the stack -/

section Stack

variable {C : Mem} {top i : ℕ} {arg : List UInt8} {argv : List (List UInt8)}

/-- The array lies below the strings. -/
theorem stackNeed_array (argv : List (List UInt8)) :
    argsSize argv + 8 * (argv.length + 1) ≤ stackNeed argv := by
  have := up16_ge (8 * (argv.length + 1))
  rw [stackNeed]
  omega

theorem putArgv_arg {a : ℕ} (hi : argv[i]? = some arg) (ha : (argSlots top argv)[i]? = some a)
    (h : stackNeed argv ≤ top) :
    loadBytes (putArgv C top argv) a (arg.length + 1) = arg ++ [0] := by
  have hneed := stackNeed_array argv
  obtain ⟨a', ha', h1, h2, hload⟩ := argSlots_getElem? C top hi (by omega)
  obtain rfl : a' = a := Option.some.inj (ha'.symm.trans ha)
  refine (loadBytes_congr fun j _ => storeBytes_of_not ?_).trans hload
  right
  rw [wordBytes_length, List.length_append, argSlots_length, List.length_singleton]
  omega

/-- The words of the array : the addresses of the strings, and zero at the end. -/
theorem putArgv_word (hi : i < argv.length) (ht : top < 2 ^ 64) (h : stackNeed argv ≤ top) :
    ∃ a, (argSlots top argv)[i]? = some a ∧
      read64 (putArgv C top argv) (top - stackNeed argv + 8 * i) = a := by
  have hneed := stackNeed_array argv
  obtain ⟨a, ha, h1, h2, -⟩ := argSlots_getElem? C top (List.getElem?_eq_getElem hi)
    (by omega)
  refine ⟨a, ha, read64_wordBytes ?_ (by omega)⟩
  rw [List.getElem?_append_left (by rw [argSlots_length]; exact hi)]
  exact ha

theorem putArgv_null :
    read64 (putArgv C top argv) (top - stackNeed argv + 8 * argv.length) = 0 := by
  refine read64_wordBytes ?_ (by norm_num)
  rw [List.getElem?_append_right (by rw [argSlots_length]), argSlots_length, Nat.sub_self]
  rfl

end Stack

end Xv6Plus
