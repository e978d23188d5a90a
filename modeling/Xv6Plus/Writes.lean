import Mathlib

/-!
# Sequences of writes, and crashes between them

A store maps places to values, and a procedure on it is known by the writes it makes, in
order. A crash keeps some first part of them. `AtEveryCut P ws d` says that `P` holds
whenever the writes `ws` to the store `d` are cut off, and `CrashRuns` runs a procedure
again and again, each time cut off somewhere.
-/

namespace Xv6Plus

variable {ι β : Type*} [DecidableEq ι]

/-- The store after some writes, the first in the list made first. -/
def applyWrites : List (ι × β) → (ι → β) → ι → β
  | [], d => d
  | w :: ws, d => applyWrites ws (Function.update d w.1 w.2)

/-- `P` holds after every first part of the writes, the empty one and all of them too. -/
def AtEveryCut (P : (ι → β) → Prop) (ws : List (ι × β)) (d : ι → β) : Prop :=
  ∀ k, P (applyWrites (ws.take k) d)

/-- Runs of a procedure that makes the writes `trace d` on the store `d`, each run cut off
after some of them. -/
inductive CrashRuns (trace : (ι → β) → List (ι × β)) (d : ι → β) : (ι → β) → Prop
  | refl : CrashRuns trace d d
  | step {d' : ι → β} (k : ℕ) :
      CrashRuns trace d d' → CrashRuns trace d (applyWrites ((trace d').take k) d')

section Apply

variable {ws vs : List (ι × β)} {d : ι → β} {x : ι}

theorem applyWrites_append : ∀ (ws vs : List (ι × β)) (d : ι → β),
    applyWrites (ws ++ vs) d = applyWrites vs (applyWrites ws d)
  | [], _, _ => rfl
  | w :: ws, vs, d => applyWrites_append ws vs (Function.update d w.1 w.2)

theorem applyWrites_of_ne : ∀ {ws : List (ι × β)} {d : ι → β}, (∀ w ∈ ws, w.1 ≠ x) →
    applyWrites ws d x = d x
  | [], _, _ => rfl
  | w :: ws, d, h => by
    rw [applyWrites, applyWrites_of_ne fun v hv => h v (List.mem_cons_of_mem _ hv)]
    exact Function.update_of_ne (h w List.mem_cons_self).symm _ _

/-- If all writes to a place write one value, that value is there in the end. -/
theorem applyWrites_of_mem {v : β} : ∀ {ws : List (ι × β)} {d : ι → β},
    (∃ w ∈ ws, w.1 = x) → (∀ w ∈ ws, w.1 = x → w.2 = v) → applyWrites ws d x = v
  | [], _, h, _ => by
    obtain ⟨w, hw, -⟩ := h
    exact absurd hw List.not_mem_nil
  | w :: ws, d, h, hv => by
    rw [applyWrites]
    by_cases hlater : ∃ w' ∈ ws, w'.1 = x
    · exact applyWrites_of_mem hlater fun w' hw' => hv w' (List.mem_cons_of_mem _ hw')
    · rw [applyWrites_of_ne fun w' hw' he => hlater ⟨w', hw', he⟩]
      obtain ⟨w', hw', he⟩ := h
      rcases List.mem_cons.1 hw' with rfl | hw'
      · rw [← he, Function.update_self]
        exact hv w' List.mem_cons_self he
      · exact absurd ⟨w', hw', he⟩ hlater

end Apply

namespace AtEveryCut

variable {P Q : (ι → β) → Prop} {ws vs : List (ι × β)} {d : ι → β}

theorem nil (h : P d) : AtEveryCut P [] d := fun k => by
  rw [List.take_nil]
  exact h

theorem start (h : AtEveryCut P ws d) : P d := h 0

theorem all (h : AtEveryCut P ws d) : P (applyWrites ws d) := by
  have hall := h ws.length
  rwa [List.take_length] at hall

theorem mono (h : AtEveryCut P ws d) (hPQ : ∀ d, P d → Q d) : AtEveryCut Q ws d :=
  fun k => hPQ _ (h k)

theorem cons {w : ι × β} (h : P d) (hs : AtEveryCut P ws (Function.update d w.1 w.2)) :
    AtEveryCut P (w :: ws) d
  | 0 => h
  | k + 1 => hs k

theorem append (h : AtEveryCut P ws d) (hs : AtEveryCut P vs (applyWrites ws d)) :
    AtEveryCut P (ws ++ vs) d := by
  induction ws generalizing d with
  | nil => exact hs
  | cons w ws ih => exact cons h.start (ih (fun k => h (k + 1)) hs)

/-- What every single write keeps holds at every cut. -/
theorem of_step (hP : P d)
    (hstep : ∀ w ∈ ws, ∀ d, P d → P (Function.update d w.1 w.2)) : AtEveryCut P ws d := by
  induction ws generalizing d with
  | nil => exact nil hP
  | cons w ws ih =>
    exact cons hP (ih (hstep w List.mem_cons_self d hP)
      fun w' hw' => hstep w' (List.mem_cons_of_mem _ hw'))

end AtEveryCut

/-- What every cut of one run keeps holds after any number of runs. -/
theorem CrashRuns.invariant {trace : (ι → β) → List (ι × β)} {P : (ι → β) → Prop}
    {d d' : ι → β} (hstep : ∀ d, P d → AtEveryCut P (trace d) d) (hP : P d)
    (h : CrashRuns trace d d') : P d' := by
  induction h with
  | refl => exact hP
  | step k _ ih => exact hstep _ ih k

end Xv6Plus
