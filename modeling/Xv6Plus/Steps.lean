import Mathlib

/-!
# Runs of a step relation

A system of several parties is a relation `step s e s'` : in the state `s` some party does
something that is recorded as the event `e`, and the state becomes `s'`. A run is any
sequence of steps, so a statement about all runs is one about all interleavings. `Run`
keeps the history of events beside the state, and an invariant may speak of both.
-/

namespace Xv6Plus

section Steps

variable {σ ε : Type} {init : σ → Prop} {step : σ → ε → σ → Prop} {h : List ε} {s : σ}

/-- The states that steps lead to, with the history of events, oldest first. -/
inductive Run (init : σ → Prop) (step : σ → ε → σ → Prop) : List ε → σ → Prop
  | start {s : σ} : init s → Run init step [] s
  | snoc {h : List ε} {s : σ} {e : ε} {s' : σ} : Run init step h s → step s e s' →
      Run init step (h ++ [e]) s'

/-- What holds at the start and is kept by every step holds in every run. -/
theorem Run.invariant {P : List ε → σ → Prop} (hrun : Run init step h s)
    (hstart : ∀ s, init s → P [] s)
    (hstep : ∀ h s e s', P h s → step s e s' → P (h ++ [e]) s') : P h s := by
  induction hrun with
  | start hi => exact hstart _ hi
  | snoc _ hs ih => exact hstep _ _ _ _ ih hs

/-- The step that an event of the history was recorded at. -/
theorem Run.at_event {h₁ : List ε} {e : ε} (hrun : Run init step h s) (he : h₁ ++ [e] <+: h) :
    ∃ s₁ s₂, Run init step h₁ s₁ ∧ step s₁ e s₂ := by
  induction hrun with
  | start _ => exact absurd (List.prefix_nil.1 he) (by simp)
  | snoc hr hs ih =>
    rcases List.prefix_concat_iff.1 he with heq | hpre
    · obtain ⟨rfl, he'⟩ := List.append_inj' heq rfl
      obtain rfl := List.singleton_inj.1 he'
      exact ⟨_, _, hr, hs⟩
    · exact ih hpre

/-- The steps that meet a condition. -/
def restrict (step : σ → ε → σ → Prop) (C : σ → ε → Prop) (s : σ) (e : ε) (s' : σ) : Prop :=
  step s e s' ∧ C s e

theorem Run.of_restrict {C : σ → ε → Prop} (hrun : Run init (restrict step C) h s) :
    Run init step h s := by
  induction hrun with
  | start hi => exact .start hi
  | snoc _ hs ih => exact .snoc ih hs.1

/-- `P` has happened in the history, and `Q` not since. -/
inductive Since (P Q : ε → Prop) : List ε → Prop
  | now {h : List ε} {e : ε} : P e → Since P Q (h ++ [e])
  | later {h : List ε} {e : ε} : Since P Q h → ¬Q e → Since P Q (h ++ [e])

theorem not_since_nil {P Q : ε → Prop} : ¬Since P Q [] := by
  intro hs
  generalize hl : ([] : List ε) = l at hs
  cases hs <;> simp at hl

theorem since_snoc {P Q : ε → Prop} {e : ε} :
    Since P Q (h ++ [e]) ↔ P e ∨ (Since P Q h ∧ ¬Q e) := by
  refine ⟨fun hs => ?_, fun hs => hs.elim .now fun ⟨hh, he⟩ => .later hh he⟩
  generalize hl : h ++ [e] = l at hs
  cases hs with
  | now hp =>
    obtain ⟨-, he⟩ := List.append_inj' hl rfl
    exact Or.inl (List.singleton_inj.1 he ▸ hp)
  | later hh hq =>
    obtain ⟨rfl, he⟩ := List.append_inj' hl rfl
    exact Or.inr ⟨hh, List.singleton_inj.1 he ▸ hq⟩

end Steps

end Xv6Plus
