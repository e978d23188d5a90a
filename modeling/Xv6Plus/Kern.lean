import Mathlib

/-!
# Code that can panic

A C function that reads and writes a global state and may call `panic` is a
`Kern σ α` : from a state it returns a value and the next state, or the text of the
panic it stopped in. `wp x Q E s` says what running `x` from `s` leads to : a return
in `Q`, or a panic whose text is in `E`. With `E` empty it says that `x` returns. The
rules below follow the shape of a program, so that a proof about a function uses the
`wp` of the functions it calls and never their bodies.
-/

namespace Xv6Plus

/-- Code over the state `σ` that returns an `α` or stops in a panic. -/
abbrev Kern (σ : Type) := StateT σ (Except String)

section Wp

variable {σ α β : Type} {Q Q' : α → σ → Prop} {E E' : String → Prop} {s : σ}

/-- Running `x` from `s` returns in `Q`, or panics with a text in `E`. -/
def wp (x : Kern σ α) (Q : α → σ → Prop) (E : String → Prop) (s : σ) : Prop :=
  match x.run s with
  | .ok (a, s') => Q a s'
  | .error e => E e

/-- No panic at all. -/
abbrev noPanic : String → Prop := fun _ => False

theorem wp_iff_of_ok {x : Kern σ α} {a : α} {s' : σ} (h : x.run s = .ok (a, s')) :
    wp x Q E s ↔ Q a s' := by
  simp [wp, h]

theorem wp_iff_of_error {x : Kern σ α} {e : String} (h : x.run s = .error e) :
    wp x Q E s ↔ E e := by
  simp [wp, h]

/-- Without panics, `wp` is the existence of the returned value and state. -/
theorem wp_noPanic_iff {x : Kern σ α} :
    wp x Q noPanic s ↔ ∃ a s', x.run s = .ok (a, s') ∧ Q a s' := by
  unfold wp
  split
  · next a s' h =>
    constructor
    · intro hq
      exact ⟨a, s', h, hq⟩
    · rintro ⟨b, t, hb, hq⟩
      rw [h] at hb
      cases hb
      exact hq
  · next e h => simp [h]

/-- What a run that returned has established. -/
theorem wp_of_run {x : Kern σ α} (hw : wp x Q E s) {a : α} {s' : σ}
    (h : x.run s = .ok (a, s')) : Q a s' :=
  (wp_iff_of_ok h).1 hw

/-- What a run that panicked has established. -/
theorem wp_of_panic {x : Kern σ α} (hw : wp x Q E s) {e : String}
    (h : x.run s = .error e) : E e :=
  (wp_iff_of_error h).1 hw

theorem wp_mono {x : Kern σ α} (hw : wp x Q E s) (hQ : ∀ a s', Q a s' → Q' a s')
    (hE : ∀ e, E e → E' e) : wp x Q' E' s := by
  unfold wp at hw ⊢
  split at hw
  · exact hQ _ _ hw
  · exact hE _ hw

/-- A weaker postcondition, with the same panics. -/
theorem wp_post {x : Kern σ α} (hw : wp x Q E s) (hQ : ∀ a s', Q a s' → Q' a s') :
    wp x Q' E s :=
  wp_mono hw hQ fun _ h => h

/-- Two facts about one run. -/
theorem wp_and {x : Kern σ α} (hw : wp x Q E s) (hw' : wp x Q' E' s) :
    wp x (fun a t => Q a t ∧ Q' a t) E s := by
  unfold wp at hw hw' ⊢
  split at hw
  · next h =>
    rw [h] at hw'
    exact ⟨hw, hw'⟩
  · exact hw

/-- Nothing is asked of the run. -/
theorem wp_trivial (x : Kern σ α) : wp x (fun _ _ => True) (fun _ => True) s := by
  unfold wp
  split <;> trivial

@[simp] theorem wp_pure (a : α) : wp (pure a : Kern σ α) Q E s ↔ Q a s :=
  Iff.rfl

@[simp] theorem wp_bind (x : Kern σ α) (f : α → Kern σ β) {Q : β → σ → Prop} :
    wp (x >>= f) Q E s ↔ wp x (fun a s' => wp (f a) Q E s') E s := by
  cases h : x.run s with
  | error e =>
    rw [wp_iff_of_error h, wp_iff_of_error]
    simp [StateT.run_bind, h]
    rfl
  | ok p =>
    obtain ⟨a, s'⟩ := p
    rw [wp_iff_of_ok h]
    unfold wp
    rw [StateT.run_bind, h]
    rfl

@[simp] theorem wp_throw (e : String) : wp (throw e : Kern σ α) Q E s ↔ E e :=
  Iff.rfl

@[simp] theorem wp_get {Q : σ → σ → Prop} : wp (get : Kern σ σ) Q E s ↔ Q s s :=
  Iff.rfl

@[simp] theorem wp_modify (f : σ → σ) {Q : PUnit → σ → Prop} :
    wp (modify f : Kern σ PUnit) Q E s ↔ Q ⟨⟩ (f s) :=
  Iff.rfl

@[simp] theorem wp_ite {c : Prop} [Decidable c] (x y : Kern σ α) :
    wp (if c then x else y) Q E s ↔ (c → wp x Q E s) ∧ (¬c → wp y Q E s) := by
  split_ifs with h <;> simp [h]

/-- Code over a part of the state. -/
def zoom {τ : Type} (get : σ → τ) (put : τ → σ → σ) (x : Kern τ α) : Kern σ α := fun s =>
  match x.run (get s) with
  | .ok (a, t) => .ok (a, put t s)
  | .error e => .error e

theorem zoom_ok {τ : Type} {get : σ → τ} {put : τ → σ → σ} {x : Kern τ α} {a : α} {t : τ}
    (h : x.run (get s) = .ok (a, t)) : (zoom get put x).run s = .ok (a, put t s) := by
  have hrun : (zoom get put x).run s =
      match x.run (get s) with
      | .ok (a, t) => .ok (a, put t s)
      | .error e => .error e := rfl
  rw [hrun, h]

@[simp] theorem wp_zoom {τ : Type} (get : σ → τ) (put : τ → σ → σ) (x : Kern τ α) :
    wp (zoom get put x) Q E s ↔ wp x (fun a t => Q a (put t s)) E (get s) := by
  have hrun : (zoom get put x).run s =
      match x.run (get s) with
      | .ok (a, t) => .ok (a, put t s)
      | .error e => .error e := rfl
  cases h : x.run (get s) with
  | error e =>
    rw [h] at hrun
    rw [wp_iff_of_error h, wp_iff_of_error hrun]
  | ok p =>
    rw [h] at hrun
    rw [wp_iff_of_ok h, wp_iff_of_ok hrun]

end Wp

-- from here on programs are taken apart by the rules above, never by running them
attribute [irreducible] wp

end Xv6Plus
