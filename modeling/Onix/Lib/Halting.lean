import Mathlib.Data.List.Basic
import Mathlib.Tactic

/-! Programs that halt at a failed check. A computation returns in `Except ε`,
and everything a caller needs is how a successful sequence splits into its
parts and what a successful loop has preserved. -/

set_option autoImplicit false

namespace Onix.Lib

variable {ε α β σ : Type}

theorem bind_ok {x : Except ε α} {f : α → Except ε β} {r : β} :
    (x >>= f) = .ok r ↔ ∃ a, x = .ok a ∧ f a = .ok r := by
  cases x with
  | error e => simp [bind, Except.bind]
  | ok a => simp [bind, Except.bind]

@[simp] theorem ok_bind (a : α) (f : α → Except ε β) : ((Except.ok a : Except ε α) >>= f) = f a := rfl

@[simp] theorem error_bind (e : ε) (f : α → Except ε β) :
    ((Except.error e : Except ε α) >>= f) = .error e := rfl

@[simp] theorem pure_ok {a b : α} : (pure a : Except ε α) = .ok b ↔ a = b := by
  simp [pure, Except.pure]

/-! ### Postconditions -/

/-- `x` does not halt for a reason in `bad`, and what it returns satisfies `Q`. -/
structure Meets (bad : ε → Prop) (x : Except ε α) (Q : α → Prop) : Prop where
  result : ∀ a, x = .ok a → Q a
  halt : ∀ e, x = .error e → ¬ bad e

variable {bad : ε → Prop} {Q : α → Prop} {R : β → Prop}

@[simp] theorem meets_ok {a : α} : Meets bad (.ok a) Q ↔ Q a :=
  ⟨fun h => h.result a rfl, fun h => ⟨fun _ he => by cases he; exact h, nofun⟩⟩

@[simp] theorem meets_error {e : ε} : Meets bad (.error e : Except ε α) Q ↔ ¬ bad e :=
  ⟨fun h => h.halt e rfl, fun h => ⟨nofun, fun _ he => by cases he; exact h⟩⟩

theorem Meets.bind {x : Except ε α} {f : α → Except ε β} (hx : Meets bad x Q)
    (hf : ∀ a, Q a → Meets bad (f a) R) : Meets bad (x >>= f) R := by
  cases x with
  | ok a => exact hf a (meets_ok.mp hx)
  | error e => exact meets_error.mpr (meets_error.mp hx)

theorem Meets.imp {Q' : α → Prop} {x : Except ε α} (hx : Meets bad x Q) (h : ∀ a, Q a → Q' a) :
    Meets bad x Q' :=
  ⟨fun a ha => h a (hx.result a ha), hx.halt⟩

theorem Meets.and {Q' : α → Prop} {x : Except ε α} (hx : Meets bad x Q) (hx' : Meets bad x Q') :
    Meets bad x fun a => Q a ∧ Q' a :=
  ⟨fun a ha => ⟨hx.result a ha, hx'.result a ha⟩, hx.halt⟩

theorem Meets.map {x : Except ε α} {f : α → β} (hx : Meets bad x fun a => R (f a)) : Meets bad (x.map f) R := by
  cases x with
  | ok a => exact meets_ok.mpr (hx.result a rfl)
  | error e => exact meets_error.mpr (meets_error.mp hx)

/-- What a computation returns can be named in what follows it. -/
theorem Meets.self {x : Except ε α} (hx : Meets bad x Q) : Meets bad x fun a => x = .ok a :=
  ⟨fun _ h => h, hx.halt⟩

/-- A computation that halts for no reason at all returns. -/
theorem Meets.returns {x : Except ε α} (hx : Meets (fun _ => True) x Q) : ∃ a, x = .ok a ∧ Q a := by
  cases x with
  | ok a => exact ⟨a, rfl, meets_ok.mp hx⟩
  | error e => exact absurd trivial (meets_error.mp hx)

/-- The loop rule: `I done` holds after the elements `done`. -/
theorem Meets.foldlM {f : σ → α → Except ε σ} {l : List α} (I : List α → σ → Prop) {s : σ}
    (h0 : I [] s) (hstep : ∀ before x after, l = before ++ x :: after →
      ∀ s, I before s → Meets bad (f s x) (I (before ++ [x]))) : Meets bad (l.foldlM f s) (I l) := by
  have main : ∀ after before, l = before ++ after → ∀ s, I before s →
      Meets bad (after.foldlM f s) (I l) := by
    intro after
    induction after with
    | nil =>
      intro before hl s hs
      rw [List.append_nil] at hl
      rw [hl]
      exact meets_ok.mpr hs
    | cons x after ih =>
      intro before hl s hs
      rw [List.foldlM_cons]
      exact (hstep before x after hl s hs).bind fun s' hs' => ih (before ++ [x]) (by simp [hl]) s' hs'
  exact main l [] rfl s h0

end Onix.Lib
