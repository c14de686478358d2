import Onix.Lib.Halting
import Onix.Lib.Transition

/-! One program that follows another: it halts where the other halts, and where the other
returns it returns something related. A system whose steps follow those of another has
the same runs. -/

set_option autoImplicit false

namespace Onix.Lib

variable {ε ε' α β α' β' σ τ ι : Type} {err : ε → ε'} {R : α → β → Prop} {R' : α' → β' → Prop}

def Follows (err : ε → ε') (R : α → β → Prop) : Except ε' α → Except ε β → Prop
  | .ok a, .ok b => R a b
  | .error e, .error e' => e = err e'
  | _, _ => False

@[simp] theorem follows_ok {a : α} {b : β} : Follows err R (.ok a) (.ok b) ↔ R a b := Iff.rfl

@[simp] theorem follows_error {e : ε'} {e' : ε} :
    Follows err R (.error e : Except ε' α) (.error e' : Except ε β) ↔ e = err e' := Iff.rfl

theorem Follows.bind {x : Except ε' α} {y : Except ε β} {f : α → Except ε' α'} {g : β → Except ε β'}
    (h : Follows err R x y) (hfg : ∀ a b, y = .ok b → R a b → Follows err R' (f a) (g b)) :
    Follows err R' (x >>= f) (y >>= g) := by
  cases x with
  | ok a =>
    cases y with
    | ok b => exact hfg a b rfl h
    | error e => exact h.elim
  | error e =>
    cases y with
    | ok b => exact h.elim
    | error e' => exact h

theorem Follows.imp {S : α → β → Prop} {x : Except ε' α} {y : Except ε β} (h : Follows err R x y)
    (hs : ∀ a b, y = .ok b → R a b → S a b) : Follows err S x y := by
  cases x with
  | ok a =>
    cases y with
    | ok b => exact hs a b rfl h
    | error e => exact h.elim
  | error e =>
    cases y with
    | ok b => exact h.elim
    | error e' => exact h

/-- What the one returns, the other returns too, up to the relation. -/
theorem Follows.ok_iff {x : Except ε' α} {y : Except ε β} (h : Follows err R x y) :
    (∀ a, x = .ok a → ∃ b, y = .ok b ∧ R a b) ∧ ∀ b, y = .ok b → ∃ a, x = .ok a ∧ R a b := by
  cases x with
  | ok a =>
    cases y with
    | ok b =>
      refine ⟨fun a' ha => ⟨b, rfl, ?_⟩, fun b' hb => ⟨a, rfl, ?_⟩⟩
      · cases ha
        exact h
      · cases hb
        exact h
    | error e => exact h.elim
  | error e =>
    cases y with
    | ok b => exact h.elim
    | error e' =>
      constructor
      · intro a ha
        cases ha
      · intro b hb
        cases hb

/-- The loop rule: the two loops run over the same list, and `I done` relates their states after `done`. -/
theorem Follows.foldlM {f : σ → ι → Except ε' σ} {g : τ → ι → Except ε τ} {l : List ι}
    (I : List ι → σ → τ → Prop) {s : σ} {t : τ} (h0 : I [] s t)
    (hstep : ∀ before x after, l = before ++ x :: after →
      ∀ s t, I before s t → Follows err (I (before ++ [x])) (f s x) (g t x)) :
    Follows err (I l) (l.foldlM f s) (l.foldlM g t) := by
  have main : ∀ after before, l = before ++ after → ∀ s t, I before s t →
      Follows err (I l) (after.foldlM f s) (after.foldlM g t) := by
    intro after
    induction after with
    | nil =>
      intro before hl s t hs
      rw [List.append_nil] at hl
      rw [hl]
      exact hs
    | cons x after ih =>
      intro before hl s t hs
      rw [List.foldlM_cons, List.foldlM_cons]
      exact (hstep before x after hl s t hs).bind fun s' t' _ hs' => ih (before ++ [x]) (by simp [hl]) s' t' hs'
  exact main l [] rfl s t h0

/-- Related systems whose steps follow each other have the same runs, up to a name for each event. -/
theorem Run.follow {κ : Type} {ρ : σ → τ → Prop} {step : σ → ι → σ → Prop} {step' : τ → κ → τ → Prop} (name : ι → κ)
    {s₀ : σ} {t₀ : τ} (h0 : ρ s₀ t₀)
    (hstep : ∀ s t e s', ρ s t → step s e s' → ∃ t', step' t (name e) t' ∧ ρ s' t') {es : List ι} {s : σ}
    (h : Run (· = s₀) step es s) : ∃ t, Run (· = t₀) step' (es.map name) t ∧ ρ s t := by
  induction h with
  | nil hs => exact ⟨t₀, .nil rfl, hs ▸ h0⟩
  | snoc _ hs ih =>
    obtain ⟨t, hr, hst⟩ := ih
    obtain ⟨t', hs', hst'⟩ := hstep _ _ _ _ hst hs
    rw [List.map_append]
    exact ⟨t', .snoc hr hs', hst'⟩

end Onix.Lib
