import Mathlib.Data.List.Basic
import Mathlib.Tactic

/-! Labelled transition systems and their finite runs. A safety property is an
invariant of the step relation, and a property that holds only as long as the
steps meet a condition is an invariant of the restricted step relation. -/

set_option autoImplicit false

namespace Onix.Lib

variable {σ ε : Type*}

/-- The runs from a state satisfying `init`, with the events they performed. -/
inductive Run (init : σ → Prop) (step : σ → ε → σ → Prop) : List ε → σ → Prop
  | nil {s : σ} : init s → Run init step [] s
  | snoc {es : List ε} {s s' : σ} {e : ε} :
      Run init step es s → step s e s' → Run init step (es ++ [e]) s'

def Reachable (init : σ → Prop) (step : σ → ε → σ → Prop) (s : σ) : Prop :=
  ∃ es, Run init step es s

/-- The steps whose pre-state and event meet `ok`. -/
def Restrict (ok : σ → ε → Prop) (step : σ → ε → σ → Prop) : σ → ε → σ → Prop :=
  fun s e s' => ok s e ∧ step s e s'

theorem Run.invariant {init : σ → Prop} {step : σ → ε → σ → Prop} {I : σ → Prop}
    (h0 : ∀ s, init s → I s) (hstep : ∀ s e s', I s → step s e s' → I s') :
    ∀ es s, Run init step es s → I s := by
  intro es s h
  induction h with
  | nil hi => exact h0 _ hi
  | snoc _ hs ih => exact hstep _ _ _ ih hs

/-- An invariant that may speak of the events already performed. -/
theorem Run.traceInvariant {init : σ → Prop} {step : σ → ε → σ → Prop} {I : List ε → σ → Prop}
    (h0 : ∀ s, init s → I [] s)
    (hstep : ∀ es s e s', Run init step es s → I es s → step s e s' → I (es ++ [e]) s') :
    ∀ es s, Run init step es s → I es s := by
  intro es s h
  induction h with
  | nil hi => exact h0 _ hi
  | snoc hr hs ih => exact hstep _ _ _ _ hr ih hs

theorem Reachable.invariant {init : σ → Prop} {step : σ → ε → σ → Prop} {I : σ → Prop}
    (h0 : ∀ s, init s → I s) (hstep : ∀ s e s', I s → step s e s' → I s')
    {s : σ} (h : Reachable init step s) : I s := by
  obtain ⟨es, hr⟩ := h
  exact Run.invariant h0 hstep es s hr

theorem Run.of_restrict {init : σ → Prop} {step : σ → ε → σ → Prop} {ok : σ → ε → Prop}
    {es : List ε} {s : σ} (h : Run init (Restrict ok step) es s) : Run init step es s := by
  induction h with
  | nil hi => exact .nil hi
  | snoc _ hs ih => exact .snoc ih hs.2

/-- A run goes on from the state it has reached. -/
theorem Run.append {init : σ → Prop} {step : σ → ε → σ → Prop} {es es' : List ε} {s s' : σ}
    (h : Run init step es s) (h' : Run (· = s) step es' s') : Run init step (es ++ es') s' := by
  induction h' with
  | nil hs => simpa [hs] using h
  | snoc _ hs ih =>
    rw [← List.append_assoc]
    exact .snoc ih hs

theorem Run.start {init : σ → Prop} {step : σ → ε → σ → Prop} {es : List ε} {s : σ} (h : Run init step es s) :
    ∃ s₀, init s₀ ∧ Run (· = s₀) step es s := by
  induction h with
  | nil h => exact ⟨_, h, .nil rfl⟩
  | snoc _ hs ih =>
    obtain ⟨s₀, hi, hr⟩ := ih
    exact ⟨s₀, hi, .snoc hr hs⟩

/-- Performs a list of inputs with an executable step, and collects the events. -/
def replay {ι : Type*} (exec : σ → ι → Option (ε × σ)) : σ → List ι → Option (List ε × σ)
  | s, [] => some ([], s)
  | s, i :: is =>
    match exec s i with
    | none => none
    | some (e, s') => (replay exec s' is).map fun r => (e :: r.1, r.2)

theorem Run.replay {ι : Type*} {init : σ → Prop} {step : σ → ε → σ → Prop}
    {exec : σ → ι → Option (ε × σ)} (hexec : ∀ s i e s', exec s i = some (e, s') → step s e s') :
    ∀ (is : List ι) (s : σ) (before es : List ε) (t : σ), Run init step before s →
      Lib.replay exec s is = some (es, t) → Run init step (before ++ es) t
  | [], s, before, es, t, hr, h => by
    cases h
    simpa using hr
  | i :: is, s, before, es, t, hr, h => by
    rw [Lib.replay] at h
    split at h
    · cases h
    · rename_i e s' he
      obtain ⟨⟨es', t'⟩, hes, heq⟩ := Option.map_eq_some_iff.mp h
      cases heq
      have := Run.replay hexec is s' (before ++ [e]) es' t' (.snoc hr (hexec _ _ _ _ he)) hes
      simpa using this

end Onix.Lib
