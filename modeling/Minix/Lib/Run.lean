import Mathlib.Data.List.Basic
import Mathlib.Logic.Function.Iterate

/-!
# Runs of a labelled step relation

`Run step s as s'` takes the actions `as` in order, from `s` to `s'`. An invariant is proved once
per action (`Run.invariant`, `Reachable.invariant`); a property of the whole history goes through
the last action of the run, since a run grows at its end.
-/

namespace Minix.Lib

variable {σ α : Type*}

/-- A run of `step` under a list of actions, the last of them taken last. -/
inductive Run (step : σ → α → σ → Prop) (s : σ) : List α → σ → Prop
  | nil : Run step s [] s
  | snoc {as : List α} {a : α} {s' s'' : σ} :
      Run step s as s' → step s' a s'' → Run step s (as ++ [a]) s''

/-- The states that a run from an initial state ends in. -/
def Reachable (init : σ → Prop) (step : σ → α → σ → Prop) (s : σ) : Prop :=
  ∃ s₀ as, init s₀ ∧ Run step s₀ as s

variable {step : σ → α → σ → Prop} {init : σ → Prop} {s s' s'' : σ} {as bs : List α} {a : α}

/-- What every action preserves, a run preserves. -/
theorem Run.invariant {P : σ → Prop} (h : Run step s as s') (hs : P s)
    (hstep : ∀ s a s', P s → step s a s' → P s') : P s' := by
  induction h with
  | nil => exact hs
  | snoc _ hst ih => exact hstep _ _ _ ih hst

/-- A run is one of any relation that has its actions. -/
theorem Run.mono {step' : σ → α → σ → Prop} (h : Run step s as s')
    (hstep : ∀ s a s', step s a s' → step' s a s') : Run step' s as s' := by
  induction h with
  | nil => exact .nil
  | snoc _ hst ih => exact ih.snoc (hstep _ _ _ hst)

/-- One action is a run. -/
theorem Run.single (h : step s a s') : Run step s [a] s' := by
  simpa using Run.snoc Run.nil h

/-- A run ends with its last action. -/
theorem Run.of_snoc (h : Run step s (as ++ [a]) s'') : ∃ s', Run step s as s' ∧ step s' a s'' := by
  generalize has : as ++ [a] = bs at h
  cases h with
  | nil => simp at has
  | @snoc bs b t _ hrun hst =>
    obtain ⟨rfl, hb⟩ := List.append_inj' has rfl
    cases hb
    exact ⟨t, hrun, hst⟩

/-- A run of one action. -/
theorem Run.of_single (h : Run step s [a] s') : step s a s' := by
  have hsnoc : Run step s ([] ++ [a]) s' := h
  obtain ⟨t, hrun, hst⟩ := hsnoc.of_snoc
  generalize hnil : ([] : List α) = cs at hrun
  cases hrun with
  | nil => exact hst
  | snoc => simp at hnil

/-- Where each action leads to one state, so does a run. -/
theorem Run.unique (hdet : ∀ s a s' s'', step s a s' → step s a s'' → s' = s'')
    (h : Run step s as s') (h' : Run step s as s'') : s' = s'' := by
  induction h generalizing s'' with
  | nil =>
    generalize hnil : ([] : List α) = cs at h'
    cases h' with
    | nil => rfl
    | snoc => simp at hnil
  | snoc _ hst ih =>
    obtain ⟨t, hrun, hst'⟩ := h'.of_snoc
    obtain rfl := ih hrun
    exact hdet _ _ _ _ hst hst'

/-- Two runs in a row are a run. -/
theorem Run.append (h : Run step s as s') (h' : Run step s' bs s'') :
    Run step s (as ++ bs) s'' := by
  induction h' with
  | nil => simpa using h
  | snoc _ hst ih => rw [← List.append_assoc]; exact ih.snoc hst

/-- A function that is an action, taken several times. -/
theorem Run.iterate {f : σ → σ} {n : ℕ} (h : ∀ i < n, ∃ a, step (f^[i] s) a (f^[i + 1] s)) :
    ∃ as, Run step s as (f^[n] s) := by
  induction n with
  | zero => exact ⟨[], .nil⟩
  | succ n ih =>
    obtain ⟨as, hr⟩ := ih fun i hi => h i (Nat.lt_succ_of_lt hi)
    obtain ⟨a, hst⟩ := h n (Nat.lt_succ_self n)
    exact ⟨as ++ [a], hr.snoc hst⟩

/-- Initial states are reachable. -/
theorem Reachable.of_init (h : init s) : Reachable init step s := ⟨s, [], h, Run.nil⟩

/-- An action from a reachable state leads to one. -/
theorem Reachable.of_step (h : Reachable init step s) (hst : step s a s') :
    Reachable init step s' := by
  obtain ⟨s₀, as, h₀, hr⟩ := h
  exact ⟨s₀, as ++ [a], h₀, hr.snoc hst⟩

/-- A run from a reachable state leads to one. -/
theorem Reachable.run (h : Reachable init step s) (hr : Run step s as s') :
    Reachable init step s' := by
  obtain ⟨s₀, bs, h₀, hr₀⟩ := h
  exact ⟨s₀, bs ++ as, h₀, hr₀.append hr⟩

/-- What holds initially and is preserved by every action holds of every reachable state. -/
theorem Reachable.invariant {P : σ → Prop} (h : Reachable init step s)
    (hinit : ∀ s, init s → P s) (hstep : ∀ s a s', P s → step s a s' → P s') : P s := by
  obtain ⟨s₀, as, h₀, hr⟩ := h
  exact hr.invariant (hinit s₀ h₀) hstep

end Minix.Lib
