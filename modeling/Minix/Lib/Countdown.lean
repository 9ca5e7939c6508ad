import Mathlib.Data.Nat.Notation
import Mathlib.Data.List.Basic

/-!
# Machines that come to a stop

A machine takes a step for everything that happens. If each step makes a measure of its state
smaller or takes it to a final state, it is in a final state after as many steps as the measure
says.
-/

namespace Minix.Lib

variable {σ ε : Type*} {step : σ → ε → σ} {live final : σ → Prop} {measure : σ → ℕ}
  {happens : ε → Prop}

/-- The measure pays for every event that has happened. -/
theorem foldl_countdown
    (hstep : ∀ s e, happens e → live s →
      (live (step s e) ∧ measure (step s e) < measure s) ∨ final (step s e))
    (hfinal : ∀ s e, final s → final (step s e)) (events : List ε) {s : σ}
    (hall : ∀ e ∈ events, happens e) (hs : live s) :
    (live (events.foldl step s) ∧ measure (events.foldl step s) + events.length ≤ measure s) ∨
      final (events.foldl step s) := by
  have hstay : ∀ (es : List ε) (t : σ), final t → final (es.foldl step t) := by
    intro es
    induction es with
    | nil => exact fun t ht => ht
    | cons e es ih => exact fun t ht => ih _ (hfinal t e ht)
  induction events generalizing s with
  | nil => exact .inl ⟨hs, Nat.le_refl _⟩
  | cons e es ih =>
    rw [List.foldl_cons, List.length_cons]
    rcases hstep s e (hall e List.mem_cons_self) hs with ⟨hlive, hless⟩ | hend
    · rcases ih (fun e he => hall e (List.mem_cons_of_mem _ he)) hlive with ⟨h, hsum⟩ | h
      · exact .inl ⟨h, by omega⟩
      · exact .inr h
    · exact .inr (hstay es _ hend)

/-- After enough events there is a final state. -/
theorem foldl_final
    (hstep : ∀ s e, happens e → live s →
      (live (step s e) ∧ measure (step s e) < measure s) ∨ final (step s e))
    (hfinal : ∀ s e, final s → final (step s e)) {events : List ε} {s : σ}
    (hall : ∀ e ∈ events, happens e) (hs : live s) (h : measure s < events.length) :
    final (events.foldl step s) := by
  rcases foldl_countdown hstep hfinal events hall hs with ⟨-, hsum⟩ | hend
  · omega
  · exact hend

end Minix.Lib
