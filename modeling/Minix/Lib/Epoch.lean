import Mathlib.Data.List.Infix
import Mathlib.Data.List.TakeWhile

/-!
# Events since a reset

A log of events, newest first. `times reset e log` is how often `e` happened since the last `reset`,
and `OncePer reset e log` says that it never happened twice with no `reset` in between. The log
grows by one event at a time, and `oncePer_cons` says what is to be shown of it.
-/

namespace Minix.Lib

variable {ε : Type*} [DecidableEq ε] {reset e x : ε} {l log : List ε}

/-- How often an event happened since the last reset. -/
def times (reset e : ε) (log : List ε) : ℕ := (log.takeWhile (· != reset)).count e

/-- In no stretch without a reset does an event happen twice. -/
def OncePer (reset e : ε) (log : List ε) : Prop :=
  ∀ l₁ l l₂, log = l₁ ++ l ++ l₂ → reset ∉ l → l.count e ≤ 1

@[simp]
theorem times_nil : times reset e [] = 0 := rfl

/-- The reset begins a new count. -/
@[simp]
theorem times_reset : times reset e (reset :: log) = 0 := by
  simp [times]

/-- The event counts. -/
theorem times_event (h : e ≠ reset) : times reset e (e :: log) = times reset e log + 1 := by
  simp [times, h]

/-- Other events do not count. -/
theorem times_other (hr : x ≠ reset) (he : x ≠ e) : times reset e (x :: log) = times reset e log := by
  simp [times, hr, he]

/-- Without a reset the count does not fall. -/
theorem times_le_cons (hr : x ≠ reset) : times reset e log ≤ times reset e (x :: log) := by
  by_cases he : x = e
  · subst he
    rw [times_event hr]
    exact Nat.le_succ _
  · rw [times_other hr he]

/-- A stretch of no reset at the new end of the log is within the current count. -/
theorem count_le_times (h : reset ∉ l) : l.count e ≤ times reset e (l ++ log) := by
  have hl : ∀ y ∈ l, (y != reset) = true := by
    intro y hy
    rw [bne_iff_ne]
    exact fun h' => h (h' ▸ hy)
  unfold times
  rw [List.takeWhile_append_of_pos hl, List.count_append]
  exact Nat.le_add_right _ _

/-- The current count is that of a stretch of no reset. -/
theorem OncePer.times_le (h : OncePer reset e log) : times reset e log ≤ 1 := by
  refine h [] _ (log.dropWhile (· != reset)) ?_ fun hm => ?_
  · rw [List.nil_append, List.takeWhile_append_dropWhile]
  · have := List.mem_takeWhile_imp hm
    simp at this

theorem oncePer_nil : OncePer reset e [] := by
  intro l₁ l l₂ h _
  have hl : l = [] := by simp_all
  simp [hl]

/-- What happened earlier did not happen twice either. -/
theorem OncePer.of_suffix (h : OncePer reset e log) (hl : l <:+ log) : OncePer reset e l := by
  obtain ⟨m, rfl⟩ := hl
  intro l₁ l' l₂ hsplit hno
  exact h (m ++ l₁) l' l₂ (by simp [hsplit]) hno

/-- With a new event, the count is what is to be watched. -/
theorem oncePer_cons :
    OncePer reset e (x :: log) ↔ times reset e (x :: log) ≤ 1 ∧ OncePer reset e log := by
  constructor
  · exact fun h => ⟨h.times_le, h.of_suffix (List.suffix_cons x log)⟩
  · rintro ⟨hx, h⟩ l₁ l l₂ hsplit hno
    cases l₁ with
    | nil =>
      rw [List.nil_append] at hsplit
      rw [hsplit] at hx
      exact (count_le_times hno).trans hx
    | cons y l₁ =>
      rw [List.cons_append, List.cons_append, List.cons.injEq] at hsplit
      exact h l₁ l l₂ hsplit.2 hno

end Minix.Lib
