import Mathlib.Algebra.BigOperators.Group.Finset.Basic
import Mathlib.Algebra.BigOperators.Ring.Finset
import Mathlib.Data.Fintype.Basic
import Mathlib.Data.Fintype.BigOperators
import Mathlib.Data.List.FinRange

/-!
# Counting

Sums over a finite type of which one or two terms change, and how many elements have a property
(`howMany`) when that changes for one of them. Counters of a program are kept exact by these laws:
what is added to the counter is what the change adds to the number.
-/

namespace Minix.Lib

variable {α β M : Type*} [Fintype α] [DecidableEq α]

section Sums

variable [AddCommMonoid M] {f g : α → M} {a d : M} {p q : α}

/-- A sum in which one term has changed. -/
theorem sum_change_one (hoff : ∀ x, x ≠ p → f x = g x) (hp : f p + a = g p + d) :
    ∑ x, f x + a = ∑ x, g x + d := by
  have hrest : ∑ x ∈ Finset.univ.erase p, f x = ∑ x ∈ Finset.univ.erase p, g x :=
    Finset.sum_congr rfl fun x hx => hoff x (Finset.ne_of_mem_erase hx)
  calc ∑ x, f x + a = ∑ x ∈ Finset.univ.erase p, f x + (f p + a) := by
        rw [← Finset.sum_erase_add _ _ (Finset.mem_univ p), add_assoc]
    _ = ∑ x ∈ Finset.univ.erase p, g x + (g p + d) := by rw [hrest, hp]
    _ = ∑ x, g x + d := by rw [← add_assoc, Finset.sum_erase_add _ _ (Finset.mem_univ p)]

/-- A sum in which two terms have changed. -/
theorem sum_change_two (hne : q ≠ p) (hoff : ∀ x, x ≠ p → x ≠ q → f x = g x)
    (hpq : f p + f q + a = g p + g q + d) : ∑ x, f x + a = ∑ x, g x + d := by
  -- First the term of `p` moves into what is added, then that of `q` changes.
  have hsplit : ∀ h : α → M, ∑ x, h x = ∑ x, Function.update h p 0 x + h p := by
    intro h
    have := sum_change_one (f := h) (g := Function.update h p 0) (a := 0) (d := h p)
      (fun x hx => (Function.update_of_ne hx _ _).symm) (by rw [Function.update_self]; simp)
    simpa using this
  rw [hsplit f, hsplit g, add_assoc, add_assoc]
  refine sum_change_one (p := q) (fun x hx => ?_) ?_
  · by_cases hxp : x = p
    · rw [hxp, Function.update_self, Function.update_self]
    · rw [Function.update_of_ne hxp, Function.update_of_ne hxp]
      exact hoff x hxp hx
  · rw [Function.update_of_ne hne, Function.update_of_ne hne, ← add_assoc, ← add_assoc,
      add_comm (f q), add_comm (g q)]
    exact hpq

end Sums

/-! ## How many -/

/-- How many elements have the property. -/
def howMany (P : α → Bool) : ℕ := (Finset.univ.filter fun x => P x = true).card

variable {P P' : α → Bool} {p : α}

/-- A number that is one or zero. -/
theorem toNat_eq_ite (b : Bool) : b.toNat = if b = true then 1 else 0 := by
  cases b <;> rfl

omit [DecidableEq α] in
/-- The number as a sum. -/
theorem howMany_eq_sum (P : α → Bool) : howMany P = ∑ x, (P x).toNat := by
  unfold howMany
  rw [Finset.card_filter]
  exact Finset.sum_congr rfl fun x _ => by cases P x <;> rfl

/-- The property changes for one element. -/
theorem howMany_change (P P' : α → Bool) (h : ∀ x ≠ p, P' x = P x) :
    howMany P' + (P p).toNat = howMany P + (P' p).toNat := by
  rw [howMany_eq_sum, howMany_eq_sum]
  exact sum_change_one (fun x hx => congrArg Bool.toNat (h x hx)) (add_comm _ _)

omit [DecidableEq α] in
theorem howMany_congr (h : ∀ x, P' x = P x) : howMany P' = howMany P := by
  rw [funext h]

omit [DecidableEq α] in
/-- Nobody has the property. -/
theorem howMany_eq_zero : howMany P = 0 ↔ ∀ x, P x = false := by
  unfold howMany
  rw [Finset.card_eq_zero, Finset.filter_eq_empty_iff]
  simp

omit [DecidableEq α] in
/-- Somebody has the property. -/
theorem howMany_pos (h : P p = true) : 0 < howMany P :=
  Finset.card_pos.mpr ⟨p, Finset.mem_filter.mpr ⟨Finset.mem_univ p, h⟩⟩

omit [DecidableEq α] in
/-- Pairs are counted row by row. -/
theorem howMany_prod {γ : Type*} [Fintype γ] (P : α × γ → Bool) :
    howMany P = ∑ a, howMany fun c => P (a, c) := by
  rw [howMany_eq_sum, Fintype.sum_prod_type]
  exact Finset.sum_congr rfl fun a _ => (howMany_eq_sum _).symm

/-- Counting along the list of all numbers. -/
theorem howMany_fin {n : ℕ} (P : Fin n → Bool) :
    howMany P = ((List.finRange n).filter P).length := by
  unfold howMany
  rw [← List.toFinset_card_of_nodup ((List.nodup_finRange n).filter _)]
  congr 1
  ext x
  simp

end Minix.Lib
