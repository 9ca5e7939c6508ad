import Mathlib.Data.Nat.Digits.Lemmas

/-!
# Numerals with places

A number in a base as the list of its digits, the one of the highest place first (`places`), and the
number that such a list stands for (`valueOf`). The number 0 has one digit, and no other numeral
begins with a 0.
-/

namespace Minix.Lib

/-- What digits stand for. -/
def valueOf (radix : ℕ) (ds : List ℕ) : ℕ := ds.foldl (fun n d => n * radix + d) 0

/-- The digits of a number. -/
def places (radix n : ℕ) : List ℕ := if n = 0 then [0] else (Nat.digits radix n).reverse

variable {radix n k d : ℕ} {ds : List ℕ}

theorem valueOf_append_digit (radix : ℕ) (ds : List ℕ) (d : ℕ) :
    valueOf radix (ds ++ [d]) = valueOf radix ds * radix + d := by
  rw [valueOf, List.foldl_append]
  rfl

/-- Zeros in front do not count. -/
theorem valueOf_zeros_append (radix k : ℕ) (ds : List ℕ) :
    valueOf radix (List.replicate k 0 ++ ds) = valueOf radix ds := by
  have hzeros : (List.replicate k 0).foldl (fun n d => n * radix + d) 0 = 0 := by
    induction k with
    | zero => rfl
    | succ k ih => rwa [List.replicate_succ, List.foldl_cons, Nat.zero_mul]
  rw [valueOf, List.foldl_append, hzeros]
  rfl

/-- Each zero behind counts as a place. -/
theorem valueOf_append_zeros (radix k : ℕ) (ds : List ℕ) :
    valueOf radix (ds ++ List.replicate k 0) = valueOf radix ds * radix ^ k := by
  induction k with
  | zero => rw [List.replicate_zero, List.append_nil, pow_zero, Nat.mul_one]
  | succ k ih =>
    rw [List.replicate_succ', ← List.append_assoc, valueOf_append_digit, ih, pow_succ,
      Nat.mul_assoc, Nat.add_zero]

/-- A number below the base is its own digit. -/
theorem places_of_lt (h : n < radix) : places radix n = [n] := by
  rw [places]
  split_ifs with h0
  · rw [h0]
  · rw [Nat.digits_of_lt radix n h0 h]
    rfl

/-- The last digit is the remainder, and the digits before it are those of the quotient. -/
theorem places_step (hr : 1 < radix) (h : radix ≤ n) :
    places radix n = places radix (n / radix) ++ [n % radix] := by
  have hpos : 0 < n := by omega
  have hdiv : n / radix ≠ 0 := Nat.ne_of_gt (Nat.div_pos h (by omega))
  rw [places, if_neg (by omega), places, if_neg hdiv, Nat.digits_def' hr hpos, List.reverse_cons]

/-- A number is what its digits stand for. -/
theorem valueOf_places (hr : 1 < radix) (n : ℕ) : valueOf radix (places radix n) = n := by
  induction n using Nat.strong_induction_on with
  | _ n ih =>
    rcases lt_or_ge n radix with hlt | hge
    · rw [places_of_lt hlt, valueOf, List.foldl_cons, List.foldl_nil, Nat.zero_mul, Nat.zero_add]
    · have hless : n / radix < n := Nat.div_lt_self (by omega) hr
      rw [places_step hr hge, valueOf_append_digit, ih _ hless]
      exact Nat.div_add_mod' n radix

theorem lt_of_mem_places (hr : 1 < radix) (h : d ∈ places radix n) : d < radix := by
  rw [places] at h
  split_ifs at h with h0
  · rw [List.mem_singleton.mp h]
    omega
  · exact Nat.digits_lt_base hr (List.mem_reverse.mp h)

theorem places_ne_nil (radix n : ℕ) : places radix n ≠ [] := by
  rw [places]
  split_ifs with h0
  · exact List.cons_ne_nil 0 []
  · exact fun h => h0 ((Nat.digits_eq_nil_iff_eq_zero).mp (List.reverse_eq_nil_iff.mp h))

/-- A number below a power of the base has no more digits than that. -/
theorem places_length_le (hr : 1 < radix) (hk : 0 < k) (h : n < radix ^ k) :
    (places radix n).length ≤ k := by
  rw [places]
  split_ifs
  · exact hk
  · rw [List.length_reverse]
    exact (Nat.digits_length_le_iff hr n).mpr h

end Minix.Lib
