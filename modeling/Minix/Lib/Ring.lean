import Mathlib.Data.List.Range
import Mathlib.Data.Nat.ModEq
import Mathlib.Logic.Function.Basic

/-!
# A queue in a ring of cells

A queue takes cells of a ring from its tail on, and goes on at the first cell behind the last one.
`ringList` is what is in a number of cells. What is written behind them is appended
(`ringList_push`), what is read at the tail is in front (`ringList_add`, `ringList_pop`), and the
last cell can be taken back (`ringList_succ`). When the ring is full, the first cell is written over
(`ringList_cover`).
-/

namespace Minix.Lib

variable {α : Type*}

/-- What is in some cells of a ring of `N` cells, from `tail` on. -/
def ringList (N : ℕ) (cells : ℕ → α) (tail n : ℕ) : List α :=
  (List.range n).map fun i => cells ((tail + i) % N)

variable {N tail n m : ℕ} {cells : ℕ → α} {a : α}

@[simp]
theorem ringList_zero : ringList N cells tail 0 = [] := rfl

@[simp]
theorem length_ringList : (ringList N cells tail n).length = n := by
  simp [ringList]

/-- One cell more. -/
theorem ringList_succ :
    ringList N cells tail (n + 1) = ringList N cells tail n ++ [cells ((tail + n) % N)] := by
  simp [ringList, List.range_succ]

/-- The first cells, and those behind them. -/
theorem ringList_add :
    ringList N cells tail (n + m) =
      ringList N cells tail n ++ ringList N cells ((tail + n) % N) m := by
  unfold ringList
  rw [List.range_add, List.map_append, List.map_map]
  congr 1
  refine List.map_congr_left fun i _ => ?_
  show cells ((tail + (n + i)) % N) = cells (((tail + n) % N + i) % N)
  rw [Nat.mod_add_mod, Nat.add_assoc]

/-- The first cell, and the others. -/
theorem ringList_pop (h : tail < N) :
    ringList N cells tail (n + 1) = cells tail :: ringList N cells ((tail + 1) % N) n := by
  rw [Nat.add_comm n 1, ringList_add, ringList_succ, ringList_zero, Nat.add_zero,
    Nat.mod_eq_of_lt h, List.nil_append, List.singleton_append]

/-- Two places of a ring that are less than a round apart are distinct. -/
theorem ring_ne (hm : m < n) (hn : n < N) : (tail + m) % N ≠ (tail + n) % N := by
  intro h
  have hmod : m % N = n % N := Nat.ModEq.add_left_cancel' tail h
  rw [Nat.mod_eq_of_lt (hm.trans hn), Nat.mod_eq_of_lt hn] at hmod
  exact absurd hmod (Nat.ne_of_lt hm)

/-- What is written behind the cells is appended, if there is room for it. -/
theorem ringList_push (hn : n < N) :
    ringList N (Function.update cells ((tail + n) % N) a) tail (n + 1) =
      ringList N cells tail n ++ [a] := by
  rw [ringList_succ, Function.update_self]
  congr 1
  refine List.map_congr_left fun i hi => ?_
  exact Function.update_of_ne (ring_ne (List.mem_range.mp hi) hn) _ _

/-- What is written when the ring is full is written over the first element, and is also the last
one. -/
theorem ringList_cover (h : tail < N) :
    ringList N (Function.update cells tail a) tail (N + 1) =
      a :: ringList N cells ((tail + 1) % N) (N - 1) ++ [a] := by
  have hN : N = N - 1 + 1 := by omega
  have hround : ((tail + 1) % N + (N - 1)) % N = tail := by
    rw [Nat.mod_add_mod, Nat.add_assoc, Nat.add_comm 1, ← hN, Nat.add_mod_right,
      Nat.mod_eq_of_lt h]
  rw [ringList_pop h, Function.update_self, List.cons_append]
  congr 1
  have hsucc : ringList N (Function.update cells tail a) ((tail + 1) % N) N =
      ringList N (Function.update cells tail a) ((tail + 1) % N) (N - 1 + 1) := by rw [← hN]
  rw [hsucc, ringList_succ, hround, Function.update_self]
  congr 1
  refine List.map_congr_left fun i hi => ?_
  have hi' : i < N - 1 := List.mem_range.mp hi
  refine Function.update_of_ne ?_ _ _
  intro heq
  exact ring_ne hi' (by omega) (heq.trans hround.symm)

end Minix.Lib
