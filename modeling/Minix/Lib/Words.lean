import Mathlib.Algebra.Order.Ring.Int

/-!
# Machine words as integers

What is kept of an integer in a word of 16 or 32 bits, with a sign (`int16`, `long32`) or without
one (`uint16`, `ulong32`). An integer in the range of the word is kept as it is.
-/

namespace Minix.Lib

/-- A signed word of 16 bits. -/
def int16 (x : ℤ) : ℤ := x.bmod (2 ^ 16)

/-- A signed word of 32 bits. -/
def long32 (x : ℤ) : ℤ := x.bmod (2 ^ 32)

/-- An unsigned word of 16 bits. -/
def uint16 (x : ℤ) : ℤ := x % 2 ^ 16

/-- An unsigned word of 32 bits. -/
def ulong32 (x : ℤ) : ℤ := x % 2 ^ 32

variable {x y : ℤ}

theorem int16_eq (x : ℤ) : int16 x = if x % 65536 < 32768 then x % 65536 else x % 65536 - 65536 := by
  rw [int16, Int.bmod_def]
  rfl

theorem long32_eq (x : ℤ) : long32 x =
    if x % 4294967296 < 2147483648 then x % 4294967296 else x % 4294967296 - 4294967296 := by
  rw [long32, Int.bmod_def]
  rfl

theorem int16_of_range (hlo : -32768 ≤ x) (hhi : x < 32768) : int16 x = x := by
  rw [int16_eq]
  split <;> omega

theorem long32_of_range (hlo : -2147483648 ≤ x) (hhi : x < 2147483648) : long32 x = x := by
  rw [long32_eq]
  split <;> omega

theorem int16_range (x : ℤ) : -32768 ≤ int16 x ∧ int16 x < 32768 := by
  rw [int16_eq]
  split_ifs <;> omega

theorem long32_range (x : ℤ) : -2147483648 ≤ long32 x ∧ long32 x < 2147483648 := by
  rw [long32_eq]
  split <;> omega

theorem int16_int16_add (x y : ℤ) : int16 (int16 x + y) = int16 (x + y) := Int.bmod_add_bmod ..

theorem long32_long32_add (x y : ℤ) : long32 (long32 x + y) = long32 (x + y) := Int.bmod_add_bmod ..

theorem long32_long32_sub (x y : ℤ) : long32 (long32 x - y) = long32 (x - y) := Int.bmod_sub_bmod ..

end Minix.Lib
