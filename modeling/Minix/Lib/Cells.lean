import Mathlib.Data.Nat.Notation
import Mathlib.Logic.Function.Basic
import Mathlib.Tactic.SplitIfs
import Minix.Lib.Indices

/-!
# Pointers in a memory of bytes

A pointer takes a cell of four bytes, the most significant one first. Storing one changes the bytes
of its cell (`storePtr_of_outside`), so that a cell that does not overlap it keeps what it has
(`loadPtr_storePtr_of_apart`); cells at multiples of four overlap only if they are the same
(`loadPtr_storePtr`). The address 0 is the nil pointer.
-/

namespace Minix.Lib

/-- A memory. -/
abbrev Bytes : Type := ℕ → UInt8

/-- Number of bytes in a cell. -/
def cellSize : ℕ := 4

/-- A pointer that is not nil. -/
def asPtr (v : ℕ) : Option ℕ := if v = 0 then none else some v

/-- The address of a pointer. -/
def ofPtr (p : Option ℕ) : ℕ := p.getD 0

/-- The number in a cell. -/
def loadLong (m : Bytes) (a : ℕ) : ℕ :=
  (m a).toNat * 2 ^ 24 + (m (a + 1)).toNat * 2 ^ 16 + (m (a + 2)).toNat * 2 ^ 8 + (m (a + 3)).toNat

/-- The pointer in a cell. -/
def loadPtr (m : Bytes) (a : ℕ) : Option ℕ := asPtr (loadLong m a)

/-- A pointer is stored in a cell. -/
def storePtr (m : Bytes) (a : ℕ) (p : Option ℕ) : Bytes := fun k =>
  if a ≤ k ∧ k < a + cellSize then UInt8.ofNat (ofPtr p / 2 ^ (8 * (3 - (k - a)))) else m k

/-- A pointer that can be stored. -/
def Fits (p : Option ℕ) : Prop := ∀ a ∈ p, 0 < a ∧ a < 2 ^ 32

variable {m m' : Bytes} {a b k : ℕ} {p : Option ℕ}

theorem asPtr_ofPtr (h : Fits p) : asPtr (ofPtr p) = p := by
  cases p with
  | none => rfl
  | some a => exact if_neg (Nat.ne_of_gt (h a rfl).1)

theorem ofPtr_lt (h : Fits p) : ofPtr p < 2 ^ 32 := by
  cases p with
  | none => decide
  | some a => exact (h a rfl).2

theorem storePtr_of_outside (h : k < a ∨ a + cellSize ≤ k) : storePtr m a p k = m k :=
  if_neg (by omega)

theorem loadPtr_congr (h : ∀ k, a ≤ k → k < a + cellSize → m' k = m k) :
    loadPtr m' a = loadPtr m a := by
  unfold cellSize at h
  unfold loadPtr loadLong
  rw [h a (by omega) (by omega), h (a + 1) (by omega) (by omega), h (a + 2) (by omega) (by omega),
    h (a + 3) (by omega) (by omega)]

/-- A pointer is loaded from where it has been stored. -/
theorem loadPtr_storePtr_self (h : Fits p) : loadPtr (storePtr m a p) a = p := by
  have hlt := ofPtr_lt h
  have hbyte : ∀ i < 4, (storePtr m a p (a + i)).toNat = ofPtr p / 2 ^ (8 * (3 - i)) % 256 := by
    intro i hi
    unfold storePtr cellSize
    rw [if_pos (by omega), Nat.add_sub_cancel_left, UInt8.toNat_ofNat']
  have h0 : (storePtr m a p a).toNat = ofPtr p / 2 ^ 24 % 256 := hbyte 0 (by decide)
  have h1 : (storePtr m a p (a + 1)).toNat = ofPtr p / 2 ^ 16 % 256 := hbyte 1 (by decide)
  have h2 : (storePtr m a p (a + 2)).toNat = ofPtr p / 2 ^ 8 % 256 := hbyte 2 (by decide)
  have h3 : (storePtr m a p (a + 3)).toNat = ofPtr p / 2 ^ 0 % 256 := hbyte 3 (by decide)
  have hlong : loadLong (storePtr m a p) a = ofPtr p := by
    unfold loadLong
    rw [h0, h1, h2, h3]
    omega
  unfold loadPtr
  rw [hlong, asPtr_ofPtr h]

/-- The other cells keep what they have. -/
theorem loadPtr_storePtr_of_apart (h : b + cellSize ≤ a ∨ a + cellSize ≤ b) :
    loadPtr (storePtr m a p) b = loadPtr m b :=
  loadPtr_congr fun _ _ _ => storePtr_of_outside (by omega)

/-- Cells at multiples of four do not overlap. -/
theorem loadPtr_storePtr (ha : a % 4 = 0) (hb : b % 4 = 0) (h : Fits p) :
    loadPtr (storePtr m a p) b = if b = a then p else loadPtr m b := by
  split_ifs with hab
  · rw [hab]
    exact loadPtr_storePtr_self h
  · refine loadPtr_storePtr_of_apart ?_
    unfold cellSize
    omega

end Minix.Lib
