import Mathlib.Algebra.Order.BigOperators.Group.List
import Mathlib.Algebra.BigOperators.Group.List.Basic
import Mathlib.Data.Int.Order.Basic
import Minix.Lib.Indices

/-!
# The calendar

Days are counted from the first of January 1970, which was a Thursday. A date is given by the number
of years since 1970, the number of months since January and the day of the month. Each day has one
date (`date_unique`).
-/

namespace Minix.Lib

/-- The leap years. -/
def IsLeap (y : ℤ) : Prop := y % 4 = 0 ∧ (y % 100 ≠ 0 ∨ y % 400 = 0)

instance (y : ℤ) : Decidable (IsLeap y) := inferInstanceAs (Decidable (_ ∧ (_ ∨ _)))

/-- The lengths of the months, where February has so many days. -/
def monthsWith (feb : ℤ) : List ℤ := [31, feb, 31, 30, 31, 30, 31, 31, 30, 31, 30, 31]

/-- The lengths of the months of a year. -/
def monthLengths (n : ℕ) : List ℤ := monthsWith (if IsLeap (1970 + n) then 29 else 28)

def monthLength (n m : ℕ) : ℤ := (monthLengths n).getD m 0

/-- The days of a year in front of a month. -/
def daysBeforeMonth (n m : ℕ) : ℤ := ((monthLengths n).take m).sum

def yearLength (n : ℕ) : ℤ := if IsLeap (1970 + n) then 366 else 365

/-- The days in front of a year. -/
def daysBeforeYear (n : ℕ) : ℤ := ((List.range n).map yearLength).sum

/-- The day of a date. -/
def dayNumber (n m : ℕ) (mday : ℤ) : ℤ := daysBeforeYear n + daysBeforeMonth n m + (mday - 1)

/-- The day of the week, counted from Sunday. -/
def weekday (day : ℤ) : ℤ := (day + 4) % 7

/-- There is such a day. -/
structure IsDate (n m : ℕ) (mday : ℤ) : Prop where
  month : m < 12
  first : 1 ≤ mday
  last : mday ≤ monthLength n m

variable {n n' m m' : ℕ} {mday mday' : ℤ}

theorem daysBeforeYear_succ (n : ℕ) : daysBeforeYear (n + 1) = daysBeforeYear n + yearLength n := by
  rw [daysBeforeYear, List.range_succ, List.map_append, List.sum_append]
  simp only [List.map_cons, List.map_nil, List.sum_cons, List.sum_nil, add_zero]
  rfl

theorem daysBeforeMonth_succ (n m : ℕ) :
    daysBeforeMonth n (m + 1) = daysBeforeMonth n m + monthLength n m := by
  rw [daysBeforeMonth, daysBeforeMonth, monthLength, List.take_add_one, List.sum_append]
  congr 1
  rw [List.getD_eq_getElem?_getD]
  cases (monthLengths n)[m]? <;> simp

theorem monthLength_nonneg (n m : ℕ) : 0 ≤ monthLength n m := by
  have hall : ∀ d ∈ monthLengths n, 0 ≤ d := by
    intro d hd
    simp only [monthLengths, monthsWith, List.mem_cons, List.not_mem_nil, or_false] at hd
    split_ifs at hd <;> omega
  rw [monthLength, List.getD_eq_getElem?_getD]
  cases h : (monthLengths n)[m]? with
  | none => exact le_rfl
  | some d => exact hall d (List.mem_of_getElem? h)

theorem monthLength_pos (n : ℕ) (hm : m < 12) : 1 ≤ monthLength n m := by
  have hleap : ∀ k < 12, 1 ≤ (monthsWith 29).getD k 0 := by decide
  have hplain : ∀ k < 12, 1 ≤ (monthsWith 28).getD k 0 := by decide
  rw [monthLength, monthLengths]
  split_ifs
  · exact hleap m hm
  · exact hplain m hm

theorem daysBeforeMonth_mono (n : ℕ) (h : m ≤ m') : daysBeforeMonth n m ≤ daysBeforeMonth n m' := by
  induction m', h using Nat.le_induction with
  | base => exact le_rfl
  | succ k hk ih =>
    have := monthLength_nonneg n k
    rw [daysBeforeMonth_succ]
    omega

/-- After the last month there is the next year. -/
theorem daysBeforeMonth_all (n : ℕ) : daysBeforeMonth n 12 = yearLength n := by
  simp only [daysBeforeMonth, monthLengths, yearLength]
  split_ifs <;> decide

theorem daysBeforeYear_mono (h : n ≤ n') : daysBeforeYear n ≤ daysBeforeYear n' := by
  induction n', h using Nat.le_induction with
  | base => exact le_rfl
  | succ k hk ih =>
    rw [daysBeforeYear_succ, yearLength]
    split_ifs <;> omega

/-- A day of a year lies in front of the next one. -/
theorem IsDate.lt_next (h : IsDate n m mday) :
    daysBeforeYear n ≤ dayNumber n m mday ∧ dayNumber n m mday < daysBeforeYear (n + 1) := by
  obtain ⟨hm, hlo, hup⟩ := h
  have hpos := daysBeforeMonth_mono n (Nat.zero_le m)
  have hend := daysBeforeMonth_mono n (Nat.succ_le_of_lt hm)
  have hzero : daysBeforeMonth n 0 = 0 := rfl
  rw [daysBeforeMonth_all, daysBeforeMonth_succ] at hend
  rw [daysBeforeYear_succ, dayNumber]
  omega

/-- A day has one date. -/
theorem date_unique (h : IsDate n m mday) (h' : IsDate n' m' mday')
    (he : dayNumber n m mday = dayNumber n' m' mday') : n = n' ∧ m = m' ∧ mday = mday' := by
  obtain ⟨hlo, hup⟩ := h.lt_next
  obtain ⟨hlo', hup'⟩ := h'.lt_next
  have hn : n = n' := by
    rcases lt_trichotomy n n' with hlt | rfl | hgt
    · have hnext : daysBeforeYear (n + 1) ≤ daysBeforeYear n' := daysBeforeYear_mono hlt
      omega
    · rfl
    · have hnext : daysBeforeYear (n' + 1) ≤ daysBeforeYear n := daysBeforeYear_mono hgt
      omega
  subst hn
  obtain ⟨-, hfirst, hlast⟩ := h
  obtain ⟨-, hfirst', hlast'⟩ := h'
  simp only [dayNumber] at he
  have hm : m = m' := by
    rcases lt_trichotomy m m' with hlt | rfl | hgt
    · have := daysBeforeMonth_mono n (Nat.succ_le_of_lt hlt)
      rw [daysBeforeMonth_succ] at this
      omega
    · rfl
    · have := daysBeforeMonth_mono n (Nat.succ_le_of_lt hgt)
      rw [daysBeforeMonth_succ] at this
      omega
  subst hm
  exact ⟨rfl, rfl, by omega⟩

/-- The next day is one of the same month or the first of the next month. -/
theorem IsDate.next (hd : IsDate n m mday) (hm : m < 11) :
    (mday + 1 ≤ monthLength n m ∧ IsDate n m (mday + 1) ∧
      dayNumber n m (mday + 1) = dayNumber n m mday + 1) ∨
    (mday = monthLength n m ∧ IsDate n (m + 1) 1 ∧
      dayNumber n (m + 1) 1 = dayNumber n m mday + 1) := by
  obtain ⟨hlt, hfirst, hlast⟩ := hd
  by_cases hin : mday + 1 ≤ monthLength n m
  · refine .inl ⟨hin, ⟨hlt, by omega, hin⟩, ?_⟩
    simp only [dayNumber]
    omega
  · have hnext : 1 ≤ monthLength n (m + 1) := monthLength_pos n (by omega)
    refine .inr ⟨by omega, ⟨by omega, le_rfl, hnext⟩, ?_⟩
    simp only [dayNumber, daysBeforeMonth_succ]
    omega

/-- Up to the year 2099 each fourth year is a leap year. -/
theorem isLeap_iff (h : n < 130) : IsLeap (1970 + n) ↔ (n + 2) % 4 = 0 := by
  simp only [IsLeap]
  omega

theorem daysBeforeYear_eq (h : n ≤ 130) : daysBeforeYear n = 365 * n + (n + 1) / 4 := by
  induction n with
  | zero => decide
  | succ n ih =>
    rw [daysBeforeYear_succ, ih (by omega), yearLength]
    simp only [isLeap_iff (show n < 130 by omega)]
    push_cast
    split_ifs <;> omega

end Minix.Lib
