import Mathlib.Data.List.Basic

/-!
# A list up to its first end

`upTo p l` is `l` up to and including the first element with `p`. When a list is read in pieces, a
piece either has that element as its last one, or the rest of `upTo p l` is that of the rest of the
list (`upTo_piece`).
-/

namespace Minix.Lib

variable {α : Type*} (p : α → Bool)

/-- The elements up to and including the first one with `p`. -/
def upTo : List α → List α
  | [] => []
  | a :: l => if p a then [a] else a :: upTo l

variable {p} {a : α} {l : List α}

@[simp]
theorem upTo_nil : upTo p [] = [] := rfl

theorem upTo_cons_of_pos (h : p a) : upTo p (a :: l) = [a] := if_pos h

theorem upTo_cons_of_neg (h : ¬ p a) : upTo p (a :: l) = a :: upTo p l := if_neg h

theorem upTo_prefix : upTo p l <+: l := by
  induction l with
  | nil => exact List.prefix_rfl
  | cons a l ih =>
    unfold upTo
    split
    · exact ⟨l, rfl⟩
    · exact List.cons_prefix_cons.mpr ⟨rfl, ih⟩

/-- A piece of the list that has an element with `p` is all of `upTo`; otherwise `upTo` goes on
behind the piece. -/
theorem upTo_piece (n : ℕ) (hn : n ≤ l.length) :
    (((upTo p l).take n).any p ∧ upTo p l = (upTo p l).take n) ∨
      (((upTo p l).take n).any p = false ∧ (upTo p l).take n = l.take n ∧
        upTo p l = l.take n ++ upTo p (l.drop n)) := by
  induction n generalizing l with
  | zero => exact .inr ⟨rfl, rfl, rfl⟩
  | succ n ih =>
    cases l with
    | nil => exact absurd hn (Nat.not_succ_le_zero n)
    | cons a l =>
      by_cases ha : p a
      · left
        rw [upTo_cons_of_pos ha, List.take_succ_cons, List.take_nil]
        exact ⟨by simp [ha], rfl⟩
      · rw [upTo_cons_of_neg ha, List.take_succ_cons, List.take_succ_cons, List.drop_succ_cons]
        obtain ⟨hany, heq⟩ | ⟨hany, htake, heq⟩ := ih (Nat.le_of_succ_le_succ hn)
        · left
          rw [← heq] at hany ⊢
          exact ⟨by rw [List.any_cons, hany, Bool.or_true], rfl⟩
        · right
          refine ⟨?_, ?_, ?_⟩
          · rw [List.any_cons, hany, Bool.or_false]
            simpa using ha
          · rw [htake]
          · rw [List.cons_append, ← heq]

/-- The first end is the only one. -/
theorem countP_upTo_le : (upTo p l).countP p ≤ 1 := by
  induction l with
  | nil => exact Nat.zero_le _
  | cons a l ih =>
    by_cases ha : p a
    · rw [upTo_cons_of_pos ha]
      exact List.countP_le_length
    · rw [upTo_cons_of_neg ha, List.countP_cons_of_neg ha]
      exact ih

end Minix.Lib
