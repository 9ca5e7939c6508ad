import Mathlib.Data.List.Basic

/-!
# What flows through a queue

Over a stretch of a run a queue takes in `ins` at its end and gives out `outs` at its front, and
goes from what it holds in the beginning to what it holds in the end (`Flow`). Stretches are put
together by `Flow.trans`; what has been given out is then a prefix of what has been taken in, if the
queue was empty.
-/

namespace Minix.Lib

variable {α : Type*} {q q' q'' ins ins' outs outs' : List α}

/-- Nothing is lost, repeated, invented or put in another order. -/
def Flow (q ins outs q' : List α) : Prop := q ++ ins = outs ++ q'

theorem Flow.refl (q : List α) : Flow q [] [] q := by
  simp [Flow]

/-- At the end something is put in. -/
theorem Flow.push (q ins : List α) : Flow q ins [] (q ++ ins) := rfl

/-- At the front something is taken out. -/
theorem Flow.pop (q : List α) (n : ℕ) : Flow q [] (q.take n) (q.drop n) := by
  simp [Flow]

theorem Flow.trans (h : Flow q ins outs q') (h' : Flow q' ins' outs' q'') :
    Flow q (ins ++ ins') (outs ++ outs') q'' := by
  calc q ++ (ins ++ ins') = outs ++ q' ++ ins' := by rw [← List.append_assoc, h]
    _ = outs ++ (outs' ++ q'') := by rw [List.append_assoc, h']
    _ = outs ++ outs' ++ q'' := (List.append_assoc _ _ _).symm

/-- What is given out has been taken in, in the same order, if the queue was empty. -/
theorem Flow.isPrefix (h : Flow [] ins outs q) : outs <+: ins := ⟨q, h.symm⟩

end Minix.Lib
