import Minix.Lib.Chain

/-!
# Doubly linked lists over a table

A doubly linked list is a chain along `next` from its front, whose reverse is a chain along `prev`
from its rear (`Dll`). Turning both links round gives the reversed list (`Dll.mirror`), so that what
is done at the rear is what is done at the front.

`setLink` and `setHead` are the two branches of `if (p != nil) p->next = v; else head = v;`.
-/

namespace Minix.Lib

variable {α : Type*}

/-- The cells of the list are linked in both directions, from the front and from the rear. -/
structure Dll (next prev : α → Option α) (front rear : Option α) (l : List α) : Prop where
  forth : Chain next front l none
  back : Chain prev rear l.reverse none

/-- The links, after `v` was written to that of the cell `p`, if it is one. -/
def setLink [DecidableEq α] (next : α → Option α) (p v : Option α) : α → Option α :=
  match p with
  | none => next
  | some t => Function.update next t v

/-- The head, after `v` was written to it unless `p` is a cell. -/
def setHead (head p v : Option α) : Option α :=
  match p with
  | none => v
  | some _ => head

variable {next prev : α → Option α} {front rear : Option α} {a b l : List α} {x : α}

/-- The list, read from its rear. -/
theorem Dll.mirror (h : Dll next prev front rear l) : Dll prev next rear front l.reverse :=
  ⟨h.back, by rw [List.reverse_reverse]; exact h.forth⟩

/-- The link of a cell leads to the one after it. -/
theorem Dll.next_eq (h : Dll next prev front rear (a ++ x :: b)) : next x = b.head? :=
  (Chain.suffix h.forth).head?_eq.symm

/-- The link back leads to the cell before it. -/
theorem Dll.prev_eq (h : Dll next prev front rear (a ++ x :: b)) : prev x = a.getLast? := by
  have hm := h.mirror
  rw [List.reverse_append, List.reverse_cons, List.append_assoc, List.singleton_append] at hm
  rw [hm.next_eq, List.head?_reverse]

/-- The rear is the last cell. -/
theorem Dll.rear_eq (h : Dll next prev front rear l) : rear = l.getLast? := by
  rw [← h.back.head?_eq, List.head?_reverse]

/-- A chain is a doubly linked list if each link is answered by one back. -/
theorem Dll.of_forth (h : Chain next front l none) (hback : ∀ x y, next x = some y → prev y = some x)
    (hfront : ∀ x, front = some x → prev x = none) : Dll next prev front l.getLast? l := by
  refine ⟨h, ?_⟩
  suffices ∀ q, Chain next front l q → Chain prev l.getLast? l.reverse none from this none h
  clear h
  induction l using List.reverseRecOn with
  | nil => exact fun _ _ => rfl
  | append_singleton l t ih =>
    intro q hq
    obtain ⟨r, hl, rfl, -⟩ := chain_append.mp hq
    rw [List.getLast?_concat, List.reverse_concat]
    refine ⟨rfl, ?_⟩
    have hprev : prev t = l.getLast? := by
      rcases List.eq_nil_or_concat' l with rfl | ⟨c, u, rfl⟩
      · exact hfront t hl
      · rw [List.getLast?_concat]
        exact hback u t hl.next_last
    rw [hprev]
    exact ih _ hl

variable [DecidableEq α]

/-- One direction of the removal of a cell. -/
theorem Chain.bypass (h : Chain next front (a ++ x :: b) none) :
    Chain (setLink next a.getLast? (next x)) (setHead front a.getLast? (next x)) (a ++ b) none := by
  rcases List.eq_nil_or_concat' a with rfl | ⟨c, t, rfl⟩
  · exact h.2
  · rw [List.getLast?_concat]
    rw [List.append_assoc] at h ⊢
    exact h.unlink

/-- Linking the neighbours of a cell to each other takes it off the list. -/
theorem Dll.remove (h : Dll next prev front rear (a ++ x :: b)) :
    Dll (setLink next (prev x) (next x)) (setLink prev (next x) (prev x))
      (setHead front (prev x) (next x)) (setHead rear (next x) (prev x)) (a ++ b) where
  forth := by
    have := h.forth.bypass
    rwa [← h.prev_eq] at this
  back := by
    have hback := h.back
    rw [List.reverse_append, List.reverse_cons, List.append_assoc, List.singleton_append] at hback
    have := hback.bypass
    rwa [List.getLast?_reverse, ← h.next_eq, ← List.reverse_append] at this

/-- A new cell in front, linked to the old front and back from it. -/
theorem Dll.push_front (h : Dll next prev front rear l) (hx : x ∉ l) :
    Dll (Function.update next x front) (setLink (Function.update prev x none) front (some x))
      (some x) (setHead rear front (some x)) (x :: l) where
  forth := h.forth.push_front hx
  back := by
    rw [List.reverse_cons, ← h.forth.head?_eq]
    cases l with
    | nil => exact ⟨rfl, by simp [setLink]⟩
    | cons f l =>
      have hback := h.back
      have hxf : f ≠ x := fun e => hx (by simp [e])
      rw [List.reverse_cons] at hback ⊢
      have := hback.push_back (x := x) (by simpa [and_comm] using hx)
      rwa [Function.update_comm hxf] at this

/-- A new cell behind the rear, in the same way. -/
theorem Dll.push_rear (h : Dll next prev front rear l) (hx : x ∉ l) :
    Dll (setLink (Function.update next x none) rear (some x)) (Function.update prev x rear)
      (setHead front rear (some x)) (some x) (l ++ [x]) := by
  have := (h.mirror.push_front (x := x) (by simpa using hx)).mirror
  simpa using this

end Minix.Lib
