import Minix.Lib.Chain

/-!
# Lists that share one link field

Several lists, named by `κ`, over the cells of one table, all linked through the same field `next`,
so that a cell is in one list at a time. `Chains` relates the head pointers to the lists they stand
for, and `IsQueues` adds a tail pointer for each, and the class of a cell, which decides what list
it can be in. The tail pointer of an empty queue is stale, and says nothing. The lemmas are the
operations on lists: append (`push`), take the head (`pop`), take a cell from the body (`unlink`),
and move the head to the end (`rotate`).
-/

namespace Minix.Lib

variable {α κ : Type*}

/-- The heads stand for the lists `l`, no two of which have a cell in common. -/
structure Chains (next : α → Option α) (head : κ → Option α) (l : κ → List α) : Prop where
  /-- The head leads through the list to nil. -/
  chain : ∀ q, Chain next (head q) (l q) none
  /-- A cell is in one list at most. -/
  disjoint : ∀ q q' x, x ∈ l q → x ∈ l q' → q = q'

/-- The pointers stand for the lists `l`: the heads for the lists, each tail for the last cell of a
list that has one, and the cells of a list are of its class. -/
structure IsQueues (cls : α → κ) (next : α → Option α) (head tail : κ → Option α)
    (l : κ → List α) : Prop where
  /-- The heads stand for the lists. -/
  chains : Chains next head l
  /-- The tail of a queue that is not empty is its last cell. -/
  tail : ∀ q a t, l q = a ++ [t] → tail q = some t
  /-- A queue has cells of its class only. -/
  cls : ∀ q x, x ∈ l q → cls x = q

variable {cls : α → κ} {next : α → Option α} {head tail : κ → Option α} {l : κ → List α}
  {a b : List α} {q q' : κ} {x y t : α}

/-- A list whose head is nil is empty, and only then. -/
theorem Chains.eq_nil_iff (h : Chains next head l) : l q = [] ↔ head q = none :=
  (h.chain q).eq_nil_iff

/-- The head of a list is its first cell. -/
theorem Chains.head?_eq (h : Chains next head l) : (l q).head? = head q := (h.chain q).head?_eq

/-- No list is longer than the table. -/
theorem Chains.length_le [Fintype α] (h : Chains next head l) :
    (l q).length ≤ Fintype.card α := (h.chain q).length_le

/-- No list has a cell twice. -/
theorem Chains.nodup (h : Chains next head l) : (l q).Nodup := (h.chain q).nodup

/-- A cell of one list is in no other. -/
theorem Chains.notMem (h : Chains next head l) (hx : x ∈ l q) (hq : q' ≠ q) : x ∉ l q' :=
  fun hm => hq (h.disjoint q' q x hm hx)

/-- A cell is in no queue but that of its class. -/
theorem IsQueues.notMem (h : IsQueues cls next head tail l) (hx : cls x = q) (hq : q' ≠ q) :
    x ∉ l q' := fun hm => hq ((h.cls q' x hm).symm.trans hx)

/-- A cell that its own queue has not is in none. -/
theorem IsQueues.notMem_all (h : IsQueues cls next head tail l) (hx : x ∉ l (cls x)) (q : κ) :
    x ∉ l q := fun hm => hx (h.cls q x hm ▸ hm)

/-- The queues depend on the links and the classes of queued cells only. -/
theorem IsQueues.congr {cls' : α → κ} {next' : α → Option α} (h : IsQueues cls next head tail l)
    (hn : ∀ q x, x ∈ l q → next' x = next x) (hc : ∀ q x, x ∈ l q → cls' x = cls x) :
    IsQueues cls' next' head tail l where
  chains := ⟨fun q => (h.chains.chain q).congr (hn q), h.chains.disjoint⟩
  tail := h.tail
  cls q x hx := (hc q x hx).trans (h.cls q x hx)

variable [DecidableEq α] [DecidableEq κ]

omit [DecidableEq α] in
/-- The cells of the lists after `x` was appended to `q`. -/
theorem mem_update_append :
    y ∈ Function.update l q (l q ++ [x]) q' ↔ y ∈ l q' ∨ (q' = q ∧ y = x) := by
  by_cases hqq : q' = q
  · subst hqq
    simp
  · simp [hqq]

/-- The cells of the lists after `x` was taken from `q`, which had it if any list had. -/
theorem Chains.mem_update_erase (h : Chains next head l) (hx : ∀ q', q' ≠ q → x ∉ l q') :
    y ∈ Function.update l q ((l q).erase x) q' ↔ y ∈ l q' ∧ y ≠ x := by
  by_cases hqq : q' = q
  · subst hqq
    rw [Function.update_self, h.nodup.mem_erase_iff, and_comm]
  · rw [Function.update_of_ne hqq]
    refine ⟨fun hy => ⟨hy, ?_⟩, And.left⟩
    rintro rfl
    exact hx q' hqq hy

omit [DecidableEq α] in
/-- A list with cells that no other list has, in the place of `q`. -/
theorem Chains.disjoint_update (h : Chains next head l)
    (hb : ∀ y ∈ b, y ∈ l q ∨ ∀ q', y ∉ l q') (q₁ q₂ : κ) (y : α)
    (h₁ : y ∈ Function.update l q b q₁) (h₂ : y ∈ Function.update l q b q₂) : q₁ = q₂ := by
  -- A cell of the new list is in no other list.
  have hother : ∀ q', q' ≠ q → y ∈ b → y ∉ l q' := fun q' hq hy hm => by
    rcases hb y hy with hy | hy
    · exact hq (h.disjoint _ _ _ hm hy)
    · exact hy q' hm
  by_cases e₁ : q₁ = q
  · by_cases e₂ : q₂ = q
    · rw [e₁, e₂]
    · rw [e₁, Function.update_self] at h₁
      rw [Function.update_of_ne e₂] at h₂
      exact absurd h₂ (hother q₂ e₂ h₁)
  · rw [Function.update_of_ne e₁] at h₁
    by_cases e₂ : q₂ = q
    · rw [e₂, Function.update_self] at h₂
      exact absurd h₁ (hother q₁ e₁ h₂)
    · rw [Function.update_of_ne e₂] at h₂
      exact h.disjoint _ _ _ h₁ h₂

/-! ## Heads only -/

/-- Appending a cell to a list that is empty. -/
theorem Chains.push_nil (h : Chains next head l) (hx : ∀ q', x ∉ l q') (hl : l q = []) :
    Chains (Function.update next x none) (Function.update head q (some x))
      (Function.update l q (l q ++ [x])) where
  chain q' := by
    by_cases hqq : q' = q
    · subst hqq
      simp [hl]
    · rw [Function.update_of_ne hqq, Function.update_of_ne hqq]
      exact (h.chain q').update (hx q') _
  disjoint := h.disjoint_update fun y hy => by
    rcases List.mem_append.mp hy with hy | hy
    · exact Or.inl hy
    · exact Or.inr (List.mem_singleton.mp hy ▸ hx)

/-- Appending a cell behind the last of a list. -/
theorem Chains.push (h : Chains next head l) (hx : ∀ q', x ∉ l q') (ht : l q = a ++ [t]) :
    Chains (Function.update (Function.update next t (some x)) x none) head
      (Function.update l q (l q ++ [x])) where
  chain q' := by
    by_cases hqq : q' = q
    · subst hqq
      have hc := h.chain q'
      have hxq := hx q'
      rw [ht] at hc hxq
      rw [Function.update_self, ht]
      exact hc.push_back hxq
    · have htq : t ∈ l q := by simp [ht]
      rw [Function.update_of_ne hqq]
      exact ((h.chain q').update (h.notMem htq hqq) _).update (hx q') _
  disjoint := h.disjoint_update fun y hy => by
    rcases List.mem_append.mp hy with hy | hy
    · exact Or.inl hy
    · exact Or.inr (List.mem_singleton.mp hy ▸ hx)

/-- Putting a cell in front of a list. -/
theorem Chains.push_front (h : Chains next head l) (hx : ∀ q', x ∉ l q') :
    Chains (Function.update next x (head q)) (Function.update head q (some x))
      (Function.update l q (x :: l q)) where
  chain q' := by
    by_cases hqq : q' = q
    · subst hqq
      rw [Function.update_self, Function.update_self]
      exact (h.chain q').push_front (hx q')
    · rw [Function.update_of_ne hqq, Function.update_of_ne hqq]
      exact (h.chain q').update (hx q') _
  disjoint := h.disjoint_update fun y hy => by
    rcases List.mem_cons.mp hy with rfl | hy
    · exact Or.inr hx
    · exact Or.inl hy

/-- Putting a cell behind another. -/
theorem Chains.insert (h : Chains next head l) (hx : ∀ q', x ∉ l q') (hl : l q = a ++ t :: b) :
    Chains (Function.update (Function.update next x (next t)) t (some x)) head
      (Function.update l q (a ++ t :: x :: b)) where
  chain q' := by
    by_cases hqq : q' = q
    · subst hqq
      have hc := h.chain q'
      have hxq := hx q'
      rw [hl] at hc hxq
      rw [Function.update_self]
      exact hc.insert hxq
    · have htq : t ∈ l q := by simp [hl]
      rw [Function.update_of_ne hqq]
      exact ((h.chain q').update (hx q') _).update (h.notMem htq hqq) _
  disjoint := h.disjoint_update fun y hy => by
    by_cases hyx : y = x
    · exact Or.inr (hyx ▸ hx)
    · refine Or.inl ?_
      rw [hl]
      simpa [hyx] using hy

omit [DecidableEq α] in
/-- Taking the head of a list. -/
theorem Chains.pop (h : Chains next head l) (hl : l q = x :: b) :
    Chains next (Function.update head q (next x)) (Function.update l q b) where
  chain q' := by
    by_cases hqq : q' = q
    · subst hqq
      have hc := h.chain q'
      rw [hl] at hc
      simpa using hc.2
    · rw [Function.update_of_ne hqq, Function.update_of_ne hqq]
      exact h.chain q'
  disjoint := h.disjoint_update fun y hy => Or.inl (by rw [hl]; exact List.mem_cons_of_mem _ hy)

/-- Taking a cell `x` from the body of a list, from behind `y`. -/
theorem Chains.unlink (h : Chains next head l) (hl : l q = a ++ y :: x :: b) :
    Chains (Function.update next y (next x)) head (Function.update l q (a ++ y :: b)) where
  chain q' := by
    by_cases hqq : q' = q
    · subst hqq
      have hc := h.chain q'
      rw [hl] at hc
      rw [Function.update_self]
      exact hc.unlink
    · have hyq : y ∈ l q := by simp [hl]
      rw [Function.update_of_ne hqq]
      exact (h.chain q').update (h.notMem hyq hqq) _
  disjoint := h.disjoint_update fun z hz => by
    refine Or.inl ?_
    rw [hl]
    rcases List.mem_append.mp hz with hz | hz
    · simp [hz]
    · rcases List.mem_cons.mp hz with rfl | hz
      · simp
      · simp [hz]

/-! ## Heads and tails -/

omit [DecidableEq α] in
/-- A tail pointer set to the last cell of the list that takes the place of `q`. -/
theorem IsQueues.tail_update (h : IsQueues cls next head tail l) (ht : b.getLast? = some t)
    (q' : κ) (c : List α) (u : α) (hu : Function.update l q b q' = c ++ [u]) :
    Function.update tail q (some t) q' = some u := by
  by_cases hqq : q' = q
  · subst hqq
    rw [Function.update_self] at hu ⊢
    have hlast := congrArg List.getLast? hu
    rw [ht] at hlast
    simpa using hlast
  · rw [Function.update_of_ne hqq] at hu ⊢
    exact h.tail q' c u hu

omit [DecidableEq α] in
/-- A list of cells of the class of `q`, in its place. -/
theorem IsQueues.cls_update (h : IsQueues cls next head tail l) (hb : ∀ y ∈ b, cls y = q)
    (q' : κ) (y : α) (hy : y ∈ Function.update l q b q') : cls y = q' := by
  by_cases hqq : q' = q
  · subst hqq
    rw [Function.update_self] at hy
    exact hb y hy
  · rw [Function.update_of_ne hqq] at hy
    exact h.cls q' y hy

omit [DecidableEq α] [DecidableEq κ] in
/-- Appending a cell of its class to a queue leaves it with cells of its class. -/
theorem IsQueues.cls_append (h : IsQueues cls next head tail l) (hq : cls x = q) :
    ∀ y ∈ l q ++ [x], cls y = q := fun y hy => by
  rcases List.mem_append.mp hy with hy | hy
  · exact h.cls q y hy
  · rw [List.mem_singleton.mp hy]
    exact hq

/-- Appending a cell to a queue that is empty. -/
theorem IsQueues.push_nil (h : IsQueues cls next head tail l) (hq : cls x = q) (hx : x ∉ l q)
    (hl : l q = []) :
    IsQueues cls (Function.update next x none) (Function.update head q (some x))
      (Function.update tail q (some x)) (Function.update l q (l q ++ [x])) where
  chains := h.chains.push_nil (h.notMem_all (hq ▸ hx)) hl
  tail := h.tail_update (by simp)
  cls := h.cls_update (h.cls_append hq)

/-- Appending a cell behind the tail of a queue. -/
theorem IsQueues.push (h : IsQueues cls next head tail l) (hq : cls x = q) (hx : x ∉ l q)
    (ht : l q = a ++ [t]) :
    IsQueues cls (Function.update (Function.update next t (some x)) x none) head
      (Function.update tail q (some x)) (Function.update l q (l q ++ [x])) where
  chains := h.chains.push (h.notMem_all (hq ▸ hx)) ht
  tail := h.tail_update (by simp)
  cls := h.cls_update (h.cls_append hq)

omit [DecidableEq α] in
/-- Taking the head of a queue. The tail is left as it is. -/
theorem IsQueues.pop (h : IsQueues cls next head tail l) (hl : l q = x :: b) :
    IsQueues cls next (Function.update head q (next x)) tail (Function.update l q b) where
  chains := h.chains.pop hl
  tail q' a t ht := by
    by_cases hqq : q' = q
    · subst hqq
      rw [Function.update_self] at ht
      exact h.tail q' (x :: a) t (by rw [hl, ht]; rfl)
    · rw [Function.update_of_ne hqq] at ht
      exact h.tail q' a t ht
  cls := h.cls_update fun y hy => h.cls q y (by rw [hl]; exact List.mem_cons_of_mem _ hy)

/-- Taking a cell `x` from the body of a queue, from behind `y`, and finding the tail anew. -/
theorem IsQueues.unlink (h : IsQueues cls next head tail l) (hl : l q = a ++ y :: x :: b)
    (ht : (y :: b).getLast? = some t) :
    IsQueues cls (Function.update next y (next x)) head (Function.update tail q (some t))
      (Function.update l q (a ++ y :: b)) where
  chains := h.chains.unlink hl
  tail := h.tail_update (by rw [List.getLast?_append_of_ne_nil _ (by simp), ht])
  cls := h.cls_update fun z hz => by
    refine h.cls q z ?_
    rw [hl]
    rcases List.mem_append.mp hz with hz | hz
    · simp [hz]
    · rcases List.mem_cons.mp hz with rfl | hz
      · simp
      · simp [hz]

/-- Moving the head `x` of a queue behind its tail `t`, by way of a circle. -/
theorem IsQueues.rotate (h : IsQueues cls next head tail l) (hl : l q = x :: b)
    (ht : tail q = some t) :
    IsQueues cls (Function.update (Function.update next t (some x)) x none)
      (Function.update head q (Function.update next t (some x) x))
      (Function.update tail q (some x)) (Function.update l q (b ++ [x])) := by
  have hpop := h.pop hl
  have hx : cls x = q := h.cls q x (by simp [hl])
  rcases List.eq_nil_or_concat' b with rfl | ⟨c, u, rfl⟩
  · -- A queue of one cell: its head is its tail, and the circle is the cell itself.
    obtain rfl : t = x := by
      have := h.tail q [] x hl
      rw [ht] at this
      simpa using this
    have := hpop.push_nil hx (by simp) (by simp)
    simpa using this
  · obtain rfl : t = u := by
      have := h.tail q (x :: c) u hl
      rw [ht] at this
      simpa using this
    have hnd := h.chains.nodup (q := q)
    rw [hl, List.nodup_cons] at hnd
    have htx : x ≠ t := by
      rintro rfl
      exact hnd.1 (by simp)
    have := hpop.push hx (by simpa using hnd.1) (Function.update_self ..)
    rw [Function.update_of_ne htx]
    simpa using this

end Minix.Lib
