import Mathlib.Data.List.Nodup
import Mathlib.Data.List.Range
import Mathlib.Data.Nat.ModEq
import Mathlib.Data.Set.Insert
import Minix.Lib.Run

/-!
# A ring of slots with tickets

Values go through a ring of slots. Who puts or takes a value first draws a ticket, and accesses the
slot of the ticket at any time later. `TicketStep` lets a ticket be used only in its turn: the slot
`k % size` is stored for the tickets `k`, `k + size`, … and loaded between two stores, in the order
in which the tickets were drawn. Then each value that is taken is the one that was put for the
ticket (`TicketInv.out_eq`), and nothing is lost (`TicketInv.quiet`).
-/

namespace Minix.Lib

/-- A ring of slots, what has been put and taken by the tickets that were drawn, and the tickets
that have not been used yet. -/
structure TicketRing (α : Type*) where
  size : ℕ
  slot : ℕ → α
  /-- What is put for the tickets, in their order. -/
  put : List α
  /-- Number of tickets that were drawn to take something. -/
  taken : ℕ
  putting : Set ℕ
  taking : Set ℕ
  /-- What has been taken, with the ticket. -/
  out : List (ℕ × α)

variable {α : Type*} {s s' : TicketRing α} {j k : ℕ} {a : α}

/-- Two tickets are for the same slot. -/
def TicketRing.Same (s : TicketRing α) (j k : ℕ) : Prop := j % s.size = k % s.size

/-- It is the turn of a ticket to put. -/
def TicketRing.PutTurn (s : TicketRing α) (k : ℕ) : Prop :=
  (∀ j ∈ s.putting, s.Same j k → k ≤ j) ∧ ∀ j ∈ s.taking, s.Same j k → k ≤ j

/-- It is the turn of a ticket to take. -/
def TicketRing.TakeTurn (s : TicketRing α) (k : ℕ) : Prop :=
  (∀ j ∈ s.putting, s.Same j k → k < j) ∧ ∀ j ∈ s.taking, s.Same j k → k ≤ j

/-- A ticket is drawn, or used in its turn. -/
inductive TicketStep (s : TicketRing α) : TicketRing α → Prop
  | drawPut (a : α) (h : s.put.length + 1 < s.taken + s.size) :
      TicketStep s { s with put := s.put ++ [a], putting := insert s.put.length s.putting }
  | drawTake (h : s.taken < s.put.length) :
      TicketStep s { s with taken := s.taken + 1, taking := insert s.taken s.taking }
  | store {k : ℕ} {a : α} (hk : k ∈ s.putting) (ha : s.put[k]? = some a) (h : s.PutTurn k) :
      TicketStep s { s with
        slot := Function.update s.slot (k % s.size) a
        putting := s.putting \ {k} }
  | load {k : ℕ} (hk : k ∈ s.taking) (h : s.TakeTurn k) :
      TicketStep s { s with
        taking := s.taking \ {k}
        out := s.out ++ [(k, s.slot (k % s.size))] }

/-- What holds of a ring when every ticket is used in its turn. -/
structure TicketInv (s : TicketRing α) : Prop where
  size : 0 < s.size
  le : s.taken ≤ s.put.length
  room : s.put.length < s.taken + s.size
  putting : ∀ k ∈ s.putting, k < s.put.length
  taking : ∀ k ∈ s.taking, k < s.taken
  /-- What has been loaded had been stored. -/
  stored : ∀ k < s.taken, k ∉ s.taking → k ∉ s.putting
  /-- What has been stored in a slot was loaded before the next store. -/
  loaded : ∀ k, k + s.size < s.put.length → k + s.size ∉ s.putting → k ∉ s.taking
  /-- A slot has what was stored in it, until that is loaded. -/
  slot : ∀ k a, s.put[k]? = some a → k ∉ s.putting → s.taken ≤ k ∨ k ∈ s.taking →
    s.slot (k % s.size) = a
  out_eq : ∀ p ∈ s.out, s.put[p.1]? = some p.2
  out_iff : ∀ k, (∃ a, (k, a) ∈ s.out) ↔ k < s.taken ∧ k ∉ s.taking
  nodup : (s.out.map Prod.fst).Nodup

/-- A ring in which nothing has been put. -/
def TicketRing.Fresh (s : TicketRing α) : Prop :=
  0 < s.size ∧ s.put = [] ∧ s.taken = 0 ∧ s.putting = ∅ ∧ s.taking = ∅ ∧ s.out = []

/-- The slots that hold what has been put and not taken, in the order of the tickets. -/
def TicketRing.content (s : TicketRing α) : List α :=
  (List.range' s.taken (s.put.length - s.taken)).map fun k => s.slot (k % s.size)

/-- What holds when nothing has been put. -/
theorem TicketRing.Fresh.inv (h : s.Fresh) : TicketInv s := by
  obtain ⟨hsize, hput, htaken, hputting, htaking, hout⟩ := h
  constructor <;> simp_all

/-! ## Tickets for one slot -/

/-- A ticket that follows another one for the same slot does so by a round at least. -/
theorem add_le_of_same {n : ℕ} (h : j % n = k % n) (hlt : j < k) : j + n ≤ k := by
  have hdvd : n ∣ k - j := (Nat.modEq_iff_dvd' hlt.le).mp h
  have := Nat.le_of_dvd (by omega) hdvd
  omega

/-- When a ticket has been used to put, so have all earlier ones for the slot. -/
theorem TicketInv.stored_of_later (h : TicketInv s) (hk : k < s.put.length) (hput : k ∉ s.putting)
    (hsame : s.Same j k) (hlt : j ≤ k) : j ∉ s.putting := by
  -- From round to round: what is stored was loaded, and what is loaded was stored.
  induction k using Nat.strong_induction_on with
  | _ k ih =>
    rcases hlt.eq_or_lt with rfl | hlt
    · exact hput
    · have hle := add_le_of_same hsame hlt
      obtain ⟨i, rfl⟩ : ∃ i, k = i + s.size := ⟨k - s.size, by omega⟩
      have hroom := h.room
      have hsize := h.size
      have hloaded := h.loaded i hk hput
      refine ih i (by omega) (by omega) (h.stored i (by omega) hloaded) ?_ (by omega)
      exact hsame.trans (Nat.add_mod_right i s.size)

/-! ## Steps -/

/-- A ticket is drawn to put. -/
theorem TicketInv.drawPut (h : TicketInv s) (hroom : s.put.length + 1 < s.taken + s.size) (a : α) :
    TicketInv { s with put := s.put ++ [a], putting := insert s.put.length s.putting } := by
  have hle := h.le
  refine ⟨h.size, ?_, ?_, ?_, h.taking, ?_, ?_, ?_, ?_, h.out_iff, h.nodup⟩
  · simp only [List.length_append, List.length_singleton]
    omega
  · simp only [List.length_append, List.length_singleton]
    omega
  · rintro k (rfl | hk)
    · simp
    · have := h.putting k hk
      simp only [List.length_append, List.length_singleton]
      omega
  · rintro k hk hload (rfl | hput)
    · exact absurd (show s.put.length < s.taken from hk) (by omega)
    · exact h.stored k hk hload hput
  · intro k hk hput
    simp only [List.length_append, List.length_singleton] at hk
    have hne : k + s.size ≠ s.put.length := fun e => hput (Or.inl e)
    exact h.loaded k (by omega) fun e => hput (Or.inr e)
  · intro k b hb hput hlive
    have hne : k ≠ s.put.length := fun e => hput (Or.inl e)
    have hk : k < s.put.length := by
      have := (List.getElem?_eq_some_iff.mp hb).1
      simp only [List.length_append, List.length_singleton] at this
      omega
    rw [List.getElem?_append_left hk] at hb
    exact h.slot k b hb (fun e => hput (Or.inr e)) hlive
  · intro p hp
    have := h.out_eq p hp
    rw [List.getElem?_append_left (List.getElem?_eq_some_iff.mp this).1]
    exact this

/-- A ticket is drawn to take. -/
theorem TicketInv.drawTake (h : TicketInv s) (hlt : s.taken < s.put.length) :
    TicketInv { s with taken := s.taken + 1, taking := insert s.taken s.taking } := by
  have hroom := h.room
  refine ⟨h.size, hlt, ?_, h.putting, ?_, ?_, ?_, ?_, h.out_eq, ?_, h.nodup⟩
  · show s.put.length < s.taken + 1 + s.size
    omega
  · rintro k (rfl | hk)
    · exact Nat.lt_succ_self _
    · exact (h.taking k hk).trans (Nat.lt_succ_self _)
  · intro k hk hload
    have hne : k ≠ s.taken := fun e => hload (Or.inl e)
    have hk : k < s.taken + 1 := hk
    exact h.stored k (by omega) fun e => hload (Or.inr e)
  · rintro k hk hput (rfl | hload)
    · -- The ring has no room for another round yet.
      exact absurd (show s.taken + s.size < s.put.length from hk) (by omega)
    · exact h.loaded k hk hput hload
  · intro k b hb hput hlive
    refine h.slot k b hb hput ?_
    rcases hlive with hle | rfl | hload
    · exact Or.inl (Nat.le_of_succ_le hle)
    · exact Or.inl le_rfl
    · exact Or.inr hload
  · intro k
    rw [h.out_iff k]
    constructor
    · rintro ⟨hk, hload⟩
      refine ⟨hk.trans (Nat.lt_succ_self _), ?_⟩
      rintro (rfl | hload')
      · exact absurd hk (lt_irrefl _)
      · exact hload hload'
    · rintro ⟨hk, hload⟩
      have hne : k ≠ s.taken := fun e => hload (Or.inl e)
      have hk : k < s.taken + 1 := hk
      exact ⟨by omega, fun e => hload (Or.inr e)⟩

/-- A ticket is used to put, in its turn. -/
theorem TicketInv.store (h : TicketInv s) (hk : k ∈ s.putting) (ha : s.put[k]? = some a)
    (hturn : s.PutTurn k) : TicketInv { s with
      slot := Function.update s.slot (k % s.size) a
      putting := s.putting \ {k} } := by
  have hklt := h.putting k hk
  have hroom := h.room
  refine ⟨h.size, h.le, h.room, fun j hj => h.putting j hj.1, h.taking, ?_, ?_, ?_, h.out_eq,
    h.out_iff, h.nodup⟩
  · exact fun j hj hload hput => h.stored j hj hload hput.1
  · intro j hj hput hload
    by_cases hjk : j + s.size = k
    · -- The ticket of the round before is still to be used to take.
      have := hturn.2 j hload (by rw [TicketRing.Same, ← hjk, Nat.add_mod_right])
      have := h.size
      omega
    · exact h.loaded j hj (fun e => hput ⟨e, hjk⟩) hload
  · intro j b hb hput hlive
    dsimp only at hput hb hlive ⊢
    by_cases hjk : j = k
    · subst hjk
      rw [Function.update_self]
      exact Option.some.inj (ha.symm.trans hb)
    have hput : j ∉ s.putting := fun e => hput ⟨e, hjk⟩
    have hj := (List.getElem?_eq_some_iff.mp hb).1
    have hne : j % s.size ≠ k % s.size := by
      intro hsame
      rcases Nat.lt_or_gt_of_ne hjk with hlt | hlt
      · have := add_le_of_same hsame hlt
        rcases hlive with hle | hload
        · omega
        · have := hturn.2 j hload hsame
          omega
      · exact h.stored_of_later hj hput hsame.symm hlt.le hk
    rw [Function.update_of_ne hne]
    exact h.slot j b hb hput hlive

/-- A ticket that is used to take in its turn takes what was put for it. -/
theorem TicketInv.turn_slot (h : TicketInv s) (hk : k ∈ s.taking) (hturn : s.TakeTurn k) :
    k ∉ s.putting ∧ s.put[k]? = some (s.slot (k % s.size)) := by
  have hput : k ∉ s.putting := fun e => absurd (hturn.1 k e rfl) (lt_irrefl _)
  have hlt : k < s.put.length := (h.taking k hk).trans_le h.le
  have hget := List.getElem?_eq_getElem hlt
  rw [h.slot k _ hget hput (Or.inr hk)]
  exact ⟨hput, hget⟩

/-- A ticket is used to take, in its turn. -/
theorem TicketInv.load (h : TicketInv s) (hk : k ∈ s.taking) (hturn : s.TakeTurn k) :
    TicketInv { s with
      taking := s.taking \ {k}
      out := s.out ++ [(k, s.slot (k % s.size))] } := by
  obtain ⟨hput, hget⟩ := h.turn_slot hk hturn
  refine ⟨h.size, h.le, h.room, h.putting, fun j hj => h.taking j hj.1, ?_, ?_, ?_, ?_, ?_, ?_⟩
  · intro j hj hload
    by_cases hjk : j = k
    · rwa [hjk]
    · exact h.stored j hj fun e => hload ⟨e, hjk⟩
  · exact fun j hj hp hload => h.loaded j hj hp hload.1
  · exact fun j b hb hp hlive => h.slot j b hb hp (hlive.imp id And.left)
  · intro p hp
    rcases List.mem_append.mp hp with hp | hp
    · exact h.out_eq p hp
    · obtain rfl := List.mem_singleton.mp hp
      exact hget
  · intro j
    simp only [List.mem_append, List.mem_singleton, exists_or, h.out_iff j, Prod.mk.injEq]
    constructor
    · rintro (⟨hj, hload⟩ | ⟨b, rfl, -⟩)
      · exact ⟨hj, fun e => hload e.1⟩
      · exact ⟨h.taking j hk, fun e => e.2 rfl⟩
    · rintro ⟨hj, hload⟩
      by_cases hjk : j = k
      · exact Or.inr ⟨_, hjk, rfl⟩
      · exact Or.inl ⟨hj, fun e => hload ⟨e, hjk⟩⟩
  · rw [List.map_append, List.nodup_append]
    refine ⟨h.nodup, List.nodup_singleton _, ?_⟩
    intro x hx y hy
    obtain rfl := List.mem_singleton.mp hy
    rintro rfl
    obtain ⟨⟨x, b⟩, hb, rfl⟩ := List.mem_map.mp hx
    exact ((h.out_iff x).mp ⟨b, hb⟩).2 hk

/-- What every step keeps. -/
theorem TicketInv.step (h : TicketInv s) (hst : TicketStep s s') : TicketInv s' := by
  cases hst with
  | drawPut a hroom => exact h.drawPut hroom a
  | drawTake hlt => exact h.drawTake hlt
  | store hk ha hturn => exact h.store hk ha hturn
  | load hk hturn => exact h.load hk hturn

/-! ## When all tickets have been used -/

/-- When no ticket is left, what was taken and what the slots hold is what was put, in order. -/
theorem TicketInv.quiet (h : TicketInv s) (hputting : s.putting = ∅) (htaking : s.taking = ∅) :
    ∃ l : List (ℕ × α), l.Perm s.out ∧ l.map Prod.fst = List.range s.taken ∧
      l.map Prod.snd ++ s.content = s.put := by
  have hle := h.le
  have hmem : ∀ p, p ∈ s.out ↔ p.1 < s.taken ∧ s.put[p.1]? = some p.2 := by
    intro p
    constructor
    · intro hp
      exact ⟨((h.out_iff p.1).mp ⟨p.2, hp⟩).1, h.out_eq p hp⟩
    · rintro ⟨hlt, hget⟩
      obtain ⟨b, hb⟩ := (h.out_iff p.1).mpr ⟨hlt, by rw [htaking]; exact Set.notMem_empty _⟩
      obtain rfl : b = p.2 := Option.some.inj ((h.out_eq _ hb).symm.trans hget)
      exact hb
  -- The pairs in the order of their tickets.
  have hput : ∀ k : {k // k ∈ List.range s.taken}, k.1 < s.put.length := by
    intro k
    have := List.mem_range.mp k.2
    omega
  refine ⟨(List.range s.taken).attach.map fun k => (k.1, s.put.get ⟨k.1, hput k⟩), ?_, ?_, ?_⟩
  · refine (List.perm_ext_iff_of_nodup ?_ ?_).mpr fun p => ?_
    · refine List.Nodup.of_map Prod.fst ?_
      rw [List.map_map]
      show ((List.range s.taken).attach.map Subtype.val).Nodup
      rw [List.attach_map_subtype_val]
      exact List.nodup_range
    · exact List.Nodup.of_map Prod.fst h.nodup
    · rw [hmem p, List.mem_map]
      constructor
      · rintro ⟨k, -, rfl⟩
        exact ⟨List.mem_range.mp k.2, List.getElem?_eq_getElem _⟩
      · rintro ⟨hlt, hget⟩
        refine ⟨⟨p.1, List.mem_range.mpr hlt⟩, List.mem_attach .., ?_⟩
        obtain ⟨_, hval⟩ := List.getElem?_eq_some_iff.mp hget
        exact Prod.ext rfl hval
  · rw [List.map_map]
    exact List.attach_map_subtype_val _
  · refine List.ext_getElem? fun i => ?_
    unfold TicketRing.content
    rcases Nat.lt_or_ge i s.taken with hlt | hge
    · rw [List.getElem?_append_left (by simpa using hlt)]
      rw [List.getElem?_eq_getElem (by simpa using hlt), List.getElem?_eq_getElem (by omega)]
      simp
    · rw [List.getElem?_append_right (by simpa using hge)]
      simp only [List.length_map, List.length_attach, List.length_range]
      rcases Nat.lt_or_ge i s.put.length with hi | hi
      · have hget := List.getElem?_eq_getElem hi
        have hslot := h.slot i _ hget (by rw [hputting]; exact Set.notMem_empty _) (Or.inl hge)
        rw [hget, List.getElem?_map, List.getElem?_range' (by omega), Option.map_some]
        have : s.taken + 1 * (i - s.taken) = i := by omega
        rw [this, hslot]
      · rw [List.getElem?_eq_none hi, List.getElem?_eq_none]
        simp only [List.length_map, List.length_range']
        omega

end Minix.Lib
