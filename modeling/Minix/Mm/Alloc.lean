import Minix.Lib.Indices
import Minix.Lib.Queues

/-!
# The hole table of the memory manager

`mm/alloc.c`. The table `hole[]` is kept field by field, and a pointer into it is a `Slot`. Clicks
are 16-bit numbers. As in the kernel, `none` is a nil pointer followed, a walk that does not end, or
a panic.
-/

namespace Minix.Mm

open Lib

/-- Maximum number of entries in the hole table. -/
abbrev NR_HOLES : ℕ := 128

/-- The address of an entry of `hole[]`. -/
abbrev HoleSlot := Fin NR_HOLES

/-- What `alloc_mem` returns when memory is up. -/
def NO_MEM : ℕ := 0

/-- A number of clicks, as it is kept in a `phys_clicks`. -/
def clicks16 (n : ℕ) : ℕ := n % 2 ^ 16

/-- The hole table, and the heads of its two lists. -/
structure HoleTable where
  h_base : HoleSlot → ℕ
  h_len : HoleSlot → ℕ
  h_next : HoleSlot → Option HoleSlot
  hole_head : Option HoleSlot
  free_slots : Option HoleSlot

/-- No walk over the table takes this many turns, unless it goes round in a circle. -/
def holeFuel : ℕ := NR_HOLES + 1

/-- Remove an entry from the hole list, and put it on the list of unused ones. -/
def delSlot (t : HoleTable) (prev_ptr : Option HoleSlot) (hp : HoleSlot) : Option HoleTable := do
  let t ← if t.hole_head = some hp then some { t with hole_head := t.h_next hp }
    else match prev_ptr with
      | none => none
      | some prev_ptr =>
        some { t with h_next := Function.update t.h_next prev_ptr (t.h_next hp) }
  some { t with h_next := Function.update t.h_next hp t.free_slots, free_slots := some hp }

/-- The first clicks of a hole are taken. -/
def takeClicks (t : HoleTable) (hp : HoleSlot) (clicks : ℕ) : HoleTable :=
  { t with
    h_base := Function.update t.h_base hp (clicks16 (t.h_base hp + clicks))
    h_len := Function.update t.h_len hp (t.h_len hp - clicks) }

/-- Allocate a block of memory from the free list using first fit. -/
def allocMem (t : HoleTable) (clicks : ℕ) : Option (ℕ × HoleTable) := do
  let (prev_ptr, hp) ← scan t.h_next (fun hp => clicks ≤ t.h_len hp) holeFuel none t.hole_head
  match hp with
  | none => some (NO_MEM, t)
  | some hp =>
    let old_base := t.h_base hp
    let t := takeClicks t hp clicks
    if t.h_len hp ≠ 0 then some (old_base, t)
    else (delSlot t prev_ptr hp).map fun t => (old_base, t)

/-- `hp` gets the memory of `next_ptr`, which is deleted. -/
def absorb (t : HoleTable) (hp next_ptr : HoleSlot) : Option HoleTable :=
  delSlot { t with h_len := Function.update t.h_len hp (clicks16 (t.h_len hp + t.h_len next_ptr)) }
    (some hp) next_ptr

/-- `hp` ends where `next_ptr` begins. -/
def abuts (t : HoleTable) (hp next_ptr : HoleSlot) : Bool :=
  clicks16 (t.h_base hp + t.h_len hp) == t.h_base next_ptr

/-- The last check of `merge`: absorb the successor of `hp` if it is contiguous. -/
def mergeNext (t : HoleTable) (hp : HoleSlot) : Option HoleTable :=
  match t.h_next hp with
  | none => some t
  | some next_ptr => if abuts t hp next_ptr then absorb t hp next_ptr else some t

/-- Check for contiguous holes and merge any found, among `hp` and the two after it. -/
def merge (t : HoleTable) (hp : HoleSlot) : Option HoleTable :=
  match t.h_next hp with
  | none => some t
  | some next_ptr =>
    if abuts t hp next_ptr then do
      let t ← absorb t hp next_ptr
      mergeNext t hp
    else mergeNext t next_ptr

/-- Return a block of free memory to the hole list. -/
def freeMem (t : HoleTable) (base clicks : ℕ) : Option HoleTable :=
  match t.free_slots with
  | none => none
  | some new_ptr =>
    let t : HoleTable := { t with
      h_base := Function.update t.h_base new_ptr base
      h_len := Function.update t.h_len new_ptr clicks
      free_slots := t.h_next new_ptr }
    let front : Bool := match t.hole_head with
      | none => true
      | some hp => base ≤ t.h_base hp
    if front then
      merge { t with
        h_next := Function.update t.h_next new_ptr t.hole_head
        hole_head := some new_ptr } new_ptr
    else do
      let (prev_ptr, _) ← scan t.h_next (fun hp => base ≤ t.h_base hp) holeFuel none t.hole_head
      let prev_ptr ← prev_ptr
      merge { t with
        h_next :=
          Function.update (Function.update t.h_next new_ptr (t.h_next prev_ptr)) prev_ptr
            (some new_ptr) } prev_ptr

/-- Scan the hole list and return the largest hole. -/
def maxHole (t : HoleTable) : Option ℕ :=
  walk t.h_next (fun max hp => if t.h_len hp > max then t.h_len hp else max) holeFuel 0 t.hole_head

/-- All entries are put on the list of unused ones. -/
def clearHoles (t : HoleTable) : HoleTable :=
  { t with
    h_next := fun hp => if h : hp.val + 1 < NR_HOLES then some ⟨hp.val + 1, h⟩ else none
    hole_head := none
    free_slots := some 0 }

/-- Initialize the hole lists, with a hole for each chunk of physical memory. -/
def memInit (t : HoleTable) (chunks : List (ℕ × ℕ)) : Option HoleTable :=
  chunks.foldlM (fun t chunk => freeMem t chunk.1 chunk.2) (clearHoles t)

/-- Determine how much memory is left. -/
def memLeft (t : HoleTable) : Option ℕ :=
  walk t.h_next (fun tot hp => clicks16 (tot + t.h_len hp)) holeFuel 0 t.hole_head

end Minix.Mm
