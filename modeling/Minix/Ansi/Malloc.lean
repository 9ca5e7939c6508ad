import Minix.Lib.Cells
import Minix.Lib.Chain

/-!
# The heap of a process

`lib/ansi/malloc.c`, with `sbrk` and `brk` of `lib/other/brk.c`. Integers have 16 bits and pointers
32. A slot is known by the address of its part that is visible to the user, behind the pointer to
the next slot. Whether the memory manager grants what `brk` asks for is told by the heap. A function
does not return when an assertion fails.
-/

namespace Minix.Ansi

open Lib

def PTRSIZE : ℕ := 4
def BRKSIZE : ℕ := 1024

/-- An unsigned number. -/
def toUnsigned (n : ℕ) : ℕ := n % 2 ^ 16

/-- An address. -/
def toAddr (n : ℕ) : ℕ := n % 2 ^ 32

/-- `Align(x, a)`, of which the sum in front of the mask is given. -/
def alignDown (x a : ℕ) : ℕ := x / a * a

/-- The memory of a process, with what the allocator knows of it. -/
structure Heap where
  mem : Bytes
  _bottom : Option ℕ
  _top : Option ℕ
  _empty : Option ℕ
  brksize : ℕ
  /-- What the memory manager grants, from this time on. -/
  grants : ℕ → Bool

def Heap.nextSlot (h : Heap) (p : ℕ) : Option ℕ := loadPtr h.mem (p - PTRSIZE)

def Heap.nextFree (h : Heap) (p : ℕ) : Option ℕ := loadPtr h.mem p

def Heap.setNextSlot (h : Heap) (p : ℕ) (q : Option ℕ) : Heap :=
  { h with mem := storePtr h.mem (p - PTRSIZE) q }

def Heap.setNextFree (h : Heap) (p : ℕ) (q : Option ℕ) : Heap :=
  { h with mem := storePtr h.mem p q }

/-- The pointer to a free slot, in the one in front of it or in `_empty`. -/
def Heap.setPrev (h : Heap) (prev q : Option ℕ) : Heap :=
  match prev with
  | some prev => h.setNextFree prev q
  | none => { h with _empty := q }

/-- More than there are slots. -/
def maxSlots : ℕ := 2 ^ 32

/-- Search the list of the free slots, with the slot in front of the one that is found. -/
def Heap.findFree (h : Heap) (test : ℕ → Bool) : Option (Option ℕ × Option ℕ) :=
  scan h.nextFree test maxSlots none h._empty

/-! ## Asking for memory -/

def brk (h : Heap) (addr : ℕ) : Bool × Heap :=
  let h' : Heap := { h with grants := fun n => h.grants (n + 1) }
  if h.grants 0 then (true, { h' with brksize := addr }) else (false, h')

def sbrk (h : Heap) (incr : ℕ) : Option ℕ × Heap :=
  let newsize := toAddr (h.brksize + incr)
  if newsize < h.brksize then (none, h)
  else
    let (ok, h') := brk h newsize
    (if ok then some h.brksize else none, h')

/-! ## Freeing -/

/-- Merge a slot with the one behind it, which is the next one on the list of the free slots too. -/
def Heap.merge (h : Heap) (p next : ℕ) : Heap :=
  let h := h.setNextSlot p (h.nextSlot next)
  h.setNextFree p (h.nextFree next)

/-- Merge two slots that follow each other on the list of the free slots, if both are there and
nothing is between them. -/
def Heap.tryMerge (h : Heap) (p next : Option ℕ) : Option Heap :=
  match p, next with
  | some p, some next =>
    if ofPtr (h.nextSlot p) ≤ next then
      some (if h.nextSlot p = some next then h.merge p next else h)
    else none
  | _, _ => some h

def free (h : Heap) (p : ℕ) : Option Heap :=
  if ofPtr (h.nextSlot p) > p then do
    let (prev, next) ← h.findFree fun next => p < next
    let h := (h.setNextFree p next).setPrev prev (some p)
    let h ← h.tryMerge (some p) next
    h.tryMerge prev (some p)
  else none

/-! ## Allocating -/

/-- The length of a slot with room for a number of bytes, which may overflow. -/
def slotLen (size : ℕ) : ℕ :=
  toUnsigned (alignDown (toUnsigned (size + (PTRSIZE - 1))) PTRSIZE + PTRSIZE)

/-- Append a free slot to the last one. -/
def grow (h : Heap) (len : ℕ) : Option (Bool × Heap) := do
  let top ← h._top
  if h.nextSlot top = none then
    let p := alignDown (toAddr (top + len + (BRKSIZE - 1))) BRKSIZE
    if p < top then some (false, h)
    else
      let (ok, h) := brk h p
      if ok then do
        let h := (h.setNextSlot top (some p)).setNextSlot p none
        let h ← free h top
        some (true, { h with _top := some p })
      else some (false, h)
  else none

/-- Make the first slot, if there is none. -/
def firstSlot (h : Heap) : Option (Bool × Heap) :=
  match h._bottom with
  | some _ => some (true, h)
  | none =>
    match sbrk h (2 * PTRSIZE) with
    | (none, h) => some (false, h)
    | (some p, h) =>
      let p := alignDown (toAddr (p + (PTRSIZE - 1))) PTRSIZE
      if toAddr (p + PTRSIZE) > p then
        let p := toAddr (p + PTRSIZE)
        let h := { h with
          _bottom := some p
          _top := some p }
        some (true, h.setNextSlot p none)
      else none

/-- Whether a length fits into a free slot. The end easily overflows. -/
def Heap.fits (h : Heap) (len p : ℕ) : Bool :=
  let next := ofPtr (h.nextSlot p)
  let new := toAddr (p + len)
  ¬(new > next ∨ new ≤ p)

/-- Whether a slot is too big for what it is to end at. -/
def tooBig (new : ℕ) (next : Option ℕ) : Bool := toAddr (new + PTRSIZE) < ofPtr next

/-- A free slot is taken off the list, and split if it is too big. -/
def Heap.takeSlot (h : Heap) (prev : Option ℕ) (p len : ℕ) : Option Heap := do
  let next := h.nextSlot p
  let new := toAddr (p + len)
  let h ←
    if tooBig new next then
      if toAddr (new + PTRSIZE) > new then
        let h := (h.setNextSlot new next).setNextSlot p (some new)
        let h := h.setNextFree new (h.nextFree p)
        some (h.setNextFree p (some new))
      else none
    else some h
  some (h.setPrev prev (h.nextFree p))

/-- The tries of `malloc`, of which `n` are left. -/
def mallocTry (size : ℕ) : ℕ → Heap → Option (Option ℕ × Heap)
  | 0, _ => none
  | n + 1, h =>
    let len := slotLen size
    if len < 2 * PTRSIZE then some (none, h)
    else do
      let (ok, h) ← firstSlot h
      if ok then do
        let (prev, p) ← h.findFree (h.fits len)
        match p with
        | some p => do
          let h ← h.takeSlot prev p len
          some (some p, h)
        | none => do
          let (ok, h) ← grow h len
          if ok then mallocTry size n h else some (none, h)
      else some (none, h)

def malloc (h : Heap) (size : ℕ) : Option (Option ℕ × Heap) :=
  mallocTry (if size = 0 then PTRSIZE else size) 2 h

/-! ## Other allocations -/

/-- `memcpy`, of bytes that do not overlap. -/
def Heap.copy (h : Heap) (new old n : ℕ) : Heap :=
  { h with mem := fun k => if new ≤ k ∧ k < new + n then h.mem (old + (k - new)) else h.mem k }

/-- Extend a slot if there is any free space just behind it. -/
def Heap.extend (h : Heap) (old : ℕ) : Option Heap := do
  let next := ofPtr (h.nextSlot old)
  match ← h.findFree fun p => p ≥ next with
  | (prev, some p) =>
    if p = next then
      let h := h.setNextSlot old (h.nextSlot p)
      some (h.setPrev prev (h.nextFree p))
    else some h
  | (_, none) => some h

def realloc (h : Heap) (old size : ℕ) : Option (Option ℕ × Heap) :=
  if size > toUnsigned (2 ^ 16 - 2 * PTRSIZE) then some (none, h)
  else do
    let len := slotLen size
    let n := toUnsigned (ofPtr (h.nextSlot old) - old)
    let h ← h.extend old
    let next := h.nextSlot old
    let new := toAddr (old + len)
    if new ≤ ofPtr next ∧ new ≥ old then
      if tooBig new next then
        if toAddr (new + PTRSIZE) > new then do
          let h ← free ((h.setNextSlot new next).setNextSlot old (some new)) new
          some (some old, h)
        else none
      else some (some old, h)
    else do
      let (new, h) ← malloc h size
      match new with
      | none => some (none, h)
      | some new => do
        let h ← free (h.copy new old n) old
        some (some new, h)

def calloc (h : Heap) (n size : ℕ) : Option (Option ℕ × Heap) := do
  let n := toUnsigned (n * size)
  let (cp, h) ← malloc h n
  match cp with
  | none => some (none, h)
  | some cp =>
    some (some cp, { h with mem := fun k => if cp ≤ k ∧ k < cp + n then 0 else h.mem k })

end Minix.Ansi
