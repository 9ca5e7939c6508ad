import Mathlib.Logic.Function.Basic
import Minix.Lib.TicketRing

/-!
# The lock-free message queue

`minix_atomic_enqueue` and `minix_atomic_dequeue` of `llvm/intrinsics/atomic.ll`, by any number of
threads, one atomic access after the other. The head and the tail of the queue are words of an index
and a tag. A thread claims an index with a `cmpxchg` and accesses its slot later, so that the slots
of the queue are those of a ring with tickets (`History.ring`), whose tickets may be used out of
their turn. When they are not, the queue is one (`message_queue`); otherwise a thread may be given
what another one has been given already (`message_queue_twice`).
-/

namespace Minix.Llvm

open Lib

/-- A `ptr`. -/
abbrev Ptr : Type := BitVec 64

/-- An index and a tag in a word: the lower half is the index. -/
def packIdx (idx tag : BitVec 32) : BitVec 64 := idx.setWidth 64 ||| tag.setWidth 64 <<< 32

/-- The index of a word. -/
def idxOf (w : BitVec 64) : BitVec 32 := w.setWidth 32

/-- The tag of a word. -/
def tagOf (w : BitVec 64) : BitVec 32 := (w >>> 32).setWidth 32

/-- The next tag, which skips 0 when it wraps. -/
def nextTag (tag : BitVec 32) : BitVec 32 := if tag + 1 = 0 then 1 else tag + 1

/-- The next index. -/
def nextIdx (idx capacity : BitVec 32) : BitVec 32 := (idx + 1) % capacity

/-- The word that replaces one when its index is claimed. -/
def nextWord (w : BitVec 64) (capacity : BitVec 32) : BitVec 64 :=
  packIdx (nextIdx (idxOf w) capacity) (nextTag (tagOf w))

/-- `%msg_queue`, with the elements of its ring buffer. -/
structure MsgQueue where
  ring : ℕ → Ptr
  head : BitVec 64
  tail : BitVec 64
  capacity : BitVec 32

/-- Where a thread is: out of the functions, or in front of an access, with what it has loaded. -/
inductive Pc
  | idle
  | enqTail (msg : Ptr)
  | enqHead (msg : Ptr) (tail : BitVec 64)
  | enqCas (msg : Ptr) (tail : BitVec 64)
  | enqStore (msg : Ptr) (tail : BitVec 64)
  | deqHead
  | deqTail (head : BitVec 64)
  | deqCas (head : BitVec 64)
  | deqLoad (head : BitVec 64)
  deriving DecidableEq

/-- What a function returns: 0 or 1, or a message. -/
inductive Ret
  | status (n : BitVec 32)
  | msg (p : Ptr)

/-- An access by a thread, and what it goes on with. -/
def Pc.next (q : MsgQueue) : Pc → Option (MsgQueue × Pc × Option Ret)
  | .idle => none
  | .enqTail msg => some (q, .enqHead msg q.tail, none)
  | .enqHead msg tail =>
    if nextIdx (idxOf tail) q.capacity = idxOf q.head then some (q, .idle, some (.status 1))
    else some (q, .enqCas msg tail, none)
  | .enqCas msg tail =>
    if q.tail = tail then some ({ q with tail := nextWord tail q.capacity }, .enqStore msg tail, none)
    else some (q, .enqTail msg, none)
  | .enqStore msg tail =>
    some ({ q with ring := Function.update q.ring (idxOf tail).toNat msg }, .idle, some (.status 0))
  | .deqHead => some (q, .deqTail q.head, none)
  | .deqTail head =>
    if idxOf head = idxOf q.tail then some (q, .idle, some (.msg 0))
    else some (q, .deqCas head, none)
  | .deqCas head =>
    if q.head = head then some ({ q with head := nextWord head q.capacity }, .deqLoad head, none)
    else some (q, .deqHead, none)
  | .deqLoad head => some (q, .idle, some (.msg (q.ring (idxOf head).toNat)))

/-- The functions that a thread calls. -/
inductive QueueCall
  | enqueue (msg : Ptr)
  | dequeue

/-- Where a call begins. -/
def QueueCall.start : QueueCall → Pc
  | .enqueue msg => .enqTail msg
  | .dequeue => .deqHead

/-- A queue and its threads. -/
structure QueueState (T : Type*) where
  queue : MsgQueue
  pc : T → Pc

/-- A thread calls a function, or makes an access, with what it returns then. -/
inductive QueueAct (T : Type*)
  | call (t : T) (c : QueueCall)
  | run (t : T) (r : Option Ret)

variable {T : Type*} [DecidableEq T]

/-- A step of a thread. -/
inductive QueueStep (s : QueueState T) : QueueAct T → QueueState T → Prop
  | call {t : T} (c : QueueCall) (h : s.pc t = .idle) :
      QueueStep s (.call t c) { s with pc := Function.update s.pc t c.start }
  | run {t : T} {q : MsgQueue} {p : Pc} {r : Option Ret} (h : (s.pc t).next s.queue = some (q, p, r)) :
      QueueStep s (.run t r) ⟨q, Function.update s.pc t p⟩

/-! ## What has happened -/

/-- A queue with its history: the messages of the calls that have started, those whose calls have
claimed a place in the queue, in order, the number of places that have been claimed by dequeues, the
place that each thread claimed last, and what has been returned for a place. -/
structure History (T : Type*) where
  state : QueueState T
  started : List Ptr
  put : List Ptr
  taken : ℕ
  place : T → ℕ
  out : List (ℕ × Ptr)

/-- The history goes on with a step. -/
def History.record (w : History T) : QueueAct T → QueueState T → History T
  | .call _ (.enqueue msg), s => { w with state := s, started := w.started ++ [msg] }
  | .call _ .dequeue, s => { w with state := s }
  | .run t r, s =>
    match w.state.pc t, r with
    | .enqCas msg tail, _ =>
      if w.state.queue.tail = tail then
        { w with
          state := s
          put := w.put ++ [msg]
          place := Function.update w.place t w.put.length }
      else { w with state := s }
    | .deqCas head, _ =>
      if w.state.queue.head = head then
        { w with state := s, taken := w.taken + 1, place := Function.update w.place t w.taken }
      else { w with state := s }
    | .deqLoad _, some (.msg p) => { w with state := s, out := w.out ++ [(w.place t, p)] }
    | _, _ => { w with state := s }

/-- A step with its history. -/
def HistoryStep (w : History T) (act : QueueAct T) (w' : History T) : Prop :=
  ∃ s, QueueStep w.state act s ∧ w' = w.record act s

/-- An empty queue, with whatever in its slots. -/
structure QueueStart (w : History T) : Prop where
  capacity : 2 ≤ w.state.queue.capacity.toNat
  head : w.state.queue.head = 0
  tail : w.state.queue.tail = 0
  idle : ∀ t, w.state.pc t = .idle
  started : w.started = []
  put : w.put = []
  taken : w.taken = 0
  out : w.out = []

/-- When nothing goes wrong with the step of a thread: a place is not claimed in a queue that is
full or empty by then, and a slot is accessed in the order in which it was claimed. -/
structure InTurn (w : History T) (t : T) : Prop where
  notFull : ∀ msg tail, w.state.pc t = .enqCas msg tail → w.state.queue.tail = tail →
    nextIdx (idxOf tail) w.state.queue.capacity ≠ idxOf w.state.queue.head
  notEmpty : ∀ head, w.state.pc t = .deqCas head → w.state.queue.head = head →
    idxOf head ≠ idxOf w.state.queue.tail
  store : ∀ msg tail, w.state.pc t = .enqStore msg tail → ∀ t',
    (∀ msg' tail', w.state.pc t' = .enqStore msg' tail' → idxOf tail' = idxOf tail →
      w.place t ≤ w.place t') ∧
    ∀ head, w.state.pc t' = .deqLoad head → idxOf head = idxOf tail → w.place t ≤ w.place t'
  load : ∀ head, w.state.pc t = .deqLoad head → ∀ t',
    (∀ msg tail, w.state.pc t' = .enqStore msg tail → idxOf tail = idxOf head →
      w.place t < w.place t') ∧
    ∀ head', w.state.pc t' = .deqLoad head' → idxOf head' = idxOf head → w.place t ≤ w.place t'

/-- A step with which nothing goes wrong. -/
def InTurnStep (w : History T) (act : QueueAct T) (w' : History T) : Prop :=
  HistoryStep w act w' ∧ match act with
    | .run t _ => InTurn w t
    | .call .. => True

/-- What the slots from the head to the tail hold. -/
def MsgQueue.content (q : MsgQueue) : List Ptr :=
  (List.range (((idxOf q.tail).toNat + q.capacity.toNat - (idxOf q.head).toNat) %
    q.capacity.toNat)).map fun i => q.ring (((idxOf q.head).toNat + i) % q.capacity.toNat)

/-- What a queue should be. -/
structure QueueOk (w : History T) : Prop where
  /-- What is returned for a place was passed to the enqueue that claimed it. -/
  returned : ∀ p ∈ w.out, w.put[p.1]? = some p.2
  started : ∀ msg ∈ w.put, msg ∈ w.started
  /-- Nothing is returned twice. -/
  once : (w.out.map Prod.fst).Nodup
  /-- When all calls have returned, what was returned and what is in the slots is what was put. -/
  quiet : (∀ t, w.state.pc t = .idle) → ∃ l : List (ℕ × Ptr), l.Perm w.out ∧
    l.map Prod.fst = List.range w.taken ∧ l.map Prod.snd ++ w.state.queue.content = w.put

/-! ## Words -/

variable {w w' : History T} {s : QueueState T} {q : MsgQueue} {t t' : T} {act : QueueAct T}
  {idx tag capacity : BitVec 32} {msg : Ptr} {head tail : BitVec 64} {p : Pc} {r : Option Ret}

@[simp]
theorem idxOf_packIdx : idxOf (packIdx idx tag) = idx := by
  unfold idxOf packIdx
  ext i hi
  simp

@[simp]
theorem tagOf_packIdx : tagOf (packIdx idx tag) = tag := by
  unfold tagOf packIdx
  ext i hi
  have h64 : 32 + i < 64 := by omega
  have h32 : ¬32 + i < 32 := by omega
  simp [h64, h32, BitVec.getLsbD_eq_getElem hi]

/-- Indices go round. -/
theorem toNat_nextIdx (h : 2 ≤ capacity.toNat) {n : ℕ} (hn : idx.toNat = n % capacity.toNat) :
    (nextIdx idx capacity).toNat = (n + 1) % capacity.toNat := by
  have hlt : n % capacity.toNat < capacity.toNat := Nat.mod_lt _ (by omega)
  have hcap := capacity.isLt
  have hsum : (idx + 1).toNat = n % capacity.toNat + 1 := by
    rw [BitVec.toNat_add, hn]
    exact Nat.mod_eq_of_lt (by simp; omega)
  calc (nextIdx idx capacity).toNat = (idx + 1).toNat % capacity.toNat := BitVec.toNat_umod
    _ = (n % capacity.toNat + 1) % capacity.toNat := by rw [hsum]
    _ = (n + 1) % capacity.toNat := Nat.mod_add_mod ..

/-! ## The ring of a queue -/

/-- A thread is about to store a message in the slot that it has claimed. -/
def Pc.Stores : Pc → Prop
  | .enqStore .. => True
  | _ => False

/-- A thread is about to load from the slot that it has claimed. -/
def Pc.Loads : Pc → Prop
  | .deqLoad _ => True
  | _ => False

/-- The places of the threads that are somewhere. -/
def places (P : Pc → Prop) (pc : T → Pc) (place : T → ℕ) : Set ℕ := {k | ∃ t, P (pc t) ∧ place t = k}

/-- The ring of a queue, in which the places are tickets. -/
def History.ring (w : History T) : TicketRing Ptr where
  size := w.state.queue.capacity.toNat
  slot := w.state.queue.ring
  put := w.put
  taken := w.taken
  putting := places Pc.Stores w.state.pc w.place
  taking := places Pc.Loads w.state.pc w.place
  out := w.out

/-- The messages that a thread may still enqueue. -/
def Pc.enqueues : Pc → Option Ptr
  | .enqTail msg | .enqHead msg _ | .enqCas msg _ => some msg
  | _ => none

/-- What holds of a queue when all slots are accessed in turn. -/
structure QueueInv (w : History T) : Prop where
  ring : TicketInv w.ring
  capacity : 2 ≤ w.state.queue.capacity.toNat
  head : (idxOf w.state.queue.head).toNat = w.taken % w.state.queue.capacity.toNat
  tail : (idxOf w.state.queue.tail).toNat = w.put.length % w.state.queue.capacity.toNat
  store : ∀ t msg tail, w.state.pc t = .enqStore msg tail →
    (idxOf tail).toNat = w.place t % w.state.queue.capacity.toNat ∧ w.put[w.place t]? = some msg
  load : ∀ t head, w.state.pc t = .deqLoad head →
    (idxOf head).toNat = w.place t % w.state.queue.capacity.toNat
  /-- No place is claimed by two threads. -/
  store_inj : ∀ t t', (w.state.pc t).Stores → (w.state.pc t').Stores → w.place t = w.place t' → t = t'
  load_inj : ∀ t t', (w.state.pc t).Loads → (w.state.pc t').Loads → w.place t = w.place t' → t = t'
  started : ∀ msg ∈ w.put, msg ∈ w.started
  calls : ∀ t, ∀ msg ∈ (w.state.pc t).enqueues, msg ∈ w.started

/-! ## The places of the threads -/

section Places

variable {P : Pc → Prop} {pc : T → Pc} {place place' : T → ℕ}

/-- A thread comes there, with a place. -/
theorem places_insert (hpc : ¬P (pc t)) (hp : P p) (hplace : ∀ t' ≠ t, place' t' = place t') :
    places P (Function.update pc t p) place' = insert (place' t) (places P pc place) := by
  ext k
  constructor
  · rintro ⟨t', ht', rfl⟩
    by_cases heq : t' = t
    · rw [heq]
      exact Or.inl rfl
    · rw [Function.update_of_ne heq] at ht'
      exact Or.inr ⟨t', ht', (hplace t' heq).symm⟩
  · rintro (rfl | ⟨t', ht', rfl⟩)
    · exact ⟨t, by rwa [Function.update_self], rfl⟩
    · have hne : t' ≠ t := by
        rintro rfl
        exact hpc ht'
      exact ⟨t', by rwa [Function.update_of_ne hne], hplace t' hne⟩

/-- A thread goes from there. -/
theorem places_erase (hpc : P (pc t)) (hp : ¬P p)
    (hinj : ∀ t t', P (pc t) → P (pc t') → place t = place t' → t = t') :
    places P (Function.update pc t p) place = places P pc place \ {place t} := by
  ext k
  constructor
  · rintro ⟨t', ht', rfl⟩
    have hne : t' ≠ t := by
      rintro rfl
      rw [Function.update_self] at ht'
      exact hp ht'
    rw [Function.update_of_ne hne] at ht'
    exact ⟨⟨t', ht', rfl⟩, fun e => hne (hinj _ _ ht' hpc e)⟩
  · rintro ⟨⟨t', ht', rfl⟩, hk⟩
    have hne : t' ≠ t := by
      rintro rfl
      exact hk rfl
    exact ⟨t', by rwa [Function.update_of_ne hne], rfl⟩

/-- A thread goes elsewhere. -/
theorem places_other (hpc : ¬P (pc t)) (hp : ¬P p) (hplace : ∀ t' ≠ t, place' t' = place t') :
    places P (Function.update pc t p) place' = places P pc place := by
  ext k
  constructor
  · rintro ⟨t', ht', rfl⟩
    have hne : t' ≠ t := by
      rintro rfl
      rw [Function.update_self] at ht'
      exact hp ht'
    rw [Function.update_of_ne hne] at ht'
    exact ⟨t', ht', (hplace t' hne).symm⟩
  · rintro ⟨t', ht', rfl⟩
    have hne : t' ≠ t := by
      rintro rfl
      exact hpc ht'
    exact ⟨t', by rwa [Function.update_of_ne hne], hplace t' hne⟩

/-- Threads have places of their own also when one has come there with a place that nobody had. -/
theorem place_inj_insert (hinj : ∀ t t', P (pc t) → P (pc t') → place t = place t' → t = t')
    (hplace : ∀ t' ≠ t, place' t' = place t') (hnew : place' t ∉ places P pc place) :
    ∀ t₁ t₂, P (Function.update pc t p t₁) → P (Function.update pc t p t₂) →
      place' t₁ = place' t₂ → t₁ = t₂ := by
  intro t₁ t₂ h₁ h₂ heq
  by_cases e₁ : t₁ = t
  · by_cases e₂ : t₂ = t
    · rw [e₁, e₂]
    · rw [Function.update_of_ne e₂] at h₂
      rw [e₁, hplace t₂ e₂] at heq
      exact absurd ⟨t₂, h₂, heq.symm⟩ hnew
  · rw [Function.update_of_ne e₁] at h₁
    by_cases e₂ : t₂ = t
    · rw [e₂, hplace t₁ e₁] at heq
      exact absurd ⟨t₁, h₁, heq⟩ hnew
    · rw [Function.update_of_ne e₂] at h₂
      rw [hplace t₁ e₁, hplace t₂ e₂] at heq
      exact hinj t₁ t₂ h₁ h₂ heq

/-- Threads have places of their own also when one has gone elsewhere. -/
theorem place_inj_other (hinj : ∀ t t', P (pc t) → P (pc t') → place t = place t' → t = t')
    (hp : ¬P p) (hplace : ∀ t' ≠ t, place' t' = place t') :
    ∀ t₁ t₂, P (Function.update pc t p t₁) → P (Function.update pc t p t₂) →
      place' t₁ = place' t₂ → t₁ = t₂ := by
  have hne : ∀ t', P (Function.update pc t p t') → t' ≠ t := by
    rintro t' h rfl
    rw [Function.update_self] at h
    exact hp h
  intro t₁ t₂ h₁ h₂ heq
  have e₁ := hne t₁ h₁
  have e₂ := hne t₂ h₂
  rw [Function.update_of_ne e₁] at h₁
  rw [Function.update_of_ne e₂] at h₂
  rw [hplace t₁ e₁, hplace t₂ e₂] at heq
  exact hinj t₁ t₂ h₁ h₂ heq

end Places

/-! ## Steps -/

/-- Where a thread neither stores nor loads, before and after a step, the ring is the same. -/
theorem QueueInv.move (h : QueueInv w) (hstore : ¬(w.state.pc t).Stores)
    (hload : ¬(w.state.pc t).Loads) (hstore' : ¬p.Stores) (hload' : ¬p.Loads) {started : List Ptr}
    (hsub : ∀ msg ∈ w.started, msg ∈ started) (hcalls : ∀ msg ∈ p.enqueues, msg ∈ started) :
    QueueInv { w with
      state := ⟨w.state.queue, Function.update w.state.pc t p⟩
      started := started } := by
  have hold : ∀ t', (Function.update w.state.pc t p t').Stores ∨
      (Function.update w.state.pc t p t').Loads → Function.update w.state.pc t p t' = w.state.pc t' := by
    intro t' h'
    by_cases heq : t' = t
    · rw [heq, Function.update_self] at h'
      exact (h'.elim hstore' hload').elim
    · rw [Function.update_of_ne heq]
  constructor
  · have hring : History.ring { w with
        state := ⟨w.state.queue, Function.update w.state.pc t p⟩
        started := started } = w.ring := by
      unfold History.ring
      dsimp only
      rw [places_other hstore hstore' fun _ _ => rfl, places_other hload hload' fun _ _ => rfl]
    rw [hring]
    exact h.ring
  · exact h.capacity
  · exact h.head
  · exact h.tail
  · intro t' msg tail ht'
    dsimp only at ht'
    have := hold t' (Or.inl (by rw [ht']; trivial))
    exact h.store t' msg tail (this.symm.trans ht')
  · intro t' head ht'
    dsimp only at ht'
    have := hold t' (Or.inr (by rw [ht']; trivial))
    exact h.load t' head (this.symm.trans ht')
  · exact place_inj_other h.store_inj hstore' fun _ _ => rfl
  · exact place_inj_other h.load_inj hload' fun _ _ => rfl
  · exact fun msg hmsg => hsub msg (h.started msg hmsg)
  · intro t' msg hmsg
    dsimp only at hmsg
    by_cases heq : t' = t
    · rw [heq, Function.update_self] at hmsg
      exact hcalls msg hmsg
    · rw [Function.update_of_ne heq] at hmsg
      exact hsub msg (h.calls t' msg hmsg)

/-- A thread that claims a place to enqueue a message. -/
theorem QueueInv.claimPut (h : QueueInv w) (hpc : w.state.pc t = .enqCas msg tail)
    (htail : w.state.queue.tail = tail)
    (hfull : nextIdx (idxOf tail) w.state.queue.capacity ≠ idxOf w.state.queue.head) :
    QueueInv { w with
      state := ⟨{ w.state.queue with tail := nextWord tail w.state.queue.capacity },
        Function.update w.state.pc t (.enqStore msg tail)⟩
      put := w.put ++ [msg]
      place := Function.update w.place t w.put.length } := by
  subst htail
  have hplace : ∀ t' ≠ t, Function.update w.place t w.put.length t' = w.place t' := fun t' hne =>
    Function.update_of_ne hne _ _
  have hstore : ¬(w.state.pc t).Stores := by
    rw [hpc]
    exact id
  have hload : ¬(w.state.pc t).Loads := by
    rw [hpc]
    exact id
  have hnext := toNat_nextIdx h.capacity h.tail
  have hput : ∀ t', (w.state.pc t').Stores → w.place t' < w.put.length := fun t' ht' =>
    h.ring.putting _ ⟨t', ht', rfl⟩
  -- There is room for one more, since the next index is not that of the head.
  have hroom : w.put.length + 1 < w.taken + w.state.queue.capacity.toNat := by
    have hlt : w.put.length < w.taken + w.state.queue.capacity.toNat := h.ring.room
    refine lt_of_le_of_ne hlt fun heq => hfull (BitVec.eq_of_toNat_eq ?_)
    rw [hnext, h.head, heq, Nat.add_mod_right]
  constructor
  · have hring := h.ring.drawPut hroom msg
    unfold History.ring at hring ⊢
    dsimp only at hring ⊢
    rw [places_insert hstore (show (Pc.enqStore msg _).Stores from trivial) hplace,
      places_other hload (show ¬(Pc.enqStore msg _).Loads from id) hplace, Function.update_self]
    exact hring
  · exact h.capacity
  · exact h.head
  · show (idxOf (nextWord _ _)).toNat = (w.put ++ [msg]).length % _
    unfold nextWord
    rw [idxOf_packIdx, hnext, List.length_append, List.length_singleton]
  · intro t' msg' tail' ht'
    dsimp only at ht' ⊢
    by_cases heq : t' = t
    · rw [heq, Function.update_self] at ht'
      obtain ⟨rfl, rfl⟩ := Pc.enqStore.inj ht'
      rw [heq, Function.update_self, List.getElem?_concat_length]
      exact ⟨h.tail, rfl⟩
    · rw [Function.update_of_ne heq] at ht'
      have hlt := hput t' (by rw [ht']; trivial)
      rw [hplace t' heq, List.getElem?_append_left hlt]
      exact h.store t' msg' tail' ht'
  · intro t' head ht'
    dsimp only at ht' ⊢
    have heq : t' ≠ t := by
      rintro rfl
      rw [Function.update_self] at ht'
      exact Pc.noConfusion ht'
    rw [Function.update_of_ne heq] at ht'
    rw [hplace t' heq]
    exact h.load t' head ht'
  · refine place_inj_insert h.store_inj hplace ?_
    rintro ⟨t', ht', heq⟩
    have hlt := hput t' ht'
    dsimp only at heq
    rw [Function.update_self] at heq
    omega
  · exact place_inj_other h.load_inj id hplace
  · intro m hm
    rcases List.mem_append.mp hm with hm | hm
    · exact h.started m hm
    · obtain rfl := List.mem_singleton.mp hm
      exact h.calls t m (by rw [hpc]; rfl)
  · intro t' m hm
    dsimp only at hm
    by_cases heq : t' = t
    · rw [heq, Function.update_self] at hm
      exact absurd hm (by simp [Pc.enqueues])
    · rw [Function.update_of_ne heq] at hm
      exact h.calls t' m hm

/-- A thread that claims a place to dequeue a message. -/
theorem QueueInv.claimTake (h : QueueInv w) (hpc : w.state.pc t = .deqCas head)
    (hhead : w.state.queue.head = head) (hempty : idxOf head ≠ idxOf w.state.queue.tail) :
    QueueInv { w with
      state := ⟨{ w.state.queue with head := nextWord head w.state.queue.capacity },
        Function.update w.state.pc t (.deqLoad head)⟩
      taken := w.taken + 1
      place := Function.update w.place t w.taken } := by
  subst hhead
  have hplace : ∀ t' ≠ t, Function.update w.place t w.taken t' = w.place t' := fun t' hne =>
    Function.update_of_ne hne _ _
  have hstore : ¬(w.state.pc t).Stores := by
    rw [hpc]
    exact id
  have hload : ¬(w.state.pc t).Loads := by
    rw [hpc]
    exact id
  have htaking : ∀ t', (w.state.pc t').Loads → w.place t' < w.taken := fun t' ht' =>
    h.ring.taking _ ⟨t', ht', rfl⟩
  have hsome : w.taken < w.put.length := by
    have hle : w.taken ≤ w.put.length := h.ring.le
    refine lt_of_le_of_ne hle fun heq => hempty (BitVec.eq_of_toNat_eq ?_)
    rw [h.head, h.tail, heq]
  constructor
  · have hring := h.ring.drawTake hsome
    unfold History.ring at hring ⊢
    dsimp only at hring ⊢
    rw [places_other hstore (show ¬(Pc.deqLoad _).Stores from id) hplace,
      places_insert hload (show (Pc.deqLoad _).Loads from trivial) hplace, Function.update_self]
    exact hring
  · exact h.capacity
  · show (idxOf (nextWord _ _)).toNat = _
    unfold nextWord
    rw [idxOf_packIdx, toNat_nextIdx h.capacity h.head]
  · exact h.tail
  · intro t' msg tail ht'
    dsimp only at ht' ⊢
    have heq : t' ≠ t := by
      rintro rfl
      rw [Function.update_self] at ht'
      exact Pc.noConfusion ht'
    rw [Function.update_of_ne heq] at ht'
    rw [hplace t' heq]
    exact h.store t' msg tail ht'
  · intro t' head ht'
    dsimp only at ht' ⊢
    by_cases heq : t' = t
    · rw [heq, Function.update_self] at ht'
      obtain rfl := Pc.deqLoad.inj ht'
      rw [heq, Function.update_self]
      exact h.head
    · rw [Function.update_of_ne heq] at ht'
      rw [hplace t' heq]
      exact h.load t' head ht'
  · exact place_inj_other h.store_inj id hplace
  · refine place_inj_insert h.load_inj hplace ?_
    rintro ⟨t', ht', heq⟩
    have hlt := htaking t' ht'
    dsimp only at heq
    rw [Function.update_self] at heq
    omega
  · exact h.started
  · intro t' m hm
    dsimp only at hm
    by_cases heq : t' = t
    · rw [heq, Function.update_self] at hm
      exact absurd hm (by simp [Pc.enqueues])
    · rw [Function.update_of_ne heq] at hm
      exact h.calls t' m hm

/-- A thread that stores its message in turn. -/
theorem QueueInv.storeMsg (h : QueueInv w) (hpc : w.state.pc t = .enqStore msg tail)
    (hturn : InTurn w t) :
    QueueInv { w with
      state := ⟨{ w.state.queue with
        ring := Function.update w.state.queue.ring (idxOf tail).toNat msg },
        Function.update w.state.pc t .idle⟩ } := by
  obtain ⟨hidx, hmsg⟩ := h.store t msg tail hpc
  have hstore : (w.state.pc t).Stores := by
    rw [hpc]
    trivial
  have hload : ¬(w.state.pc t).Loads := by
    rw [hpc]
    exact id
  have hne : ∀ t', Function.update w.state.pc t Pc.idle t' ≠ Pc.idle → t' ≠ t := by
    rintro t' h' rfl
    exact h' (Function.update_self ..)
  -- The turn of the thread is that of its ticket.
  have hputTurn : w.ring.PutTurn (w.place t) := by
    constructor
    · rintro _ ⟨t', ht', rfl⟩ hsame
      cases hpc' : w.state.pc t' with
      | enqStore msg' tail' =>
        obtain ⟨hidx', -⟩ := h.store t' msg' tail' hpc'
        exact (hturn.store msg tail hpc t').1 msg' tail' hpc'
          (BitVec.eq_of_toNat_eq (hidx'.trans (hsame.trans hidx.symm)))
      | _ =>
        rw [hpc'] at ht'
        exact absurd ht' id
    · rintro _ ⟨t', ht', rfl⟩ hsame
      cases hpc' : w.state.pc t' with
      | deqLoad head' =>
        have hidx' := h.load t' head' hpc'
        exact (hturn.store msg tail hpc t').2 head' hpc'
          (BitVec.eq_of_toNat_eq (hidx'.trans (hsame.trans hidx.symm)))
      | _ =>
        rw [hpc'] at ht'
        exact absurd ht' id
  constructor
  · have hring := h.ring.store ⟨t, hstore, rfl⟩ hmsg hputTurn
    unfold History.ring at hring ⊢
    dsimp only at hring ⊢
    rw [places_erase hstore (show ¬Pc.idle.Stores from id) h.store_inj,
      places_other hload (show ¬Pc.idle.Loads from id) fun _ _ => rfl, hidx]
    exact hring
  · exact h.capacity
  · exact h.head
  · exact h.tail
  · intro t' msg' tail' ht'
    dsimp only at ht'
    rw [Function.update_of_ne (hne t' (by rw [ht']; exact Pc.noConfusion))] at ht'
    exact h.store t' msg' tail' ht'
  · intro t' head ht'
    dsimp only at ht'
    rw [Function.update_of_ne (hne t' (by rw [ht']; exact Pc.noConfusion))] at ht'
    exact h.load t' head ht'
  · exact place_inj_other h.store_inj id fun _ _ => rfl
  · exact place_inj_other h.load_inj id fun _ _ => rfl
  · exact h.started
  · intro t' m hm
    dsimp only at hm
    by_cases heq : t' = t
    · rw [heq, Function.update_self] at hm
      exact absurd hm (by simp [Pc.enqueues])
    · rw [Function.update_of_ne heq] at hm
      exact h.calls t' m hm

/-- A thread that loads its message in turn. -/
theorem QueueInv.loadMsg (h : QueueInv w) (hpc : w.state.pc t = .deqLoad head) (hturn : InTurn w t) :
    QueueInv { w with
      state := ⟨w.state.queue, Function.update w.state.pc t .idle⟩
      out := w.out ++ [(w.place t, w.state.queue.ring (idxOf head).toNat)] } := by
  have hidx := h.load t head hpc
  have hstore : ¬(w.state.pc t).Stores := by
    rw [hpc]
    exact id
  have hload : (w.state.pc t).Loads := by
    rw [hpc]
    trivial
  have hne : ∀ t', Function.update w.state.pc t Pc.idle t' ≠ Pc.idle → t' ≠ t := by
    rintro t' h' rfl
    exact h' (Function.update_self ..)
  have htakeTurn : w.ring.TakeTurn (w.place t) := by
    constructor
    · rintro _ ⟨t', ht', rfl⟩ hsame
      cases hpc' : w.state.pc t' with
      | enqStore msg' tail' =>
        obtain ⟨hidx', -⟩ := h.store t' msg' tail' hpc'
        exact (hturn.load head hpc t').1 msg' tail' hpc'
          (BitVec.eq_of_toNat_eq (hidx'.trans (hsame.trans hidx.symm)))
      | _ =>
        rw [hpc'] at ht'
        exact absurd ht' id
    · rintro _ ⟨t', ht', rfl⟩ hsame
      cases hpc' : w.state.pc t' with
      | deqLoad head' =>
        have hidx' := h.load t' head' hpc'
        exact (hturn.load head hpc t').2 head' hpc'
          (BitVec.eq_of_toNat_eq (hidx'.trans (hsame.trans hidx.symm)))
      | _ =>
        rw [hpc'] at ht'
        exact absurd ht' id
  constructor
  · have hring := h.ring.load ⟨t, hload, rfl⟩ htakeTurn
    unfold History.ring at hring ⊢
    dsimp only at hring ⊢
    rw [places_other hstore (show ¬Pc.idle.Stores from id) fun _ _ => rfl,
      places_erase hload (show ¬Pc.idle.Loads from id) h.load_inj, hidx]
    exact hring
  · exact h.capacity
  · exact h.head
  · exact h.tail
  · intro t' msg' tail' ht'
    dsimp only at ht'
    rw [Function.update_of_ne (hne t' (by rw [ht']; exact Pc.noConfusion))] at ht'
    exact h.store t' msg' tail' ht'
  · intro t' head ht'
    dsimp only at ht'
    rw [Function.update_of_ne (hne t' (by rw [ht']; exact Pc.noConfusion))] at ht'
    exact h.load t' head ht'
  · exact place_inj_other h.store_inj id fun _ _ => rfl
  · exact place_inj_other h.load_inj id fun _ _ => rfl
  · exact h.started
  · intro t' m hm
    dsimp only at hm
    by_cases heq : t' = t
    · rw [heq, Function.update_self] at hm
      exact absurd hm (by simp [Pc.enqueues])
    · rw [Function.update_of_ne heq] at hm
      exact h.calls t' m hm

/-- What every step in turn keeps. -/
theorem QueueInv.step (h : QueueInv w) (hst : InTurnStep w act w') : QueueInv w' := by
  obtain ⟨⟨s, hst, rfl⟩, hturn⟩ := hst
  cases hst with
  | @call t c hidle =>
    have hstore : ¬(w.state.pc t).Stores := by
      rw [hidle]
      exact id
    have hload : ¬(w.state.pc t).Loads := by
      rw [hidle]
      exact id
    cases c with
    | enqueue msg =>
      refine h.move hstore hload id id (fun m hm => List.mem_append_left _ hm) fun m hm => ?_
      obtain rfl := Option.some.inj hm
      exact List.mem_append_right _ (List.mem_singleton_self _)
    | dequeue =>
      refine h.move hstore hload id id (fun m hm => hm) fun m hm => ?_
      exact absurd hm (by simp [Pc.enqueues, QueueCall.start])
  | @run t q p r hnext =>
    have hcalls := h.calls t
    cases hpc : w.state.pc t with
    | idle =>
      rw [hpc] at hnext
      exact absurd hnext (by simp [Pc.next])
    | enqTail msg =>
      rw [hpc] at hnext hcalls
      obtain ⟨rfl, rfl, rfl⟩ := hnext
      simp only [History.record, hpc]
      refine h.move ?_ ?_ id id (fun m hm => hm) hcalls <;> (rw [hpc]; exact id)
    | enqHead msg tail =>
      rw [hpc] at hnext hcalls
      simp only [Pc.next] at hnext
      simp only [History.record, hpc]
      split_ifs at hnext
      · obtain ⟨rfl, rfl, rfl⟩ := hnext
        refine h.move ?_ ?_ id id (fun m hm => hm) (fun m hm => absurd hm (by simp [Pc.enqueues])) <;>
          (rw [hpc]; exact id)
      · obtain ⟨rfl, rfl, rfl⟩ := hnext
        refine h.move ?_ ?_ id id (fun m hm => hm) hcalls <;> (rw [hpc]; exact id)
    | enqCas msg tail =>
      rw [hpc] at hnext hcalls
      simp only [Pc.next] at hnext
      simp only [History.record, hpc]
      split_ifs at hnext ⊢ with htail
      · obtain ⟨rfl, rfl, rfl⟩ := hnext
        exact h.claimPut hpc htail (hturn.notFull msg tail hpc htail)
      · obtain ⟨rfl, rfl, rfl⟩ := hnext
        refine h.move ?_ ?_ id id (fun m hm => hm) hcalls <;> (rw [hpc]; exact id)
    | enqStore msg tail =>
      rw [hpc] at hnext
      obtain ⟨rfl, rfl, rfl⟩ := hnext
      simp only [History.record, hpc]
      exact h.storeMsg hpc hturn
    | deqHead =>
      rw [hpc] at hnext
      obtain ⟨rfl, rfl, rfl⟩ := hnext
      simp only [History.record, hpc]
      refine h.move ?_ ?_ id id (fun m hm => hm) (fun m hm => absurd hm (by simp [Pc.enqueues])) <;>
        (rw [hpc]; exact id)
    | deqTail head =>
      rw [hpc] at hnext
      simp only [Pc.next] at hnext
      simp only [History.record, hpc]
      split_ifs at hnext
      all_goals
        obtain ⟨rfl, rfl, rfl⟩ := hnext
        refine h.move ?_ ?_ id id (fun m hm => hm) (fun m hm => absurd hm (by simp [Pc.enqueues])) <;>
          (rw [hpc]; exact id)
    | deqCas head =>
      rw [hpc] at hnext
      simp only [Pc.next] at hnext
      simp only [History.record, hpc]
      split_ifs at hnext ⊢ with hhead
      · obtain ⟨rfl, rfl, rfl⟩ := hnext
        exact h.claimTake hpc hhead (hturn.notEmpty head hpc hhead)
      · obtain ⟨rfl, rfl, rfl⟩ := hnext
        refine h.move ?_ ?_ id id (fun m hm => hm) (fun m hm => absurd hm (by simp [Pc.enqueues])) <;>
          (rw [hpc]; exact id)
    | deqLoad head =>
      rw [hpc] at hnext
      obtain ⟨rfl, rfl, rfl⟩ := hnext
      simp only [History.record, hpc]
      exact h.loadMsg hpc hturn

omit [DecidableEq T] in
/-- The invariant of an empty queue. -/
theorem QueueStart.inv (h : QueueStart w) : QueueInv w := by
  have hzero : (idxOf (0 : BitVec 64)).toNat = 0 := by decide
  have hidle : ∀ P : Pc → Prop, ¬P .idle → places P w.state.pc w.place = ∅ := by
    intro P hP
    refine Set.eq_empty_of_forall_notMem ?_
    rintro k ⟨t, ht, -⟩
    rw [h.idle t] at ht
    exact hP ht
  have hno : ∀ t, ¬(w.state.pc t).Stores ∧ ¬(w.state.pc t).Loads := by
    intro t
    rw [h.idle t]
    exact ⟨id, id⟩
  have hcap := h.capacity
  constructor
  · refine TicketRing.Fresh.inv ⟨?_, h.put, h.taken, hidle _ id, hidle _ id, h.out⟩
    show 0 < w.state.queue.capacity.toNat
    omega
  · exact h.capacity
  · rw [h.head, h.taken, hzero, Nat.zero_mod]
  · rw [h.tail, h.put, hzero, List.length_nil, Nat.zero_mod]
  · intro t msg tail ht
    exact absurd (by rw [ht]; trivial) (hno t).1
  · intro t head ht
    exact absurd (by rw [ht]; trivial) (hno t).2
  · exact fun t _ ht => absurd ht (hno t).1
  · exact fun t _ ht => absurd ht (hno t).2
  · intro msg hmsg
    rw [h.put] at hmsg
    exact absurd hmsg List.not_mem_nil
  · intro t msg hmsg
    rw [h.idle t] at hmsg
    exact absurd hmsg (by simp [Pc.enqueues])

/-- How far it is from an index to another one, round the ring. -/
theorem sub_mod_round {n d : ℕ} (hd : d < n) (k : ℕ) : ((k + d) % n + n - k % n) % n = d := by
  have hk := Nat.mod_lt k (show 0 < n by omega)
  have hround : (k + d) % n = (k % n + d) % n := (Nat.mod_add_mod ..).symm
  rcases Nat.lt_or_ge (k % n + d) n with hlt | hge
  · calc ((k + d) % n + n - k % n) % n = (k % n + d + n - k % n) % n := by
          rw [hround, Nat.mod_eq_of_lt hlt]
      _ = (d + n) % n := by rw [show k % n + d + n - k % n = d + n by omega]
      _ = d := by rw [Nat.add_mod_right, Nat.mod_eq_of_lt hd]
  · have hsub : (k % n + d) % n = k % n + d - n := by
      rw [Nat.mod_eq_sub_mod hge, Nat.mod_eq_of_lt (by omega)]
    calc ((k + d) % n + n - k % n) % n = (k % n + d - n + n - k % n) % n := by rw [hround, hsub]
      _ = d % n := by rw [show k % n + d - n + n - k % n = d by omega]
      _ = d := Nat.mod_eq_of_lt hd

omit [DecidableEq T] in
/-- The slots from the head to the tail are those of the places that have not been taken. -/
theorem QueueInv.content (h : QueueInv w) : w.state.queue.content = w.ring.content := by
  have hle : w.taken ≤ w.put.length := h.ring.le
  have hroom : w.put.length < w.taken + w.state.queue.capacity.toNat := h.ring.room
  obtain ⟨d, hd⟩ : ∃ d, w.put.length = w.taken + d := ⟨w.put.length - w.taken, by omega⟩
  have hlen := sub_mod_round (show d < w.state.queue.capacity.toNat by omega) w.taken
  rw [← hd] at hlen
  unfold MsgQueue.content TicketRing.content
  rw [h.head, h.tail, hlen]
  show _ = (List.range' w.taken (w.put.length - w.taken)).map fun k =>
    w.state.queue.ring (k % w.state.queue.capacity.toNat)
  rw [hd, Nat.add_sub_cancel_left, List.range'_eq_map_range, List.map_map]
  refine List.map_congr_left fun i _ => ?_
  rw [Nat.mod_add_mod]
  rfl

/-- In every run whose steps are all in turn, the queue is one. -/
theorem message_queue (h : Reachable QueueStart InTurnStep w) : QueueOk w := by
  have hinv : QueueInv w := Reachable.invariant (P := QueueInv) h (fun _ => QueueStart.inv)
    fun _ _ _ hP hst => hP.step hst
  refine ⟨hinv.ring.out_eq, hinv.started, hinv.ring.nodup, fun hidle => ?_⟩
  have hempty : ∀ P : Pc → Prop, ¬P .idle → places P w.state.pc w.place = ∅ := by
    intro P hP
    refine Set.eq_empty_of_forall_notMem ?_
    rintro k ⟨t, ht, -⟩
    rw [hidle t] at ht
    exact hP ht
  rw [hinv.content]
  exact hinv.ring.quiet (hempty _ id) (hempty _ id)

/-! ## Runs -/

/-- A thread goes on, when that is allowed. -/
def History.go (ok : History T → T → Bool) (w : History T) (t : T) : Option (History T) :=
  if ok w t then
    ((w.state.pc t).next w.state.queue).map fun x =>
      w.record (.run t x.2.2) ⟨x.1, Function.update w.state.pc t x.2.1⟩
  else none

/-- A thread calls a function, and goes on for a number of steps. -/
def History.calls (ok : History T → T → Bool) (w : History T) (t : T) (c : QueueCall) (n : ℕ) :
    Option (History T) :=
  if w.state.pc t = .idle then
    (List.replicate n t).foldlM (History.go ok)
      (w.record (.call t c) { w.state with pc := Function.update w.state.pc t c.start })
  else none

/-- A step that is allowed. -/
def AllowedStep (ok : History T → T → Bool) (w : History T) (act : QueueAct T) (w' : History T) : Prop :=
  HistoryStep w act w' ∧ match act with
    | .run t _ => ok w t
    | .call .. => True

variable {ok : History T → T → Bool}

/-- A thread that goes on takes a step. -/
theorem AllowedStep.of_go (h : w.go ok t = some w') : ∃ r, AllowedStep ok w (.run t r) w' := by
  unfold History.go at h
  split_ifs at h with hok
  obtain ⟨⟨q, p, r⟩, hnext, rfl⟩ := Option.map_eq_some_iff.mp h
  exact ⟨r, ⟨_, .run hnext, rfl⟩, hok⟩

/-- A call with the steps that follow it is a run. -/
theorem run_of_calls {c : QueueCall} {n : ℕ} (h : w.calls ok t c n = some w') :
    ∃ as, Run (AllowedStep ok) w as w' := by
  unfold History.calls at h
  split_ifs at h with hidle
  have hstart : AllowedStep ok w (.call t c) _ := ⟨⟨_, .call c hidle, rfl⟩, trivial⟩
  obtain ⟨as, hrun⟩ : ∃ as, Run (AllowedStep ok) w as (w.record (.call t c)
      { w.state with pc := Function.update w.state.pc t c.start }) := ⟨_, Run.single hstart⟩
  revert hrun h
  generalize w.record (.call t c) { w.state with pc := Function.update w.state.pc t c.start } = w₁
  intro h hrun
  -- The induction is on the steps that follow the call.
  induction n generalizing w₁ as with
  | zero =>
    obtain rfl := Option.some.inj h
    exact ⟨as, hrun⟩
  | succ n ih =>
    rw [List.replicate_succ, List.foldlM_cons, Option.bind_eq_bind, Option.bind_eq_some_iff] at h
    obtain ⟨w₂, hgo, h⟩ := h
    obtain ⟨r, hst⟩ := AllowedStep.of_go hgo
    exact ih _ w₂ h (hrun.snoc hst)

/-- An empty queue of a given capacity, with nothing in its slots. -/
def emptyQueue (T : Type*) (capacity : BitVec 32) : History T where
  state := ⟨⟨fun _ => 0, 0, 0, capacity⟩, fun _ => .idle⟩
  started := []
  put := []
  taken := 0
  place := fun _ => 0
  out := []

omit [DecidableEq T] in
theorem emptyQueue_start (h : 2 ≤ capacity.toNat) : QueueStart (emptyQueue T capacity) :=
  ⟨h, rfl, rfl, fun _ => rfl, rfl, rfl, rfl, rfl⟩

/-- Whether a place is claimed in a queue that is neither full nor empty. -/
def History.sound (w : History T) (t : T) : Bool :=
  match w.state.pc t with
  | .enqCas _ tail => nextIdx (idxOf tail) w.state.queue.capacity ≠ idxOf w.state.queue.head
  | .deqCas head => idxOf head ≠ idxOf w.state.queue.tail
  | _ => true

omit [DecidableEq T] in
/-- A thread that is alone accesses the slots in turn. -/
theorem InTurn.of_alone [Subsingleton T] (h : w.sound t) : InTurn w t := by
  unfold History.sound at h
  constructor
  · intro msg tail hpc _
    rw [hpc] at h
    exact of_decide_eq_true h
  · intro head hpc _
    rw [hpc] at h
    exact of_decide_eq_true h
  · intro msg tail _ t'
    obtain rfl := Subsingleton.elim t t'
    exact ⟨fun _ _ _ _ => le_rfl, fun _ _ _ => le_rfl⟩
  · intro head hpc t'
    obtain rfl := Subsingleton.elim t t'
    exact ⟨fun _ _ hpc' => absurd (hpc.symm.trans hpc') Pc.noConfusion, fun _ _ _ => le_rfl⟩

/-- A thread enqueues two messages, and dequeues one. -/
theorem message_queue_alone : ∃ w : History Unit, w.put = [7, 8] ∧ w.out = [(0, 7)] ∧ QueueOk w := by
  have hrun : (((emptyQueue Unit 4).calls History.sound () (.enqueue 7) 4).bind fun w =>
      (w.calls History.sound () (.enqueue 8) 4).bind fun w =>
      (w.calls History.sound () .dequeue 4).bind fun w => some (w.put, w.out)) =
      some ([7, 8], [(0, 7)]) := by
    decide +kernel
  simp only [Option.bind_eq_some_iff, Option.some.injEq, Prod.mk.injEq] at hrun
  obtain ⟨w₁, h₁, w₂, h₂, w₃, h₃, hput, hout⟩ := hrun
  obtain ⟨as₁, r₁⟩ := run_of_calls h₁
  obtain ⟨as₂, r₂⟩ := run_of_calls h₂
  obtain ⟨as₃, r₃⟩ := run_of_calls h₃
  have hrun := ((r₁.append r₂).append r₃).mono fun w act w' hst =>
    show InTurnStep w act w' from ⟨hst.1, by
      cases act with
      | run t r => exact InTurn.of_alone hst.2
      | call t c => trivial⟩
  exact ⟨w₃, hput, hout, message_queue ⟨_, _, emptyQueue_start (by decide), hrun⟩⟩

/-- Messages 7 and 8 go through a queue of two slots. One thread claims the first slot again to
enqueue message 9, and another one dequeues before that is stored: it is given message 7 for the
second time. -/
theorem message_queue_twice : ∃ w₀ as, ∃ w : History Bool, QueueStart w₀ ∧ Run HistoryStep w₀ as w ∧
    (∀ t, w.state.pc t = .idle) ∧ w.started = [7, 8, 9] ∧ w.out.map Prod.snd = [7, 8, 7] := by
  have hrun : (((emptyQueue Bool 2).calls (fun _ _ => true) true (.enqueue 7) 4).bind fun w =>
      (w.calls (fun _ _ => true) false .dequeue 4).bind fun w =>
      (w.calls (fun _ _ => true) true (.enqueue 8) 4).bind fun w =>
      (w.calls (fun _ _ => true) false .dequeue 4).bind fun w =>
      (w.calls (fun _ _ => true) true (.enqueue 9) 3).bind fun w =>
      (w.calls (fun _ _ => true) false .dequeue 4).bind fun w =>
      (w.go (fun _ _ => true) true).bind fun w =>
      some (w.started, w.out.map Prod.snd, decide (∀ t, w.state.pc t = .idle))) =
      some ([7, 8, 9], [7, 8, 7], true) := by
    decide +kernel
  simp only [Option.bind_eq_some_iff, Option.some.injEq, Prod.mk.injEq, decide_eq_true_eq] at hrun
  obtain ⟨w₁, h₁, w₂, h₂, w₃, h₃, w₄, h₄, w₅, h₅, w₆, h₆, w₇, h₇, hstarted, hout, hidle⟩ := hrun
  obtain ⟨as₁, r₁⟩ := run_of_calls h₁
  obtain ⟨as₂, r₂⟩ := run_of_calls h₂
  obtain ⟨as₃, r₃⟩ := run_of_calls h₃
  obtain ⟨as₄, r₄⟩ := run_of_calls h₄
  obtain ⟨as₅, r₅⟩ := run_of_calls h₅
  obtain ⟨as₆, r₆⟩ := run_of_calls h₆
  obtain ⟨r, hst⟩ := AllowedStep.of_go h₇
  have hrun := (((((r₁.append r₂).append r₃).append r₄).append r₅).append r₆).snoc hst
  exact ⟨_, _, w₇, emptyQueue_start (by decide), hrun.mono fun _ _ _ hst => hst.1, hidle, hstarted,
    hout⟩

end Minix.Llvm
