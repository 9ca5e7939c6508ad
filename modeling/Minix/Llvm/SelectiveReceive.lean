import Minix.Lib.Run
import Minix.Llvm.MessageQueue

/-!
# Selective receive

`minix_send_async` and `minix_receive_async` of `llvm/ipc_primitives.ll` over the queue of
`llvm/intrinsics/atomic.ll`, when no thread makes an access in the middle of an enqueue or a
dequeue: the queue is a list then (`enqueue_content`, `dequeue_content`). One process receives;
messages are filled in and sent between its accesses, and the cycle counter may have any value when
it is read.

A call takes a message out of the queue and tests its source afterwards. A message of another source
is neither returned nor put back, so that none is lost exactly in the runs in which every message
that a call takes is one of its own source (`selective_receive`).
-/

namespace Minix.Llvm

open Lib

/-! ## The queue of a thread that is alone -/

/-- `minix_atomic_enqueue`, with what it returns. -/
def MsgQueue.enqueue (q : MsgQueue) (msg : Ptr) : MsgQueue × BitVec 32 :=
  if nextIdx (idxOf q.tail) q.capacity = idxOf q.head then (q, 1)
  else
    ({ q with
        tail := nextWord q.tail q.capacity
        ring := Function.update q.ring (idxOf q.tail).toNat msg }, 0)

/-- `minix_atomic_dequeue`, with what it returns. -/
def MsgQueue.dequeue (q : MsgQueue) : MsgQueue × Ptr :=
  if idxOf q.head = idxOf q.tail then (q, 0)
  else ({ q with head := nextWord q.head q.capacity }, q.ring (idxOf q.head).toNat)

/-- The accesses of a thread, one after the other, up to a return. -/
def Pc.alone : ℕ → MsgQueue → Pc → Option (MsgQueue × Ret)
  | 0, _, _ => none
  | n + 1, q, pc => (pc.next q).bind fun x =>
    match x with
    | (q', _, some r) => some (q', r)
    | (q', pc', none) => pc'.alone n q'

/-- Indices are in the ring. -/
structure MsgQueue.WellFormed (q : MsgQueue) : Prop where
  head : (idxOf q.head).toNat < q.capacity.toNat
  tail : (idxOf q.tail).toNat < q.capacity.toNat

variable {q q' : MsgQueue} {msg : Ptr} {w : BitVec 64} {c : BitVec 32}

/-- Alone, the accesses of an enqueue are `enqueue`. -/
theorem enqueue_alone (q : MsgQueue) (msg : Ptr) :
    (QueueCall.enqueue msg).start.alone 4 q = some ((q.enqueue msg).1, .status (q.enqueue msg).2) := by
  unfold MsgQueue.enqueue
  by_cases hfull : nextIdx (idxOf q.tail) q.capacity = idxOf q.head
  · simp [QueueCall.start, Pc.alone, Pc.next, hfull]
  · simp [QueueCall.start, Pc.alone, Pc.next, hfull]

/-- Alone, the accesses of a dequeue are `dequeue`. -/
theorem dequeue_alone (q : MsgQueue) :
    QueueCall.dequeue.start.alone 4 q = some (q.dequeue.1, .msg q.dequeue.2) := by
  unfold MsgQueue.dequeue
  by_cases hempty : idxOf q.head = idxOf q.tail
  · simp [QueueCall.start, Pc.alone, Pc.next, hempty]
  · simp [QueueCall.start, Pc.alone, Pc.next, hempty]

/-- How far it is from one place to another, round the ring. -/
theorem round_sub {n a b : ℕ} (ha : a < n) (hb : b < n) :
    (b + n - a) % n = if a ≤ b then b - a else b + n - a := by
  split_ifs with h
  · rw [show b + n - a = b - a + n by omega, Nat.add_mod_right, Nat.mod_eq_of_lt (by omega)]
  · exact Nat.mod_eq_of_lt (by omega)

/-- The place behind one. -/
theorem round_succ {n a : ℕ} (ha : a < n) : (a + 1) % n = if a + 1 = n then 0 else a + 1 := by
  split_ifs with h
  · rw [h, Nat.mod_self]
  · exact Nat.mod_eq_of_lt (by omega)

/-- The number of messages in a queue. -/
def MsgQueue.size (q : MsgQueue) : ℕ :=
  ((idxOf q.tail).toNat + q.capacity.toNat - (idxOf q.head).toNat) % q.capacity.toNat

theorem MsgQueue.content_eq (q : MsgQueue) : q.content = (List.range q.size).map fun i =>
    q.ring (((idxOf q.head).toNat + i) % q.capacity.toNat) := rfl

/-- The next index is the one behind. -/
theorem next_toNat (hidx : (idxOf w).toNat < c.toNat) :
    (nextIdx (idxOf w) c).toNat = ((idxOf w).toNat + 1) % c.toNat := by
  have hc := c.isLt
  unfold nextIdx
  rw [BitVec.toNat_umod, BitVec.toNat_add, Nat.mod_eq_of_lt (b := 2 ^ 32)]
  · rfl
  · change (idxOf w).toNat + 1 < 2 ^ 32
    omega

theorem MsgQueue.size_lt (h : q.WellFormed) : q.size < q.capacity.toNat :=
  Nat.mod_lt _ (by have := h.head; omega)

/-- A dequeue from an empty queue. -/
theorem dequeue_nil (h : q.WellFormed) (hc : q.content = []) : q.dequeue = (q, 0) := by
  have hhead := h.head
  have htail := h.tail
  have hsize : q.size = 0 := by simpa [MsgQueue.content_eq] using hc
  unfold MsgQueue.size at hsize
  rw [round_sub hhead htail] at hsize
  refine if_pos (BitVec.eq_of_toNat_eq ?_)
  split_ifs at hsize
  · omega
  · omega

/-- A dequeue from a queue of messages takes the first. -/
theorem dequeue_cons {rest : List Ptr} (h : q.WellFormed) (hc : q.content = msg :: rest) :
    ∃ q', q.dequeue = (q', msg) ∧ q'.content = rest ∧ q'.WellFormed := by
  have hhead := h.head
  have htail := h.tail
  have hlen : q.size = rest.length + 1 := by
    simpa [MsgQueue.content_eq] using congrArg List.length hc
  have hne : idxOf q.head ≠ idxOf q.tail := by
    intro heq
    unfold MsgQueue.size at hlen
    rw [round_sub hhead htail, heq, if_pos le_rfl] at hlen
    omega
  rw [MsgQueue.content_eq, hlen, List.range_succ_eq_map, List.map_cons, List.map_map] at hc
  obtain ⟨hmsg, hrest⟩ := List.cons.inj hc
  have hnext := next_toNat hhead
  refine ⟨{ q with head := nextWord q.head q.capacity }, ?_, ?_, ?_⟩
  · unfold MsgQueue.dequeue
    rw [if_neg hne, ← hmsg, Nat.add_zero, Nat.mod_eq_of_lt hhead]
  · have hidx : (idxOf (nextWord q.head q.capacity)).toNat =
        ((idxOf q.head).toNat + 1) % q.capacity.toNat := by
      rw [nextWord, idxOf_packIdx, hnext]
    have hsize : MsgQueue.size { q with head := nextWord q.head q.capacity } = rest.length := by
      unfold MsgQueue.size at hlen ⊢
      dsimp only at hlen ⊢
      rw [round_sub hhead htail] at hlen
      rw [hidx, round_sub (Nat.mod_lt _ (by omega)) htail, round_succ hhead]
      split_ifs at hlen ⊢
      all_goals omega
    rw [MsgQueue.content_eq, hsize]
    refine Eq.trans ?_ hrest
    refine List.map_congr_left fun i _ => ?_
    dsimp only [Function.comp]
    rw [hidx, Nat.mod_add_mod, Nat.add_right_comm, Nat.add_assoc]
  · refine ⟨?_, htail⟩
    change (idxOf (nextWord q.head q.capacity)).toNat < _
    rw [nextWord, idxOf_packIdx, hnext]
    exact Nat.mod_lt _ (by omega)

/-- An enqueue to a queue that is not full puts a message behind the others. -/
theorem enqueue_content (msg : Ptr) (h : q.WellFormed)
    (hroom : nextIdx (idxOf q.tail) q.capacity ≠ idxOf q.head) :
    ∃ q', q.enqueue msg = (q', 0) ∧ q'.content = q.content ++ [msg] ∧ q'.WellFormed := by
  have hhead := h.head
  have htail := h.tail
  have hnext := next_toNat htail
  have hsucc := round_succ htail
  have hidx : (idxOf (nextWord q.tail q.capacity)).toNat =
      ((idxOf q.tail).toNat + 1) % q.capacity.toNat := by
    rw [nextWord, idxOf_packIdx, hnext]
  have hne : ((idxOf q.tail).toNat + 1) % q.capacity.toNat ≠ (idxOf q.head).toNat := by
    rw [← hnext]
    exact fun heq => hroom (BitVec.eq_of_toNat_eq heq)
  have hsizedef : q.size = _ := round_sub hhead htail
  refine ⟨{ q with
    tail := nextWord q.tail q.capacity
    ring := Function.update q.ring (idxOf q.tail).toNat msg }, if_neg hroom, ?_, ?_⟩
  · have hsize : MsgQueue.size { q with
        tail := nextWord q.tail q.capacity
        ring := Function.update q.ring (idxOf q.tail).toNat msg } = q.size + 1 := by
      rw [hsizedef]
      unfold MsgQueue.size
      dsimp only
      rw [hidx, round_sub hhead (Nat.mod_lt _ (by omega)), hsucc]
      rw [hsucc] at hne
      split_ifs at hne ⊢
      all_goals omega
    -- the place of the new message, and that of another one
    have hlast : ((idxOf q.head).toNat + q.size) % q.capacity.toNat = (idxOf q.tail).toNat := by
      rw [hsizedef]
      split_ifs with hle
      · rw [Nat.add_sub_cancel' hle, Nat.mod_eq_of_lt htail]
      · rw [show (idxOf q.head).toNat + ((idxOf q.tail).toNat + q.capacity.toNat -
          (idxOf q.head).toNat) = (idxOf q.tail).toNat + q.capacity.toNat by omega,
          Nat.add_mod_right, Nat.mod_eq_of_lt htail]
    have hother : ∀ i < q.size,
        ((idxOf q.head).toNat + i) % q.capacity.toNat ≠ (idxOf q.tail).toNat := by
      intro i hi heq
      rw [← hlast] at heq
      have hlt := q.size_lt h
      have hi' := sub_mod_round (n := q.capacity.toNat) (d := i) (by omega) (idxOf q.head).toNat
      have hs' := sub_mod_round (n := q.capacity.toNat) hlt (idxOf q.head).toNat
      rw [heq, hs'] at hi'
      omega
    rw [MsgQueue.content_eq, hsize, List.range_succ, List.map_append, MsgQueue.content_eq]
    congr 1
    · refine List.map_congr_left fun i hi => ?_
      dsimp only
      rw [Function.update_of_ne (hother i (List.mem_range.mp hi))]
    · rw [List.map_singleton, hlast]
      dsimp only
      rw [Function.update_self]
  · refine ⟨hhead, ?_⟩
    change (idxOf (nextWord q.tail q.capacity)).toNat < _
    rw [hidx]
    exact Nat.mod_lt _ (by omega)

/-! ## The receiver -/

/-- Where the receiver is: out of `minix_receive_async`, in front of its only dequeue or of one of
its loop, or about to look at the clock. -/
inductive ReceivePc
  | idle
  | tryDequeueOnce (source_pid_filter : BitVec 32)
  | pollLoop (source_pid_filter : BitVec 32) (start_cycles timeout_as_cycles : BitVec 64)
  | processFiniteTimeout (source_pid_filter : BitVec 32) (start_cycles timeout_as_cycles : BitVec 64)
  deriving DecidableEq

/-- The queue of the receiver, the sources of all messages, and where the receiver is. -/
structure Receiver where
  queue : MsgQueue
  m_source : Ptr → BitVec 32
  pc : ReceivePc

/-- `minix_send_async` to a process with a queue or without one, with what it returns. -/
def sendAsync (dest_queue : Option MsgQueue) (msg : Ptr) : Option MsgQueue × BitVec 32 :=
  if msg = 0 then (dest_queue, 3)
  else
    match dest_queue with
    | none => (none, 1)
    | some q => (some (q.enqueue msg).1, if (q.enqueue msg).2 = 0 then 0 else 2)

/-- The test of a message's source. Filter 0 stands for all. -/
def pidMatch (source_pid_filter actual_source_pid : BitVec 32) : Bool :=
  source_pid_filter = 0 ∨ actual_source_pid = source_pid_filter

/-- Where a call of a process with a queue begins to dequeue. A negative timeout means infinite. -/
def receiveAsync (source_pid_filter : BitVec 32) (timeout_us start_cycles : BitVec 64) : ReceivePc :=
  if timeout_us = 0 then .tryDequeueOnce source_pid_filter
  else .pollLoop source_pid_filter start_cycles (if timeout_us.slt 0 then -1 else timeout_us)

/-- `check_timeout_receive`, up to the next access. -/
def checkTimeout (source_pid_filter : BitVec 32) (start_cycles timeout_as_cycles : BitVec 64) :
    ReceivePc :=
  if timeout_as_cycles = -1 then .pollLoop source_pid_filter start_cycles timeout_as_cycles
  else .processFiniteTimeout source_pid_filter start_cycles timeout_as_cycles

/-- The filter of a call that is about to dequeue. -/
def ReceivePc.filter : ReceivePc → Option (BitVec 32)
  | .tryDequeueOnce f | .pollLoop f _ _ => some f
  | _ => none

/-- Where a call goes on that has taken no message of its own source. -/
def ReceivePc.miss : ReceivePc → ReceivePc
  | .pollLoop f start_cycles timeout_as_cycles => checkTimeout f start_cycles timeout_as_cycles
  | _ => .idle

/-- What a call has returned: the place of the message among all that were enqueued, the message,
the filter of the call, and the source that it was tested against. -/
structure Receipt where
  ticket : ℕ
  msg : Ptr
  filter : BitVec 32
  source : BitVec 32

/-- A receiver with its history: all messages that were enqueued, in order, the number of those that
were taken out, and what was returned. -/
structure Receives where
  state : Receiver
  put : List Ptr
  taken : ℕ
  out : List Receipt

/-- What happens: a message is filled in, or sent; a call begins, with its filter, its timeout and
the clock, for a process that has a queue or none; the receiver dequeues, and tests; it looks at the
clock. -/
inductive ReceiveAct
  | fill (msg : Ptr) (source : BitVec 32)
  | send (msg : Ptr)
  | call (source_pid_filter : BitVec 32) (timeout_us : BitVec 64) (queue : Bool) (cycles : BitVec 64)
  | dequeue
  | clock (cycles : BitVec 64)

/-- A message is sent. -/
def Receives.send (w : Receives) (msg : Ptr) : Receives :=
  match sendAsync (some w.state.queue) msg with
  | (some q, 0) => { w with state := { w.state with queue := q }, put := w.put ++ [msg] }
  | _ => w

/-- The dequeue of a call with a filter, with the test of the message, and what comes after it. -/
def Receives.dequeue (w : Receives) (filter : BitVec 32) : Receives :=
  let (q, msg) := w.state.queue.dequeue
  if msg = 0 then { w with state := { w.state with queue := q, pc := w.state.pc.miss } }
  else
    let source := w.state.m_source msg
    if pidMatch filter source then
      { w with
        state := { w.state with queue := q, pc := .idle }
        taken := w.taken + 1
        out := w.out ++ [⟨w.taken, msg, filter, source⟩] }
    else
      { w with
        state := { w.state with queue := q, pc := w.state.pc.miss }
        taken := w.taken + 1 }

/-- A step, where it can be taken. -/
def Receives.step (w : Receives) : ReceiveAct → Option Receives
  | .fill msg source =>
    some { w with state := { w.state with m_source := Function.update w.state.m_source msg source } }
  | .send msg => some (w.send msg)
  | .call filter timeout queue cycles =>
    if w.state.pc = .idle then
      if queue then some { w with state := { w.state with pc := receiveAsync filter timeout cycles } }
      else some w
    else none
  | .dequeue => w.state.pc.filter.map w.dequeue
  | .clock current_cycles =>
    match w.state.pc with
    | .processFiniteTimeout filter start_cycles timeout_as_cycles =>
      let pc := if timeout_as_cycles.ule (current_cycles - start_cycles) then .idle
        else .pollLoop filter start_cycles timeout_as_cycles
      some { w with state := { w.state with pc } }
    | _ => none

/-- A step of a run. -/
def ReceiveStep (w : Receives) (act : ReceiveAct) (w' : Receives) : Prop := w.step act = some w'

/-- A queue of any messages, before the first call. -/
structure ReceiveStart (w : Receives) : Prop where
  wellFormed : w.state.queue.WellFormed
  notNull : ∀ msg ∈ w.state.queue.content, msg ≠ 0
  idle : w.state.pc = .idle
  put : w.put = w.state.queue.content
  taken : w.taken = 0
  out : w.out = []

/-- Nothing is lost: of the messages that were enqueued those that were taken out have been
returned, each by one call, whose filter it matched, and the others are in the queue, in their
order. -/
structure Lossless (w : Receives) : Prop where
  returned : ∀ k < w.taken, ∃ r ∈ w.out, r.ticket = k
  once : (w.out.map Receipt.ticket).Nodup
  message : ∀ r ∈ w.out, r.ticket < w.taken ∧ w.put[r.ticket]? = some r.msg
  matching : ∀ r ∈ w.out, pidMatch r.filter r.source
  queue : w.state.queue.content = w.put.drop w.taken

/-- The message in front of the queue, when there is one, is of the source that the call waits for.
-/
def FrontMatches (w : Receives) (filter : BitVec 32) : Prop :=
  ∀ msg ∈ w.state.queue.content.head?, pidMatch filter (w.state.m_source msg)

/-- A step that dequeues only what the call waits for. -/
def MatchingStep (w : Receives) (act : ReceiveAct) (w' : Receives) : Prop :=
  ReceiveStep w act w' ∧ match act with
    | .dequeue => ∀ f ∈ w.state.pc.filter, FrontMatches w f
    | _ => True

/-! ## What a step keeps -/

/-- What holds in every run, whether messages are lost or not. -/
structure ReceiveInv (w : Receives) : Prop where
  wellFormed : w.state.queue.WellFormed
  notNull : ∀ msg ∈ w.put, msg ≠ 0
  le : w.taken ≤ w.put.length
  queue : w.state.queue.content = w.put.drop w.taken
  once : (w.out.map Receipt.ticket).Nodup
  message : ∀ r ∈ w.out, r.ticket < w.taken ∧ w.put[r.ticket]? = some r.msg
  matching : ∀ r ∈ w.out, pidMatch r.filter r.source

/-- Every message that was taken out has been returned. -/
def AllReturned (w : Receives) : Prop := ∀ k < w.taken, ∃ r ∈ w.out, r.ticket = k

variable {w₀ w₁ : Receives} {act : ReceiveAct} {filter : BitVec 32}

theorem lossless_iff (h : ReceiveInv w₀) : Lossless w₀ ↔ AllReturned w₀ :=
  ⟨Lossless.returned, fun hr => ⟨hr, h.once, h.message, h.matching, h.queue⟩⟩

theorem ReceiveStart.inv (h : ReceiveStart w₀) : ReceiveInv w₀ ∧ AllReturned w₀ := by
  refine ⟨⟨h.wellFormed, ?_, ?_, ?_, ?_, ?_, ?_⟩, ?_⟩
  · rw [h.put]
    exact h.notNull
  · rw [h.taken]
    exact Nat.zero_le _
  · rw [h.put, h.taken]
    rfl
  · rw [h.out]
    exact List.nodup_nil
  · rw [h.out]
    exact fun _ hr => absurd hr List.not_mem_nil
  · rw [h.out]
    exact fun _ hr => absurd hr List.not_mem_nil
  · intro k hk
    rw [h.taken] at hk
    exact absurd hk (Nat.not_lt_zero k)

/-- A dequeue with a filter finds nothing, or takes the next message: it returns it if the filter
matches, and loses it otherwise. -/
theorem dequeue_cases (h : ReceiveInv w₀) (filter : BitVec 32) :
    (w₀.state.queue.content = [] ∧
      w₀.dequeue filter = { w₀ with state := { w₀.state with pc := w₀.state.pc.miss } }) ∨
    ∃ q msg rest, w₀.state.queue.content = msg :: rest ∧ q.content = rest ∧ q.WellFormed ∧
      w₀.put[w₀.taken]? = some msg ∧ w₀.put.drop (w₀.taken + 1) = rest ∧
      ((pidMatch filter (w₀.state.m_source msg) = true ∧
        w₀.dequeue filter = { w₀ with
          state := { w₀.state with queue := q, pc := .idle }
          taken := w₀.taken + 1
          out := w₀.out ++ [⟨w₀.taken, msg, filter, w₀.state.m_source msg⟩] }) ∨
      (pidMatch filter (w₀.state.m_source msg) = false ∧
        w₀.dequeue filter = { w₀ with
          state := { w₀.state with queue := q, pc := w₀.state.pc.miss }
          taken := w₀.taken + 1 })) := by
  unfold Receives.dequeue
  cases hc : w₀.state.queue.content with
  | nil =>
    left
    rw [dequeue_nil h.wellFormed hc]
    exact ⟨rfl, rfl⟩
  | cons msg rest =>
    right
    obtain ⟨q, hdeq, hrest, hwf⟩ := dequeue_cons h.wellFormed hc
    have hdrop : w₀.put.drop w₀.taken = msg :: rest := h.queue.symm.trans hc
    have hput : w₀.put[w₀.taken]? = some msg := by
      rw [← List.head?_drop, hdrop]
      rfl
    have hnull : msg ≠ 0 := h.notNull msg (List.mem_of_getElem? hput)
    refine ⟨q, msg, rest, rfl, hrest, hwf, hput, ?_, ?_⟩
    · rw [← List.tail_drop, hdrop]
      rfl
    · rw [hdeq]
      dsimp only
      rw [if_neg hnull]
      cases hmatch : pidMatch filter (w₀.state.m_source msg) with
      | true => exact Or.inl ⟨rfl, rfl⟩
      | false => exact Or.inr ⟨rfl, rfl⟩

/-- A dequeue keeps what holds in every run, and all is returned after it exactly when all was
before it and the message in front matches. -/
theorem ReceiveInv.dequeue (h : ReceiveInv w₀) (filter : BitVec 32) :
    ReceiveInv (w₀.dequeue filter) ∧
      (AllReturned (w₀.dequeue filter) ↔ AllReturned w₀ ∧ FrontMatches w₀ filter) := by
  have hfresh : ∀ r ∈ w₀.out, r.ticket ≠ w₀.taken := fun r hr => (h.message r hr).1.ne
  rcases dequeue_cases h filter with ⟨hnil, heq⟩ | ⟨q, msg, rest, hc, hrest, hwf, hput, hdrop, hcase⟩
  · rw [heq]
    refine ⟨⟨h.wellFormed, h.notNull, h.le, h.queue, h.once, h.message, h.matching⟩, ?_⟩
    refine ⟨fun hall => ⟨hall, ?_⟩, fun hall => hall.1⟩
    unfold FrontMatches
    rw [hnil]
    exact fun _ hmsg => absurd hmsg (by simp)
  · have hfront : FrontMatches w₀ filter ↔ pidMatch filter (w₀.state.m_source msg) = true := by
      unfold FrontMatches
      rw [hc]
      simp
    have hmessage : ∀ r ∈ w₀.out, r.ticket < w₀.taken + 1 ∧ w₀.put[r.ticket]? = some r.msg :=
      fun r hr => ⟨(h.message r hr).1.trans (Nat.lt_succ_self _), (h.message r hr).2⟩
    have hle : w₀.taken + 1 ≤ w₀.put.length := (List.getElem?_eq_some_iff.mp hput).1
    rcases hcase with ⟨hmatch, heq⟩ | ⟨hmatch, heq⟩
    · -- the message is returned
      rw [heq]
      constructor
      · refine ⟨hwf, h.notNull, hle, hrest.trans hdrop.symm, ?_, ?_, ?_⟩
        · rw [List.map_append, List.nodup_append']
          refine ⟨h.once, List.nodup_singleton _, ?_⟩
          simp only [List.disjoint_singleton, List.map_cons, List.map_nil, List.mem_map, not_exists,
            not_and]
          exact hfresh
        · intro r hr
          rcases List.mem_append.mp hr with hr | hr
          · exact hmessage r hr
          · obtain rfl := List.mem_singleton.mp hr
            exact ⟨Nat.lt_succ_self _, hput⟩
        · intro r hr
          rcases List.mem_append.mp hr with hr | hr
          · exact h.matching r hr
          · obtain rfl := List.mem_singleton.mp hr
            exact hmatch
      · rw [hfront]
        refine ⟨fun hall => ⟨fun k hk => ?_, hmatch⟩, fun hall k hk => ?_⟩
        · obtain ⟨r, hr, hticket⟩ := hall k (hk.trans (Nat.lt_succ_self _))
          rcases List.mem_append.mp hr with hr | hr
          · exact ⟨r, hr, hticket⟩
          · obtain rfl := List.mem_singleton.mp hr
            exact absurd hticket hk.ne'
        · rcases Nat.lt_succ_iff_lt_or_eq.mp hk with hk | rfl
          · obtain ⟨r, hr, hticket⟩ := hall.1 k hk
            exact ⟨r, List.mem_append_left _ hr, hticket⟩
          · exact ⟨_, List.mem_append_right _ (List.mem_singleton_self _), rfl⟩
    · -- the message is lost
      rw [heq]
      refine ⟨⟨hwf, h.notNull, hle, hrest.trans hdrop.symm, h.once, hmessage, h.matching⟩, ?_⟩
      rw [hfront, hmatch]
      refine ⟨fun hall => ?_, fun hall => absurd hall.2 Bool.false_ne_true⟩
      obtain ⟨r, hr, hticket⟩ := hall w₀.taken (Nat.lt_succ_self _)
      exact absurd hticket (hfresh r hr)

/-- A message is refused, or comes behind the others. -/
theorem send_cases (h : w₀.state.queue.WellFormed) (msg : Ptr) : w₀.send msg = w₀ ∨
    ∃ q, msg ≠ 0 ∧ q.content = w₀.state.queue.content ++ [msg] ∧ q.WellFormed ∧
      w₀.send msg = { w₀ with state := { w₀.state with queue := q }, put := w₀.put ++ [msg] } := by
  unfold Receives.send sendAsync
  by_cases hnull : msg = 0
  · left
    rw [if_pos hnull]
    rfl
  · rw [if_neg hnull]
    dsimp only
    by_cases hfull : nextIdx (idxOf w₀.state.queue.tail) w₀.state.queue.capacity =
        idxOf w₀.state.queue.head
    · left
      have henq : w₀.state.queue.enqueue msg = (w₀.state.queue, 1) := if_pos hfull
      rw [henq]
      rfl
    · right
      obtain ⟨q, henq, hcontent, hwf⟩ := enqueue_content msg h hfull
      rw [henq]
      exact ⟨q, hnull, hcontent, hwf, rfl⟩

/-- So does a send. -/
theorem ReceiveInv.send (h : ReceiveInv w₀) (msg : Ptr) :
    ReceiveInv (w₀.send msg) ∧ (AllReturned (w₀.send msg) ↔ AllReturned w₀) := by
  rcases send_cases h.wellFormed msg with heq | ⟨q, hnull, hcontent, hwf, heq⟩
  · rw [heq]
    exact ⟨h, Iff.rfl⟩
  · rw [heq]
    refine ⟨⟨hwf, ?_, ?_, ?_, h.once, ?_, h.matching⟩, Iff.rfl⟩
    · intro m hm
      rcases List.mem_append.mp hm with hm | hm
      · exact h.notNull m hm
      · rwa [List.mem_singleton.mp hm]
    · rw [List.length_append]
      exact h.le.trans (Nat.le_add_right _ _)
    · rw [List.drop_append_of_le_length h.le, ← h.queue]
      exact hcontent
    · intro r hr
      obtain ⟨hlt, hmsg⟩ := h.message r hr
      exact ⟨hlt, by rw [List.getElem?_append_left (hlt.trans_le h.le), hmsg]⟩

/-- What a step keeps, and when all is returned after it. -/
theorem ReceiveInv.step (h : ReceiveInv w₀) (hst : ReceiveStep w₀ act w₁) :
    ReceiveInv w₁ ∧ (AllReturned w₁ ↔ AllReturned w₀ ∧ MatchingStep w₀ act w₁) := by
  -- Only a dequeue can lose a message.
  have hquiet : ∀ pc m_source, w₁ = { w₀ with state := { w₀.state with pc, m_source } } →
      MatchingStep w₀ act w₁ →
      ReceiveInv w₁ ∧ (AllReturned w₁ ↔ AllReturned w₀ ∧ MatchingStep w₀ act w₁) := by
    rintro pc m_source rfl hmatch
    exact ⟨⟨h.wellFormed, h.notNull, h.le, h.queue, h.once, h.message, h.matching⟩,
      (and_iff_left hmatch).symm⟩
  have hfree := hst
  unfold ReceiveStep Receives.step at hst
  cases act with
  | fill msg source =>
    exact hquiet _ _ (Option.some.inj hst).symm ⟨hfree, trivial⟩
  | send msg =>
    obtain rfl := Option.some.inj hst
    obtain ⟨hinv, hall⟩ := h.send msg
    exact ⟨hinv, hall.trans (and_iff_left ⟨hfree, trivial⟩).symm⟩
  | call filter timeout queue cycles =>
    dsimp only at hst
    split_ifs at hst with hidle hqueue
    · exact hquiet _ _ (Option.some.inj hst).symm ⟨hfree, trivial⟩
    · exact hquiet _ _ (Option.some.inj hst).symm ⟨hfree, trivial⟩
  | dequeue =>
    obtain ⟨f, hf, rfl⟩ := Option.map_eq_some_iff.mp hst
    obtain ⟨hinv, hall⟩ := h.dequeue f
    refine ⟨hinv, hall.trans (and_congr_right fun _ => ⟨fun hfront => ⟨hfree, ?_⟩, fun hm => ?_⟩)⟩
    · intro f' hf'
      rw [hf] at hf'
      obtain rfl := Option.some.inj hf'
      exact hfront
    · exact hm.2 f hf
  | clock cycles =>
    dsimp only at hst
    split at hst
    · exact hquiet _ _ (Option.some.inj hst).symm ⟨hfree, trivial⟩
    · cases hst

/-- In a run from any queue nothing is lost exactly when every dequeue finds nothing or a message of
the source that its call waits for. -/
theorem selective_receive {as : List ReceiveAct} (hstart : ReceiveStart w₀)
    (hrun : Run ReceiveStep w₀ as w₁) : Lossless w₁ ↔ Run MatchingStep w₀ as w₁ := by
  suffices ReceiveInv w₁ ∧ (AllReturned w₁ ↔ Run MatchingStep w₀ as w₁) from
    (lossless_iff this.1).trans this.2
  -- By induction on the run: what is lost stays lost.
  induction hrun with
  | nil => exact ⟨hstart.inv.1, fun _ => Run.nil, fun _ => hstart.inv.2⟩
  | @snoc as act w w' hrun hst ih =>
    obtain ⟨hinv, hall⟩ := ih.1.step hst
    refine ⟨hinv, ?_⟩
    rw [hall, ih.2]
    constructor
    · rintro ⟨hrun', hst'⟩
      exact hrun'.snoc hst'
    · intro hmatching
      obtain ⟨w'', hrun'', hst''⟩ := hmatching.of_snoc
      have hdet : ∀ s a s' s'', ReceiveStep s a s' → ReceiveStep s a s'' → s' = s'' :=
        fun _ _ _ _ h h' => Option.some.inj (h.symm.trans h')
      obtain rfl := Run.unique hdet hrun (hrun''.mono fun _ _ _ h => h.1)
      exact ⟨hrun'', hst''⟩

/-! ## Runs -/

/-- Two messages of process 3 and one of process 5 between them, in a queue of four slots. -/
def threeMessages : Receives where
  state :=
    { queue := ⟨fun i => [128, 192, 256].getD i 0, 0, 3, 4⟩
      m_source := fun msg => if msg = 192 then 5 else 3
      pc := .idle }
  put := [128, 192, 256]
  taken := 0
  out := []

theorem threeMessages_content : threeMessages.state.queue.content = [128, 192, 256] := by
  decide +kernel

theorem threeMessages_start : ReceiveStart threeMessages where
  wellFormed := ⟨show 0 < 4 by omega, show 3 < 4 by omega⟩
  notNull := by
    rw [threeMessages_content]
    simp
  idle := by rw [threeMessages]
  put := by rw [threeMessages_content, threeMessages]
  taken := by rw [threeMessages]
  out := by rw [threeMessages]

/-- The receiver calls with a filter and without a timeout, and dequeues. -/
def Receives.receiveOnce (w : Receives) (filter : BitVec 32) : Option Receives :=
  (w.step (.call filter 0 true 0)).bind fun w => w.step .dequeue

theorem receiveOnce_run (h : w₀.receiveOnce filter = some w₁) :
    Run ReceiveStep w₀ [.call filter 0 true 0, .dequeue] w₁ := by
  obtain ⟨w, hcall, hdeq⟩ := Option.bind_eq_some_iff.mp h
  have hfirst : ReceiveStep w₀ (.call filter 0 true 0) w := hcall
  exact (Run.single hfirst).snoc hdeq

/-- The message in front is received by a call that waits for its source. -/
theorem selective_receive_front : ∃ w as, Run ReceiveStep threeMessages as w ∧
    w.out.map Receipt.msg = [128] ∧ (Lossless w ↔ Run MatchingStep threeMessages as w) := by
  obtain ⟨w, hw⟩ : ∃ w, threeMessages.receiveOnce 3 = some w := ⟨_, rfl⟩
  have hout : (threeMessages.receiveOnce 3).map (fun w => w.out.map Receipt.msg) = some [128] := by
    decide +kernel
  rw [hw] at hout
  exact ⟨w, _, receiveOnce_run hw, Option.some.inj hout,
    selective_receive threeMessages_start (receiveOnce_run hw)⟩

/-- A call that waits for process 5 takes the message of process 3 that is in front, and loses it.
-/
theorem receive_drops : ReceiveStart threeMessages ∧
    ∃ w as, Run ReceiveStep threeMessages as w ∧ w.state.pc = .idle ∧
      w.put = [128, 192, 256] ∧ w.state.queue.content = [192, 256] ∧ w.out = [] ∧ ¬Lossless w := by
  obtain ⟨w, hw⟩ : ∃ w, threeMessages.receiveOnce 5 = some w := ⟨_, rfl⟩
  have hrun : (threeMessages.receiveOnce 5).map (fun w =>
      (w.put, w.state.queue.content, w.taken, w.out.length, decide (w.state.pc = .idle))) =
      some ([128, 192, 256], [192, 256], 1, 0, true) := by
    decide +kernel
  rw [hw] at hrun
  simp only [Option.map_some, Option.some.injEq, Prod.mk.injEq, decide_eq_true_eq,
    List.length_eq_zero_iff] at hrun
  obtain ⟨hput, hcontent, htaken, hout, hidle⟩ := hrun
  refine ⟨threeMessages_start, w, _, receiveOnce_run hw, hidle, hput, hcontent, hout,
    fun hloss => ?_⟩
  obtain ⟨r, hr, -⟩ := hloss.returned 0 (by omega)
  rw [hout] at hr
  exact absurd hr List.not_mem_nil

end Minix.Llvm
