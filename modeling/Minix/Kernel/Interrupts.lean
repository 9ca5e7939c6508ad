import Minix.Kernel.Boot
import Minix.Lib.Run

/-!
# Interrupts are not lost

An interrupt for a task is held up, or recorded as blocked, or its message is put in the task's
buffer, and it moves from the first to the others in `unhold` and from the second to the third in
`mini_rec`. `IrqStep` interleaves these functions in any way. `unhold` is two steps: it takes a task
off the queue of held-up interrupts, enables interrupts again, and calls `interrupt`; the tasks that
it has taken off and not called `interrupt` for yet are its `inHand`.

The history says what the tasks have taken: a message is in a task's buffer from the event `signal`
that puts it there until the task's next call, which it makes after its receive has returned.
`Moves` is what the functions other than `interrupt` keep, and `HeldQueue` what all of them keep.
-/

namespace Minix.Kernel

open Lib Lib.Rendezvous

/-- The message of an interrupt. -/
def IsHardInt (m : Message) : Prop := m.m_source = HARDWARE ∧ m.m_type = HARD_INT

/-- `p` makes the call that the event records. -/
def CalledBy (p : Slot) : Event → Prop
  | .send x _ _ => x = p
  | .receive x _ _ => x = p
  | .copy .. => False
  | .signal .. => False

/-- No message was copied to the address `a`, and the message of `system.c` does not lie there. -/
def Unwritten (s : State) (log : List Event) (a : Addr) : Prop :=
  s.sys_m % 2 ^ 24 ≠ a ∧ ∀ x b y c mess, Event.copy x b y c mess ∈ log → physMess s y c ≠ a

/-- Since the history had `n` events, a message of an interrupt was put in the buffer of `p`. -/
def SignalledSince (s : State) (n : ℕ) (p : Slot) : Prop :=
  ∃ pre m post, s.log = pre ++ Event.signal p m :: post ∧ n ≤ pre.length

/-- The same, and `p` has made a call since then, which it does when it has taken the message. -/
def TakenSince (s : State) (n : ℕ) (p : Slot) : Prop :=
  ∃ pre m post, s.log = pre ++ Event.signal p m :: post ∧ n ≤ pre.length ∧ ∃ e ∈ post, CalledBy p e

/-- The message of an interrupt is in the buffer of `p`, and `p` has made no call since it was put
there. It is still there if no other message was copied over it. -/
def InBuffer (s : State) (p : Slot) : Prop :=
  ∃ pre m post, s.log = pre ++ Event.signal p m :: post ∧ (∀ e ∈ post, ¬CalledBy p e) ∧
    (Unwritten s post (m % 2 ^ 24) → IsHardInt (s.mem (m % 2 ^ 24)))

/-- The queue of interrupts that are held up is a chain that ends, from its head through
`p_nextheld`; its tail is the last process on it, and those are on it that have `p_int_held` set. -/
def HeldQueue (s : State) : Prop :=
  ∃ l, Chain s.p_nextheld s.held_head l none ∧ l.Nodup ∧ s.held_tail = l.getLast? ∧
    ∀ p, p ∈ l ↔ s.p_int_held p = true

/-- The messages of interrupts are where they were put, unless they were written over. -/
def Buffered (s : State) : Prop :=
  ∀ pre p m post, s.log = pre ++ Event.signal p m :: post → Unwritten s post (m % 2 ^ 24) →
    IsHardInt (s.mem (m % 2 ^ 24))

/-- The fields of the queue of interrupts that are held up. -/
def heldFields (s : State) := (s.p_int_held, s.p_nextheld, s.held_head, s.held_tail)

/-- The fields that say where a message lies. -/
def placeFields (s : State) := (s.p_map, s.p_shadow, s.sys_m)

/-- The fields that interrupts and their messages are in. -/
def irqFields (s : State) :=
  (heldFields s, placeFields s, s.p_int_blocked, s.mem, s.log)

/-- What becomes of interrupts in a function that neither holds them up nor repeats them: one that
is blocked stays so, or its message is put in the buffer. -/
structure Moves (s s' : State) : Prop where
  held : heldFields s' = heldFields s
  place : placeFields s' = placeFields s
  log : s.log <+: s'.log
  blocked : ∀ p, s.p_int_blocked p = true →
    s'.p_int_blocked p = true ∨ SignalledSince s' s.log.length p
  buffered : Buffered s → Buffered s'

variable {s s' s'' : State} {caller dest p x rp : Slot} {n src r : ℤ} {m_ptr : Addr} {k l : ℕ}
  {f : PFlags} {previous : Option Slot} {e : Event}

/-! ## The history -/

/-- What was put in the buffer is in the history that goes on. -/
theorem SignalledSince.mono (h : SignalledSince s k p) (hl : l ≤ k) (hlog : s.log <+: s'.log) :
    SignalledSince s' l p := by
  obtain ⟨pre, m, post, he, hk⟩ := h
  obtain ⟨es, hes⟩ := hlog
  refine ⟨pre, m, post ++ es, ?_, hl.trans hk⟩
  rw [← hes, he]
  simp

/-- A message that was put in the buffer was taken, or is there. -/
theorem SignalledSince.taken_or (h : SignalledSince s k p) (hb : Buffered s) :
    TakenSince s k p ∨ InBuffer s p := by
  obtain ⟨pre, m, post, he, hk⟩ := h
  by_cases hc : ∃ e ∈ post, CalledBy p e
  · exact Or.inl ⟨pre, m, post, he, hk, hc⟩
  · simp only [not_exists, not_and] at hc
    exact Or.inr ⟨pre, m, post, he, hc, hb pre p m post he⟩

/-- Where a message lies does not change. -/
theorem physMess_congr (h : placeFields s' = placeFields s) (p : Slot) (m : Addr) :
    physMess s' p m = physMess s p m := by
  simp only [placeFields, Prod.mk.injEq] at h
  unfold physMess
  rw [h.1, h.2.1]

/-- The address stays unwritten in the part of the history that there was. -/
theorem Unwritten.of_append {post es : List Event} {a : Addr} (h : Unwritten s' (post ++ es) a)
    (hp : placeFields s' = placeFields s) : Unwritten s post a := by
  refine ⟨?_, fun x b y c mess hm => ?_⟩
  · have hs : s'.sys_m = s.sys_m := congrArg (·.2.2) hp
    rw [← hs]
    exact h.1
  · rw [← physMess_congr hp]
    exact h.2 x b y c mess (List.mem_append_left es hm)

/-- So it does where nothing else has happened. -/
theorem Unwritten.of_place {post : List Event} {a : Addr} (h : Unwritten s' post a)
    (hp : placeFields s' = placeFields s) : Unwritten s post a := by
  rw [← List.append_nil post] at h
  exact h.of_append hp

/-- A split of a history that has one more event is a split before it, unless it is the event. -/
theorem concat_split {log pre post : List Event} {e e' : Event}
    (h : log ++ [e] = pre ++ e' :: post) :
    (post = [] ∧ pre = log ∧ e' = e) ∨ ∃ q, post = q ++ [e] ∧ log = pre ++ e' :: q := by
  rcases List.eq_nil_or_concat' post with rfl | ⟨q, y, rfl⟩
  · obtain ⟨hpre, he⟩ := List.append_inj' h rfl
    exact Or.inl ⟨rfl, hpre.symm, (List.cons.inj he).1.symm⟩
  · have h' : log ++ [e] = (pre ++ e' :: q) ++ [y] := by rw [h]; simp
    obtain ⟨hl, he⟩ := List.append_inj' h' rfl
    obtain rfl := (List.cons.inj he).1
    exact Or.inr ⟨q, rfl, hl⟩

/-! ## What the other functions keep -/

theorem Moves.refl (s : State) : Moves s s :=
  ⟨rfl, rfl, List.prefix_refl _, fun _ h => Or.inl h, id⟩

theorem Moves.trans (h : Moves s s') (h' : Moves s' s'') : Moves s s'' where
  held := h'.held.trans h.held
  place := h'.place.trans h.place
  log := h.log.trans h'.log
  blocked p hp := by
    rcases h.blocked p hp with hp | hp
    · rcases h'.blocked p hp with hp | hp
      · exact Or.inl hp
      · exact Or.inr (hp.mono h.log.length_le (List.prefix_refl _))
    · exact Or.inr (hp.mono le_rfl h'.log)
  buffered hb := h'.buffered (h.buffered hb)

/-- Changes elsewhere do not matter. -/
theorem Moves.of_eq (h : irqFields s' = irqFields s) : Moves s s' := by
  simp only [irqFields, Prod.mk.injEq] at h
  obtain ⟨hheld, hplace, hblocked, hmem, hlog⟩ := h
  refine ⟨hheld, hplace, by rw [hlog], fun p hp => Or.inl (hblocked ▸ hp), fun hb => ?_⟩
  intro pre p m post he hu
  rw [hlog] at he
  rw [hmem]
  exact hb pre p m post he (hu.of_place hplace)

/-- Changes of flags and of the ready queues do not matter. -/
theorem Reflagged.moves (h : Reflagged s rp f s') : Moves s s' := by
  obtain ⟨_, _, _, _, _, rfl⟩ := h
  exact Moves.of_eq rfl

/-- An event that is not an interrupt's message moves nothing. -/
theorem moves_event (hs : ∀ x m, e ≠ .signal x m) : Moves s { s with log := s.log ++ [e] } := by
  refine ⟨rfl, rfl, List.prefix_append _ _, fun _ h => Or.inl h, fun hb => ?_⟩
  intro pre p m post he hu
  rcases concat_split he with ⟨-, -, he'⟩ | ⟨q, rfl, he'⟩
  · exact absurd he'.symm (hs p m)
  · exact hb pre p m q he' (hu.of_append rfl)

/-- A copy writes over what is at its own address only. -/
theorem cpMess_moves (s : State) (x : Slot) (b : Addr) (y : Slot) (c : Addr) :
    Moves s (cpMess s x b y c) := by
  refine ⟨rfl, rfl, List.prefix_append _ _, fun _ h => Or.inl h, fun hb => ?_⟩
  intro pre p m post he hu
  rcases concat_split he with ⟨-, -, he'⟩ | ⟨q, rfl, he'⟩
  · simp at he'
  · have hne : m % 2 ^ 24 ≠ physMess s y c := by
      intro e
      exact hu.2 x b y c _ (List.mem_append_right q (List.mem_singleton.mpr rfl)) e.symm
    have hget := hb pre p m q he' (hu.of_append rfl)
    unfold cpMess
    dsimp only
    rwa [Function.update_of_ne hne]

/-- The message of `system.c` is written at its own address only. -/
theorem fillInform_moves (s : State) (rp : Slot) : Moves s (fillInform s rp) := by
  refine ⟨rfl, rfl, List.prefix_refl _, fun _ h => Or.inl h, fun hb => ?_⟩
  intro pre p m post he hu
  have hget := hb pre p m post he (hu.of_place rfl)
  unfold fillInform
  dsimp only
  have hne : m % 2 ^ 24 ≠ s.sys_m % 2 ^ 24 := Ne.symm hu.1
  rwa [Function.update_of_ne hne]

/-- Handing a message over. -/
theorem sendDirect_moves (h : sendDirect s caller dest m_ptr = some s') : Moves s s' :=
  (cpMess_moves ..).trans (unblock_reflagged h).moves

/-- Queueing a sender. -/
theorem queueCaller_moves (h : queueCaller s caller dest = some s') : Moves s s' := by
  unfold queueCaller at h
  split at h
  · obtain rfl := Option.some.inj h
    exact Moves.of_eq rfl
  · obtain ⟨t, -, h⟩ := Option.bind_eq_some_iff.mp h
    obtain rfl := Option.some.inj h
    exact Moves.of_eq rfl

/-- Blocking in a send. -/
theorem sendBlocked_moves (h : sendBlocked s caller dest m_ptr = some s') : Moves s s' := by
  unfold sendBlocked at h
  obtain ⟨s₁, h₁, h₂⟩ := Option.bind_eq_some_iff.mp h
  have hm : Moves s s₁ := by
    refine Moves.trans ?_ (block_reflagged h₁).moves
    exact Moves.of_eq rfl
  exact hm.trans (queueCaller_moves h₂)

/-- `mini_send` leaves the interrupts where they are. -/
theorem miniSend_moves (h : miniSend s caller n m_ptr = some (r, s')) : Moves s s' := by
  rcases miniSend_cases h with ⟨-, rfl⟩ | ⟨dest, -, -, -, ⟨-, hs⟩ | ⟨-, hs⟩⟩
  · exact Moves.refl s'
  · exact (moves_event (by simp)).trans (sendDirect_moves hs)
  · exact (moves_event (by simp)).trans (sendBlocked_moves hs)

/-- The end of `inform`. -/
theorem informed_moves (h : informed s rp = some s') : Moves s s' := by
  unfold informed at h
  obtain ⟨s₁, h₁, h₂⟩ := Option.bind_eq_some_iff.mp h
  obtain rfl := Option.some.inj h₂
  have hpick : Moves s₁ (pickProc s₁) := by
    obtain ⟨_, _, he⟩ := pickProc_eq s₁
    rw [he]
    exact Moves.of_eq rfl
  refine Moves.trans ?_ hpick
  unfold stkfltDone at h₁
  dsimp only at h₁
  split_ifs at h₁
  · refine Moves.trans ?_ (unblock_reflagged h₁).moves
    exact Moves.of_eq rfl
  · obtain rfl := Option.some.inj h₁
    exact Moves.of_eq rfl
  · obtain rfl := Option.some.inj h₁
    exact Moves.of_eq rfl

/-- `inform` leaves the interrupts where they are. -/
theorem inform_moves (h : inform s = some s') : Moves s s' := by
  unfold inform at h
  split at h
  · obtain rfl := Option.some.inj h
    exact Moves.refl s
  · obtain ⟨⟨r, s₁⟩, h₁, h₂⟩ := Option.bind_eq_some_iff.mp h
    dsimp only at h₂
    split_ifs at h₂
    exact (fillInform_moves ..).trans ((miniSend_moves h₁).trans (informed_moves h₂))

/-- Blocking in a receive. -/
theorem recBlocked_moves (h : recBlocked s caller src m_ptr = some s') : Moves s s' := by
  unfold recBlocked at h
  obtain ⟨s₁, h₁, h₂⟩ := Option.bind_eq_some_iff.mp h
  have hm : Moves s s₁ := by
    refine Moves.trans ?_ (block_reflagged h₁).moves
    exact Moves.of_eq rfl
  split_ifs at h₂
  · exact hm.trans (inform_moves h₂)
  · obtain rfl := Option.some.inj h₂
    exact hm

/-- Taking a message off the queue of senders. -/
theorem takeFrom_moves (h : takeFrom s caller m_ptr previous x = some s') : Moves s s' := by
  unfold takeFrom at h
  obtain ⟨s₁, h₁, h₂⟩ := Option.bind_eq_some_iff.mp h
  have hu : Moves (cpMess s x (s.p_messbuf x) caller m_ptr) s₁ := by
    unfold unlinkSender at h₁
    split_ifs at h₁
    · obtain rfl := Option.some.inj h₁
      exact Moves.of_eq rfl
    · obtain ⟨_, -, h₁⟩ := Option.bind_eq_some_iff.mp h₁
      obtain rfl := Option.some.inj h₁
      exact Moves.of_eq rfl
  exact (cpMess_moves ..).trans (hu.trans (unblock_reflagged h₂).moves)

/-! ## Interrupts -/

/-- The message of an interrupt is in the buffer that it is put in. -/
theorem Buffered.putHardInt (hb : Buffered s) (p : Slot) (m_ptr : Addr) :
    Buffered (putHardInt s p m_ptr) := by
  intro pre q m post he hu
  show IsHardInt (Function.update s.mem _ _ (m % 2 ^ 24))
  by_cases ha : m % 2 ^ 24 = m_ptr % 2 ^ 24
  · rw [ha, Function.update_self]
    exact ⟨rfl, rfl⟩
  · rw [Function.update_of_ne ha]
    rcases concat_split he with ⟨-, -, he'⟩ | ⟨l, rfl, he'⟩
    · simp only [Event.signal.injEq] at he'
      exact absurd (by rw [he'.2]) ha
    · exact hb pre q m l he' (hu.of_append rfl)

/-- `p` has the message of an interrupt from now on. -/
theorem putHardInt_signalled (s : State) (p : Slot) (m_ptr : Addr) :
    SignalledSince (putHardInt s p m_ptr) s.log.length p :=
  ⟨s.log, m_ptr, [], rfl, le_rfl⟩

/-- Taking a blocked interrupt: `caller` has its message. -/
theorem takeInterrupt_moves (s : State) (caller : Slot) (m_ptr : Addr) :
    Moves s (takeInterrupt s caller m_ptr) := by
  refine ⟨rfl, rfl, List.prefix_append _ _, fun p hp => ?_, fun hb => ?_⟩
  · by_cases hpc : p = caller
    · rw [hpc]
      exact Or.inr (putHardInt_signalled s caller m_ptr)
    · refine Or.inl ?_
      show Function.update s.p_int_blocked caller false p = true
      rw [Function.update_of_ne hpc]
      exact hp
  · exact hb.putHardInt caller m_ptr

/-- `mini_rec` puts the message of a blocked interrupt in the buffer, or leaves it blocked. -/
theorem miniRec_moves (h : miniRec s caller src m_ptr = some (r, s')) : Moves s s' := by
  have hm : Moves s { s with log := s.log ++ [.receive caller src m_ptr] } :=
    moves_event (by simp)
  obtain ⟨-, ⟨-, hs⟩ | ⟨-, previous, sender, -, hs⟩⟩ := miniRec_cases h
  · exact hm.trans (recBlocked_moves hs)
  · rcases hs with ⟨x, -, hs⟩ | ⟨-, -, -, rfl⟩ | ⟨-, -, hs⟩
    · exact hm.trans (takeFrom_moves hs)
    · exact hm.trans (takeInterrupt_moves ..)
    · exact hm.trans (recBlocked_moves hs)

/-! ## The queue of interrupts that are held up -/

/-- The other fields do not matter to the queue. -/
theorem HeldQueue.congr (h : HeldQueue s) (he : heldFields s' = heldFields s) : HeldQueue s' := by
  simp only [heldFields, Prod.mk.injEq] at he
  obtain ⟨hheld, hnext, hhead, htail⟩ := he
  unfold HeldQueue
  rw [hheld, hnext, hhead, htail]
  exact h

/-- Holding up an interrupt appends its task to the queue, unless it is there. -/
theorem hold_spec (h : HeldQueue s) (rp : Slot) :
    ∃ s', hold s rp = some s' ∧ HeldQueue s' ∧
      (∀ p, s'.p_int_held p = true ↔ p = rp ∨ s.p_int_held p = true) ∧
      (placeFields s' = placeFields s ∧ s'.p_int_blocked = s.p_int_blocked ∧ s'.mem = s.mem ∧
        s'.log = s.log) := by
  unfold hold
  by_cases hrp : s.p_int_held rp = true
  · rw [if_pos hrp]
    refine ⟨s, rfl, h, fun p => ?_, rfl, rfl, rfl, rfl⟩
    constructor
    · exact Or.inr
    · rintro (rfl | hp)
      · exact hrp
      · exact hp
  · rw [if_neg hrp]
    obtain ⟨l, hc, hnd, htail, hmem⟩ := h
    have hl : rp ∉ l := mt (hmem rp).mp hrp
    have hheld : ∀ p, Function.update s.p_int_held rp true p = true ↔
        p = rp ∨ s.p_int_held p = true := by
      intro p
      by_cases hp : p = rp
      · simp [hp]
      · rw [Function.update_of_ne hp]
        simp [hp]
    have hmem' : ∀ p, p ∈ l ++ [rp] ↔ Function.update s.p_int_held rp true p = true := by
      intro p
      rw [hheld, List.mem_append, List.mem_singleton, hmem, or_comm]
    unfold linkHeld
    rcases List.eq_nil_or_concat' l with rfl | ⟨b, t, rfl⟩
    · -- The queue was empty.
      have hhead : s.held_head = none := by simpa using hc
      simp only [hhead]
      refine ⟨_, rfl, ⟨[rp], ?_, by simp, rfl, hmem'⟩, hheld, rfl, rfl, rfl, rfl⟩
      exact ⟨rfl, Function.update_self ..⟩
    · -- The last process is linked to the new one.
      have hne : s.held_head ≠ none := fun e => by
        have := hc.eq_nil_iff.mpr e
        simp at this
      obtain ⟨x, hx⟩ := Option.ne_none_iff_exists'.mp hne
      rw [List.getLast?_concat] at htail
      simp only [hx, htail]
      refine ⟨_, rfl, ⟨b ++ [t] ++ [rp], ?_, ?_, by simp, hmem'⟩, hheld, rfl, rfl, rfl, rfl⟩
      · exact hx ▸ hc.push_back hl
      · exact (hc.push_back hl).nodup

/-- `unhold` takes the first of the held-up interrupts off the queue. -/
def offHeld (s : State) (rp : Slot) : State :=
  { s with
    held_head := s.p_nextheld rp
    held_tail := if s.p_nextheld rp = none then none else s.held_tail
    p_int_held := Function.update s.p_int_held rp false }

/-- Taking the first interrupt off the queue leaves the others. -/
theorem HeldQueue.offHeld (h : HeldQueue s) (hrp : s.held_head = some rp) :
    HeldQueue (offHeld s rp) := by
  obtain ⟨l, hc, hnd, htail, hmem⟩ := h
  cases l with
  | nil =>
    rw [chain_nil, hrp] at hc
    simp at hc
  | cons x l =>
    obtain ⟨hx, hc⟩ := hc
    obtain rfl : rp = x := Option.some.inj (hrp.symm.trans hx)
    obtain ⟨hl, hnd⟩ := List.nodup_cons.mp hnd
    refine ⟨l, hc, hnd, ?_, fun p => ?_⟩
    · show (if s.p_nextheld rp = none then none else s.held_tail) = l.getLast?
      cases l with
      | nil => rw [if_pos (chain_nil.mp hc), List.getLast?_nil]
      | cons y l =>
        rw [if_neg (by rw [hc.1]; simp), htail, List.getLast?_cons_cons]
    · show p ∈ l ↔ Function.update s.p_int_held rp false p = true
      by_cases hp : p = rp
      · rw [hp, Function.update_self]
        simp [hl]
      · rw [Function.update_of_ne hp, ← hmem, List.mem_cons]
        simp [hp]

/-- What `interrupt` has done: everything is kept, and the interrupt is held up, blocked, or in the
buffer. -/
structure Raised (s : State) (rp : Slot) (s' : State) : Prop where
  queue : HeldQueue s'
  buffered : Buffered s'
  log : s.log <+: s'.log
  held : ∀ p, s.p_int_held p = true → s'.p_int_held p = true
  blocked : ∀ p, s.p_int_blocked p = true →
    s'.p_int_blocked p = true ∨ SignalledSince s' s.log.length p
  raised : s'.p_int_held rp = true ∨ s'.p_int_blocked rp = true ∨ SignalledSince s' s.log.length rp

/-- `interrupt`, at any value of `k_reenter` and `switching`. -/
theorem interrupt_raised {competing : Bool} (hq : HeldQueue s) (hb : Buffered s)
    (h : interrupt s rp competing = some s') : Raised s rp s' := by
  rcases interrupt_cases h with hs | ⟨rfl, -⟩ | ⟨-, -, -, hs⟩
  · obtain ⟨s₁, h₁, hq', hheld, hplace, hblocked, hmem, hlog⟩ := hold_spec hq rp
    obtain rfl := Option.some.inj (h₁.symm.trans hs)
    refine ⟨hq', fun pre p m post he hu => ?_, by rw [hlog], fun p hp => (hheld p).mpr (Or.inr hp),
      fun p hp => Or.inl (hblocked ▸ hp), Or.inl ((hheld rp).mpr (Or.inl rfl))⟩
    rw [hlog] at he
    rw [hmem]
    exact hb pre p m post he (hu.of_place hplace)
  · refine ⟨hq.congr rfl, hb, List.prefix_refl _, fun _ hp => hp, fun p hp => Or.inl ?_,
      Or.inr (Or.inl (Function.update_self ..))⟩
    show Function.update s.p_int_blocked rp true p = true
    by_cases hpr : p = rp
    · rw [hpr, Function.update_self]
    · rw [Function.update_of_ne hpr]
      exact hp
  · -- The message is put in the buffer, as if the task had taken a blocked interrupt.
    have hm : Moves s s' := by
      refine (takeInterrupt_moves s rp (s.p_messbuf rp)).trans ?_
      exact (addReady_resched hs).of_setFlags.moves
    refine ⟨hq.congr hm.held, hm.buffered hb, hm.log, fun p hp => ?_, hm.blocked, ?_⟩
    · have he : s'.p_int_held = s.p_int_held := congrArg (·.1) hm.held
      rwa [he]
    · obtain ⟨_, _, _, _, _, rfl⟩ := addReady_resched hs
      exact Or.inr (Or.inr (putHardInt_signalled s rp _))

end Minix.Kernel
