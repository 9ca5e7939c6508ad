import Minix.Kernel.Boot
import Minix.Lib.Run

/-!
# Runs of the scheduler

`SchedStep` is one call of the functions that change the ready queues, under the discipline that
`mini_send` and `mini_rec` observe: `ready` is called for a process whose flags have just become 0,
and `unready` for one that is about to get its first flag. Within that, anybody may call anything,
at any time, and everything that the scheduler does not look at may change in between.
-/

namespace Minix.Kernel

open Lib

/-- The calls. -/
inductive SchedAction
  /-- The flags `f` of a process that has some are cleared, and `ready` is called if none are left.
  -/
  | ready (rp : Slot) (f : PFlags)
  /-- The flags `f` of a process are set, after `unready` was called if it had none. -/
  | unready (rp : Slot) (f : PFlags)
  | sched
  | pickProc
  | miniSend (caller : Slot) (dest : ℤ) (m_ptr : Addr)
  | miniRec (caller : Slot) (src : ℤ) (m_ptr : Addr)
  | interrupt (task : Slot) (competing : Bool)
  | unhold
  | causeSig (rp : Slot) (sig_nr : ℕ)
  /-- Something that the scheduler does not look at changes. -/
  | other

/-- One call under the discipline. -/
inductive SchedStep : State → SchedAction → State → Prop
  | ready {s s' : State} {rp : Slot} {f : PFlags} :
      s.p_flags rp ≠ PFlags.zero →
      -- `SIG_PENDING` is kept while a signal is pending.
      (((s.p_flags rp).clear f).pending → ((s.p_flags rp).clear f).sigPending) →
      unblock s rp f = some s' → SchedStep s (.ready rp f) s'
  | unready {s s' : State} {rp : Slot} {f : PFlags} :
      f ≠ PFlags.zero → (istaskp rp → f.onlyIpc) →
      (((s.p_flags rp).or f).pending → ((s.p_flags rp).or f).sigPending) →
      block s rp f = some s' → SchedStep s (.unready rp f) s'
  | sched {s s' : State} : sched s = some s' → SchedStep s .sched s'
  | pickProc {s : State} : SchedStep s .pickProc (pickProc s)
  | miniSend {s s' : State} {caller : Slot} {dest r : ℤ} {m_ptr : Addr} :
      miniSend s caller dest m_ptr = some (r, s') → SchedStep s (.miniSend caller dest m_ptr) s'
  | miniRec {s s' : State} {caller : Slot} {src r : ℤ} {m_ptr : Addr} :
      -- The sender that is taken from the queue, and made ready, was sending.
      (∀ previous x, scan s.p_sendlink (accepts src) fuel none (s.p_callerq caller) =
        some (previous, some x) → (s.p_flags x).sending) →
      miniRec s caller src m_ptr = some (r, s') → SchedStep s (.miniRec caller src m_ptr) s'
  | interrupt {s s' : State} {task : Slot} {competing : Bool} :
      istaskp task → interrupt s task competing = some s' →
      SchedStep s (.interrupt task competing) s'
  | unhold {s s' : State} {rp : Slot} :
      s.held_head = some rp → unholdOne s rp = some s' → SchedStep s .unhold s'
  | causeSig {s s' : State} {rp : Slot} {sig_nr : ℕ} :
      istaskp rp = false → causeSig s rp sig_nr = some s' → SchedStep s (.causeSig rp sig_nr) s'
  | other {s s' : State} : schedFields s' = schedFields s → SchedStep s .other s'

variable {s s' : State} {a : SchedAction}

/-- Every call under the discipline keeps the ready queues in order. -/
theorem SchedStep.inv (h : SchedStep s a s') (hi : SchedInv s) : SchedInv s' := by
  cases h with
  | ready h0 hsig hs => exact hi.unblock hs h0 hsig
  | unready hf ht hsig hs => exact hi.block hs hf ht hsig
  | sched hs => exact hi.sched hs
  | pickProc => exact hi.pickProc
  | miniSend hs => exact hi.miniSend hs
  | miniRec hq hs => exact hi.miniRec hs hq
  | interrupt ht hs => exact hi.interrupt hs ht
  | unhold hrp hs => exact hi.unholdOne hrp hs
  | causeSig ht hs => exact hi.causeSig hs ht
  | other he => exact hi.congr he

/-- The ready queues are in order in every state that the calls lead to. -/
theorem reachable_sched (h : Reachable Boot SchedStep s) : SchedInv s :=
  h.invariant (fun _ => Boot.sched) fun _ _ _ hi hst => hst.inv hi

/-- In every reachable state each ready queue is a chain that ends, from its head through
`p_nextready`, without a process twice; its tail is the last process of a queue that has one; and
the processes of its class are in it exactly when their flags are 0, the two that are never made
ready excepted. -/
theorem ready_queues (h : Reachable Boot SchedStep s) :
    ∃ rq : Queue → List Slot, ∀ q,
      Chain s.p_nextready (s.rdy_head q) (rq q) none ∧ (rq q).Nodup ∧
      (rq q ≠ [] → s.rdy_tail q = (rq q).getLast?) ∧ (∀ p ∈ rq q, queueOf s p = q) ∧
      ∀ p, p ≠ idleSlot → p ≠ hardwareSlot → queueOf s p = q →
        (p ∈ rq q ↔ s.p_flags p = PFlags.zero) := by
  obtain ⟨rq, hrq⟩ := (reachable_sched h).ready
  refine ⟨rq, fun q => ⟨hrq.queues.chains.chain q, hrq.queues.chains.nodup, fun hne => ?_,
    hrq.queues.cls q, fun p hi hh hq => ⟨hrq.zero q p, fun hz => ?_⟩⟩⟩
  · obtain ⟨a, t, hat⟩ := (List.eq_nil_or_concat' (rq q)).resolve_left hne
    rw [hrq.queues.tail q a t hat, hat]
    simp
  · rw [← hq]
    exact hrq.mem p hi hh hz

/-- The queues of the table that `main` sets up, after the running process went to the end. -/
theorem ready_queues_main : ∃ s s', main zeroState [] = some s ∧ sched s = some s' ∧
    ∃ rq : Queue → List Slot, ∀ q,
      Chain s'.p_nextready (s'.rdy_head q) (rq q) none ∧ (rq q).Nodup ∧
      (rq q ≠ [] → s'.rdy_tail q = (rq q).getLast?) ∧ (∀ p ∈ rq q, queueOf s' p = q) ∧
      ∀ p, p ≠ idleSlot → p ≠ hardwareSlot → queueOf s' p = q →
        (p ∈ rq q ↔ s'.p_flags p = PFlags.zero) := by
  have hu : (bootSlots ++ []).Nodup := by decide
  obtain ⟨s, hs, -, hi, -⟩ := main_spec zeroState hu
  obtain ⟨rq, hrq⟩ := hi.ready
  obtain ⟨s', hs', -⟩ := sched_spec hrq.queues
  have hb : Boot s := ⟨zeroState, [], hu, hs⟩
  exact ⟨s, s', hs, hs', ready_queues ((Reachable.of_init hb).of_step (SchedStep.sched hs'))⟩

end Minix.Kernel
