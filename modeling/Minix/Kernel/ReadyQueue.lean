import Minix.Kernel.Ipc
import Minix.Lib.Queues
import Mathlib.Data.List.Rotate

/-!
# The ready queues hold the runnable processes

`Queues s rq` relates the pointers of the four ready queues to the lists `rq` that they stand for,
and `ReadyInv s rq` adds what the lists have to do with `p_flags`: a process is queued exactly when
no flag is set, the two entries that are never made ready excepted.

The functions of `Sched.lean` change the queues and `proc_ptr`, and nothing else (`Resched`). Each
has one specification in terms of the lists, from which the two functions that change flags and
queues together, `block` and `unblock`, are shown to keep `ReadyInv`. All of them return: no walk
along a queue runs out of fuel, and no tail pointer of a queue in use is nil.
-/

namespace Minix.Kernel

open Lib

/-- The pointers of the ready queues stand for the lists `rq`. -/
abbrev Queues (s : State) (rq : Queue → List Slot) : Prop :=
  IsQueues (queueOf s) s.p_nextready s.rdy_head s.rdy_tail rq

/-- `s'` is `s` but for the ready queues and the process that runs. -/
def Resched (s s' : State) : Prop :=
  ∃ nextready head tail proc bill, s' = { s with
    p_nextready := nextready, rdy_head := head, rdy_tail := tail, proc_ptr := proc,
    bill_ptr := bill }

/-- The process that runs is the idle task, or the head of a queue that `pick_proc` looks at. -/
def Running (s : State) : Prop :=
  s.proc_ptr = idleSlot ∨ ∃ q, q ≠ .SHADOW_Q ∧ s.rdy_head q = some s.proc_ptr

variable {s s' s'' : State} {rq rq' : Queue → List Slot} {p rp : Slot} {q : Queue} {f g : PFlags}

/-- Nothing has happened. -/
theorem Resched.refl (s : State) : Resched s s := ⟨_, _, _, _, _, rfl⟩

/-- Two changes of the queues are one. -/
theorem Resched.trans (h : Resched s s') (h' : Resched s' s'') : Resched s s'' := by
  obtain ⟨_, _, _, _, _, rfl⟩ := h
  obtain ⟨_, _, _, _, _, rfl⟩ := h'
  exact ⟨_, _, _, _, _, rfl⟩

/-- The flags are not the queues. -/
theorem Resched.flags (h : Resched s s') : s'.p_flags = s.p_flags := by
  obtain ⟨_, _, _, _, _, rfl⟩ := h
  rfl

/-- The class of a process is not changed by queueing it. -/
theorem Resched.queueOf (h : Resched s s') : queueOf s' = queueOf s := by
  obtain ⟨_, _, _, _, _, rfl⟩ := h
  rfl

/-! ## The functions on queues -/

/-- `pick_proc` changes `proc_ptr` and `bill_ptr` only. -/
theorem pickProc_eq (s : State) : ∃ proc bill,
    pickProc s = { s with proc_ptr := proc, bill_ptr := bill } := by
  unfold pickProc
  split
  · exact ⟨_, _, rfl⟩
  · split
    · exact ⟨_, _, rfl⟩
    · split
      · exact ⟨_, _, rfl⟩
      · exact ⟨_, _, rfl⟩

/-- `pick_proc` is a change of the process that runs. -/
theorem pickProc_resched (s : State) : Resched s (pickProc s) := by
  obtain ⟨_, _, h⟩ := pickProc_eq s
  rw [h]
  exact ⟨_, _, _, _, _, rfl⟩

/-- `pick_proc` leaves the queues as they are. -/
theorem pickProc_queues (h : Queues s rq) : Queues (pickProc s) rq := by
  obtain ⟨_, _, hp⟩ := pickProc_eq s
  rw [hp]
  exact h

/-- `pick_proc` picks the head of a queue, or the idle task. -/
theorem pickProc_running (s : State) : Running (pickProc s) := by
  unfold pickProc
  split
  · exact Or.inr ⟨.TASK_Q, by simp, by assumption⟩
  · split
    · exact Or.inr ⟨.SERVER_Q, by simp, by assumption⟩
    · split
      · exact Or.inr ⟨.USER_Q, by simp, by assumption⟩
      · exact Or.inl rfl

/-- Adding a process to a queue changes nothing else. -/
theorem addReady_resched (h : addReady s q rp = some s') : Resched s s' := by
  unfold addReady at h
  split at h
  · split at h
    · obtain rfl := Option.some.inj h
      exact ⟨_, _, _, _, _, rfl⟩
    · simp at h
  · obtain rfl := Option.some.inj h
    exact ⟨_, _, _, _, _, rfl⟩

/-- Taking a process off a queue changes nothing else. -/
theorem removeReady_resched (h : removeReady s q rp = some s') : Resched s s' := by
  unfold removeReady at h
  split at h
  · obtain rfl := Option.some.inj h
    exact Resched.refl s
  · dsimp only at h
    split_ifs at h with hx hp
    · obtain rfl := Option.some.inj h
      exact Resched.trans ⟨_, _, _, _, _, rfl⟩ (pickProc_resched _)
    · obtain rfl := Option.some.inj h
      exact ⟨_, _, _, _, _, rfl⟩
    · split at h
      · simp at h
      · obtain rfl := Option.some.inj h
        exact Resched.refl s
      · split at h
        · simp at h
        · obtain rfl := Option.some.inj h
          exact ⟨_, _, _, _, _, rfl⟩

/-- `sched` changes the queues and the process that runs. -/
theorem sched_resched (h : sched s = some s') : Resched s s' := by
  unfold sched at h
  split at h
  · obtain rfl := Option.some.inj h
    exact Resched.refl s
  · split at h
    · simp at h
    · obtain rfl := Option.some.inj h
      exact Resched.trans ⟨_, _, _, _, _, rfl⟩ (pickProc_resched _)

/-- Adding a process to its queue appends it, and changes no head that was not nil. -/
theorem addReady_spec (h : Queues s rq) (hq : queueOf s rp = q) (hn : rp ∉ rq q) :
    ∃ s', addReady s q rp = some s' ∧ Queues s' (Function.update rq q (rq q ++ [rp])) ∧
      (Running s → Running s') := by
  unfold addReady
  rcases List.eq_nil_or_concat' (rq q) with hl | ⟨a, t, hl⟩
  · rw [h.chains.eq_nil_iff.mp hl]
    refine ⟨_, rfl, h.push_nil hq hn hl, fun hr => ?_⟩
    rcases hr with hr | ⟨q', hq', hr⟩
    · exact Or.inl hr
    · refine Or.inr ⟨q', hq', ?_⟩
      have hqq : q' ≠ q := by
        rintro rfl
        rw [h.chains.eq_nil_iff.mp hl] at hr
        exact absurd hr (by simp)
      show Function.update s.rdy_head q (some rp) q' = _
      rw [Function.update_of_ne hqq]
      exact hr
  · have hne : s.rdy_head q ≠ none := fun e => by
      have := h.chains.eq_nil_iff.mpr e
      rw [hl] at this
      simp at this
    obtain ⟨x, hx⟩ := Option.ne_none_iff_exists'.mp hne
    rw [hx, h.tail q a t hl]
    exact ⟨_, rfl, h.push hq hn hl, id⟩

/-- `ready` appends a process to the queue of its class. -/
theorem ready_spec (h : Queues s rq) (hn : rp ∉ rq (queueOf s rp)) :
    ∃ s', ready s rp = some s' ∧
      Queues s' (Function.update rq (queueOf s rp) (rq (queueOf s rp) ++ [rp])) ∧
      (Running s → Running s') := by
  rw [ready_eq]
  exact addReady_spec h rfl hn

/-- Taking a process off a queue erases it: at the head, in the body or at the tail, or nowhere. -/
theorem removeReady_spec (h : Queues s rq) :
    ∃ s', removeReady s q rp = some s' ∧
      Queues s' (Function.update rq q ((rq q).erase rp)) ∧ (Running s → Running s') := by
  have hchain := h.chains.chain q
  have hlen : (rq q).length < fuel := by
    have := h.chains.length_le (q := q)
    rw [Fintype.card_fin] at this
    exact Nat.lt_succ_of_le this
  unfold removeReady
  rcases hl : rq q with _ | ⟨x, b⟩
  · -- An empty queue.
    rw [h.chains.eq_nil_iff.mp hl]
    refine ⟨s, rfl, ?_, id⟩
    rw [List.erase_nil, ← hl, Function.update_eq_self]
    exact h
  · rw [hl] at hchain hlen
    rw [hchain.1]
    by_cases hx : x = rp
    · -- The head: the tail is left alone, even if it was the only process of the queue.
      subst hx
      simp only [if_true]
      have hq := h.pop hl
      rw [List.erase_cons_head]
      split_ifs with hp
      · exact ⟨_, rfl, pickProc_queues hq, fun _ => pickProc_running _⟩
      · refine ⟨_, rfl, hq, fun hr => ?_⟩
        rcases hr with hr | ⟨q', hq', hr⟩
        · exact Or.inl hr
        · refine Or.inr ⟨q', hq', ?_⟩
          have hqq : q' ≠ q := by
            rintro rfl
            rw [hchain.1] at hr
            exact hp (by simpa using hr)
          show Function.update s.rdy_head q _ q' = _
          rw [Function.update_of_ne hqq]
          exact hr
    · simp only [if_neg hx]
      rw [List.erase_cons_tail (by simpa using hx)]
      by_cases hm : rp ∈ b
      · -- The body: `y` is the process before `rp`.
        obtain ⟨a, c, hac⟩ := List.append_of_mem hm
        obtain ⟨d, y, hd⟩ := (List.eq_nil_or_concat' (x :: a)).resolve_left (by simp)
        have hwhole : x :: b = d ++ y :: rp :: c := by
          rw [hac, ← List.cons_append, hd]
          simp
        have hna : rp ∉ a := by
          have := hchain.nodup
          rw [hac, List.nodup_cons, List.nodup_append] at this
          exact fun ha => this.2.2.2 rp ha rp (by simp) rfl
        have herase : x :: b.erase rp = d ++ y :: c := by
          rw [hac, List.erase_append_right _ hna, List.erase_cons_head, ← List.cons_append, hd]
          simp
        rw [hwhole] at hchain hl hlen
        have hc := hchain
        rw [← hwhole] at hc
        have hdl : d.length < fuel := by
          rw [List.length_append] at hlen
          omega
        have hxs : s.rdy_head q = some x := hc.1
        rw [hxs] at hchain
        simp only [cellBefore_eq hchain hdl]
        obtain ⟨e, t, het⟩ := (List.eq_nil_or_concat' (y :: c)).resolve_left (by simp)
        -- The walk to the new tail starts at `y`, past the process that was taken off.
        have hrest : Chain (Function.update s.p_nextready y (s.p_nextready rp)) (some y) (e ++ [t])
            none := by
          rw [← het]
          exact (chain_append.mp hchain.unlink).elim fun r hr => by
            rw [chain_cons] at hr ⊢
            exact ⟨rfl, hr.2.2⟩
        have hel : e.length < fuel := by
          have := congrArg List.length het
          simp only [List.length_append, List.length_cons, List.length_nil] at this hlen
          omega
        simp only [lastCell_eq hrest hel]
        refine ⟨_, rfl, ?_, id⟩
        rw [herase]
        exact h.unlink hl (by rw [het]; simp)
      · -- Not on the queue.
        have hxb : rp ∉ x :: b := by simpa [Ne.symm hx] using hm
        have hc : Chain s.p_nextready (some x) (x :: b) none := ⟨rfl, hchain.2⟩
        simp only [cellBefore_eq_none hc hxb hlen.le]
        refine ⟨s, rfl, ?_, id⟩
        rw [List.erase_of_not_mem hm, ← hl, Function.update_eq_self]
        exact h

/-- `unready` erases a process from the queue of its class. -/
theorem unready_spec (h : Queues s rq) (rp : Slot) :
    ∃ s', unready s rp = some s' ∧
      Queues s' (Function.update rq (queueOf s rp) ((rq (queueOf s rp)).erase rp)) ∧
      (Running s → Running s') := by
  rw [unready_eq]
  exact removeReady_spec h

/-- `sched` moves the head of the user queue to its end. -/
theorem sched_spec (h : Queues s rq) :
    ∃ s', sched s = some s' ∧ Queues s' (Function.update rq .USER_Q ((rq .USER_Q).rotate 1)) ∧
      (Running s → Running s') := by
  unfold sched
  rcases hl : rq .USER_Q with _ | ⟨x, b⟩
  · rw [h.chains.eq_nil_iff.mp hl]
    refine ⟨s, rfl, ?_, id⟩
    rw [List.rotate_nil, ← hl, Function.update_eq_self]
    exact h
  · have hc := h.chains.chain .USER_Q
    rw [hl] at hc
    obtain ⟨a, t, hat⟩ := (List.eq_nil_or_concat' (rq .USER_Q)).resolve_left (by simp [hl])
    have ht := h.tail _ a t hat
    rw [hc.1, ht, List.rotate_cons_succ, List.rotate_zero]
    exact ⟨_, rfl, pickProc_queues (h.rotate hl ht), fun _ => pickProc_running _⟩

/-! ## Flags and queues together -/

/-- The ready queues hold the processes without flags. A process whose signal is pending is kept
from running by another flag until the memory manager has dealt with it. -/
structure ReadyInv (s : State) (rq : Queue → List Slot) : Prop where
  /-- The pointers stand for the lists. -/
  queues : Queues s rq
  /-- A queued process has no flag set. -/
  zero : ∀ q p, p ∈ rq q → s.p_flags p = PFlags.zero
  /-- A process without flags is queued, the two that never are excepted. -/
  mem : ∀ p, p ≠ idleSlot → p ≠ hardwareSlot → s.p_flags p = PFlags.zero → p ∈ rq (queueOf s p)
  /-- `SIG_PENDING` outlasts `PENDING`. -/
  sig : ∀ p, (s.p_flags p).pending → (s.p_flags p).sigPending

/-- The ready queues are in order. -/
def ReadyOk (s : State) : Prop := ∃ rq, ReadyInv s rq

/-- `s'` is `s` with the flags of `rp` changed to `f`, but for the ready queues and the process that
runs. -/
def Reflagged (s : State) (rp : Slot) (f : PFlags) (s' : State) : Prop :=
  ∃ nextready head tail proc bill, s' = { s with
    p_flags := Function.update s.p_flags rp f, p_nextready := nextready, rdy_head := head,
    rdy_tail := tail, proc_ptr := proc, bill_ptr := bill }

/-- A change of flags next to a change of the queues. -/
theorem Resched.setFlags (h : Resched s s') : Reflagged s rp f (s'.setFlags rp f) := by
  obtain ⟨_, _, _, _, _, rfl⟩ := h
  exact ⟨_, _, _, _, _, rfl⟩

/-- A change of the queues next to a change of flags. -/
theorem Resched.of_setFlags (h : Resched (s.setFlags rp f) s') : Reflagged s rp f s' := by
  obtain ⟨_, _, _, _, _, rfl⟩ := h
  exact ⟨_, _, _, _, _, rfl⟩

/-- The flags after a change of flags. -/
theorem Reflagged.flags (h : Reflagged s rp f s') :
    s'.p_flags = Function.update s.p_flags rp f := by
  obtain ⟨_, _, _, _, _, rfl⟩ := h
  rfl

/-- A process that runs, the idle task excepted, has no flag set. -/
theorem ReadyInv.proc_zero (h : ReadyInv s rq) (hr : Running s) (hi : s.proc_ptr ≠ idleSlot) :
    s.p_flags s.proc_ptr = PFlags.zero := by
  obtain ⟨q, -, hq⟩ := hr.resolve_left hi
  refine h.zero q _ (List.mem_of_mem_head? ?_)
  rw [h.queues.chains.head?_eq, hq]
  rfl

/-- Rearranging the queues keeps them in order. -/
theorem ReadyInv.resched (h : ReadyInv s rq) (hs : Resched s s') (hq : Queues s' rq')
    (hm : ∀ q p, p ∈ rq' q ↔ p ∈ rq q) : ReadyInv s' rq' where
  queues := hq
  zero q p hp := by
    rw [hs.flags]
    exact h.zero q p ((hm q p).mp hp)
  mem p hi hh h0 := by
    rw [hs.flags] at h0
    rw [hs.queueOf, hm]
    exact h.mem p hi hh h0
  sig p := by
    rw [hs.flags]
    exact h.sig p

/-- `SIG_PENDING` outlasts `PENDING` if it does for the flags that are set. -/
theorem setFlags_sig (h : ∀ p, (s.p_flags p).pending → (s.p_flags p).sigPending)
    (hf : f.pending → f.sigPending) (p : Slot) :
    ((s.setFlags rp f).p_flags p).pending → ((s.setFlags rp f).p_flags p).sigPending := by
  by_cases hp : p = rp
  · subst hp
    rw [s.setFlags_self]
    exact hf
  · rw [s.setFlags_of_ne f hp]
    exact h p

/-- Flags that change from some to others do not matter to the queues. -/
theorem ReadyInv.setFlags (h : ReadyInv s rq) (h0 : s.p_flags rp ≠ PFlags.zero)
    (hf : f ≠ PFlags.zero) (hsig : f.pending → f.sigPending) : ReadyInv (s.setFlags rp f) rq where
  queues := h.queues
  zero q p hp := by
    have hne : p ≠ rp := fun e => h0 (e ▸ h.zero q p hp)
    rw [s.setFlags_of_ne f hne]
    exact h.zero q p hp
  mem p hi hh hz := by
    have hne : p ≠ rp := by
      rintro rfl
      rw [s.setFlags_self] at hz
      exact hf hz
    rw [s.setFlags_of_ne f hne] at hz
    exact h.mem p hi hh hz
  sig := setFlags_sig h.sig hsig

/-- The first flags take a process off its queue. -/
theorem ReadyInv.setFirst (h : ReadyInv s rq) (hs : Resched s s')
    (hq : Queues s' (Function.update rq (queueOf s rp) ((rq (queueOf s rp)).erase rp)))
    (hf : f ≠ PFlags.zero) (hsig : f.pending → f.sigPending) : ReadyOk (s'.setFlags rp f) := by
  have hmem : ∀ q p, p ∈ Function.update rq (queueOf s rp) ((rq (queueOf s rp)).erase rp) q ↔
      p ∈ rq q ∧ p ≠ rp := fun _ _ =>
    h.queues.chains.mem_update_erase fun _ hq => h.queues.notMem rfl hq
  refine ⟨_, hq, fun q p hp => ?_, fun p hi hh hz => ?_, setFlags_sig ?_ hsig⟩
  · obtain ⟨hp, hne⟩ := (hmem q p).mp hp
    rw [s'.setFlags_of_ne f hne, hs.flags]
    exact h.zero q p hp
  · have hne : p ≠ rp := by
      rintro rfl
      rw [s'.setFlags_self] at hz
      exact hf hz
    rw [s'.setFlags_of_ne f hne, hs.flags] at hz
    have hp := h.mem p hi hh hz
    rw [← hs.queueOf] at hp
    exact (hmem _ p).mpr ⟨hp, hne⟩
  · rw [hs.flags]
    exact h.sig

/-- A process whose last flags are cleared goes on its queue. -/
theorem ReadyInv.clearLast (h : ReadyInv s rq) (hs : Resched (s.setFlags rp PFlags.zero) s')
    (hq : Queues s' (Function.update rq (queueOf s rp) (rq (queueOf s rp) ++ [rp]))) :
    ReadyOk s' := by
  refine ⟨_, hq, fun q p hp => ?_, fun p hi hh hz => ?_, ?_⟩
  · rw [hs.flags]
    by_cases hpr : p = rp
    · rw [hpr, s.setFlags_self]
    · rw [s.setFlags_of_ne _ hpr]
      rcases mem_update_append.mp hp with hp | hp
      · exact h.zero q p hp
      · exact absurd hp.2 hpr
  · rw [hs.flags] at hz
    rw [hs.queueOf]
    refine mem_update_append.mpr ?_
    by_cases hpr : p = rp
    · subst hpr
      exact Or.inr ⟨rfl, rfl⟩
    · rw [s.setFlags_of_ne _ hpr] at hz
      exact Or.inl (h.mem p hi hh hz)
  · rw [hs.flags]
    exact setFlags_sig h.sig (by simp [PFlags.zero])

/-- Setting flags of a process changes nothing else, but for the queues. -/
theorem block_reflagged (h : block s rp f = some s') :
    Reflagged s rp ((s.p_flags rp).or f) s' := by
  unfold block at h
  split_ifs at h with h0
  · obtain ⟨s₁, h₁, h⟩ := Option.bind_eq_some_iff.mp h
    obtain rfl := Option.some.inj h
    have hre : Resched s s₁ := removeReady_resched (unready_eq s rp ▸ h₁)
    rw [hre.flags]
    exact hre.setFlags
  · obtain rfl := Option.some.inj h
    exact (Resched.refl s).setFlags

/-- Clearing flags of a process changes nothing else, but for the queues. -/
theorem unblock_reflagged (h : unblock s rp f = some s') :
    Reflagged s rp ((s.p_flags rp).clear f) s' := by
  unfold unblock at h
  dsimp only at h
  split_ifs at h with h0
  · exact Resched.of_setFlags (addReady_resched (ready_eq _ rp ▸ h))
  · obtain rfl := Option.some.inj h
    exact (Resched.refl s).setFlags

/-- Setting flags of a process takes it off its queue if they are the first. -/
theorem block_spec (h : ReadyInv s rq) (hf : f ≠ PFlags.zero)
    (hsig : ((s.p_flags rp).or f).pending → ((s.p_flags rp).or f).sigPending) :
    ∃ s', block s rp f = some s' ∧ ReadyOk s' ∧ (Running s → Running s') := by
  have hor : (s.p_flags rp).or f ≠ PFlags.zero := by
    intro e
    apply hf
    cases f
    simp_all [PFlags.or, PFlags.zero]
  unfold block
  by_cases h0 : s.p_flags rp = PFlags.zero
  · obtain ⟨s', hs', hq, hrun⟩ := unready_spec h.queues rp
    have hre : Resched s s' := removeReady_resched (unready_eq s rp ▸ hs')
    simp only [if_pos h0, hs', Option.bind_eq_bind, Option.bind_some, hre.flags]
    exact ⟨_, rfl, h.setFirst hre hq hor hsig, hrun⟩
  · simp only [if_neg h0, Option.bind_eq_bind, Option.bind_some]
    exact ⟨_, rfl, ⟨rq, h.setFlags h0 hor hsig⟩, id⟩

/-- Clearing flags of a process that has some queues it if they were the last. -/
theorem unblock_spec (h : ReadyInv s rq) (h0 : s.p_flags rp ≠ PFlags.zero)
    (hsig : ((s.p_flags rp).clear f).pending → ((s.p_flags rp).clear f).sigPending) :
    ∃ s', unblock s rp f = some s' ∧ ReadyOk s' ∧ (Running s → Running s') := by
  simp only [unblock, State.setFlags_self]
  by_cases hz : (s.p_flags rp).clear f = PFlags.zero
  · have hqs : Queues (s.setFlags rp PFlags.zero) rq := h.queues
    obtain ⟨s', hs', hq, hrun⟩ := ready_spec hqs fun hm => h0 (h.zero _ _ hm)
    have hre : Resched (s.setFlags rp PFlags.zero) s' :=
      addReady_resched (ready_eq (s.setFlags rp PFlags.zero) rp ▸ hs')
    simp only [hz, if_true, hs']
    exact ⟨_, rfl, h.clearLast hre hq, hrun⟩
  · simp only [if_neg hz]
    exact ⟨_, rfl, ⟨rq, h.setFlags h0 hz hsig⟩, id⟩

end Minix.Kernel
