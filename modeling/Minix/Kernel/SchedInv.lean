import Minix.Kernel.ReadyQueue

/-!
# What the calls keep of the ready queues

`SchedInv` is what the scheduling functions, the message calls, the signals and `interrupt` keep of
the ready queues, whoever calls them. There is one lemma for each function, by name. Where a process
is made ready, its flags must have just become 0; `mini_rec` relies on the sender that it takes from
a queue having had `SENDING` set, and `inform` on `SIG_PENDING` being set beside `PENDING`.

A task gets no other flags than the message calls give it, which is why `interrupt` can make it
ready without looking at the flags that are left.
-/

namespace Minix.Kernel

open Lib

/-- No flags are set but those that the message calls set. -/
def PFlags.onlyIpc (f : PFlags) : Bool :=
  !(f.slotFree || f.noMap || f.pending || f.sigPending || f.stop)

/-- Tasks are never stopped or signalled, and their slots are not freed. -/
def TaskFlags (flags : Slot → PFlags) : Prop := ∀ p, istaskp p → (flags p).onlyIpc

/-- The queue of interrupts that are held up has tasks only. -/
def HeldTasks (head : Option Slot) (nextheld : Slot → Option Slot) : Prop :=
  (∀ p, head = some p → istaskp p) ∧ ∀ p x, nextheld p = some x → istaskp x

/-- What the scheduler keeps. -/
structure SchedInv (s : State) : Prop where
  ready : ReadyOk s
  running : Running s
  tasks : TaskFlags s.p_flags
  held : HeldTasks s.held_head s.p_nextheld

/-- The fields that the ready queues depend on. -/
def queueFields (s : State) :=
  (s.p_flags, s.p_shadow, s.p_nextready, s.rdy_head, s.rdy_tail, s.proc_ptr)

/-- The fields that the scheduler looks at. -/
def schedFields (s : State) := (queueFields s, s.held_head, s.p_nextheld)

variable {s s' : State} {rq : Queue → List Slot} {p rp caller dest : Slot} {q : Queue}
  {f g : PFlags} {n src r : ℤ} {m_ptr : Addr}

/-- The other fields do not matter to the ready queues. -/
theorem SchedInv.congr_held (h : SchedInv s) (he : queueFields s' = queueFields s)
    (hh : HeldTasks s'.held_head s'.p_nextheld) : SchedInv s' := by
  simp only [queueFields, Prod.mk.injEq] at he
  obtain ⟨hf, hsh, hn, hhd, htl, hp⟩ := he
  have hq : queueOf s' = queueOf s := by
    funext p
    unfold queueOf isshadowp
    rw [hsh]
  obtain ⟨rq, hrq⟩ := h.ready
  refine ⟨⟨rq, ?_, ?_, ?_, ?_⟩, ?_, ?_, hh⟩
  · unfold Queues
    rw [hq, hn, hhd, htl]
    exact hrq.queues
  · rw [hf]
    exact hrq.zero
  · rw [hf, hq]
    exact hrq.mem
  · rw [hf]
    exact hrq.sig
  · unfold Running
    rw [hp, hhd]
    exact h.running
  · rw [hf]
    exact h.tasks

/-- The other fields do not matter. -/
theorem SchedInv.congr (h : SchedInv s) (he : schedFields s' = schedFields s) : SchedInv s' := by
  simp only [schedFields, Prod.mk.injEq] at he
  refine h.congr_held he.1 ?_
  rw [he.2.1, he.2.2]
  exact h.held

/-- `SIG_PENDING` outlasts `PENDING`. -/
theorem SchedInv.sig (h : SchedInv s) (p : Slot) :
    (s.p_flags p).pending → (s.p_flags p).sigPending := by
  obtain ⟨rq, hrq⟩ := h.ready
  exact hrq.sig p

/-- More flags of the message calls. -/
theorem PFlags.onlyIpc_or (hf : f.onlyIpc) (hg : g.onlyIpc) : (f.or g).onlyIpc := by
  simp only [PFlags.onlyIpc, Bool.not_eq_true', Bool.or_eq_false_iff] at hf hg
  simp [PFlags.onlyIpc, PFlags.or, hf, hg]

/-- Fewer flags. -/
theorem PFlags.onlyIpc_clear (hf : f.onlyIpc) : (f.clear g).onlyIpc := by
  simp only [PFlags.onlyIpc, Bool.not_eq_true', Bool.or_eq_false_iff] at hf
  simp [PFlags.onlyIpc, PFlags.clear, hf]

/-- Clearing `RECEIVING` is clearing the last flag of a task that does not also send. -/
theorem PFlags.clear_receiving (hf : f.onlyIpc) (hs : f.sending = false) :
    f.clear RECEIVING = PFlags.zero := by
  simp only [PFlags.onlyIpc, Bool.not_eq_true', Bool.or_eq_false_iff] at hf
  simp [PFlags.clear, RECEIVING, PFlags.zero, hf, hs]

/-- The flags of a task may be set to flags that a task may have. -/
theorem TaskFlags.update {flags : Slot → PFlags} (h : TaskFlags flags)
    (hg : istaskp rp → g.onlyIpc) : TaskFlags (Function.update flags rp g) := by
  intro p hp
  by_cases hpr : p = rp
  · subst hpr
    rw [Function.update_self]
    exact hg hp
  · rw [Function.update_of_ne hpr]
    exact h p hp

/-- A change of flags, next to one of the queues, keeps what it does not touch. -/
theorem SchedInv.reflagged (h : SchedInv s) (hs : Reflagged s rp f s') (hr : ReadyOk s')
    (hp : Running s') (hf : istaskp rp → f.onlyIpc) : SchedInv s' := by
  refine ⟨hr, hp, ?_, ?_⟩
  · obtain ⟨_, _, _, _, _, rfl⟩ := hs
    exact h.tasks.update hf
  · obtain ⟨_, _, _, _, _, rfl⟩ := hs
    exact h.held

/-! ## The functions -/

/-- Setting flags of a process. -/
theorem SchedInv.block (h : SchedInv s) (hs : block s rp f = some s') (hf : f ≠ PFlags.zero)
    (ht : istaskp rp → f.onlyIpc)
    (hsig : ((s.p_flags rp).or f).pending → ((s.p_flags rp).or f).sigPending) : SchedInv s' := by
  obtain ⟨rq, hrq⟩ := h.ready
  obtain ⟨s₁, h₁, hr, hp⟩ := block_spec hrq hf hsig
  obtain rfl : s₁ = s' := Option.some.inj (h₁.symm.trans hs)
  exact h.reflagged (block_reflagged hs) hr (hp h.running) fun hi =>
    PFlags.onlyIpc_or (h.tasks rp hi) (ht hi)

/-- Clearing flags of a process that has some. -/
theorem SchedInv.unblock (h : SchedInv s) (hs : unblock s rp f = some s')
    (h0 : s.p_flags rp ≠ PFlags.zero)
    (hsig : ((s.p_flags rp).clear f).pending → ((s.p_flags rp).clear f).sigPending) :
    SchedInv s' := by
  obtain ⟨rq, hrq⟩ := h.ready
  obtain ⟨s₁, h₁, hr, hp⟩ := unblock_spec hrq h0 hsig
  obtain rfl : s₁ = s' := Option.some.inj (h₁.symm.trans hs)
  exact h.reflagged (unblock_reflagged hs) hr (hp h.running) fun hi =>
    PFlags.onlyIpc_clear (h.tasks rp hi)

/-- The head of the user queue goes to its end. -/
theorem SchedInv.sched (h : SchedInv s) (hs : sched s = some s') : SchedInv s' := by
  obtain ⟨rq, hrq⟩ := h.ready
  obtain ⟨s₁, h₁, hq, hp⟩ := sched_spec hrq.queues
  obtain rfl : s₁ = s' := Option.some.inj (h₁.symm.trans hs)
  have hre := sched_resched hs
  have hm : ∀ q p, p ∈ Function.update rq .USER_Q ((rq .USER_Q).rotate 1) q ↔ p ∈ rq q := by
    intro q p
    by_cases hqu : q = .USER_Q
    · subst hqu
      rw [Function.update_self, List.mem_rotate]
    · rw [Function.update_of_ne hqu]
  refine ⟨⟨_, hrq.resched hre hq hm⟩, hp h.running, ?_, ?_⟩
  · rw [hre.flags]
    exact h.tasks
  · obtain ⟨_, _, _, _, _, rfl⟩ := hre
    exact h.held

/-- A process to run is picked. -/
theorem SchedInv.pickProc (h : SchedInv s) : SchedInv (pickProc s) := by
  obtain ⟨rq, hrq⟩ := h.ready
  have hre := pickProc_resched s
  refine ⟨⟨rq, hrq.resched hre (pickProc_queues hrq.queues) fun _ _ => Iff.rfl⟩,
    pickProc_running s, ?_, ?_⟩
  · rw [hre.flags]
    exact h.tasks
  · obtain ⟨_, _, _, _, _, he⟩ := hre
    rw [he]
    exact h.held

/-- Queueing a sender does not touch the ready queues. -/
theorem queueCaller_fields (h : queueCaller s caller dest = some s') :
    schedFields s' = schedFields s := by
  unfold queueCaller at h
  split at h
  · obtain rfl := Option.some.inj h
    rfl
  · obtain ⟨t, -, h⟩ := Option.bind_eq_some_iff.mp h
    obtain rfl := Option.some.inj h
    rfl

/-- Blocking in a send keeps the ready queues in order. -/
theorem SchedInv.sendBlocked (h : SchedInv s) (hs : sendBlocked s caller dest m_ptr = some s') :
    SchedInv s' := by
  unfold Kernel.sendBlocked at hs
  obtain ⟨s₁, h₁, hs⟩ := Option.bind_eq_some_iff.mp hs
  have h₀ : SchedInv { s with p_messbuf := Function.update s.p_messbuf caller m_ptr } := h.congr rfl
  have hi : SchedInv s₁ := h₀.block h₁ (by decide) (fun _ => by decide)
    (by simpa [PFlags.or, SENDING, PFlags.zero] using h.sig caller)
  exact hi.congr (queueCaller_fields hs)

/-- A direct hand-over keeps the ready queues in order: its destination was receiving. -/
theorem SchedInv.sendDirect (h : SchedInv s) (hs : sendDirect s caller dest m_ptr = some s')
    (hw : (s.p_flags dest).receiving) : SchedInv s' := by
  have h₀ : SchedInv (cpMess s caller m_ptr dest (s.p_messbuf dest)) := h.congr rfl
  refine h₀.unblock hs ?_ ?_
  · intro e
    have he : s.p_flags dest = PFlags.zero := e
    rw [he] at hw
    simp [PFlags.zero] at hw
  · have := h₀.sig dest
    simpa [PFlags.clear, RECEIVING, PFlags.zero] using this

/-- `mini_send` keeps the ready queues in order, whoever calls it. -/
theorem SchedInv.miniSend (h : SchedInv s) (hs : miniSend s caller n m_ptr = some (r, s')) :
    SchedInv s' := by
  rcases miniSend_cases hs with ⟨-, rfl⟩ | ⟨dest, -, -, -, ⟨hw, hs⟩ | ⟨-, hs⟩⟩
  · exact h
  · have h₀ : SchedInv { s with log := s.log ++ [.send caller dest m_ptr] } := h.congr rfl
    unfold waitingFor at hw
    rw [Bool.and_eq_true, Bool.and_eq_true] at hw
    exact h₀.sendDirect hs hw.1.1
  · have h₀ : SchedInv { s with log := s.log ++ [.send caller dest m_ptr] } := h.congr rfl
    exact h₀.sendBlocked hs

/-- `mini_send` neither announces a signal nor forgets one. -/
theorem miniSend_pending (hs : miniSend s caller n m_ptr = some (r, s')) (p : Slot) :
    (s'.p_flags p).pending = (s.p_flags p).pending := by
  -- A change of the flags of one process that leaves its `PENDING` leaves all.
  have hkeep : ∀ {s₀ : State} {x g}, s₀.p_flags = s.p_flags → g.pending = (s.p_flags x).pending →
      (Function.update s₀.p_flags x g p).pending = (s.p_flags p).pending := by
    intro s₀ x g hf hg
    by_cases hx : p = x
    · subst hx
      rw [Function.update_self, hg]
    · rw [Function.update_of_ne hx, hf]
  rcases miniSend_cases hs with ⟨-, rfl⟩ | ⟨dest, -, -, -, ⟨-, hs⟩ | ⟨-, hs⟩⟩
  · rfl
  · rw [(unblock_reflagged hs).flags]
    refine hkeep rfl ?_
    show ((s.p_flags dest).clear RECEIVING).pending = _
    simp [PFlags.clear, RECEIVING, PFlags.zero]
  · obtain ⟨s₁, h₁, hs⟩ := Option.bind_eq_some_iff.mp hs
    have hf : s'.p_flags = s₁.p_flags := congrArg (·.1.1) (queueCaller_fields hs)
    rw [hf, (block_reflagged h₁).flags]
    refine hkeep rfl ?_
    show ((s.p_flags caller).or SENDING).pending = _
    simp [PFlags.or, SENDING, PFlags.zero]

/-- A process that `inform` finds has a signal pending. -/
theorem firstPending_pending (h : firstPending s = some rp) : (s.p_flags rp).pending := by
  have := List.find?_some h
  rw [Bool.and_eq_true] at this
  exact this.2

/-- The last pending signal is done with. -/
theorem SchedInv.stkfltDone {map : BitVec 16} (h : SchedInv s)
    (hs : stkfltDone s rp map = some s') (h0 : s.p_flags rp ≠ PFlags.zero)
    (hp : (s.p_flags rp).pending = false) : SchedInv s' := by
  unfold Kernel.stkfltDone at hs
  dsimp only at hs
  split_ifs at hs
  · refine SchedInv.unblock ?_ hs h0 ?_
    · exact h.congr rfl
    · show ((s.p_flags rp).clear SIG_PENDING).pending → _
      simp [PFlags.clear, hp]
  · obtain rfl := Option.some.inj hs
    exact h.congr rfl
  · obtain rfl := Option.some.inj hs
    exact h

/-- The end of `inform` keeps the ready queues in order: a process whose signal is pending is kept
from running by `SIG_PENDING`, and is readied when it loses it. -/
theorem SchedInv.informed (h : SchedInv s) (hp : (s.p_flags rp).pending)
    (hs : informed s rp = some s') : SchedInv s' := by
  have hsig := h.sig rp hp
  obtain ⟨rq, hrq⟩ := h.ready
  -- Without `PENDING`, there is still `SIG_PENDING`.
  have hne : s.p_flags rp ≠ PFlags.zero := fun e => by
    rw [e] at hp
    simp [PFlags.zero] at hp
  have hne' : (s.p_flags rp).clear PENDING ≠ PFlags.zero := fun e => by
    have := congrArg PFlags.sigPending e
    simp [PFlags.clear, PENDING, PFlags.zero, hsig] at this
  have h₁ : SchedInv (s.setFlags rp ((s.p_flags rp).clear PENDING)) :=
    h.reflagged (Resched.refl s).setFlags
      ⟨rq, hrq.setFlags hne hne' (by simp [PFlags.clear, PENDING])⟩ h.running
      fun hi => PFlags.onlyIpc_clear (h.tasks rp hi)
  unfold Kernel.informed at hs
  obtain ⟨s₃, h₃, hs⟩ := Option.bind_eq_some_iff.mp hs
  obtain rfl := Option.some.inj hs
  refine SchedInv.pickProc (SchedInv.stkfltDone ?_ h₃ ?_ ?_)
  · exact h₁.congr rfl
  · rw [State.setFlags_self]
    exact hne'
  · rw [State.setFlags_self]
    simp [PFlags.clear, PENDING]

/-- Informing the memory manager keeps the ready queues in order. -/
theorem SchedInv.inform (h : SchedInv s) (hs : inform s = some s') : SchedInv s' := by
  unfold Kernel.inform at hs
  split at hs
  · obtain rfl := Option.some.inj hs
    exact h
  · rename_i rp hrp
    obtain ⟨⟨r, s₁⟩, h₁, hs⟩ := Option.bind_eq_some_iff.mp hs
    have h₀ : SchedInv (fillInform s rp) := h.congr rfl
    dsimp only at hs
    split_ifs at hs
    refine (h₀.miniSend h₁).informed ?_ hs
    rw [miniSend_pending h₁]
    exact firstPending_pending hrp

/-- Blocking in a receive keeps the ready queues in order. -/
theorem SchedInv.recBlocked (h : SchedInv s) (hs : recBlocked s caller src m_ptr = some s') :
    SchedInv s' := by
  unfold Kernel.recBlocked at hs
  obtain ⟨s₁, h₁, hs⟩ := Option.bind_eq_some_iff.mp hs
  have hi : SchedInv s₁ := by
    refine SchedInv.block ?_ h₁ (by decide) (fun _ => by decide) ?_
    · exact h.congr rfl
    · have := h.sig caller
      simpa [PFlags.or, RECEIVING, PFlags.zero] using this
  split_ifs at hs
  · exact hi.inform hs
  · obtain rfl := Option.some.inj hs
    exact hi

/-- Unlinking a sender does not touch the ready queues. -/
theorem unlinkSender_fields {previous : Option Slot}
    (h : unlinkSender s caller previous p = some s') : schedFields s' = schedFields s := by
  unfold unlinkSender at h
  split_ifs at h
  · obtain rfl := Option.some.inj h
    rfl
  · obtain ⟨_, -, h⟩ := Option.bind_eq_some_iff.mp h
    obtain rfl := Option.some.inj h
    rfl

/-- Taking a message keeps the ready queues in order, if its sender was sending. -/
theorem SchedInv.takeFrom {previous : Option Slot} (h : SchedInv s)
    (hs : takeFrom s caller m_ptr previous p = some s') (hp : (s.p_flags p).sending) :
    SchedInv s' := by
  unfold Kernel.takeFrom at hs
  obtain ⟨s₁, h₁, hs⟩ := Option.bind_eq_some_iff.mp hs
  have hf : schedFields s₁ = schedFields s := (unlinkSender_fields h₁).trans rfl
  have hflags : s₁.p_flags = s.p_flags := congrArg (·.1.1) hf
  refine (h.congr hf).unblock hs ?_ ?_
  · intro e
    rw [hflags] at e
    rw [e] at hp
    simp [PFlags.zero] at hp
  · have := h.sig p
    rw [hflags]
    simpa [PFlags.clear, SENDING, PFlags.zero] using this

/-- `mini_rec` keeps the ready queues in order, whoever calls it, if the sender that it takes a
message from was sending. -/
theorem SchedInv.miniRec (h : SchedInv s) (hs : miniRec s caller src m_ptr = some (r, s'))
    (hq : ∀ previous x, scan s.p_sendlink (accepts src) fuel none (s.p_callerq caller) =
      some (previous, some x) → (s.p_flags x).sending) : SchedInv s' := by
  have h₀ : SchedInv { s with log := s.log ++ [.receive caller src m_ptr] } := h.congr rfl
  obtain ⟨-, ⟨-, hs⟩ | ⟨-, previous, sender, hscan, hs⟩⟩ := miniRec_cases hs
  · exact h₀.recBlocked hs
  · rcases hs with ⟨x, rfl, hs⟩ | ⟨-, -, -, rfl⟩ | ⟨-, -, hs⟩
    · exact h₀.takeFrom hs (hq previous x hscan)
    · exact h.congr rfl
    · exact h₀.recBlocked hs

/-- A link to a task, or nowhere, among links to tasks. -/
theorem HeldTasks.update {head v : Option Slot} {next : Slot → Option Slot} {t : Slot}
    (h : HeldTasks head next) (hv : ∀ x, v = some x → istaskp x) :
    HeldTasks head (Function.update next t v) := by
  refine ⟨h.1, fun p x hx => ?_⟩
  by_cases hp : p = t
  · rw [hp, Function.update_self] at hx
    exact hv x hx
  · rw [Function.update_of_ne hp] at hx
    exact h.2 p x hx

/-- Holding up the interrupt of a task touches the queue of held interrupts only. -/
theorem SchedInv.hold (h : SchedInv s) (hs : hold s rp = some s') (hi : istaskp rp) :
    SchedInv s' := by
  have hrp : ∀ x, some rp = some x → istaskp x := fun x hx => Option.some.inj hx ▸ hi
  unfold Kernel.hold at hs
  split_ifs at hs
  · obtain rfl := Option.some.inj hs
    exact h
  · obtain ⟨s₁, h₁, hs⟩ := Option.bind_eq_some_iff.mp hs
    obtain rfl := Option.some.inj hs
    unfold linkHeld at h₁
    split at h₁
    · obtain ⟨t, -, h₁⟩ := Option.bind_eq_some_iff.mp h₁
      obtain rfl := Option.some.inj h₁
      exact h.congr_held rfl ((h.held.update hrp).update (by simp))
    · obtain rfl := Option.some.inj h₁
      have hheld : HeldTasks (some rp) s.p_nextheld := ⟨hrp, h.held.2⟩
      exact h.congr_held rfl (hheld.update (by simp))

/-- For a task, the copy of `ready` in `interrupt` is `ready`. -/
theorem addReady_eq_unblock (h : TaskFlags s.p_flags) (hi : istaskp rp)
    (hs : (s.p_flags rp).sending = false) :
    addReady (s.setFlags rp ((s.p_flags rp).clear RECEIVING)) .TASK_Q rp =
      unblock s rp RECEIVING := by
  have hz := PFlags.clear_receiving (h rp hi) hs
  unfold unblock
  simp only [State.setFlags_self, hz, if_true]
  rw [ready, if_pos hi]

/-- `interrupt` has held the interrupt up, or recorded it, or put the message in the buffer of the
task that waits for it. -/
theorem interrupt_cases {competing : Bool} (h : interrupt s rp competing = some s') :
    hold s rp = some s' ∨
      (s' = { s with p_int_blocked := Function.update s.p_int_blocked rp true } ∧
        ((s.p_flags rp).receiving = true → (s.p_flags rp).sending = false →
          isrxhardware (s.p_getfrom rp) = false)) ∨
      ((s.p_flags rp).receiving = true ∧ (s.p_flags rp).sending = false ∧
        isrxhardware (s.p_getfrom rp) = true ∧
        addReady (State.setFlags { putHardInt s rp (s.p_messbuf rp) with
          p_int_blocked := Function.update s.p_int_blocked rp false } rp
            ((s.p_flags rp).clear RECEIVING)) .TASK_Q rp = some s') := by
  unfold interrupt at h
  by_cases hc : competing = true
  · rw [if_pos hc] at h
    exact Or.inl h
  · rw [if_neg hc] at h
    by_cases hw : (!(s.p_flags rp).receiving || (s.p_flags rp).sending ||
        !isrxhardware (s.p_getfrom rp)) = true
    · rw [if_pos hw] at h
      refine Or.inr (Or.inl ⟨(Option.some.inj h).symm, fun hr hs => ?_⟩)
      simpa [hr, hs] using hw
    · rw [if_neg hw] at h
      simp only [Bool.not_eq_true, Bool.or_eq_false_iff, Bool.not_eq_false'] at hw
      exact Or.inr (Or.inr ⟨hw.1.1, hw.1.2, hw.2, h⟩)

/-- An interrupt for a task keeps the ready queues in order. -/
theorem SchedInv.interrupt {competing : Bool} (h : SchedInv s)
    (hs : interrupt s rp competing = some s') (hi : istaskp rp) : SchedInv s' := by
  rcases interrupt_cases hs with hs | ⟨rfl, -⟩ | ⟨hr, hns, -, hs⟩
  · exact h.hold hs hi
  · exact h.congr rfl
  · have h₀ : SchedInv { putHardInt s rp (s.p_messbuf rp) with
        p_int_blocked := Function.update s.p_int_blocked rp false } := h.congr rfl
    have hu := (addReady_eq_unblock h₀.tasks hi hns).symm.trans hs
    refine h₀.unblock hu ?_ ?_
    · intro e
      have he : s.p_flags rp = PFlags.zero := e
      rw [he] at hr
      simp [PFlags.zero] at hr
    · have := h₀.sig rp
      simpa [PFlags.clear, RECEIVING, PFlags.zero] using this

/-- Repeating a held-up interrupt keeps the ready queues in order. -/
theorem SchedInv.unholdOne (h : SchedInv s) (hrp : s.held_head = some rp)
    (hs : unholdOne s rp = some s') : SchedInv s' := by
  refine SchedInv.interrupt ?_ hs (h.held.1 rp hrp)
  exact h.congr_held rfl ⟨h.held.2 rp, h.held.2⟩

/-- Causing a signal to a process keeps the ready queues in order. -/
theorem SchedInv.causeSig {sig : ℕ} (h : SchedInv s) (hs : causeSig s rp sig = some s')
    (hi : istaskp rp = false) : SchedInv s' := by
  unfold Kernel.causeSig at hs
  dsimp only at hs
  split_ifs at hs with h₁ h₂
  · obtain rfl := Option.some.inj hs
    exact h
  · obtain rfl := Option.some.inj hs
    exact h.congr rfl
  · obtain ⟨s₁, hb, hs⟩ := Option.bind_eq_some_iff.mp hs
    have hinv : SchedInv s₁ := by
      refine SchedInv.block ?_ hb (by decide) (by simp [hi]) ?_
      · exact h.congr rfl
      · simp [PFlags.or, PENDING, SIG_PENDING, PFlags.zero]
    split_ifs at hs
    · obtain rfl := Option.some.inj hs
      exact hinv.congr rfl
    · refine SchedInv.inform ?_ hs
      exact hinv.congr rfl

end Minix.Kernel
