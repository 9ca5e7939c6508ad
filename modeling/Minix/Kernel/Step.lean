import Minix.Kernel.Boot
import Minix.Kernel.IpcInv
import Minix.Lib.Run

/-!
# Runs of the kernel

`Step` is one entry into the kernel: a call of the running process, an interrupt for a task, or
something that a task does to the process table through the functions that are there for it. A run
starts after `main`, with any number of live users; no slot is taken into use or freed in it.

`KernelInv` is the invariant of the runs: the table represents the rendezvous, and the ready queues
are in order. The one needs the other: a call is made by a process without flags because the running
process is the head of a ready queue, and the sender that a receive takes from a queue may be made
ready because its `SENDING` flag was set.
-/

namespace Minix.Kernel

open Lib Lib.Rendezvous

/-- The entries into the kernel. -/
inductive Action
  | sysCall (function : Call) (src_dest : ℤ) (m_ptr : Addr)
  | interrupt (task : Slot) (competing : Bool)
  | unhold
  | inform
  | causeSig (rp : Slot) (sig_nr : ℕ)
  | sched
  | pickProc
  /-- A task inhibits a process by the flags `f`. -/
  | stop (rp : Slot) (f : PFlags)
  /-- A task takes the flags `f` of a process back. -/
  | resume (rp : Slot) (f : PFlags)

/-- The flags by which the system task inhibits a process: `NO_MAP`, `SIG_PENDING` and `P_STOP`. -/
def PFlags.inhibits (f : PFlags) : Bool := !(f.slotFree || f.sending || f.receiving || f.pending)

/-- One entry. -/
inductive Step : State → Action → State → Prop
  /-- The idle task and the hardware make no calls. -/
  | sysCall {s s' : State} {function : Call} {src_dest r : ℤ} {m_ptr : Addr} :
      isidlehardware s.proc_ptr = false →
      sysCall s function src_dest m_ptr = some (r, s') →
      Step s (.sysCall function src_dest m_ptr) s'
  | interrupt {s s' : State} {task : Slot} {competing : Bool} :
      istaskp task → interrupt s task competing = some s' → Step s (.interrupt task competing) s'
  | unhold {s s' : State} {rp : Slot} :
      s.held_head = some rp → unholdOne s rp = some s' → Step s .unhold s'
  /-- `inform` is called when the memory manager is waiting for new input. -/
  | inform {s s' : State} :
      (s.p_flags mmSlot).receiving = true → s.p_getfrom mmSlot = ANY →
      inform s = some s' → Step s .inform s'
  | causeSig {s s' : State} {rp : Slot} {sig_nr : ℕ} :
      NR_TASKS ≤ rp.val → causeSig s rp sig_nr = some s' → Step s (.causeSig rp sig_nr) s'
  | sched {s s' : State} : sched s = some s' → Step s .sched s'
  | pickProc {s : State} : Step s .pickProc (pickProc s)
  | stop {s s' : State} {rp : Slot} {f : PFlags} :
      NR_TASKS ≤ rp.val → f.inhibits → f ≠ PFlags.zero → block s rp f = some s' →
      Step s (.stop rp f) s'
  /-- `SIG_PENDING` is not taken back while a signal is pending. -/
  | resume {s s' : State} {rp : Slot} {f : PFlags} :
      NR_TASKS ≤ rp.val → f.inhibits → s.p_flags rp ≠ PFlags.zero →
      (((s.p_flags rp).clear f).pending → ((s.p_flags rp).clear f).sigPending) →
      unblock s rp f = some s' → Step s (.resume rp f) s'

/-- What holds in every state of a run. -/
structure KernelInv (s : State) : Prop where
  ipc : IpcInv s
  sched : SchedInv s

variable {s s' s'' : State} {caller rp x : Slot} {function : Call} {n src r : ℤ} {m_ptr : Addr}
  {f : PFlags} {a : Action} {as : List Action} {previous : Option Slot}

/-! ## One entry -/

/-- Whoever calls is not the hardware. -/
theorem not_hardware (h : isidlehardware x = false) : x ≠ hardwareSlot := by
  simp only [isidlehardware, Bool.or_eq_false_iff, beq_eq_false_iff_ne] at h
  exact h.2

/-- Whoever runs, the idle task excepted, has no flags. -/
theorem KernelInv.proc_zero (h : KernelInv s) (hp : isidlehardware s.proc_ptr = false) :
    s.p_flags s.proc_ptr = PFlags.zero := by
  obtain ⟨rq, hrq⟩ := h.sched.ready
  simp only [isidlehardware, Bool.or_eq_false_iff, beq_eq_false_iff_ne] at hp
  exact hrq.proc_zero h.sched.running hp.1

/-- A sender that a receive takes from a queue is sending. -/
theorem IpcInv.scan_sending (h : IpcInv s)
    (hs : scan s.p_sendlink (accepts src) fuel none (s.p_callerq caller) =
      some (previous, some x)) : (s.p_flags x).sending = true := by
  rcases scan_cases (accepts src) none (h.2.chains.chain caller) (h.length_lt caller) with
    ⟨a, y, b, hw, -, -, hsc⟩ | ⟨-, hsc⟩
  · rw [hs, Option.some.injEq, Prod.mk.injEq, Option.some.injEq] at hsc
    obtain ⟨-, rfl⟩ := hsc
    have hmem : x ∈ (history s.log).waiting caller := by simp [hw]
    rw [h.2.sending, h.2.sent_eq hmem]
    rfl
  · rw [hs] at hsc
    simp at hsc

/-- A send, by a process that is neither sending nor receiving. -/
theorem KernelInv.miniSend (h : KernelInv s) (hch : caller ≠ hardwareSlot)
    (h0 : s.p_flags caller = PFlags.zero) (hs : miniSend s caller n m_ptr = some (r, s')) :
    KernelInv s' ∧ (history s'.log).opened caller = none ∧
      ∀ d b, (history s'.log).sent caller = some (d, b) → n = procNumber d ∧ m_ptr = b := by
  obtain ⟨hi, ho, hd⟩ := h.ipc.miniSend (h.ipc.2.sent_eq_none (by rw [h0]; rfl))
    (h.ipc.2.opened_eq_none (by rw [h0]; rfl)) (fun e => absurd e hch) hs
  exact ⟨⟨hi, h.sched.miniSend hs⟩, ho, hd⟩

/-- A receive, by a process that is not receiving. -/
theorem KernelInv.miniRec (h : KernelInv s) (hch : caller ≠ hardwareSlot)
    (ho : (history s.log).opened caller = none)
    (hd : ∀ d b, (history s.log).sent caller = some (d, b) → src = procNumber d ∧ m_ptr = b)
    (hs : miniRec s caller src m_ptr = some (r, s')) : KernelInv s' :=
  ⟨h.ipc.miniRec hch ho hd hs, h.sched.miniRec hs fun _ _ hscan => h.ipc.scan_sending hscan⟩

/-- What a call of the running process has done: it was refused, or it is a send, a receive, or one
after the other. -/
theorem sysCall_cases (h : sysCall s function n m_ptr = some (r, s')) :
    (r ≠ OK ∧ s' = s) ∨
    (function = .RECEIVE ∧ miniRec s s.proc_ptr n m_ptr = some (r, s')) ∨
    (function = .SEND ∧ miniSend s s.proc_ptr n m_ptr = some (r, s')) ∨
    (function = .BOTH ∧ ∃ s₁, miniSend s s.proc_ptr n m_ptr = some (OK, s₁) ∧
      miniRec s₁ s.proc_ptr n m_ptr = some (r, s')) := by
  have hrefuse : ∀ e : ℤ, e ≠ OK → some (e, s) = some (r, s') → r ≠ OK ∧ s' = s := by
    intro e he h
    simp only [Option.some.injEq, Prod.mk.injEq] at h
    exact ⟨h.1 ▸ he, h.2.symm⟩
  unfold sysCall at h
  by_cases hn : (!isoksrcDest n) = true
  · rw [if_pos hn] at h
    exact Or.inl (hrefuse _ (by decide) h)
  rw [if_neg hn] at h
  dsimp only at h
  split_ifs at h with hu hf
  · exact Or.inl (hrefuse _ (by decide) h)
  · exact Or.inr (Or.inl ⟨hf, h⟩)
  · obtain ⟨⟨r₁, s₁⟩, h₁, h₂⟩ := Option.bind_eq_some_iff.mp h
    unfold sysCallRec at h₂
    dsimp only at h₂
    split_ifs at h₂ with hc
    · simp only [Option.some.injEq, Prod.mk.injEq] at h₂
      obtain ⟨rfl, rfl⟩ := h₂
      rcases hc with hc | hc
      · exact Or.inr (Or.inr (Or.inl ⟨hc, h₁⟩))
      · rcases miniSend_cases h₁ with he | ⟨d, -, he, -⟩
        · exact Or.inl he
        · exact absurd he hc
    · simp only [not_or, not_not] at hc
      have hboth : function = .BOTH := by
        cases function with
        | SEND => exact absurd rfl hc.1
        | RECEIVE => exact absurd rfl hf
        | BOTH => rfl
      exact Or.inr (Or.inr (Or.inr ⟨hboth, s₁, by rw [h₁, hc.2], h₂⟩))

/-- A call of the running process keeps the invariant. -/
theorem KernelInv.sysCall (h : KernelInv s) (hp : isidlehardware s.proc_ptr = false)
    (hs : sysCall s function n m_ptr = some (r, s')) : KernelInv s' := by
  have h0 := h.proc_zero hp
  have hch := not_hardware hp
  rcases sysCall_cases hs with ⟨-, rfl⟩ | ⟨-, hs⟩ | ⟨-, hs⟩ | ⟨-, s₁, h₁, h₂⟩
  · exact h
  · have hsent : (history s.log).sent s.proc_ptr = none :=
      h.ipc.2.sent_eq_none (by rw [h0]; rfl)
    refine h.miniRec hch (h.ipc.2.opened_eq_none (by rw [h0]; rfl)) (fun d b hd => ?_) hs
    rw [hsent] at hd
    simp at hd
  · exact (h.miniSend hch h0 hs).1
  · -- The receive half knows what the send half has left open.
    obtain ⟨hi, ho, hd⟩ := h.miniSend hch h0 h₁
    exact hi.miniRec hch ho hd h₂

/-- A process from the servers on is not a task, and not the hardware. -/
theorem not_task (h : NR_TASKS ≤ rp.val) : istaskp rp = false ∧ rp ≠ hardwareSlot := by
  constructor
  · unfold istaskp
    simp [Nat.not_lt.mpr h]
  · rintro rfl
    exact absurd h (by decide)

/-- Every entry keeps the invariant. -/
theorem Step.inv (h : Step s a s') (hi : KernelInv s) : KernelInv s' := by
  cases h with
  | sysCall hp hs => exact hi.sysCall hp hs
  | interrupt ht hs => exact ⟨hi.ipc.interrupt hs, hi.sched.interrupt hs ht⟩
  | unhold hrp hs => exact ⟨hi.ipc.unholdOne hs, hi.sched.unholdOne hrp hs⟩
  | inform hr hg hs => exact ⟨hi.ipc.inform hr hg hs, hi.sched.inform hs⟩
  | causeSig ht hs =>
    exact ⟨hi.ipc.causeSig hs (not_task ht).2, hi.sched.causeSig hs (not_task ht).1⟩
  | sched hs => exact ⟨hi.ipc.resched (sched_resched hs), hi.sched.sched hs⟩
  | pickProc => exact ⟨hi.ipc.resched (pickProc_resched s), hi.sched.pickProc⟩
  | stop ht hf h0 hs =>
    simp only [PFlags.inhibits, Bool.not_eq_true', Bool.or_eq_false_iff] at hf
    refine ⟨hi.ipc.reflagged (block_reflagged hs) (not_task ht).2 ?_ ?_,
      hi.sched.block hs h0 (by simp [(not_task ht).1]) ?_⟩
    · simp [PFlags.or, hf]
    · simp [PFlags.or, hf]
    · have := hi.sched.sig
      simp only [PFlags.or, hf, Bool.or_false, Bool.or_eq_true]
      exact fun hp => Or.inl (this _ hp)
  | resume ht hf h0 hsig hs =>
    simp only [PFlags.inhibits, Bool.not_eq_true', Bool.or_eq_false_iff] at hf
    refine ⟨hi.ipc.reflagged (unblock_reflagged hs) (not_task ht).2 ?_ ?_,
      hi.sched.unblock hs h0 hsig⟩
    · simp [PFlags.clear, hf]
    · simp [PFlags.clear, hf]

/-! ## Runs -/

/-- At the start nothing is open. -/
theorem Boot.ipc (h : Boot s) : IpcInv s := by
  obtain ⟨s₀, users, hu, hs⟩ := h
  obtain ⟨s₁, h₁, hb, -, hflags⟩ := main_spec s₀ hu
  rw [hs] at h₁
  obtain rfl := Option.some.inj h₁
  have hrep : ∀ p, (s.p_flags p).sending = false ∧ (s.p_flags p).receiving = false := by
    intro p
    rw [hflags]
    split_ifs
    · exact ⟨rfl, rfl⟩
    · exact ⟨rfl, rfl⟩
  have hhw : hardwareSlot ∈ bootSlots ++ users := by
    have : hardwareSlot ∈ bootSlots := by decide
    simp [this]
  obtain ⟨_, _, _, _, _, _, rfl⟩ := hb
  refine ⟨lawful_nil, ⟨fun _ => rfl, by simp [clearTable, State.init]⟩, ⟨?_, ?_⟩, fun p => ?_,
    fun p => ?_, ?_, ?_, ?_, ?_, ?_, ?_⟩
  · simp [clearTable, State.init]
  · simp [clearTable, State.init]
  · rw [(hrep p).1]
    rfl
  · rw [(hrep p).2]
    rfl
  · simp [clearTable, State.init]
  · simp [clearTable, State.init]
  · simp [clearTable, State.init]
  · simp [clearTable, State.init]
  · simp [clearTable, State.init]
  · rw [hflags, if_pos hhw]

/-- The invariant holds in every state of every run. -/
theorem reachable_inv (h : Reachable Boot Step s) : KernelInv s :=
  h.invariant (fun _ hb => ⟨hb.ipc, hb.sched⟩) fun _ _ _ hi hst => hst.inv hi

end Minix.Kernel
