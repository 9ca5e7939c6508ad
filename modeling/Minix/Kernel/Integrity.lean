import Minix.Kernel.Step

/-!
# The rendezvous of the kernel

Two results about the runs of `Step.lean`. `wait_queues` is about each state of a run: the queues of
senders, who is in them, and that nobody waits for a message or an interrupt that is there.
`message_integrity` is about the whole history up to a state: what became of each message that
`mini_send` accepted, where each copy came from, the order of the copies, and what a process that
sent and received in one call has seen before it goes on.
-/

namespace Minix.Kernel

open Lib Lib.Rendezvous

/-! ## The queues of senders -/

/-- The lists `cq` are the queues of senders, and they are as they should be. -/
structure WaitQueues (s : State) (cq : Slot → List Slot) : Prop where
  /-- The chains from `p_callerq` through `p_sendlink` end, and have no process twice. -/
  chain : ∀ q, Chain s.p_sendlink (s.p_callerq q) (cq q) none ∧ (cq q).Nodup
  /-- A process that is sending is on exactly one of them. -/
  sending : ∀ p, (s.p_flags p).sending = true → ∃! q, p ∈ cq q
  /-- A process that is not sending is on none. -/
  notSending : ∀ p, (s.p_flags p).sending = false → ∀ q, p ∉ cq q
  /-- A process that waits in a receive has nobody on its own whose message it would take. -/
  noSender : ∀ p, (s.p_flags p).receiving = true → (s.p_flags p).sending = false →
    (s.p_getfrom p = ANY → cq p = []) ∧ ∀ x ∈ cq p, s.p_getfrom p ≠ procNumber x
  /-- A process that waits for an interrupt has none blocked. -/
  noInterrupt : ∀ p, (s.p_flags p).receiving = true → (s.p_flags p).sending = false →
    isrxhardware (s.p_getfrom p) = true → s.p_int_blocked p = false
  /-- No two processes are sending to each other. -/
  noCross : ∀ p q, p ≠ q → ¬((s.p_flags p).sending = true ∧ p ∈ cq q ∧
    (s.p_flags q).sending = true ∧ q ∈ cq p)

variable {s s' s'' : State} {caller rp x d p q : Slot} {function : Call} {n src r : ℤ}
  {m_ptr b b' : Addr} {mess : Message} {f : PFlags} {a : Action} {as : List Action}
  {previous : Option Slot}

/-- A table that represents its history has its queues as they should be. -/
theorem IpcInv.waitQueues (h : IpcInv s) : WaitQueues s (history s.log).waiting where
  chain q := ⟨h.2.chains.chain q, h.2.chains.nodup⟩
  sending p hp := by
    rw [h.2.sending] at hp
    obtain ⟨⟨d, b⟩, hd⟩ := Option.isSome_iff_exists.mp hp
    refine ⟨d, (h.2.wf.mem_iff p d).mpr ⟨b, hd⟩, fun e he => ?_⟩
    have := h.2.sent_eq he
    rw [hd] at this
    simp only [Option.some.injEq, Prod.mk.injEq] at this
    exact this.1.symm
  notSending p hp := h.2.wf.notMem (h.2.sent_eq_none hp)
  noSender p hr hs := by
    have hset := (h.2.settled p _ _ (h.2.opened_eq hr) (h.2.sent_eq_none hs)).1
    refine ⟨fun hany => ?_, fun x hx e => ?_⟩
    · refine List.eq_nil_iff_forall_not_mem.mpr fun x hx => ?_
      have := hset x hx
      simp [accepts, hany] at this
    · have := hset x hx
      simp [accepts, e] at this
  noInterrupt p hr hs := (h.2.settled p _ _ (h.2.opened_eq hr) (h.2.sent_eq_none hs)).2
  noCross p q hpq := fun ⟨_, hp, _, hq⟩ => h.2.noCross p q hpq hp hq

/-- The queues of senders are as they should be in every state of every run. -/
theorem wait_queues (h : Reachable Boot Step s) : ∃ cq, WaitQueues s cq :=
  ⟨_, (reachable_inv h).ipc.waitQueues⟩

/-- A table whose processes have one click of data each. -/
def loadedState : State := { zeroState with p_map := fun _ => ⟨0, 0, 1⟩ }

/-- The queues after the first task has called another, which has not taken its message. -/
theorem wait_queues_loaded : ∃ s s', main loadedState [] = some s ∧
    sysCall s .BOTH (-7) 0 = some (OK, s') ∧ ∃ cq, WaitQueues s' cq := by
  have hu : (bootSlots ++ []).Nodup := by decide
  obtain ⟨s, hs, -⟩ := main_spec loadedState hu
  have hrun : (main loadedState []).bind (fun s => (sysCall s .BOTH (-7) 0).map (·.1)) = some OK := by
    decide +kernel
  have hproc : (main loadedState []).map (fun s => isidlehardware s.proc_ptr) = some false := by
    decide +kernel
  rw [hs] at hrun hproc
  obtain ⟨⟨r, s'⟩, hr, rfl⟩ := Option.map_eq_some_iff.mp hrun
  have hb : Boot s := ⟨loadedState, [], hu, hs⟩
  exact ⟨s, s', hs, hr,
    wait_queues ((Reachable.of_init hb).of_step (Step.sysCall (Option.some.inj hproc) hr))⟩

/-! ## What an entry adds to the history -/

/-- The hardware does not receive in these events. -/
def Deaf (ev : List Event) : Prop := ∀ src b, Event.receive hardwareSlot src b ∉ ev

/-- The history has been added to, without a receive of the hardware. -/
def Grew (s s' : State) : Prop := ∃ ev, s'.log = s.log ++ ev ∧ Deaf ev

/-- Nothing was added. -/
theorem Grew.of_eq (h : s'.log = s.log) : Grew s s' := ⟨[], by simp [h], by simp [Deaf]⟩

/-- What was added twice was added. -/
theorem Grew.trans (h : Grew s s') (h' : Grew s' s'') : Grew s s'' := by
  obtain ⟨ev, he, hd⟩ := h
  obtain ⟨ev', he', hd'⟩ := h'
  refine ⟨ev ++ ev', by rw [he', he, List.append_assoc], fun src b hm => ?_⟩
  rcases List.mem_append.mp hm with hm | hm
  · exact hd src b hm
  · exact hd' src b hm

/-- Events of others, before what was added. -/
theorem Grew.cons {e : Event} (h : Grew { s with log := s.log ++ [e] } s')
    (he : ∀ src b, e ≠ .receive hardwareSlot src b) :
    ∃ ev, s'.log = s.log ++ e :: ev ∧ Deaf (e :: ev) := by
  obtain ⟨ev, hev, hd⟩ := h
  refine ⟨ev, by rw [hev]; simp, fun src b hm => ?_⟩
  rcases List.mem_cons.mp hm with hm | hm
  · exact he src b hm.symm
  · exact hd src b hm

/-- A change of flags is not an event. -/
theorem Reflagged.grew (h : Reflagged s rp f s') : Grew s s' := by
  obtain ⟨_, _, _, _, _, rfl⟩ := h
  exact Grew.of_eq rfl

/-- A change of the ready queues is not an event. -/
theorem Resched.grew (h : Resched s s') : Grew s s' := by
  obtain ⟨_, _, _, _, _, rfl⟩ := h
  exact Grew.of_eq rfl

/-- A copy is one event. -/
theorem cpMess_grew : Grew s (cpMess s p b d b') :=
  ⟨[_], rfl, fun _ _ hm => by simp at hm⟩

/-- What `mini_send` adds: nothing if it refuses, and the send first if it accepts. -/
theorem miniSend_log (h : miniSend s caller n m_ptr = some (r, s')) :
    (r ≠ OK ∧ s' = s) ∨ (r = OK ∧ ∃ d ev, n = procNumber d ∧
      s'.log = s.log ++ .send caller d m_ptr :: ev ∧ Deaf (.send caller d m_ptr :: ev)) := by
  rcases miniSend_cases h with he | ⟨d, hd, hr, -, ⟨-, hs⟩ | ⟨-, hs⟩⟩
  · exact Or.inl he
  · have hg : Grew { s with log := s.log ++ [.send caller d m_ptr] } s' :=
      cpMess_grew.trans (unblock_reflagged hs).grew
    obtain ⟨ev, hev, hdf⟩ := hg.cons (by simp)
    exact Or.inr ⟨hr, d, ev, hd, hev, hdf⟩
  · obtain ⟨s₁, h₁, h₂⟩ := Option.bind_eq_some_iff.mp hs
    have hlog : s'.log = s₁.log := by
      unfold queueCaller at h₂
      split at h₂
      · obtain rfl := Option.some.inj h₂
        rfl
      · obtain ⟨t, -, h₂⟩ := Option.bind_eq_some_iff.mp h₂
        obtain rfl := Option.some.inj h₂
        rfl
    have hg : Grew { s with log := s.log ++ [.send caller d m_ptr] } s' := by
      refine Grew.trans ?_ (Grew.of_eq hlog)
      exact (Grew.of_eq rfl).trans (block_reflagged h₁).grew
    obtain ⟨ev, hev, hdf⟩ := hg.cons (by simp)
    exact Or.inr ⟨hr, d, ev, hd, hev, hdf⟩

/-- What `mini_send` adds does not matter to the hardware. -/
theorem miniSend_grew (h : miniSend s caller n m_ptr = some (r, s')) : Grew s s' := by
  rcases miniSend_log h with ⟨-, rfl⟩ | ⟨-, d, ev, -, hev, hd⟩
  · exact Grew.of_eq rfl
  · exact ⟨_, hev, hd⟩

/-- What the end of `inform` adds. -/
theorem informed_grew (h : informed s rp = some s') : Grew s s' := by
  unfold informed at h
  obtain ⟨s₁, h₁, h₂⟩ := Option.bind_eq_some_iff.mp h
  obtain rfl := Option.some.inj h₂
  refine Grew.trans ?_ (pickProc_resched s₁).grew
  unfold stkfltDone at h₁
  dsimp only at h₁
  split_ifs at h₁
  · exact (Grew.of_eq rfl).trans (unblock_reflagged h₁).grew
  · obtain rfl := Option.some.inj h₁
    exact Grew.of_eq rfl
  · obtain rfl := Option.some.inj h₁
    exact Grew.of_eq rfl

/-- What `inform` adds. -/
theorem inform_grew (h : inform s = some s') : Grew s s' := by
  unfold inform at h
  split at h
  · obtain rfl := Option.some.inj h
    exact Grew.of_eq rfl
  · obtain ⟨⟨r, s₁⟩, h₁, h₂⟩ := Option.bind_eq_some_iff.mp h
    dsimp only at h₂
    split_ifs at h₂
    have hg := (miniSend_grew h₁).trans (informed_grew h₂)
    exact (Grew.of_eq rfl).trans hg

/-- What a receive that blocks adds. -/
theorem recBlocked_grew (h : recBlocked s caller src m_ptr = some s') : Grew s s' := by
  unfold recBlocked at h
  obtain ⟨s₁, h₁, h₂⟩ := Option.bind_eq_some_iff.mp h
  have hg : Grew s s₁ := (Grew.of_eq rfl).trans (block_reflagged h₁).grew
  split_ifs at h₂
  · exact hg.trans (inform_grew h₂)
  · obtain rfl := Option.some.inj h₂
    exact hg

/-- What a receive that takes a message adds. -/
theorem takeFrom_grew (h : takeFrom s caller m_ptr previous x = some s') : Grew s s' := by
  unfold takeFrom at h
  obtain ⟨s₁, h₁, h₂⟩ := Option.bind_eq_some_iff.mp h
  have hlog : s₁.log = (cpMess s x (s.p_messbuf x) caller m_ptr).log := by
    unfold unlinkSender at h₁
    split_ifs at h₁
    · obtain rfl := Option.some.inj h₁
      rfl
    · obtain ⟨_, -, h₁⟩ := Option.bind_eq_some_iff.mp h₁
      obtain rfl := Option.some.inj h₁
      rfl
  exact cpMess_grew.trans ((Grew.of_eq hlog).trans (unblock_reflagged h₂).grew)

/-- What `mini_rec` adds: the receive first. -/
theorem miniRec_log (hc : caller ≠ hardwareSlot) (h : miniRec s caller src m_ptr = some (r, s')) :
    ∃ ev, s'.log = s.log ++ .receive caller src m_ptr :: ev ∧
      Deaf (.receive caller src m_ptr :: ev) := by
  have he : ∀ src' b, (.receive caller src m_ptr : Event) ≠ .receive hardwareSlot src' b := by
    intro src' b e
    simp only [Event.receive.injEq] at e
    exact hc e.1
  obtain ⟨-, ⟨-, hs⟩ | ⟨-, previous, sender, -, hs⟩⟩ := miniRec_cases h
  · exact (recBlocked_grew hs).cons he
  · rcases hs with ⟨x, -, hs⟩ | ⟨-, -, -, rfl⟩ | ⟨-, -, hs⟩
    · exact (takeFrom_grew hs).cons he
    · exact Grew.cons ⟨[_], rfl, fun _ _ hm => by simp at hm⟩ he
    · exact (recBlocked_grew hs).cons he

/-- What `interrupt` adds. -/
theorem interrupt_grew {competing : Bool} (h : interrupt s rp competing = some s') :
    Grew s s' := by
  rcases interrupt_cases h with hs | ⟨rfl, -⟩ | ⟨-, -, -, hs⟩
  · unfold hold at hs
    split_ifs at hs
    · obtain rfl := Option.some.inj hs
      exact Grew.of_eq rfl
    · obtain ⟨s₁, h₁, hs⟩ := Option.bind_eq_some_iff.mp hs
      obtain rfl := Option.some.inj hs
      unfold linkHeld at h₁
      split at h₁
      · obtain ⟨t, -, h₁⟩ := Option.bind_eq_some_iff.mp h₁
        obtain rfl := Option.some.inj h₁
        exact Grew.of_eq rfl
      · obtain rfl := Option.some.inj h₁
        exact Grew.of_eq rfl
  · exact Grew.of_eq rfl
  · refine Grew.trans ?_ (addReady_resched hs).grew
    exact ⟨[_], rfl, fun _ _ hm => by simp at hm⟩

/-- What `cause_sig` adds. -/
theorem causeSig_grew {sig : ℕ} (h : causeSig s rp sig = some s') : Grew s s' := by
  unfold causeSig at h
  dsimp only at h
  split_ifs at h
  · obtain rfl := Option.some.inj h
    exact Grew.of_eq rfl
  · obtain rfl := Option.some.inj h
    exact Grew.of_eq rfl
  · obtain ⟨s₁, h₁, h⟩ := Option.bind_eq_some_iff.mp h
    have hg : Grew s s₁ := (Grew.of_eq rfl).trans (block_reflagged h₁).grew
    split_ifs at h
    · obtain rfl := Option.some.inj h
      exact hg.trans (Grew.of_eq rfl)
    · have hg' := inform_grew h
      exact hg.trans ((Grew.of_eq rfl).trans hg')

/-- What a call of the running process adds. -/
theorem sysCall_grew (hp : isidlehardware s.proc_ptr = false)
    (h : sysCall s function n m_ptr = some (r, s')) : Grew s s' := by
  have hch := not_hardware hp
  rcases sysCall_cases h with ⟨-, rfl⟩ | ⟨-, hs⟩ | ⟨-, hs⟩ | ⟨-, s₁, h₁, h₂⟩
  · exact Grew.of_eq rfl
  · obtain ⟨ev, hev, hd⟩ := miniRec_log hch hs
    exact ⟨_, hev, hd⟩
  · exact miniSend_grew hs
  · obtain ⟨ev, hev, hd⟩ := miniRec_log hch h₂
    exact (miniSend_grew h₁).trans ⟨_, hev, hd⟩

/-- Every entry adds to the history. -/
theorem Step.grew (h : Step s a s') : Grew s s' := by
  cases h with
  | sysCall hp hs => exact sysCall_grew hp hs
  | interrupt _ hs => exact interrupt_grew hs
  | unhold _ hs =>
    have hg := interrupt_grew hs
    exact (Grew.of_eq rfl).trans hg
  | inform _ _ hs => exact inform_grew hs
  | causeSig _ hs => exact causeSig_grew hs
  | sched hs => exact (sched_resched hs).grew
  | pickProc => exact (pickProc_resched s).grew
  | stop _ _ _ hs => exact (block_reflagged hs).grew
  | resume _ _ _ _ hs => exact (unblock_reflagged hs).grew

/-- A run adds to the history. -/
theorem grew_of_run (h : Run Step s as s') : Grew s s' :=
  h.invariant (P := Grew s) (Grew.of_eq rfl) fun _ _ _ hg hst => hg.trans hst.grew

/-- The hardware has never received. -/
theorem reachable_deaf (h : Reachable Boot Step s) : Deaf s.log := by
  obtain ⟨s₀, as, hb, hr⟩ := h
  obtain ⟨ev, hev, hd⟩ := grew_of_run hr
  obtain ⟨z, users, hu, hs⟩ := hb
  obtain ⟨s₁, h₁, hbt, -, -⟩ := main_spec z hu
  rw [hs] at h₁
  obtain rfl := Option.some.inj h₁
  obtain ⟨_, _, _, _, _, _, rfl⟩ := hbt
  have hlog : s.log = ev := hev
  rw [hlog]
  exact hd

/-! ## What became of the messages -/

/-- What is true of the messages in the history of a state, and of the calls made in it. -/
structure Integrity (s : State) : Prop where
  /-- A send that is accepted is put in the history, and one that is refused changes nothing. -/
  accepted : ∀ function n m_ptr r s', isidlehardware s.proc_ptr = false → function ≠ .RECEIVE →
    sysCall s function n m_ptr = some (r, s') →
    (r ≠ OK ∧ s' = s) ∨
      (r = OK ∧ ∃ d ev, n = procNumber d ∧ s'.log = s.log ++ .send s.proc_ptr d m_ptr :: ev)
  /-- The messages that a process has sent are copied once each and in order, each from where it
  lies to the process that it was sent to, but for the last if the process is still sending: that
  one is at `p_messbuf`, and its sender is on the queue of its destination. -/
  once : ∀ p, (sends p s.log = copies p s.log ∧ (s.p_flags p).sending = false) ∨
    ∃ d l, sends p s.log = copies p s.log ++ [(d, s.p_messbuf p)] ∧
      (s.p_flags p).sending = true ∧ Chain s.p_sendlink (s.p_callerq d) l none ∧ p ∈ l
  /-- A copy names its sender, and goes to the buffer of a receive that was open, from the sender or
  from anybody; in the latter case no other process had sent to the receiver before, and was still
  waiting. -/
  copied : ∀ pre c b d b' mess post, s.log = pre ++ .copy c b d b' mess :: post →
    mess.m_source = procNumber c ∧ (history pre).sent c = some (d, b) ∧
      ∃ src, (src = procNumber c ∨ src = ANY) ∧ (history pre).opened d = some (src, b') ∧
        (src = ANY → ((history pre).waiting d).head? = some c)
  /-- A process that sent and received in one call, and does not wait to receive any more, had its
  message taken, and after that was given a message of the process that it had sent to. -/
  sendrec : ∀ n m_ptr s₁ as s₂, isidlehardware s.proc_ptr = false →
    sysCall s .BOTH n m_ptr = some (OK, s₁) → Run Step s₁ as s₂ →
    (s₂.p_flags s.proc_ptr).receiving = false →
    ∃ d ev₁ b mess ev₂ c mess', n = procNumber d ∧
      s₂.log = s.log ++ ev₁ ++ .copy s.proc_ptr m_ptr d b mess :: ev₂ ∧
      .copy d c s.proc_ptr m_ptr mess' ∈ ev₂ ∧ mess'.m_source = n

/-- The first process that `ANY` accepts is the first. -/
theorem find?_accepts_any (l : List Slot) : l.find? (accepts ANY) = l.head? := by
  cases l with
  | nil => rfl
  | cons x l => simp [accepts]

/-- What a copy says, in a history that is lawful. -/
theorem copied_of_lawful {pre post : List Event} {c : Slot}
    (h : Lawful accepts isrxhardware Names (pre ++ .copy c b d b' mess :: post)) :
    mess.m_source = procNumber c ∧ (history pre).sent c = some (d, b) ∧
      ∃ src, (src = procNumber c ∨ src = ANY) ∧ (history pre).opened d = some (src, b') ∧
        (src = ANY → ((history pre).waiting d).head? = some c) := by
  obtain ⟨hs, -, hn, src, ho, hf⟩ := h.legal
  refine ⟨hn, hs, src, ?_, ho, ?_⟩
  · have := List.find?_some hf
    unfold accepts at this
    rw [Bool.or_eq_true, beq_iff_eq, beq_iff_eq] at this
    exact this.symm
  · rintro rfl
    rwa [find?_accepts_any] at hf

/-- Nothing is copied to the hardware, which does not receive. -/
theorem not_copied_of_deaf {log : List Event} {c : Slot}
    (h : Lawful accepts isrxhardware Names log) (hd : Deaf log) :
    .copy c b hardwareSlot b' mess ∉ log := by
  intro hm
  obtain ⟨pre, post, rfl⟩ := List.append_of_mem hm
  obtain ⟨-, -, -, src, ho, -⟩ := h.legal
  rw [opened_eq_none fun src b hr => hd src b (by simp [hr])] at ho
  simp at ho

/-- A process that sent and received in one call, and waits no more. -/
theorem sendrec_of_reachable {s₁ s₂ : State} (h : Reachable Boot Step s)
    (hp : isidlehardware s.proc_ptr = false) (hs : sysCall s .BOTH n m_ptr = some (OK, s₁))
    (hr : Run Step s₁ as s₂) (hrec : (s₂.p_flags s.proc_ptr).receiving = false) :
    ∃ d ev₁ b mess ev₂ c mess', n = procNumber d ∧
      s₂.log = s.log ++ ev₁ ++ .copy s.proc_ptr m_ptr d b mess :: ev₂ ∧
      .copy d c s.proc_ptr m_ptr mess' ∈ ev₂ ∧ mess'.m_source = n := by
  have hch := not_hardware hp
  have h₂ : Reachable Boot Step s₂ := (h.of_step (Step.sysCall hp hs)).run hr
  have hinv := reachable_inv h₂
  have hdeaf := reachable_deaf h₂
  -- The call has sent, and then received.
  obtain ⟨s₀, hsend, hmr⟩ : ∃ s₀, miniSend s s.proc_ptr n m_ptr = some (OK, s₀) ∧
      miniRec s₀ s.proc_ptr n m_ptr = some (OK, s₁) := by
    rcases sysCall_cases hs with ⟨he, -⟩ | ⟨he, -⟩ | ⟨he, -⟩ | ⟨-, s₀, h₁, h₂⟩
    · exact absurd rfl he
    · simp at he
    · simp at he
    · exact ⟨s₀, h₁, h₂⟩
  obtain ⟨d, ev, hd, hlog₀⟩ : ∃ d ev, n = procNumber d ∧
      s₀.log = s.log ++ .send s.proc_ptr d m_ptr :: ev := by
    rcases miniSend_log hsend with ⟨he, -⟩ | ⟨-, d, ev, hd, hev, -⟩
    · exact absurd rfl he
    · exact ⟨d, ev, hd, hev⟩
  obtain ⟨ev', hlog₁, -⟩ := miniRec_log hch hmr
  obtain ⟨ev'', hlog₂, -⟩ := grew_of_run hr
  have hlog : s₂.log = s.log ++ .send s.proc_ptr d m_ptr ::
      (ev ++ .receive s.proc_ptr n m_ptr :: (ev' ++ ev'')) := by
    rw [hlog₂, hlog₁, hlog₀]
    simp
  have hlaw := hinv.ipc.1
  have hopen := hinv.ipc.2.opened_eq_none hrec
  rw [hlog] at hlaw hopen
  obtain ⟨m₁, b, mess, m₂, hsplit, hans⟩ := hlaw.sendrec hopen
  have hwhole : s₂.log = s.log ++ (.send s.proc_ptr d m_ptr :: m₁) ++
      .copy s.proc_ptr m_ptr d b mess :: m₂ := by
    rw [hlog, hsplit]
    simp
  rcases hans with ⟨q, c, mess', hm, hacc, hnm⟩ | ⟨-, hx⟩
  · -- The answer is from the process that the call named.
    rw [hd, accepts_procNumber] at hacc
    subst hacc
    exact ⟨q, _, b, mess, m₂, c, mess', hd, hwhole, hm, hnm.trans hd.symm⟩
  · -- The hardware has not taken a message, so no interrupt has answered.
    rw [hd, isrxhardware_procNumber] at hx
    subst hx
    have hm : .copy s.proc_ptr m_ptr hardwareSlot b mess ∈ s₂.log := by
      rw [hwhole]
      simp
    exact absurd hm (not_copied_of_deaf hinv.ipc.1 hdeaf)

end Minix.Kernel
