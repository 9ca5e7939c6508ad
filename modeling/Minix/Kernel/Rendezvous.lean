import Minix.Kernel.ReadyQueue

/-!
# The process table represents the rendezvous

`history s.log` is what the calls so far have left open: the messages that were sent and not taken,
the queues, and the receives that were not answered. `Rep` says how the process table represents it,
and what the kernel maintains beyond the rules of the rendezvous: no process waits in a receive for
a message that is there already (`settled`), no two processes wait for each other to take a message
(`noCross`), and a process that waits in the receive half of a call whose message has not been taken
waits for the process that it sent to (`reply`).

There is one lemma for each thing that the calls do to the table. They are stated of the fields of
the table rather than of the state, so that they apply whatever else a call has changed.
-/

namespace Minix.Kernel

open Lib Lib.Rendezvous

/-- A message names its sender. -/
def Names (mess : Message) (p : Slot) : Prop := mess.m_source = procNumber p

/-- The table represents what is open. -/
structure Rep (flags : Slot → PFlags) (sendlink callerq : Slot → Option Slot)
    (messbuf : Slot → Addr) (getfrom : Slot → ℤ) (intBlocked : Slot → Bool)
    (A : Rendezvous.State Slot Addr ℤ) : Prop where
  /-- The queues are the chains from `p_callerq` through `p_sendlink`. -/
  chains : Chains sendlink callerq A.waiting
  /-- The queues and the outstanding messages agree. -/
  wf : A.Wf
  /-- `SENDING` is set while a message is outstanding. -/
  sending : ∀ p, (flags p).sending = (A.sent p).isSome
  /-- `RECEIVING` is set while a receive is open. -/
  receiving : ∀ p, (flags p).receiving = (A.opened p).isSome
  /-- An outstanding message lies at `p_messbuf`. -/
  sentBuf : ∀ p d b, A.sent p = some (d, b) → messbuf p = b
  /-- An open receive is from `p_getfrom`, into `p_messbuf`. -/
  openBuf : ∀ p src b, A.opened p = some (src, b) → getfrom p = src ∧ messbuf p = b
  /-- Nobody who could take a message waits for one that is queued, or for an interrupt that is
  blocked. -/
  settled : ∀ p src b, A.opened p = some (src, b) → A.sent p = none →
    (∀ x ∈ A.waiting p, accepts src x = false) ∧ (isrxhardware src → intBlocked p = false)
  /-- No two processes are in each other's queues. -/
  noCross : ∀ p q, p ≠ q → p ∈ A.waiting q → q ∉ A.waiting p
  /-- The receive half of a call is from the destination of its send half. -/
  reply : ∀ p d b src c, A.sent p = some (d, b) → A.opened p = some (src, c) → src = procNumber d
  /-- The hardware never blocks. -/
  hardware : flags hardwareSlot = PFlags.zero

/-- The state represents its history, which was lawful. -/
def IpcInv (s : State) : Prop :=
  Lawful accepts isrxhardware Names s.log ∧
    Rep s.p_flags s.p_sendlink s.p_callerq s.p_messbuf s.p_getfrom s.p_int_blocked (history s.log)

variable {flags flags' : Slot → PFlags} {sendlink callerq : Slot → Option Slot}
  {messbuf : Slot → Addr} {getfrom : Slot → ℤ} {intBlocked : Slot → Bool}
  {A : Rendezvous.State Slot Addr ℤ} {c d p x : Slot} {m b : Addr} {src : ℤ} {mess : Message}

/-! ## What the table says -/

/-- A process that does not send has no message outstanding. -/
theorem Rep.sent_eq_none (h : Rep flags sendlink callerq messbuf getfrom intBlocked A)
    (hp : (flags p).sending = false) : A.sent p = none := by
  have := h.sending p
  rw [hp] at this
  simpa using this.symm

/-- A process that does not receive has no receive open. -/
theorem Rep.opened_eq_none (h : Rep flags sendlink callerq messbuf getfrom intBlocked A)
    (hp : (flags p).receiving = false) : A.opened p = none := by
  have := h.receiving p
  rw [hp] at this
  simpa using this.symm

/-- A process that receives has a receive open, from `p_getfrom` into `p_messbuf`. -/
theorem Rep.opened_eq (h : Rep flags sendlink callerq messbuf getfrom intBlocked A)
    (hp : (flags p).receiving = true) : A.opened p = some (getfrom p, messbuf p) := by
  have := h.receiving p
  rw [hp] at this
  obtain ⟨⟨src, b⟩, hb⟩ := Option.isSome_iff_exists.mp this.symm
  obtain ⟨rfl, rfl⟩ := h.openBuf p src b hb
  exact hb

/-- A process in a queue has its message at `p_messbuf`, and is in that queue only. -/
theorem Rep.sent_eq (h : Rep flags sendlink callerq messbuf getfrom intBlocked A)
    (hp : p ∈ A.waiting d) : A.sent p = some (d, messbuf p) := by
  obtain ⟨b, hb⟩ := (h.wf.mem_iff p d).mp hp
  rw [h.sentBuf p d b hb]
  exact hb

/-- The other flags do not matter. -/
theorem Rep.congr_flags (h : Rep flags sendlink callerq messbuf getfrom intBlocked A)
    (hs : ∀ p, (flags' p).sending = (flags p).sending)
    (hr : ∀ p, (flags' p).receiving = (flags p).receiving)
    (hh : flags' hardwareSlot = PFlags.zero) :
    Rep flags' sendlink callerq messbuf getfrom intBlocked A :=
  { h with
    sending := fun p => (hs p).trans (h.sending p)
    receiving := fun p => (hr p).trans (h.receiving p)
    hardware := hh }

/-! ## What the calls do to it -/

/-- A message that was sent and copied at once leaves the receiver's receive closed. -/
theorem next_send_copy (h : A.Wf) (hc : A.sent c = none) :
    (A.next (.send c d m : Event)).next (.copy c m d b mess : Event) =
      { A with opened := Function.update A.opened d none } := by
  have hn : c ∉ A.waiting d := h.notMem hc d
  simp only [State.next, Function.update_self, Function.update_idem,
    List.erase_append_right _ hn, List.erase_cons_head, List.append_nil, Function.update_eq_self]
  rw [← hc, Function.update_eq_self]

/-- A receive that was answered at once from the queue leaves the sender's message taken. -/
theorem next_receive_copy (hc : A.opened c = none) :
    (A.next (.receive c src m : Event)).next (.copy x b c m mess : Event) =
      { A with
        sent := Function.update A.sent x none
        waiting := Function.update A.waiting c ((A.waiting c).erase x) } := by
  simp only [State.next, Function.update_idem]
  rw [← hc, Function.update_eq_self]

/-- A receive that was answered at once from outside leaves nothing. -/
theorem next_receive_signal (hc : A.opened c = none) :
    (A.next (.receive c src m : Event)).next (.signal c m : Event) = A := by
  simp only [State.next, Function.update_idem]
  rw [← hc, Function.update_eq_self]

/-- An open receive is answered: `RECEIVING` is cleared. -/
theorem Rep.close (h : Rep flags sendlink callerq messbuf getfrom intBlocked A)
    (hd : d ≠ hardwareSlot) :
    Rep (Function.update flags d ((flags d).clear RECEIVING)) sendlink callerq messbuf getfrom
      intBlocked { A with opened := Function.update A.opened d none } := by
  -- The receives that are still open were so before.
  have hopen : ∀ p v, Function.update A.opened d none p = some v → A.opened p = some v := by
    intro p v hv
    have hp : p ≠ d := by
      rintro rfl
      simp at hv
    rwa [Function.update_of_ne hp] at hv
  refine ⟨h.chains, ⟨h.wf.mem_iff, h.wf.nodup⟩, fun p => ?_, fun p => ?_, h.sentBuf,
    fun p src b hb => h.openBuf p src b (hopen p _ hb),
    fun p src b hb => h.settled p src b (hopen p _ hb), h.noCross,
    fun p e b src c hs hb => h.reply p e b src c hs (hopen p _ hb), ?_⟩
  · by_cases hp : p = d
    · subst hp
      rw [Function.update_self, ← h.sending]
      simp [PFlags.clear, RECEIVING, PFlags.zero]
    · rw [Function.update_of_ne hp, h.sending]
  · show _ = (Function.update A.opened d none p).isSome
    by_cases hp : p = d
    · subst hp
      simp [PFlags.clear, RECEIVING]
    · rw [Function.update_of_ne hp, Function.update_of_ne hp, h.receiving]
  · rw [Function.update_of_ne (Ne.symm hd)]
    exact h.hardware

/-- A receive is opened, and nothing is there to answer it: `RECEIVING` is set. If the message of
the process is outstanding, this is the other half of the call that sent it. -/
theorem Rep.open (h : Rep flags sendlink callerq messbuf getfrom intBlocked A)
    (hc : c ≠ hardwareSlot) (hn : A.opened c = none)
    (hs : ∀ d b, A.sent c = some (d, b) → src = procNumber d ∧ m = b)
    (hq : A.sent c = none → ∀ x ∈ A.waiting c, accepts src x = false)
    (hi : A.sent c = none → isrxhardware src → intBlocked c = false) :
    Rep (Function.update flags c ((flags c).or RECEIVING)) sendlink callerq
      (Function.update messbuf c m) (Function.update getfrom c src) intBlocked
      (A.next (.receive c src m : Event)) := by
  refine ⟨h.chains, ⟨h.wf.mem_iff, h.wf.nodup⟩, fun p => ?_, fun p => ?_, fun p d b hb => ?_,
    fun p src' b hb => ?_, fun p src' b hb hp => ?_, h.noCross, fun p d b src' c' hb ho => ?_, ?_⟩
  · show _ = (A.sent p).isSome
    by_cases hp : p = c
    · subst hp
      rw [Function.update_self, ← h.sending]
      simp [PFlags.or, RECEIVING, PFlags.zero]
    · rw [Function.update_of_ne hp, h.sending]
  · show _ = (Function.update A.opened c (some (src, m)) p).isSome
    by_cases hp : p = c
    · subst hp
      simp [PFlags.or, RECEIVING]
    · rw [Function.update_of_ne hp, Function.update_of_ne hp, h.receiving]
  · replace hb : A.sent p = some (d, b) := hb
    by_cases hp : p = c
    · subst hp
      rw [Function.update_self]
      exact (hs d b hb).2
    · rw [Function.update_of_ne hp]
      exact h.sentBuf p d b hb
  · replace hb : Function.update A.opened c (some (src, m)) p = some (src', b) := hb
    by_cases hp : p = c
    · subst hp
      simpa using hb
    · rw [Function.update_of_ne hp] at hb ⊢
      rw [Function.update_of_ne hp]
      exact h.openBuf p src' b hb
  · replace hb : Function.update A.opened c (some (src, m)) p = some (src', b) := hb
    replace hp : A.sent p = none := hp
    by_cases hpc : p = c
    · subst hpc
      obtain ⟨rfl, rfl⟩ : src = src' ∧ m = b := by simpa using hb
      exact ⟨hq hp, hi hp⟩
    · rw [Function.update_of_ne hpc] at hb
      exact h.settled p src' b hb hp
  · replace hb : A.sent p = some (d, b) := hb
    replace ho : Function.update A.opened c (some (src, m)) p = some (src', c') := ho
    by_cases hp : p = c
    · subst hp
      obtain ⟨rfl, rfl⟩ : src = src' ∧ m = c' := by simpa using ho
      exact (hs d b hb).1
    · rw [Function.update_of_ne hp] at ho
      exact h.reply p d b src' c' hb ho
  · rw [Function.update_of_ne (Ne.symm hc)]
    exact h.hardware

/-- A message is sent that its destination does not wait for: `SENDING` is set, and the sender is
appended to the queue. -/
theorem Rep.send {sendlink' callerq' : Slot → Option Slot}
    (h : Rep flags sendlink callerq messbuf getfrom intBlocked A) (hc : c ≠ hardwareSlot)
    (hs : A.sent c = none) (ho : A.opened c = none)
    (hq : Chains sendlink' callerq' (Function.update A.waiting d (A.waiting d ++ [c])))
    (hw : ∀ src b, A.opened d = some (src, b) → A.sent d = none → accepts src c = false)
    (hx : c ≠ d → d ∉ A.waiting c) :
    Rep (Function.update flags c ((flags c).or SENDING)) sendlink' callerq'
      (Function.update messbuf c m) getfrom intBlocked (A.next (.send c d m : Event)) := by
  have hwf : (A.next (.send c d m : Event)).Wf := by
    have hl : A.Legal accepts isrxhardware Names (.send c d m) := hs
    exact h.wf.next hl
  refine ⟨hq, hwf, fun p => ?_, fun p => ?_, fun p e b hb => ?_, fun p src b hb => ?_,
    fun p src b hb hp => ?_, fun p q hpq hp hq => ?_, fun p e b src c' hb ho' => ?_, ?_⟩
  · show _ = (Function.update A.sent c (some (d, m)) p).isSome
    by_cases hp : p = c
    · subst hp
      simp [PFlags.or, SENDING]
    · rw [Function.update_of_ne hp, Function.update_of_ne hp, h.sending]
  · show _ = (A.opened p).isSome
    by_cases hp : p = c
    · subst hp
      rw [Function.update_self, ← h.receiving]
      simp [PFlags.or, SENDING, PFlags.zero]
    · rw [Function.update_of_ne hp, h.receiving]
  · replace hb : Function.update A.sent c (some (d, m)) p = some (e, b) := hb
    by_cases hp : p = c
    · subst hp
      have : d = e ∧ m = b := by simpa using hb
      rw [Function.update_self]
      exact this.2
    · rw [Function.update_of_ne hp] at hb ⊢
      exact h.sentBuf p e b hb
  · replace hb : A.opened p = some (src, b) := hb
    have hp : p ≠ c := by
      rintro rfl
      rw [ho] at hb
      simp at hb
    rw [Function.update_of_ne hp]
    exact h.openBuf p src b hb
  · replace hb : A.opened p = some (src, b) := hb
    replace hp : Function.update A.sent c (some (d, m)) p = none := hp
    have hpc : p ≠ c := by
      rintro rfl
      simp at hp
    rw [Function.update_of_ne hpc] at hp
    obtain ⟨hset, hint⟩ := h.settled p src b hb hp
    refine ⟨fun x hx => ?_, hint⟩
    rcases mem_update_append.mp hx with hx | ⟨rfl, rfl⟩
    · exact hset x hx
    · exact hw src b hb hp
  · have hcross : ∀ q, q ∈ A.waiting c → q ≠ c → q ≠ d := fun q hq hqc hqd =>
      hx (hqd ▸ Ne.symm hqc) (hqd ▸ hq)
    rcases mem_update_append.mp hp with hpw | ⟨hqd, hpc⟩
    · rcases mem_update_append.mp hq with hqw | ⟨hpd, hqc⟩
      · exact h.noCross p q hpq hpw hqw
      · rw [hqc] at hpw hpq
        exact hcross p hpw hpq hpd
    · rcases mem_update_append.mp hq with hqw | ⟨hpd, hqc⟩
      · rw [hpc] at hqw hpq
        exact hcross q hqw (Ne.symm hpq) hqd
      · exact hpq (hpc.trans hqc.symm)
  · replace hb : Function.update A.sent c (some (d, m)) p = some (e, b) := hb
    replace ho' : A.opened p = some (src, c') := ho'
    have hp : p ≠ c := by
      rintro rfl
      rw [ho] at ho'
      simp at ho'
    rw [Function.update_of_ne hp] at hb
    exact h.reply p e b src c' hb ho'
  · rw [Function.update_of_ne (Ne.symm hc)]
    exact h.hardware

/-- The message of `x` in the queue of `c` is taken: `SENDING` is cleared, and `x` is unlinked. -/
theorem Rep.take {sendlink' callerq' : Slot → Option Slot}
    (h : Rep flags sendlink callerq messbuf getfrom intBlocked A) (hx : x ∈ A.waiting c)
    (hc : A.sent c = none) (hch : c ≠ hardwareSlot)
    (hq : Chains sendlink' callerq' (Function.update A.waiting c ((A.waiting c).erase x))) :
    Rep (Function.update flags x ((flags x).clear SENDING)) sendlink' callerq' messbuf getfrom
      intBlocked { A with
        sent := Function.update A.sent x none
        waiting := Function.update A.waiting c ((A.waiting c).erase x) } := by
  have hsx := h.sent_eq hx
  have hxc : x ≠ c := by
    rintro rfl
    rw [hc] at hsx
    simp at hsx
  have hxh : x ≠ hardwareSlot := by
    rintro rfl
    have := h.sending hardwareSlot
    rw [h.hardware, hsx] at this
    simp [PFlags.zero] at this
  have hmem : ∀ p q, p ∈ Function.update A.waiting c ((A.waiting c).erase x) q ↔
      p ∈ A.waiting q ∧ p ≠ x := fun p q =>
    h.chains.mem_update_erase fun q' hq' => h.chains.notMem hx hq'
  have hsent : ∀ p v, Function.update A.sent x none p = some v ↔ A.sent p = some v ∧ p ≠ x := by
    intro p v
    by_cases hp : p = x
    · subst hp
      simp
    · simp [hp]
  refine ⟨hq, ⟨fun p q => ?_, fun q => hq.nodup⟩, fun p => ?_, fun p => ?_, fun p e b hb => ?_,
    h.openBuf, fun p src b hb hp => ?_, fun p q hpq hp hq => ?_, fun p e b src c' hb ho => ?_, ?_⟩
  · rw [hmem, h.wf.mem_iff]
    simp only [hsent, exists_and_right]
  · show _ = (Function.update A.sent x none p).isSome
    by_cases hp : p = x
    · subst hp
      simp [PFlags.clear, SENDING]
    · rw [Function.update_of_ne hp, Function.update_of_ne hp, h.sending]
  · show _ = (A.opened p).isSome
    by_cases hp : p = x
    · subst hp
      rw [Function.update_self, ← h.receiving]
      simp [PFlags.clear, SENDING, PFlags.zero]
    · rw [Function.update_of_ne hp, h.receiving]
  · exact h.sentBuf p e b ((hsent p _).mp hb).1
  · replace hb : A.opened p = some (src, b) := hb
    replace hp : Function.update A.sent x none p = none := hp
    by_cases hpx : p = x
    · -- A process whose message has just been taken waits for the one that took it.
      subst hpx
      obtain rfl := h.reply p c _ src b hsx hb
      refine ⟨fun y hy => ?_, fun hh => absurd (isrxhardware_procNumber.mp hh) hch⟩
      have hyc : y ≠ c := by
        intro e
        exact h.noCross p c hxc hx (e ▸ ((hmem y p).mp hy).1)
      simpa [hyc] using accepts_procNumber (p := c) (x := y)
    · rw [Function.update_of_ne hpx] at hp
      obtain ⟨hset, hint⟩ := h.settled p src b hb hp
      exact ⟨fun y hy => hset y ((hmem y p).mp hy).1, hint⟩
  · exact h.noCross p q hpq ((hmem p q).mp hp).1 ((hmem q p).mp hq).1
  · exact h.reply p e b src c' ((hsent p _).mp hb).1 ho
  · rw [Function.update_of_ne (Ne.symm hxh)]
    exact h.hardware

/-- The blockage of an interrupt is recorded or taken, where the process does not wait for it. -/
theorem Rep.setBlocked (h : Rep flags sendlink callerq messbuf getfrom intBlocked A) (v : Bool)
    (hv : v = true → A.sent p = none → ∀ src b, A.opened p = some (src, b) →
      isrxhardware src = false) :
    Rep flags sendlink callerq messbuf getfrom (Function.update intBlocked p v) A :=
  { h with
    settled := fun q src b hb hq => by
      obtain ⟨hset, hint⟩ := h.settled q src b hb hq
      refine ⟨hset, fun hh => ?_⟩
      by_cases hqp : q = p
      · subst hqp
        rw [Function.update_self]
        by_contra hne
        have := hv (by simpa using hne) hq src b hb
        rw [hh] at this
        simp at this
      · rw [Function.update_of_ne hqp]
        exact hint hh }

end Minix.Kernel
