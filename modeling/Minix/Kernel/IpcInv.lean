import Minix.Kernel.Rendezvous
import Minix.Kernel.SchedInv

/-!
# What the calls keep of the rendezvous

`IpcInv` through each call: a call is a few events, each of them legal, and what it does to the
table is what the lemma of `Rendezvous.lean` for these events says. A message that is handed over
directly is a send and a copy; a message that is taken from a queue is a receive and a copy.
-/

namespace Minix.Kernel

open Lib Lib.Rendezvous

/-- The fields that represent the rendezvous, but for the flags. -/
def ipcFields (s : State) :=
  (s.p_sendlink, s.p_callerq, s.p_messbuf, s.p_getfrom, s.p_int_blocked, s.log)

variable {s s' : State} {caller dest p rp x : Slot} {f : PFlags} {n src r : ℤ} {m_ptr : Addr}
  {previous : Option Slot}

/-- The other fields do not matter, and neither do the other flags. -/
theorem IpcInv.congr_flags (h : IpcInv s) (he : ipcFields s' = ipcFields s)
    (hs : ∀ p, (s'.p_flags p).sending = (s.p_flags p).sending)
    (hr : ∀ p, (s'.p_flags p).receiving = (s.p_flags p).receiving)
    (hh : s'.p_flags hardwareSlot = PFlags.zero) : IpcInv s' := by
  simp only [ipcFields, Prod.mk.injEq] at he
  obtain ⟨h₁, h₂, h₃, h₄, h₅, h₆⟩ := he
  unfold IpcInv
  rw [h₁, h₂, h₃, h₄, h₅, h₆]
  exact ⟨h.1, h.2.congr_flags hs hr hh⟩

/-- The other fields do not matter. -/
theorem IpcInv.congr (h : IpcInv s) (he : ipcFields s' = ipcFields s)
    (hf : s'.p_flags = s.p_flags) : IpcInv s' :=
  h.congr_flags he (by simp [hf]) (by simp [hf]) (by rw [hf]; exact h.2.hardware)

/-- Flags of one process that agree in the two that matter. -/
theorem IpcInv.reflagged (h : IpcInv s) (hs : Reflagged s rp f s') (hrp : rp ≠ hardwareSlot)
    (h₁ : f.sending = (s.p_flags rp).sending) (h₂ : f.receiving = (s.p_flags rp).receiving) :
    IpcInv s' := by
  have he : ipcFields s' = ipcFields s := by
    obtain ⟨_, _, _, _, _, rfl⟩ := hs
    rfl
  refine h.congr_flags he (fun p => ?_) (fun p => ?_) ?_
  · rw [hs.flags]
    by_cases hp : p = rp
    · rw [hp, Function.update_self, h₁]
    · rw [Function.update_of_ne hp]
  · rw [hs.flags]
    by_cases hp : p = rp
    · rw [hp, Function.update_self, h₂]
    · rw [Function.update_of_ne hp]
  · rw [hs.flags, Function.update_of_ne (Ne.symm hrp)]
    exact h.2.hardware

/-- A change of the ready queues. -/
theorem IpcInv.resched (h : IpcInv s) (hs : Resched s s') : IpcInv s' := by
  obtain ⟨_, _, _, _, _, rfl⟩ := hs
  exact h

/-- No queue is as long as the fuel. -/
theorem IpcInv.length_lt (h : IpcInv s) (d : Slot) : ((history s.log).waiting d).length < fuel := by
  have := h.2.chains.length_le (q := d)
  rw [Fintype.card_fin] at this
  exact Nat.lt_succ_of_le this

/-! ## Sending -/

/-- What `waitingFor` tests. -/
theorem waitingFor_iff : waitingFor s dest caller = true ↔
    (s.p_flags dest).receiving = true ∧ (s.p_flags dest).sending = false ∧
      accepts (s.p_getfrom dest) caller = true := by
  unfold waitingFor accepts
  simp only [Bool.and_eq_true, Bool.not_eq_true', and_assoc]

/-- A process that hands its message over directly: the send and the copy are legal, and the receive
of the destination is answered. -/
theorem IpcInv.sendDirect (h : IpcInv s) (hc : (history s.log).sent caller = none)
    (ho : (history s.log).opened caller = none) (hw : waitingFor s dest caller = true)
    (hs : sendDirect { s with log := s.log ++ [.send caller dest m_ptr] } caller dest m_ptr =
      some s') :
    IpcInv s' ∧ ∃ mess, s'.log = s.log ++ [.send caller dest m_ptr] ++
      [.copy caller m_ptr dest (s.p_messbuf dest) mess] := by
  obtain ⟨hlaw, hrep⟩ := h
  obtain ⟨hrec, hns, hacc⟩ := waitingFor_iff.mp hw
  have hopen := hrep.opened_eq hrec
  have hsent := hrep.sent_eq_none hns
  have hne : dest ≠ caller := by
    rintro rfl
    rw [ho] at hopen
    simp at hopen
  have hdh : dest ≠ hardwareSlot := by
    rintro rfl
    rw [hrep.hardware] at hrec
    simp [PFlags.zero] at hrec
  obtain ⟨_, _, _, _, _, rfl⟩ := unblock_reflagged hs
  refine ⟨⟨?_, ?_⟩, _, rfl⟩
  · refine lawful_snoc.mpr ⟨lawful_snoc.mpr ⟨hlaw, hc⟩, ?_⟩
    rw [history_snoc]
    refine ⟨Function.update_self .., ?_, rfl, s.p_getfrom dest, hopen, ?_⟩
    · show Function.update (history s.log).sent caller _ dest = none
      rw [Function.update_of_ne hne]
      exact hsent
    · -- Nobody before the caller is accepted, or the destination would not wait.
      show (Function.update (history s.log).waiting dest _ dest).find? _ = _
      rw [Function.update_self, List.find?_append]
      have hnone : ((history s.log).waiting dest).find? (accepts (s.p_getfrom dest)) = none :=
        List.find?_eq_none.mpr fun y hy => by
          simp [(hrep.settled dest _ _ hopen hsent).1 y hy]
      simp [hnone, hacc]
  · show Rep _ _ _ _ _ _ (history (s.log ++ [Event.send caller dest m_ptr] ++
      [Event.copy caller m_ptr dest (s.p_messbuf dest) _]))
    rw [history_snoc, history_snoc, next_send_copy hrep.wf hc]
    exact hrep.close hdh

/-- Queueing a process appends it. -/
theorem queueCaller_spec {w : Slot → List Slot} (hs : queueCaller s caller dest = some s')
    (h : Chains s.p_sendlink s.p_callerq w) (hw : (w dest).length < fuel)
    (hc : ∀ d, caller ∉ w d) :
    ∃ sendlink callerq, s' = { s with p_sendlink := sendlink, p_callerq := callerq } ∧
      Chains sendlink callerq (Function.update w dest (w dest ++ [caller])) := by
  unfold queueCaller at hs
  rcases List.eq_nil_or_concat' (w dest) with hl | ⟨a, t, hl⟩
  · rw [h.eq_nil_iff.mp hl] at hs
    obtain rfl := Option.some.inj hs
    exact ⟨_, _, rfl, h.push_nil hc hl⟩
  · have hchain := h.chain dest
    rw [hl] at hchain hw
    obtain ⟨y, hy⟩ : ∃ y, s.p_callerq dest = some y := by
      rw [← hchain.head?_eq]
      cases a <;> simp
    rw [hy] at hs hchain
    have hlast : lastCell s.p_sendlink fuel y = some t :=
      lastCell_eq hchain (by simp at hw; omega)
    simp only [hlast, Option.bind_eq_bind, Option.bind_some] at hs
    obtain rfl := Option.some.inj hs
    exact ⟨_, _, rfl, h.push hc hl⟩

/-- Two processes that may not wait for each other do not. -/
theorem IpcInv.deadlock (h : IpcInv s) (hl : deadlock s caller dest = some false) :
    dest ∉ (history s.log).waiting caller := by
  intro hm
  have hsent := h.2.sent_eq hm
  have hs : (s.p_flags dest).sending = true := by
    rw [h.2.sending, hsent]
    rfl
  unfold Kernel.deadlock at hl
  rw [if_pos hs, Option.map_eq_some_iff] at hl
  obtain ⟨⟨prev, found⟩, hscan, hfound⟩ := hl
  rcases scan_cases (· == dest) none (h.2.chains.chain caller) (h.length_lt caller) with
    ⟨a, y, b, -, -, -, hsc⟩ | ⟨hnone, -⟩
  · rw [hscan] at hsc
    simp only [Option.some.injEq, Prod.mk.injEq] at hsc
    rw [hsc.2] at hfound
    simp at hfound
  · have := hnone dest hm
    simp at this

/-- A process that blocks in a send: the send is legal, and it goes to the end of the queue. -/
theorem IpcInv.sendBlocked (h : IpcInv s) (hch : caller ≠ hardwareSlot)
    (hc : (history s.log).sent caller = none) (ho : (history s.log).opened caller = none)
    (hw : waitingFor s dest caller = false) (hl : Kernel.deadlock s caller dest = some false)
    (hs : sendBlocked { s with log := s.log ++ [.send caller dest m_ptr] } caller dest m_ptr =
      some s') :
    IpcInv s' ∧ s'.log = s.log ++ [.send caller dest m_ptr] := by
  have hx := h.deadlock hl
  have hlen := h.length_lt dest
  obtain ⟨hlaw, hrep⟩ := h
  unfold Kernel.sendBlocked at hs
  obtain ⟨s₁, h₁, hs⟩ := Option.bind_eq_some_iff.mp hs
  obtain ⟨_, _, _, _, _, rfl⟩ := block_reflagged h₁
  obtain ⟨sendlink, callerq, rfl, hq⟩ :=
    queueCaller_spec hs hrep.chains hlen (hrep.wf.notMem hc)
  refine ⟨⟨lawful_snoc.mpr ⟨hlaw, hc⟩, ?_⟩, rfl⟩
  show Rep _ _ _ _ _ _ (history (s.log ++ [Event.send caller dest m_ptr]))
  rw [history_snoc]
  refine hrep.send hch hc ho hq (fun src b hb hd => ?_) fun _ => hx
  -- The destination does not wait for this message.
  obtain ⟨rfl, -⟩ := hrep.openBuf dest src b hb
  have hrec : (s.p_flags dest).receiving = true := by
    rw [hrep.receiving, hb]
    rfl
  have hns : (s.p_flags dest).sending = false := by
    rw [hrep.sending, hd]
    rfl
  by_contra hacc
  have := waitingFor_iff.mpr ⟨hrec, hns, by simpa using hacc⟩
  rw [hw] at this
  simp at this

/-- `mini_send` keeps the rendezvous in order. Its caller has no other message outstanding, and is
not receiving; the hardware sends only what is handed over directly. -/
theorem IpcInv.miniSend (h : IpcInv s) (hc : (history s.log).sent caller = none)
    (ho : (history s.log).opened caller = none)
    (hh : caller = hardwareSlot → ∀ d, n = procNumber d → waitingFor s d caller = true)
    (hs : miniSend s caller n m_ptr = some (r, s')) :
    IpcInv s' ∧ (history s'.log).opened caller = none ∧
      ∀ d b, (history s'.log).sent caller = some (d, b) → n = procNumber d ∧ m_ptr = b := by
  rcases miniSend_cases hs with ⟨-, rfl⟩ | ⟨dest, rfl, -, hl, ⟨hw, hs⟩ | ⟨hw, hs⟩⟩
  · refine ⟨h, ho, fun d b hb => ?_⟩
    rw [hc] at hb
    simp at hb
  · obtain ⟨hi, mess, hlog⟩ := h.sendDirect hc ho hw hs
    rw [hlog, history_snoc, history_snoc, next_send_copy h.2.wf hc]
    refine ⟨hi, ?_, fun d b hb => ?_⟩
    · show Function.update (history s.log).opened dest none caller = none
      by_cases hd : caller = dest
      · rw [hd, Function.update_self]
      · rw [Function.update_of_ne hd]
        exact ho
    · replace hb : (history s.log).sent caller = some (d, b) := hb
      rw [hc] at hb
      simp at hb
  · have hch : caller ≠ hardwareSlot := fun e => by
      rw [hh e dest rfl] at hw
      simp at hw
    obtain ⟨hi, hlog⟩ := h.sendBlocked hch hc ho hw hl hs
    rw [hlog, history_snoc]
    refine ⟨hi, ho, fun d b hb => ?_⟩
    replace hb : Function.update (history s.log).sent caller _ caller = some (d, b) := hb
    rw [Function.update_self] at hb
    simp only [Option.some.injEq, Prod.mk.injEq] at hb
    exact ⟨by rw [hb.1], hb.2⟩

/-! ## Informing the memory manager -/

/-- The signals of a process that are done with are no business of the rendezvous. -/
theorem IpcInv.stkfltDone {map : BitVec 16} (h : IpcInv s) (hs : stkfltDone s rp map = some s')
    (hrp : rp ≠ hardwareSlot) : IpcInv s' := by
  unfold Kernel.stkfltDone at hs
  dsimp only at hs
  split_ifs at hs
  · refine IpcInv.reflagged ?_ (unblock_reflagged hs) hrp ?_ ?_
    · exact h.congr rfl rfl
    · simp [PFlags.clear, SIG_PENDING, PFlags.zero]
    · simp [PFlags.clear, SIG_PENDING, PFlags.zero]
  · obtain rfl := Option.some.inj hs
    exact h.congr rfl rfl
  · obtain rfl := Option.some.inj hs
    exact h

/-- The end of `inform` is no business of the rendezvous either. -/
theorem IpcInv.informed (h : IpcInv s) (hs : informed s rp = some s') (hrp : rp ≠ hardwareSlot) :
    IpcInv s' := by
  unfold Kernel.informed at hs
  obtain ⟨s₁, h₁, hs⟩ := Option.bind_eq_some_iff.mp hs
  obtain rfl := Option.some.inj hs
  refine IpcInv.resched ?_ (pickProc_resched s₁)
  refine IpcInv.stkfltDone ?_ h₁ hrp
  have hset : Reflagged s rp ((s.p_flags rp).clear PENDING)
      (s.setFlags rp ((s.p_flags rp).clear PENDING)) := (Resched.refl s).setFlags
  have hc := h.reflagged hset hrp (by simp [PFlags.clear, PENDING, PFlags.zero])
    (by simp [PFlags.clear, PENDING, PFlags.zero])
  exact hc.congr rfl rfl

/-- A process that `inform` finds is not the hardware. -/
theorem firstPending_ne (h : firstPending s = some rp) : rp ≠ hardwareSlot := by
  have := List.find?_some h
  rw [Bool.and_eq_true, decide_eq_true_eq] at this
  rintro rfl
  exact absurd this.1 (by decide)

/-- `inform` keeps the rendezvous in order, when the memory manager receives from anybody. -/
theorem IpcInv.inform (h : IpcInv s) (hr : (s.p_flags mmSlot).receiving = true)
    (hg : s.p_getfrom mmSlot = ANY) (hs : inform s = some s') : IpcInv s' := by
  unfold Kernel.inform at hs
  split at hs
  · obtain rfl := Option.some.inj hs
    exact h
  · rename_i rp hrp
    obtain ⟨⟨r, s₁⟩, h₁, hs⟩ := Option.bind_eq_some_iff.mp hs
    dsimp only at hs
    split_ifs at hs
    have h₀ : IpcInv (fillInform s rp) := h.congr rfl rfl
    have hopen := h.2.opened_eq hr
    rw [hg] at hopen
    -- It has no message outstanding, or it would wait for an answer from its destination.
    have hsent : (history s.log).sent mmSlot = none := by
      rcases hm : (history s.log).sent mmSlot with _ | ⟨d, b⟩
      · rfl
      · exact absurd (h.2.reply _ _ _ _ _ hm hopen).symm (procNumber_ne_any d)
    have hw : waitingFor (fillInform s rp) mmSlot hardwareSlot = true := by
      refine waitingFor_iff.mpr ⟨hr, ?_, ?_⟩
      · show (s.p_flags mmSlot).sending = false
        rw [h.2.sending, hsent]
        rfl
      · show accepts (s.p_getfrom mmSlot) hardwareSlot = true
        rw [hg]
        decide
    have hhw := h.2.hardware
    refine ((h₀.miniSend (h.2.sent_eq_none (by rw [hhw]; rfl)) (h.2.opened_eq_none (by rw [hhw]; rfl))
      (fun _ d hd => ?_) h₁).1).informed hs (firstPending_ne hrp)
    have hmm : MM_PROC_NR = procNumber mmSlot := by decide
    rw [hmm, procNumber_inj] at hd
    exact hd ▸ hw

/-! ## Receiving -/

/-- A process that blocks in a receive, where nothing is there for it, keeps the rendezvous in
order. -/
theorem IpcInv.recBlocked (h : IpcInv s) (hch : caller ≠ hardwareSlot)
    (ho : (history s.log).opened caller = none)
    (hsnt : ∀ d b, (history s.log).sent caller = some (d, b) → src = procNumber d ∧ m_ptr = b)
    (hq : (history s.log).sent caller = none → (∀ x ∈ (history s.log).waiting caller,
      accepts src x = false) ∧ (isrxhardware src → s.p_int_blocked caller = false))
    (hs : recBlocked { s with log := s.log ++ [.receive caller src m_ptr] } caller src m_ptr =
      some s') : IpcInv s' := by
  obtain ⟨hlaw, hrep⟩ := h
  unfold Kernel.recBlocked at hs
  obtain ⟨s₁, h₁, h₂⟩ := Option.bind_eq_some_iff.mp hs
  have hre := block_reflagged h₁
  have hi : IpcInv s₁ := by
    obtain ⟨_, _, _, _, _, rfl⟩ := hre
    refine ⟨lawful_snoc.mpr ⟨hlaw, ho⟩, ?_⟩
    show Rep _ _ _ _ _ _ (history (s.log ++ [Event.receive caller src m_ptr]))
    rw [history_snoc]
    exact hrep.open hch ho hsnt (fun hn => (hq hn).1) fun hn => (hq hn).2
  -- The receive is open; what follows is the business of the memory manager only.
  split_ifs at h₂ with hc
  · obtain ⟨-, hmm, rfl⟩ := hc
    have hn : MM_PROC_NR = procNumber mmSlot := by decide
    rw [hn, procNumber_inj] at hmm
    subst hmm
    refine hi.inform ?_ ?_ h₂
    · rw [hre.flags, Function.update_self]
      simp [PFlags.or, RECEIVING]
    · obtain ⟨_, _, _, _, _, rfl⟩ := hre
      show Function.update s.p_getfrom mmSlot ANY mmSlot = ANY
      rw [Function.update_self]
  · obtain rfl := Option.some.inj h₂
    exact hi

/-- Taking a process off a queue erases it. -/
theorem unlinkSender_spec {w : Slot → List Slot} {a b : List Slot}
    (hs : unlinkSender s caller a.getLast? x = some s') (h : Chains s.p_sendlink s.p_callerq w)
    (hw : w caller = a ++ x :: b) :
    ∃ sendlink callerq, s' = { s with p_sendlink := sendlink, p_callerq := callerq } ∧
      Chains sendlink callerq (Function.update w caller ((w caller).erase x)) := by
  have hnd := h.nodup (q := caller)
  have hhead := h.head?_eq (q := caller)
  rw [hw] at hnd hhead
  have hxa : x ∉ a := fun ha => by
    rw [List.nodup_append] at hnd
    exact hnd.2.2 x ha x (by simp) rfl
  have herase : (w caller).erase x = a ++ b := by
    rw [hw, List.erase_append_right _ hxa, List.erase_cons_head]
  unfold unlinkSender at hs
  rw [herase]
  rcases List.eq_nil_or_concat' a with rfl | ⟨c, t, rfl⟩
  · rw [if_pos (by rw [← hhead]; rfl)] at hs
    obtain rfl := Option.some.inj hs
    exact ⟨_, _, rfl, h.pop hw⟩
  · have hne : s.p_callerq caller ≠ some x := by
      rw [← hhead]
      intro e
      exact hxa (List.mem_of_head? (by simpa using e))
    rw [if_neg hne, List.getLast?_concat] at hs
    obtain rfl := Option.some.inj hs
    refine ⟨_, _, rfl, ?_⟩
    have hw' : w caller = c ++ t :: x :: b := by simp [hw]
    have := h.unlink hw'
    rwa [List.append_assoc]

/-- A process that takes the first message in its queue that it accepts: the receive and the copy
are legal, and the message of the sender is taken. -/
theorem IpcInv.takeFrom {a b : List Slot} (h : IpcInv s) (hch : caller ≠ hardwareSlot)
    (hc : (history s.log).sent caller = none) (ho : (history s.log).opened caller = none)
    (hw : (history s.log).waiting caller = a ++ x :: b)
    (ha : ∀ y ∈ a, accepts src y = false) (hx : accepts src x = true)
    (hs : takeFrom { s with log := s.log ++ [.receive caller src m_ptr] } caller m_ptr a.getLast? x =
      some s') : IpcInv s' := by
  obtain ⟨hlaw, hrep⟩ := h
  have hmem : x ∈ (history s.log).waiting caller := by simp [hw]
  have hsent := hrep.sent_eq hmem
  unfold Kernel.takeFrom at hs
  obtain ⟨s₁, h₁, hs⟩ := Option.bind_eq_some_iff.mp hs
  obtain ⟨sendlink, callerq, rfl, hq⟩ := unlinkSender_spec h₁ hrep.chains hw
  obtain ⟨_, _, _, _, _, rfl⟩ := unblock_reflagged hs
  refine ⟨?_, ?_⟩
  · refine lawful_snoc.mpr ⟨lawful_snoc.mpr ⟨hlaw, ho⟩, ?_⟩
    rw [history_snoc]
    refine ⟨hsent, hc, rfl, src, Function.update_self .., ?_⟩
    show ((history s.log).waiting caller).find? (accepts src) = some x
    rw [hw, List.find?_append, List.find?_eq_none.mpr fun y hy => by simp [ha y hy]]
    simp [hx]
  · show Rep _ _ _ _ _ _ (history (s.log ++ [Event.receive caller src m_ptr] ++
      [Event.copy x (s.p_messbuf x) caller m_ptr _]))
    rw [history_snoc, history_snoc, next_receive_copy ho]
    exact hrep.take hmem hc hch hq

/-- A process that takes a blocked interrupt: the receive is answered at once. -/
theorem IpcInv.takeInterrupt (h : IpcInv s) (hc : (history s.log).sent caller = none)
    (ho : (history s.log).opened caller = none) (hx : isrxhardware src = true) :
    IpcInv (takeInterrupt { s with log := s.log ++ [.receive caller src m_ptr] } caller m_ptr) := by
  obtain ⟨hlaw, hrep⟩ := h
  refine ⟨?_, ?_⟩
  · refine lawful_snoc.mpr ⟨lawful_snoc.mpr ⟨hlaw, ho⟩, ?_⟩
    rw [history_snoc]
    exact ⟨hc, src, Function.update_self .., hx⟩
  · show Rep _ _ _ _ _ (Function.update s.p_int_blocked caller false)
      (history (s.log ++ [Event.receive caller src m_ptr] ++ [Event.signal caller m_ptr]))
    rw [history_snoc, history_snoc, next_receive_signal ho]
    exact hrep.setBlocked false (by simp)

/-- `mini_rec` keeps the rendezvous in order. Its caller is not receiving, and if a message of its
is outstanding, this is the other half of the call that sent it. -/
theorem IpcInv.miniRec (h : IpcInv s) (hch : caller ≠ hardwareSlot)
    (ho : (history s.log).opened caller = none)
    (hsnt : ∀ d b, (history s.log).sent caller = some (d, b) → src = procNumber d ∧ m_ptr = b)
    (hs : miniRec s caller src m_ptr = some (r, s')) : IpcInv s' := by
  obtain ⟨-, ⟨hsend, hs⟩ | ⟨hsend, previous, sender, hscan, hs⟩⟩ := miniRec_cases hs
  · refine h.recBlocked hch ho hsnt (fun hn => ?_) hs
    rw [h.2.sending, hn] at hsend
    simp at hsend
  · have hc := h.2.sent_eq_none hsend
    rcases scan_cases (accepts src) none (h.2.chains.chain caller) (h.length_lt caller) with
      ⟨a, x, b, hw, ha, hx, hsc⟩ | ⟨hnone, hsc⟩
    · rw [hscan, Option.or_none, Option.some.injEq, Prod.mk.injEq] at hsc
      obtain ⟨rfl, rfl⟩ := hsc
      rcases hs with ⟨y, hy, hs⟩ | ⟨hn, -⟩ | ⟨hn, -⟩
      · obtain rfl := Option.some.inj hy
        exact h.takeFrom hch hc ho hw ha hx hs
      · simp at hn
      · simp at hn
    · rw [hscan, Option.some.injEq, Prod.mk.injEq] at hsc
      obtain ⟨-, rfl⟩ := hsc
      rcases hs with ⟨y, hy, -⟩ | ⟨-, hi, hx, rfl⟩ | ⟨-, hi, hs⟩
      · simp at hy
      · exact h.takeInterrupt hc ho hx
      · exact h.recBlocked hch ho hsnt (fun _ => ⟨hnone, hi⟩) hs

/-! ## Interrupts and signals -/

/-- Holding up an interrupt is no business of the rendezvous. -/
theorem IpcInv.hold (h : IpcInv s) (hs : hold s rp = some s') : IpcInv s' := by
  unfold Kernel.hold at hs
  split_ifs at hs
  · obtain rfl := Option.some.inj hs
    exact h
  · obtain ⟨s₁, h₁, hs⟩ := Option.bind_eq_some_iff.mp hs
    obtain rfl := Option.some.inj hs
    unfold linkHeld at h₁
    split at h₁
    · obtain ⟨t, -, h₁⟩ := Option.bind_eq_some_iff.mp h₁
      obtain rfl := Option.some.inj h₁
      exact h.congr rfl rfl
    · obtain rfl := Option.some.inj h₁
      exact h.congr rfl rfl

/-- An interrupt answers the receive of the task that waits for it, or is recorded. -/
theorem IpcInv.interrupt {competing : Bool} (h : IpcInv s)
    (hs : interrupt s rp competing = some s') : IpcInv s' := by
  rcases interrupt_cases hs with hs | ⟨rfl, hw⟩ | ⟨hr, hns, hx, hs⟩
  · exact h.hold hs
  · refine ⟨h.1, h.2.setBlocked true fun _ hn src b hb => ?_⟩
    obtain ⟨rfl, -⟩ := h.2.openBuf rp src b hb
    refine hw ?_ ?_
    · rw [h.2.receiving, hb]
      rfl
    · rw [h.2.sending, hn]
      rfl
  · obtain ⟨hlaw, hrep⟩ := h
    have hopen := hrep.opened_eq hr
    have hsent := hrep.sent_eq_none hns
    have hrp : rp ≠ hardwareSlot := by
      rintro rfl
      rw [hrep.hardware] at hr
      simp [PFlags.zero] at hr
    obtain ⟨_, _, _, _, _, rfl⟩ := addReady_resched hs
    refine ⟨lawful_snoc.mpr ⟨hlaw, hsent, s.p_getfrom rp, hopen, hx⟩, ?_⟩
    show Rep _ _ _ _ _ (Function.update s.p_int_blocked rp false)
      (history (s.log ++ [Event.signal rp (s.p_messbuf rp)]))
    rw [history_snoc]
    exact (hrep.close hrp).setBlocked false (by simp)

/-- Repeating a held-up interrupt. -/
theorem IpcInv.unholdOne (h : IpcInv s) (hs : unholdOne s rp = some s') : IpcInv s' := by
  refine IpcInv.interrupt ?_ hs
  exact h.congr rfl rfl

/-- Causing a signal to a process. -/
theorem IpcInv.causeSig {sig : ℕ} (h : IpcInv s) (hs : causeSig s rp sig = some s')
    (hrp : rp ≠ hardwareSlot) : IpcInv s' := by
  unfold Kernel.causeSig at hs
  dsimp only at hs
  split_ifs at hs
  · obtain rfl := Option.some.inj hs
    exact h
  · obtain rfl := Option.some.inj hs
    exact h.congr rfl rfl
  · obtain ⟨s₁, hb, hs⟩ := Option.bind_eq_some_iff.mp hs
    have hi : IpcInv s₁ := by
      refine IpcInv.reflagged ?_ (block_reflagged hb) hrp ?_ ?_
      · exact h.congr rfl rfl
      · simp [PFlags.or, PENDING, SIG_PENDING, PFlags.zero]
      · simp [PFlags.or, PENDING, SIG_PENDING, PFlags.zero]
    split_ifs at hs with hmm
    · obtain rfl := Option.some.inj hs
      exact hi.congr rfl rfl
    · simp only [Bool.not_eq_true, Bool.or_eq_false_iff, Bool.not_eq_false', bne_eq_false_iff_eq]
        at hmm
      refine IpcInv.inform ?_ ?_ ?_ hs
      · exact hi.congr rfl rfl
      · exact hmm.1
      · exact hmm.2

end Minix.Kernel
