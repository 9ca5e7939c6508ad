import Minix.Kernel.Sched

/-!
# Message passing

`mini_send`, `mini_rec`, `sys_call`, `interrupt` and `unhold` of `kernel/proc.c`, `cp_mess`, and
`inform` and `cause_sig` of `kernel/system.c`, which send through them. As in `Sched.lean`, `none`
is a wild or nil pointer followed, a walk that does not end, or a panic.

Every definition is one call, in the order of the source's statements. The calls that return a
status return it beside the state.
-/

namespace Minix.Kernel

open Lib

/-- Status codes. -/
def OK : ℤ := 0
def E_BAD_DEST : ℤ := -1
def E_BAD_SRC : ℤ := -2
def E_NO_PERM : ℤ := -8
def E_BAD_ADDR : ℤ := -10
def ELOCKED : ℤ := -101

/-- `sizeof(message)`: two words, and a union of 22 bytes. -/
def MESS_SIZE : ℕ := 26

/-- The bits of `p_flags` that the calls below set and clear. -/
def SENDING : PFlags := { PFlags.zero with sending := true }
def RECEIVING : PFlags := { PFlags.zero with receiving := true }
def PENDING : PFlags := { PFlags.zero with pending := true }
def SIG_PENDING : PFlags := { PFlags.zero with sigPending := true }

/-- The physical address of a process' message: a shadowed process has its image elsewhere. The
difference of the two bases is one of `vir_clicks`, and the machine has 24 address lines. -/
def physMess (s : State) (p : Slot) (m : Addr) : Addr :=
  if s.p_shadow p ≠ 0 then
    (m + (s.p_shadow p + (2 ^ 16 - (s.p_map p).mem_phys % 2 ^ 16)) % 2 ^ 16 * 2 ^ 8) % 2 ^ 24
  else m % 2 ^ 24

/-- Copy a message from one process to another, and put the sender's number in it. -/
def cpMess (s : State) (src : Slot) (src_m : Addr) (dst : Slot) (dst_m : Addr) : State :=
  let mess := { s.mem (physMess s src src_m) with m_source := procNumber src }
  { s with
    mem := Function.update s.mem (physMess s dst dst_m) mess
    log := s.log ++ [.copy src src_m dst dst_m mess] }

/-- The message wraps around the top of memory or does not end inside the data segment, in the
arithmetic of `vir_clicks`. -/
def badAddr (s : State) (caller : Slot) (vb : Addr) : Bool :=
  let vlo := vb / 2 ^ 8 % 2 ^ 16
  let vhi := (vb + MESS_SIZE - 1) / 2 ^ 8 % 2 ^ 16
  vhi < vlo ||
    (s.p_map caller).mem_len ≤ (vhi + (2 ^ 16 - (s.p_map caller).mem_vir % 2 ^ 16)) % 2 ^ 16

/-- `dest` is blocked in a receive, and not also in a send, that accepts messages from `caller`. -/
def waitingFor (s : State) (dest caller : Slot) : Bool :=
  (s.p_flags dest).receiving && !(s.p_flags dest).sending &&
    (s.p_getfrom dest == ANY || s.p_getfrom dest == procNumber caller)

/-- Clear flags of a process, and make it ready if that was the last of them. -/
def unblock (s : State) (rp : Slot) (f : PFlags) : Option State :=
  let s := s.setFlags rp ((s.p_flags rp).clear f)
  if s.p_flags rp = PFlags.zero then ready s rp else some s

/-- Set flags of a process, and make it unready if they are the first. -/
def block (s : State) (rp : Slot) (f : PFlags) : Option State := do
  let s ← if s.p_flags rp = PFlags.zero then unready s rp else some s
  some (s.setFlags rp ((s.p_flags rp).or f))

/-- Put `caller` at the end of the queue of processes that wish to send to `dest`. -/
def queueCaller (s : State) (caller dest : Slot) : Option State :=
  match s.p_callerq dest with
  | none =>
    some { s with
      p_callerq := Function.update s.p_callerq dest (some caller)
      p_sendlink := Function.update s.p_sendlink caller none }
  | some next_ptr => do
    let next_ptr ← lastCell s.p_sendlink fuel next_ptr
    some { s with
      p_sendlink :=
        Function.update (Function.update s.p_sendlink next_ptr (some caller)) caller none }

/-- Block `caller`, whose message for `dest` lies at `m_ptr`, and queue it. -/
def sendBlocked (s : State) (caller dest : Slot) (m_ptr : Addr) : Option State := do
  let s := { s with p_messbuf := Function.update s.p_messbuf caller m_ptr }
  let s ← block s caller SENDING
  queueCaller s caller dest

/-- Hand the message at `m_ptr` of `caller` over to `dest`, which waits for it. -/
def sendDirect (s : State) (caller dest : Slot) (m_ptr : Addr) : Option State :=
  unblock (cpMess s caller m_ptr dest (s.p_messbuf dest)) dest RECEIVING

/-- `caller` and `dest` would be sending to each other. -/
def deadlock (s : State) (caller dest : Slot) : Option Bool :=
  if (s.p_flags dest).sending then
    (scan s.p_sendlink (· == dest) fuel none (s.p_callerq caller)).map (·.2.isSome)
  else some false

/-- Send a message from `caller` to `dest`: hand it over if `dest` is waiting for it, else block
and queue `caller`. -/
def miniSend (s : State) (caller : Slot) (dest : ℤ) (m_ptr : Addr) : Option (ℤ × State) :=
  if isuserp caller && !isservn dest then some (E_BAD_DEST, s)
  else do
    let dest_ptr ← procAddr dest
    if (s.p_flags dest_ptr).slotFree then some (E_BAD_DEST, s)
    else if badAddr s caller m_ptr then some (E_BAD_ADDR, s)
    else do
      let locked ← deadlock s caller dest_ptr
      if locked then some (ELOCKED, s)
      else do
        let s := { s with log := s.log ++ [.send caller dest_ptr m_ptr] }
        let s ← if waitingFor s dest_ptr caller then sendDirect s caller dest_ptr m_ptr
          else sendBlocked s caller dest_ptr m_ptr
        some (OK, s)

/-- The process that `inform` tells the memory manager about: the first one from the servers on
with pending signals. -/
def firstPending (s : State) : Option Slot :=
  (List.finRange (NR_TASKS + NR_PROCS)).find?
    (fun rp => NR_TASKS ≤ rp.val && (s.p_flags rp).pending)

/-- Fill in the message `m` of `system.c` for `inform`. -/
def fillInform (s : State) (rp : Slot) : State :=
  let a := s.sys_m % 2 ^ 24
  { s with
    mem := Function.update s.mem a { s.mem a with
      m_type := KSIG
      m_u := Function.update (Function.update (s.mem a).m_u 0 (procNumber rp)) 1
        (s.p_pending rp).toInt }
    sig_procs := s.sig_procs - 1 }

/-- `SIGSTKFLT` is not answered by the memory manager: if the signals `map` were no others, they are
done with. -/
def stkfltDone (s : State) (rp : Slot) (map : BitVec 16) : Option State :=
  if map = BitVec.ofNat 16 (2 ^ (SIGSTKFLT - 1)) ∧ s.p_pendcount rp ≠ 0 then
    let s := { s with
      p_pendcount := Function.update s.p_pendcount rp (s.p_pendcount rp - 1) }
    if s.p_pendcount rp = 0 then unblock s rp SIG_PENDING else some s
  else some s

/-- The end of `inform`, when the memory manager has the message about `rp`. The process remains
inhibited by `SIG_PENDING`. -/
def informed (s : State) (rp : Slot) : Option State := do
  let map := s.p_pending rp
  let s := { s with p_pending := Function.update s.p_pending rp 0 }
  let s := s.setFlags rp ((s.p_flags rp).clear PENDING)
  let s ← stkfltDone s rp map
  some (pickProc s)

/-- Tell the memory manager about one process with pending signals. -/
def inform (s : State) : Option State :=
  match firstPending s with
  | none => some s
  | some rp => do
    let (r, s) ← miniSend (fillInform s rp) hardwareSlot MM_PROC_NR s.sys_m
    if r = OK then informed s rp else none

/-- Take `sender`, whose predecessor is `previous`, off the queue of `caller`. -/
def unlinkSender (s : State) (caller : Slot) (previous : Option Slot) (sender : Slot) :
    Option State :=
  if s.p_callerq caller = some sender then
    some { s with p_callerq := Function.update s.p_callerq caller (s.p_sendlink sender) }
  else do
    let previous ← previous
    some { s with p_sendlink := Function.update s.p_sendlink previous (s.p_sendlink sender) }

/-- `caller` takes the message of `sender`, whose predecessor on the queue is `previous`. -/
def takeFrom (s : State) (caller : Slot) (m_ptr : Addr) (previous : Option Slot) (sender : Slot) :
    Option State := do
  let s := cpMess s sender (s.p_messbuf sender) caller m_ptr
  let s ← unlinkSender s caller previous sender
  unblock s sender SENDING

/-- Put an interrupt's message in the buffer `m_ptr` of `task`, through the pointer itself. -/
def putHardInt (s : State) (task : Slot) (m_ptr : Addr) : State :=
  let a := m_ptr % 2 ^ 24
  { s with
    mem := Function.update s.mem a { s.mem a with m_source := HARDWARE, m_type := HARD_INT }
    log := s.log ++ [.signal task m_ptr] }

/-- `caller` takes the message of an interrupt that was blocked. -/
def takeInterrupt (s : State) (caller : Slot) (m_ptr : Addr) : State :=
  { putHardInt s caller m_ptr with
    p_int_blocked := Function.update s.p_int_blocked caller false }

/-- No suitable message is available: block `caller`. If the memory manager has just blocked and
there are kernel signals pending, now is the time to tell it about them. -/
def recBlocked (s : State) (caller : Slot) (src : ℤ) (m_ptr : Addr) : Option State := do
  let s := { s with
    p_getfrom := Function.update s.p_getfrom caller src
    p_messbuf := Function.update s.p_messbuf caller m_ptr }
  let s ← block s caller RECEIVING
  if 0 < s.sig_procs ∧ procNumber caller = MM_PROC_NR ∧ src = ANY then inform s else some s

/-- `src` names `p`, or anybody. -/
def accepts (src : ℤ) (p : Slot) : Bool := src == ANY || src == procNumber p

/-- Get a message: take the first acceptable one that is queued, or a blocked interrupt, else
block `caller`. -/
def miniRec (s : State) (caller : Slot) (src : ℤ) (m_ptr : Addr) : Option (ℤ × State) := do
  let s := { s with log := s.log ++ [.receive caller src m_ptr] }
  let s ← if (s.p_flags caller).sending then recBlocked s caller src m_ptr
    else do
      let (previous, sender) ← scan s.p_sendlink (accepts src) fuel none (s.p_callerq caller)
      match sender with
      | some sender => takeFrom s caller m_ptr previous sender
      | none =>
        if s.p_int_blocked caller && isrxhardware src then some (takeInterrupt s caller m_ptr)
        else recBlocked s caller src m_ptr
  some (OK, s)

/-- The functions of a system call. -/
inductive Call
  | SEND
  | RECEIVE
  | BOTH
  deriving DecidableEq

/-- The receive half of a call, after its send half returned `n`. -/
def sysCallRec (function : Call) (src_dest : ℤ) (m_ptr : Addr) (rp : Slot) :
    ℤ × State → Option (ℤ × State)
  | (n, s) => if function = .SEND ∨ n ≠ OK then some (n, s) else miniRec s rp src_dest m_ptr

/-- A process or task sends, receives, or both. The caller is always `proc_ptr`. -/
def sysCall (s : State) (function : Call) (src_dest : ℤ) (m_ptr : Addr) : Option (ℤ × State) :=
  if !isoksrcDest src_dest then some (E_BAD_SRC, s)
  else
    let rp := s.proc_ptr
    if function ≠ .BOTH && isuserp rp then some (E_NO_PERM, s)
    else if function = .RECEIVE then miniRec s rp src_dest m_ptr
    else miniSend s rp src_dest m_ptr >>= sysCallRec function src_dest m_ptr rp

/-- Link `rp` behind the last interrupt that is held up, or make it the first. -/
def linkHeld (s : State) (rp : Slot) : Option State :=
  match s.held_head with
  | some _ => do
    let t ← s.held_tail
    some { s with p_nextheld := Function.update s.p_nextheld t (some rp) }
  | none => some { s with held_head := some rp }

/-- Put `rp` on the queue of interrupts that are held up, unless it is there. -/
def hold (s : State) (rp : Slot) : Option State :=
  if s.p_int_held rp then some s
  else do
    let s ← linkHeld { s with p_int_held := Function.update s.p_int_held rp true } rp
    some { s with
      held_tail := some rp
      p_nextheld := Function.update s.p_nextheld rp none }

/-- An interrupt has occurred: schedule the task that handles it. `competing` says that the call
would compete with other process-switching functions (`k_reenter != 0 || switching`). -/
def interrupt (s : State) (rp : Slot) (competing : Bool) : Option State :=
  if competing then hold s rp
  else if !(s.p_flags rp).receiving || (s.p_flags rp).sending || !isrxhardware (s.p_getfrom rp) then
    -- The task is not waiting for an interrupt: record the blockage.
    some { s with p_int_blocked := Function.update s.p_int_blocked rp true }
  else
    let s := { putHardInt s rp (s.p_messbuf rp) with
      p_int_blocked := Function.update s.p_int_blocked rp false }
    addReady (s.setFlags rp ((s.p_flags rp).clear RECEIVING)) .TASK_Q rp

/-- One turn of the loop of `unhold`, which repeats the interrupts that were held up. -/
def unholdOne (s : State) (rp : Slot) : Option State :=
  let s := { s with
    held_head := s.p_nextheld rp
    held_tail := if s.p_nextheld rp = none then none else s.held_tail
    p_int_held := Function.update s.p_int_held rp false }
  interrupt s rp false

/-- A task wants to send a signal to a process. -/
def causeSig (s : State) (rp : Slot) (sig_nr : ℕ) : Option State :=
  let bit := BitVec.ofNat 16 (2 ^ (sig_nr - 1))
  if s.p_pending rp &&& bit ≠ 0 then some s
  else
    let s := { s with
      p_pending := Function.update s.p_pending rp (s.p_pending rp ||| bit)
      p_pendcount := Function.update s.p_pendcount rp (s.p_pendcount rp + 1) }
    if (s.p_flags rp).pending then some s
    else do
      let s ← block s rp (PENDING.or SIG_PENDING)
      let s := { s with sig_procs := s.sig_procs + 1 }
      if !(s.p_flags mmSlot).receiving || s.p_getfrom mmSlot != ANY then some s else inform s

/-! ## What a call that returns has done -/

section Returns

variable {s s' : State} {caller dest p x rp : Slot} {n src r : ℤ} {m_ptr : Addr} {c : Bool}

/-- A receive from a process' number accepts that process only. -/
theorem accepts_procNumber : accepts (procNumber p) x = true ↔ x = p := by
  unfold accepts
  simp only [Bool.or_eq_true, beq_iff_eq, procNumber_ne_any, false_or, procNumber_inj]
  exact eq_comm

/-- `mini_send` has refused the message, or accepted it and done one of the two sends. -/
theorem miniSend_cases (h : miniSend s caller n m_ptr = some (r, s')) :
    (r ≠ OK ∧ s' = s) ∨ ∃ dest, n = procNumber dest ∧ r = OK ∧ deadlock s caller dest = some false ∧
      ((waitingFor s dest caller = true ∧
          sendDirect { s with log := s.log ++ [.send caller dest m_ptr] } caller dest m_ptr =
            some s') ∨
        (waitingFor s dest caller = false ∧
          sendBlocked { s with log := s.log ++ [.send caller dest m_ptr] } caller dest m_ptr =
            some s')) := by
  have hrefuse : ∀ e : ℤ, e ≠ OK → some (e, s) = some (r, s') → r ≠ OK ∧ s' = s := by
    intro e he h
    simp only [Option.some.injEq, Prod.mk.injEq] at h
    exact ⟨h.1 ▸ he, h.2.symm⟩
  unfold miniSend at h
  by_cases hu : (isuserp caller && !isservn n) = true
  · rw [if_pos hu] at h
    exact Or.inl (hrefuse _ (by decide) h)
  rw [if_neg hu] at h
  obtain ⟨dest, hd, h⟩ := Option.bind_eq_some_iff.mp h
  by_cases hf : (s.p_flags dest).slotFree = true
  · rw [if_pos hf] at h
    exact Or.inl (hrefuse _ (by decide) h)
  rw [if_neg hf] at h
  by_cases hb : badAddr s caller m_ptr = true
  · rw [if_pos hb] at h
    exact Or.inl (hrefuse _ (by decide) h)
  rw [if_neg hb] at h
  obtain ⟨locked, hl, h⟩ := Option.bind_eq_some_iff.mp h
  cases locked with
  | true =>
    rw [if_pos rfl] at h
    exact Or.inl (hrefuse _ (by decide) h)
  | false =>
    rw [if_neg (by decide)] at h
    refine Or.inr ⟨dest, procAddr_eq_some.mp hd, ?_⟩
    dsimp only at h
    by_cases hw : waitingFor s dest caller = true
    · rw [if_pos (by exact hw)] at h
      obtain ⟨s₁, h₁, h⟩ := Option.bind_eq_some_iff.mp h
      simp only [Option.some.injEq, Prod.mk.injEq] at h
      exact ⟨h.1.symm, hl, Or.inl ⟨hw, h.2 ▸ h₁⟩⟩
    · rw [if_neg (by exact hw)] at h
      obtain ⟨s₁, h₁, h⟩ := Option.bind_eq_some_iff.mp h
      simp only [Option.some.injEq, Prod.mk.injEq] at h
      exact ⟨h.1.symm, hl, Or.inr ⟨by simpa using hw, h.2 ▸ h₁⟩⟩

/-- `mini_rec` has taken a message from the queue, or a blocked interrupt, or has blocked. -/
theorem miniRec_cases (h : miniRec s caller src m_ptr = some (r, s')) :
    r = OK ∧
      (((s.p_flags caller).sending = true ∧
          recBlocked { s with log := s.log ++ [.receive caller src m_ptr] } caller src m_ptr =
            some s') ∨
        ((s.p_flags caller).sending = false ∧ ∃ previous sender,
          scan s.p_sendlink (accepts src) fuel none (s.p_callerq caller) =
            some (previous, sender) ∧
          ((∃ x, sender = some x ∧
              takeFrom { s with log := s.log ++ [.receive caller src m_ptr] } caller m_ptr previous
                x = some s') ∨
            (sender = none ∧ s.p_int_blocked caller = true ∧ isrxhardware src = true ∧
              takeInterrupt { s with log := s.log ++ [.receive caller src m_ptr] } caller m_ptr =
                s') ∨
            (sender = none ∧ (isrxhardware src → s.p_int_blocked caller = false) ∧
              recBlocked { s with log := s.log ++ [.receive caller src m_ptr] } caller src m_ptr =
                some s')))) := by
  unfold miniRec at h
  dsimp only at h
  by_cases hs : (s.p_flags caller).sending = true
  · rw [if_pos (by exact hs)] at h
    obtain ⟨s₁, h₁, h⟩ := Option.bind_eq_some_iff.mp h
    simp only [Option.some.injEq, Prod.mk.injEq] at h
    exact ⟨h.1.symm, Or.inl ⟨hs, h.2 ▸ h₁⟩⟩
  · rw [if_neg (by exact hs)] at h
    obtain ⟨⟨previous, sender⟩, hq, h⟩ := Option.bind_eq_some_iff.mp h
    cases sender with
    | some x =>
      obtain ⟨s₁, h₁, h⟩ := Option.bind_eq_some_iff.mp h
      simp only [Option.some.injEq, Prod.mk.injEq] at h
      exact ⟨h.1.symm, Or.inr ⟨by simpa using hs, previous, some x, hq, Or.inl ⟨x, rfl, h.2 ▸ h₁⟩⟩⟩
    | none =>
      by_cases hi : (s.p_int_blocked caller && isrxhardware src) = true
      · rw [if_pos (by exact hi)] at h
        obtain ⟨s₁, h₁, h⟩ := Option.bind_eq_some_iff.mp h
        simp only [Option.some.injEq, Prod.mk.injEq] at h h₁
        rw [Bool.and_eq_true] at hi
        exact ⟨h.1.symm, Or.inr ⟨by simpa using hs, previous, none, hq,
          Or.inr (Or.inl ⟨rfl, hi.1, hi.2, h.2 ▸ h₁⟩)⟩⟩
      · rw [if_neg (by exact hi)] at h
        obtain ⟨s₁, h₁, h⟩ := Option.bind_eq_some_iff.mp h
        simp only [Option.some.injEq, Prod.mk.injEq] at h
        refine ⟨h.1.symm, Or.inr ⟨by simpa using hs, previous, none, hq,
          Or.inr (Or.inr ⟨rfl, fun hh => ?_, h.2 ▸ h₁⟩)⟩⟩
        simpa [hh] using hi

end Returns

end Minix.Kernel
