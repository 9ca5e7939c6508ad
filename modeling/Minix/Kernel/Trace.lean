import Minix.Kernel.ShadowCalls
import Minix.Kernel.Tty
import Minix.Kernel.Umap
import Minix.Lib.Run
import Minix.Mm.Signal

/-!
# Tracing and the ready queues

`do_trace` of `kernel/system.c`, and the requests that `do_trace` and `stop_proc` of `mm/trace.c`
forward to it. Whether a process is stopped is kept twice: as `STOPPED` by the memory manager, and
as `P_STOP` by the kernel. Requests 7 and 9 clear `P_STOP`, but only request 7 clears `STOPPED`; so
after request 9 the memory manager still forwards requests for a process that runs, and the kernel
makes it ready again.

`ready_again` is what `ready` does to a process that is in its queue already. `Careful` says of a
request that it does not do harm in this or another way, and `trace_queues` that the ready queues
are in order after it exactly then.
-/

namespace Minix.Kernel

open Lib

/-- The trace bit of the processor status word. -/
def TRACEBIT : BitVec 16 := 0x8000

/-- The size of `struct proc`, with integers of two bytes. -/
def SIZEOF_PROC : ℕ := 158

/-- The size of `struct stackframe_s`: seventeen registers, `psw`, and two bytes that fill it up. -/
def SIZEOF_STACKFRAME : ℕ := 72

/-- Where `psw` is in it. -/
def PSW_OFFSET : ℕ := 68

/-- `sizeof(long)`, which is also the size of a register. -/
abbrev VLSIZE : VirBytes := 4

/-- The bytes of a click. -/
abbrev ClickBytes := Fin CLICK_SIZE → UInt8

/-- The machine, with the registers that are saved for the processes. -/
structure Traced where
  m : Machine ClickBytes
  p_reg : Slot → Fin 17 → VirBytes
  psw : Slot → BitVec 16

/-- Where things are: the bytes of physical memory that the kernel's variables take, and what a long
of an entry of `proc[]` is, at an offset. -/
structure Layout where
  kernelData : VirBytes → Bool
  procLong : Traced → Slot → VirBytes → VirBytes

/-- A segment, in clicks of sixteen bits. -/
def MemMap.seg (m : MemMap) : SegMap :=
  ⟨BitVec.ofNat 16 m.mem_vir, BitVec.ofNat 16 m.mem_phys, BitVec.ofNat 16 m.mem_len⟩

/-- The map of a process. -/
def Machine.procMap {γ : Type} (m : Machine γ) (p : Slot) : ProcMap where
  p_map
    | .T => (m.text p).seg
    | .D => (m.k.p_map p).seg
    | .S => (m.stack p).seg
  p_shadow := BitVec.ofNat 16 (m.k.p_shadow p)

/-- A byte of physical memory. -/
def getByte (core : ℕ → ClickBytes) (a : VirBytes) : UInt8 :=
  core (a.toNat / CLICK_SIZE) ⟨a.toNat % CLICK_SIZE, Nat.mod_lt _ (by decide)⟩

/-- The long at a physical address. -/
def getLong (core : ℕ → ClickBytes) (a : VirBytes) : VirBytes :=
  BitVec.ofNat 32 (((getByte core a).toNat * 256 + (getByte core (a + 1)).toNat) * 65536 +
    (getByte core (a + 2)).toNat * 256 + (getByte core (a + 3)).toNat)

/-- A long is copied to a physical address. -/
def putLong (core : ℕ → ClickBytes) (a v : VirBytes) : ℕ → ClickBytes := fun c i =>
  let k := BitVec.ofNat 32 (c * CLICK_SIZE + i.val) - a
  if k < VLSIZE then UInt8.ofNat (v.toNat >>> (8 * (3 - k.toNat))) else core c i

/-- Some byte of a long is one of the kernel's variables. -/
def Layout.hits (l : Layout) (a : VirBytes) : Bool :=
  l.kernelData a || l.kernelData (a + 1) || l.kernelData (a + 2) || l.kernelData (a + 3)

variable {l : Layout} {t t' : Traced} {rp : Slot} {request r : ℤ} {addr data v : VirBytes}

/-- The kernel's variables are changed. -/
def Traced.setKernel (t : Traced) (k : State) : Traced := { t with m := { t.m with k := k } }

/-- Where instructions are. Text space is actually data space, if there is none. -/
def Traced.textSeg (t : Traced) (rp : Slot) : Seg := if (t.m.text rp).mem_len ≠ 0 then .T else .D

/-- The physical address of a long of the traced process. -/
def Traced.umapLong (t : Traced) (rp : Slot) (seg : Seg) (addr : VirBytes) : VirBytes :=
  umap (t.m.procMap rp) seg addr VLSIZE

/-- Return value from instruction space or data space. -/
def traceGet (t : Traced) (rp : Slot) (seg : Seg) (addr data : VirBytes) : ℤ × VirBytes × Traced :=
  let src := t.umapLong rp seg addr
  if src = 0 then ( EIO, data, t) else (OK, getLong t.m.core src, t)

/-- Set value in instruction space or data space. `none` is a change of the kernel's own variables.
-/
def traceSet (l : Layout) (t : Traced) (rp : Slot) (seg : Seg) (addr data : VirBytes) :
    Option (ℤ × VirBytes × Traced) :=
  let dst := t.umapLong rp seg addr
  if dst = 0 then some ( EIO, data, t)
  else if l.hits dst then none
  else some (OK, 0, { t with m := { t.m with core := putLong t.m.core dst data } })

/-- An address that the tests of requests 3 and 6 refuse. It is compared as a signed number. -/
def refusesOffset (addr : VirBytes) (size : ℕ) : Bool :=
  addr &&& (VLSIZE - 1) ≠ 0 || decide ((size : ℤ) - 4 < addr.toInt)

/-- `(int) ADDR`, of two bytes. -/
def intOf (addr : VirBytes) : ℤ := (addr.setWidth 16).toInt

/-- Set value in process table. `none` is a store outside of the saved registers. -/
def traceSetReg (t : Traced) (rp : Slot) (addr data : VirBytes) : Option (ℤ × VirBytes × Traced) :=
  let i := intOf addr
  if refusesOffset addr SIZEOF_STACKFRAME then some ( EIO, data, t)
  else if i = PSW_OFFSET then
    -- Only selected bits are changeable.
    some (OK, 0, { t with
      psw := Function.update t.psw rp (t.psw rp &&& ~~~0xFF ||| data.setWidth 16 &&& 0xFF) })
  else if h : 0 ≤ i ∧ i.toNat / 4 < 17 then
    some (OK, 0, { t with
      p_reg := Function.update t.p_reg rp (Function.update (t.p_reg rp) ⟨i.toNat / 4, h.2⟩ data) })
  else none

/-- Handle `sys_trace()` for the process `rp`: the result, `DATA`, and what has become of the
machine. -/
def doTrace (l : Layout) (t : Traced) (rp : Slot) (request : ℤ) (addr data : VirBytes) :
    Option (ℤ × VirBytes × Traced) :=
  if (t.m.k.p_flags rp).slotFree then some ( EIO, data, t)
  else match request with
  | -1 => do
    let k ← unready t.m.k rp
    let t := t.setKernel (k.setFlags rp ((k.p_flags rp).or P_STOP))
    some (OK, data, { t with psw := Function.update t.psw rp (t.psw rp &&& ~~~TRACEBIT) })
  | 1 => some (traceGet t rp (t.textSeg rp) addr data)
  | 2 => some (traceGet t rp .D addr data)
  | 3 =>
    if refusesOffset addr SIZEOF_PROC then some ( EIO, data, t) else some (OK, l.procLong t rp addr, t)
  | 4 => traceSet l t rp (t.textSeg rp) addr data
  | 5 => traceSet l t rp .D addr data
  | 6 => traceSetReg t rp addr data
  | 7 => do
    let k ← unblock t.m.k rp P_STOP
    some (OK, 0, t.setKernel k)
  | 9 => do
    let t := { t with psw := Function.update t.psw rp (t.psw rp ||| TRACEBIT) }
    let k ← unblock t.m.k rp P_STOP
    some (OK, 0, t.setKernel k)
  | _ => some ( EIO, data, t)

/-! ## Making a process ready again -/

/-- A request does no harm to the ready queues: a process that it resumes is not ready, or the last
of its queue, and what it sets is neither one of the kernel's variables nor outside of the saved
registers. -/
def Careful (l : Layout) (t : Traced) (rp : Slot) (request : ℤ) (addr : VirBytes) : Prop :=
  (t.m.k.p_flags rp).slotFree = true ∨
    match request with
    | 4 => t.umapLong rp (t.textSeg rp) addr = 0 ∨ l.hits (t.umapLong rp (t.textSeg rp) addr) = false
    | 5 => t.umapLong rp .D addr = 0 ∨ l.hits (t.umapLong rp .D addr) = false
    | 6 => refusesOffset addr SIZEOF_STACKFRAME = true ∨ 0 ≤ intOf addr ∧ intOf addr ≤ PSW_OFFSET
    | 7 | 9 => t.m.k.p_flags rp = PFlags.zero → t.m.k.rdy_tail (queueOf t.m.k rp) = some rp
    | _ => True

section Queue

variable {s s' : State} {rq : Queue → List Slot} {p : Slot}

/-- The class of a user process is that of users only. -/
theorem isuserp_of_queueOf (h : isuserp rp = true) (hq : queueOf s p = queueOf s rp) :
    isuserp p = true := by
  have hrp : queueOf s rp = .SHADOW_Q ∨ queueOf s rp = .USER_Q := by
    obtain ⟨-, -, htask⟩ := isuserp_ne h
    unfold queueOf
    rw [htask, h]
    cases isshadowp s rp <;> simp
  rw [← hq] at hrp
  unfold queueOf at hrp
  by_contra hn
  rw [Bool.not_eq_true] at hn
  rw [hn] at hrp
  split_ifs at hrp <;> simp_all

/-- A process that is queued already is made ready. If it is the last of its queue, then nothing
happens; otherwise those behind it are lost. -/
theorem ready_again (h : ReadyInv s rq) (hu : isuserp rp = true)
    (h0 : s.p_flags rp = PFlags.zero) :
    ∃ s', ready s rp = some s' ∧ (ReadyOk s' ↔ s.rdy_tail (queueOf s rp) = some rp) := by
  obtain ⟨hidle, hhard, -⟩ := isuserp_ne hu
  have hm := h.mem rp hidle hhard h0
  obtain ⟨a, b, hab⟩ := List.append_of_mem hm
  have hchain := h.queues.chains.chain (queueOf s rp)
  have hhead : s.rdy_head (queueOf s rp) ≠ none := by
    intro e
    rw [h.queues.chains.eq_nil_iff.mpr e] at hm
    cases hm
  obtain ⟨x, hx⟩ := Option.ne_none_iff_exists'.mp hhead
  rw [ready_eq]
  unfold addReady
  rcases List.eq_nil_or_concat' b with rfl | ⟨b, y, rfl⟩
  · -- The links are as they were.
    have htail := h.queues.tail _ a rp hab
    rw [hx, htail]
    refine ⟨_, rfl, iff_of_true ?_ rfl⟩
    rw [hab] at hchain
    have hnone : s.p_nextready rp = none := hchain.next_last
    have hnext : Function.update (Function.update s.p_nextready rp (some rp)) rp none =
        s.p_nextready := by
      rw [Function.update_idem, ← hnone, Function.update_eq_self]
    have htails : Function.update s.rdy_tail (queueOf s rp) (some rp) = s.rdy_tail := by
      rw [← htail, Function.update_eq_self]
    have hok : ReadyOk s := ⟨rq, h⟩
    exact hok.congr rfl hnext rfl rfl htails
  · -- The last of the queue has no flags, but the chain ends in front of it.
    have hab' : rq (queueOf s rp) = (a ++ rp :: b) ++ [y] := by rw [hab]; simp
    have htail := h.queues.tail _ _ y hab'
    have hy : y ∈ rq (queueOf s rp) := by rw [hab']; simp
    have hnd := hchain.nodup
    rw [hab', List.nodup_append] at hnd
    have hyrp : y ≠ rp := fun e => hnd.2.2 rp (by simp) y (by simp) e.symm
    have hya : y ∉ a := fun hya => hnd.2.2 y (by simp [hya]) y (by simp) rfl
    have hrpa : rp ∉ a := by
      have hnd := hchain.nodup
      rw [hab, List.nodup_append] at hnd
      exact fun hrp => hnd.2.2 rp hrp rp (by simp) rfl
    rw [hx, htail]
    refine ⟨_, rfl, iff_of_false ?_ fun e => hyrp (Option.some.inj e)⟩
    rintro ⟨rq', h'⟩
    have hyc := h.queues.cls _ y hy
    obtain ⟨hyi, hyh, -⟩ := isuserp_ne (isuserp_of_queueOf hu hyc)
    have hmem : y ∈ rq' (queueOf s y) := h'.mem y hyi hyh (h.zero _ y hy)
    rw [hyc] at hmem
    have hchain' := h'.queues.chains.chain (queueOf s rp)
    rw [hab] at hchain
    obtain ⟨q, ha, hq⟩ := chain_append.mp hchain
    have hcut : Chain (Function.update (Function.update s.p_nextready y (some rp)) rp none)
        (s.rdy_head (queueOf s rp)) (a ++ [rp]) none := by
      refine chain_append.mpr ⟨q, (ha.update hya _).update hrpa _, hq.1, ?_⟩
      rw [Function.update_self]
      exact chain_nil.mpr rfl
    rw [hchain'.unique hcut] at hmem
    rcases List.mem_append.mp hmem with hmem | hmem
    · exact hya hmem
    · exact hyrp (List.mem_singleton.mp hmem)

/-- A process is resumed. It is made ready if no flag is left, whether it was ready before or not.
-/
theorem resume_spec (h : ReadyInv s rq) (hu : isuserp rp = true) :
    ∃ s', unblock s rp P_STOP = some s' ∧
      (ReadyOk s' ↔ (s.p_flags rp = PFlags.zero → s.rdy_tail (queueOf s rp) = some rp)) := by
  by_cases h0 : s.p_flags rp = PFlags.zero
  · have hsame : s.setFlags rp ((s.p_flags rp).clear P_STOP) = s := by
      have hclear : (s.p_flags rp).clear P_STOP = s.p_flags rp := by
        rw [h0]
        decide
      unfold State.setFlags
      rw [hclear, Function.update_eq_self]
    obtain ⟨s', hs', hok⟩ := ready_again h hu h0
    refine ⟨s', ?_, hok.trans ⟨fun ht _ => ht, fun ht => ht h0⟩⟩
    unfold unblock
    rw [hsame]
    exact (if_pos h0).trans hs'
  · have hsig : ((s.p_flags rp).clear P_STOP).pending → ((s.p_flags rp).clear P_STOP).sigPending := by
      have := h.sig rp
      simpa [PFlags.clear, P_STOP, PFlags.zero] using this
    obtain ⟨s', hs', hok, -⟩ := unblock_spec h h0 hsig
    exact ⟨s', hs', iff_of_true hok fun e => absurd e h0⟩

/-- A process is stopped. It is taken off its queue, if it is there. -/
theorem stop_spec (h : ReadyInv s rq) :
    ∃ s', unready s rp = some s' ∧ ReadyOk (s'.setFlags rp ((s'.p_flags rp).or P_STOP)) := by
  obtain ⟨s', hs', hq, -⟩ := unready_spec h.queues rp
  have hre : Resched s s' := removeReady_resched (unready_eq s rp ▸ hs')
  have hne : (s'.p_flags rp).or P_STOP ≠ PFlags.zero := by
    intro e
    have := congrArg PFlags.stop e
    simp [PFlags.or, P_STOP, PFlags.zero] at this
  have hsig : ((s'.p_flags rp).or P_STOP).pending → ((s'.p_flags rp).or P_STOP).sigPending := by
    have := h.sig rp
    rw [hre.flags]
    simpa [PFlags.or, P_STOP, PFlags.zero] using this
  exact ⟨s', hs', h.setFirst hre hq hne hsig⟩

end Queue

/-! ## The requests -/

/-- What is set in the memory of the process leaves the kernel's variables alone, or hits them. -/
theorem traceSet_ready {seg : Seg} (h : ReadyOk t.m.k) :
    (∃ r v t', traceSet l t rp seg addr data = some (r, v, t') ∧ ReadyOk t'.m.k) ↔
      t.umapLong rp seg addr = 0 ∨ l.hits (t.umapLong rp seg addr) = false := by
  unfold traceSet
  dsimp only
  split_ifs with h0 hhit
  · exact iff_of_true ⟨_, _, _, rfl, h⟩ (Or.inl h0)
  · refine iff_of_false ?_ ?_
    · rintro ⟨_, _, _, e, -⟩
      cases e
    · exact not_or.mpr ⟨h0, by simp [hhit]⟩
  · exact iff_of_true ⟨_, _, _, rfl, h⟩ (Or.inr (by simpa using hhit))

/-- A register is set, or something else. -/
theorem traceSetReg_ready (h : ReadyOk t.m.k) :
    (∃ r v t', traceSetReg t rp addr data = some (r, v, t') ∧ ReadyOk t'.m.k) ↔
      refusesOffset addr SIZEOF_STACKFRAME = true ∨ 0 ≤ intOf addr ∧ intOf addr ≤ PSW_OFFSET := by
  unfold traceSetReg
  dsimp only
  split_ifs with hrefuse hpsw hreg
  · exact iff_of_true ⟨_, _, _, rfl, h⟩ (Or.inl hrefuse)
  · refine iff_of_true ⟨_, _, _, rfl, h⟩ (Or.inr ?_)
    rw [hpsw]
    decide
  · refine iff_of_true ⟨_, _, _, rfl, h⟩ (Or.inr ⟨hreg.1, ?_⟩)
    unfold PSW_OFFSET
    omega
  · refine iff_of_false ?_ ?_
    · rintro ⟨_, _, _, e, -⟩
      cases e
    · rintro (hr | ⟨hpos, hle⟩)
      · exact hrefuse hr
      · unfold PSW_OFFSET at hpsw hle
        exact hreg ⟨hpos, by omega⟩

/-- After a request for a user process the ready queues are in order exactly when the request was a
careful one. -/
theorem doTrace_ready (h : ReadyOk t.m.k) (hu : isuserp rp = true) :
    (∃ r v t', doTrace l t rp request addr data = some (r, v, t') ∧ ReadyOk t'.m.k) ↔
      Careful l t rp request addr := by
  obtain ⟨rq, hrq⟩ := h
  have h : ReadyOk t.m.k := ⟨rq, hrq⟩
  unfold doTrace Careful
  by_cases hfree : (t.m.k.p_flags rp).slotFree = true
  · rw [if_pos hfree]
    exact iff_of_true ⟨_, _, _, rfl, h⟩ (Or.inl hfree)
  · rw [if_neg hfree, or_iff_right hfree]
    -- What only looks at the process.
    have hget : ∀ seg, ∃ r v t', some (traceGet t rp seg addr data) = some (r, v, t') ∧
        ReadyOk t'.m.k := by
      intro seg
      unfold traceGet
      dsimp only
      split_ifs
      · exact ⟨_, _, _, rfl, h⟩
      · exact ⟨_, _, _, rfl, h⟩
    -- What resumes it, whether it is to be traced step by step or not.
    obtain ⟨k, hk, hok⟩ := resume_spec hrq hu
    have hresume : ∀ psw, (∃ r v t',
        some (OK, (0 : VirBytes), (Traced.mk t.m t.p_reg psw).setKernel k) = some (r, v, t') ∧
          ReadyOk t'.m.k) ↔ ReadyOk k := by
      intro psw
      constructor
      · rintro ⟨_, _, _, e, hk⟩
        cases e
        exact hk
      · exact fun hk => ⟨_, _, _, rfl, hk⟩
    split
    · have hstop : ∃ k, unready t.m.k rp = some k ∧
          ReadyOk (k.setFlags rp ((k.p_flags rp).or P_STOP)) := stop_spec hrq
      obtain ⟨k, hk, hok⟩ := hstop
      rw [hk]
      exact iff_of_true ⟨_, _, _, rfl, hok⟩ trivial
    · exact iff_of_true (hget _) trivial
    · exact iff_of_true (hget _) trivial
    · refine iff_of_true ?_ trivial
      split_ifs
      · exact ⟨_, _, _, rfl, h⟩
      · exact ⟨_, _, _, rfl, h⟩
    · exact traceSet_ready h
    · exact traceSet_ready h
    · exact traceSetReg_ready h
    · rw [hk]
      exact (hresume _).trans hok
    · dsimp only
      rw [hk]
      exact (hresume _).trans hok
    · refine iff_of_true ⟨_, _, _, rfl, h⟩ ?_
      split <;> trivial

/-- A process that the kernel has stopped may be resumed. -/
theorem careful_of_stop (h : (t.m.k.p_flags rp).stop = true) :
    Careful l t rp 7 addr ∧ Careful l t rp 9 addr := by
  have hne : t.m.k.p_flags rp ≠ PFlags.zero := by
    intro e
    rw [e] at h
    cases h
  exact ⟨Or.inr fun e => absurd e hne, Or.inr fun e => absurd e hne⟩

/-! ## Runs of requests -/

/-- The kernel, and the memory manager's table. -/
structure Tracing where
  kernel : Traced
  mm : Mm.MState

/-- The entry of `proc[]` of a process of the memory manager's table. -/
def slotOf (n : Mm.ProcNr) : Slot := ⟨NR_TASKS + n.val, slot_lt n⟩

/-- The memory manager forwards the request for a child, with which it is still stopped. -/
structure Forwards (mm : Mm.MState) (request pid data : ℤ) (child : Mm.ProcNr) : Prop where
  /-- The first enables tracing, and the other ends the process. -/
  asks : request ≠ 0 ∧ request ≠ 8
  found : Mm.findproc mm pid = some child
  stopped : (mm.flags child).STOPPED = true
  signal : request = 7 → data ≤ Mm.NSIG

/-- What happens while processes are traced. -/
inductive TraceAct
  | ptrace (who : Mm.ProcNr) (request pid : ℤ) (addr data : VirBytes)
  | stop (child : Mm.ProcNr) (sig_nr : ℕ)
  | other

/-- A request of a tracer, which is made in the state in which the system task gets it; a signal for
a traced process; or anything else, that leaves the ready queues in order. -/
inductive TraceStep (l : Layout) : Tracing → TraceAct → Tracing → Prop
  | ptrace {t : Tracing} {who child : Mm.ProcNr} {request pid r reply : ℤ} {addr data v : VirBytes}
      {outside : Mm.Outside} {k : Traced} {mm : Mm.MState}
      (hforward : Forwards t.mm request pid data.toInt child)
      (hk : doTrace l t.kernel (slotOf child) request addr data = some (r, v, k))
      (hmm : Mm.doTrace { outside with trace := r } t.mm who request pid data.toInt =
        some (reply, mm)) :
      TraceStep l t (.ptrace who request pid addr data) ⟨k, mm⟩
  | stop {t : Tracing} {child : Mm.ProcNr} {sig_nr : ℕ} {r : ℤ} {v : VirBytes}
      {outside : Mm.Outside} {k : Traced} (huser : isuserp (slotOf child) = true)
      (hk : doTrace l t.kernel (slotOf child) (-1) 0 0 = some (r, v, k)) :
      TraceStep l t (.stop child sig_nr)
        ⟨k, Mm.stopProc { outside with stops := fun _ _ => r = OK } t.mm child sig_nr⟩
  | other {t t' : Tracing} (h : ReadyOk t'.kernel.m.k) : TraceStep l t .other t'

/-- A request is made only when it does no harm. -/
def CarefulAct (l : Layout) (t : Tracing) : TraceAct → Prop
  | .ptrace _ request pid addr _ => ∀ child, Mm.findproc t.mm pid = some child →
    Careful l t.kernel (slotOf child) request addr
  | _ => True

section Runs

variable {t₀ t t' : Tracing} {a : TraceAct} {as : List TraceAct} {child : Mm.ProcNr}

/-- Processes that are found are users. -/
theorem isuserp_of_findproc {mm : Mm.MState} {pid : ℤ} (h : Mm.findproc mm pid = some child) :
    isuserp (slotOf child) = true := by
  have hall : ∀ n ∈ Mm.mprocs.drop (Mm.INIT_PROC_NR + 1), isuserp (slotOf n) = true := by decide
  exact hall child (List.mem_of_find?_eq_some h)

/-- A step that does no harm keeps the ready queues in order. -/
theorem TraceStep.ready (h : TraceStep l t a t') (hc : CarefulAct l t a)
    (hready : ReadyOk t.kernel.m.k) : ReadyOk t'.kernel.m.k := by
  cases h with
  | ptrace hforward hk _ =>
    have huser := isuserp_of_findproc hforward.found
    obtain ⟨_, _, k, hk', hok⟩ := (doTrace_ready hready huser).mpr (hc _ hforward.found)
    cases hk.symm.trans hk'
    exact hok
  | @stop child _ _ _ _ _ huser hk =>
    have hstop : (∃ r v k, doTrace l t.kernel (slotOf child) (-1) 0 0 = some (r, v, k) ∧
        ReadyOk k.m.k) ↔ Careful l t.kernel (slotOf child) (-1) 0 := doTrace_ready hready huser
    obtain ⟨_, _, k, hk', hok⟩ := hstop.mpr (Or.inr trivial)
    cases hk.symm.trans hk'
    exact hok
  | other h => exact h

/-- In every run whose requests are careful ones the ready queues stay in order: a process is in its
queue exactly when it has no flags, and once. They are in order after the next request that is
forwarded exactly when it is a careful one, too. -/
theorem trace_queues (h₀ : ReadyOk t₀.kernel.m.k)
    (h : Run (fun t a t' => TraceStep l t a t' ∧ CarefulAct l t a) t₀ as t) :
    ReadyOk t.kernel.m.k ∧
      ∀ request pid addr data child, Forwards t.mm request pid data.toInt child →
        ((∃ r v k, doTrace l t.kernel (slotOf child) request addr data = some (r, v, k) ∧
            ReadyOk k.m.k) ↔
          Careful l t.kernel (slotOf child) request addr) := by
  have hready : ReadyOk t.kernel.m.k :=
    h.invariant (P := fun t => ReadyOk t.kernel.m.k) h₀ fun _ _ _ hP hst => hst.1.ready hst.2 hP
  exact ⟨hready, fun _ _ _ _ _ hforward =>
    doTrace_ready hready (isuserp_of_findproc hforward.found)⟩

/-- Nothing that is set is one of the kernel's variables. -/
def plainLayout : Layout := ⟨fun _ => false, fun _ _ _ => 0⟩

/-- Two processes that are stopped. -/
def stoppedState : State :=
  { zeroState with p_flags := fun p => if p = 12 ∨ p = 13 then P_STOP else SLOT_FREE }

/-- The two children of the first user process, with the ids 10 and 11. -/
def stoppedTable : Mm.MState :=
  let mm := Mm.mmInit fun _ => (⟨0, 0, 0⟩, ⟨0, 0, 0⟩, ⟨0, 0, 0⟩)
  let child (n : Mm.ProcNr) (pid : ℕ) (mm : Mm.MState) := mm.set n fun p => { p with
    mp_pid := pid
    mp_parent := Mm.INIT_PROC_NR
    mp_flags := { p.mp_flags with
      IN_USE := true
      TRACED := true
      STOPPED := true } }
  child 3 10 (child 4 11 mm)

/-- Two children are stopped. -/
def stoppedChildren : Tracing where
  kernel :=
    { m :=
        { k := stoppedState
          text := fun _ => ⟨0, 0, 0⟩
          stack := fun _ => ⟨0, 0, 0⟩
          p_physio := fun _ => false
          flipwait := 0
          core := fun _ _ => 0 }
      p_reg := fun _ _ => 0
      psw := fun _ => 0 }
  mm := stoppedTable

theorem stoppedChildren_ready : ReadyOk stoppedChildren.kernel.m.k := by
  have hnone : ∀ p, stoppedState.p_flags p ≠ PFlags.zero ∧
      (stoppedState.p_flags p).pending = false := by decide
  refine ⟨fun _ => [], ⟨⟨fun _ => rfl, ?_⟩, ?_, ?_⟩, ?_, fun p _ _ h0 => absurd h0 (hnone p).1,
    fun p hp => ?_⟩
  · intro _ _ _ hx
    cases hx
  · intro _ a _ e
    simp at e
  · intro _ _ hx
    cases hx
  · intro _ _ hx
    cases hx
  · rw [show (stoppedChildren.kernel.m.k.p_flags p).pending = false from (hnone p).2] at hp
    cases hp

/-- Request 9 does not change the memory manager's table. -/
theorem step_forwarded {pid : ℤ} (hchild : Mm.findproc stoppedTable pid = some child)
    (hstopped : (stoppedTable.flags child).STOPPED = true) (k k' : Traced) {r : ℤ} {v : VirBytes}
    (hk : doTrace plainLayout k (slotOf child) 9 0 0 = some (r, v, k')) :
    TraceStep plainLayout ⟨k, stoppedTable⟩ (.ptrace 2 9 pid 0 0) ⟨k', stoppedTable⟩ := by
  have outside : Mm.Outside := ⟨true, fun _ _ => 0, fun _ _ => true, fun _ _ => true, 0, 0⟩
  refine .ptrace ⟨by decide, hchild, hstopped, by decide⟩ hk
    (show Mm.doTrace { outside with trace := r } stoppedTable 2 9 pid _ = some (r, stoppedTable) from ?_)
  unfold Mm.doTrace
  rw [if_neg (by decide), hchild]
  unfold Mm.traceChild
  dsimp only
  rw [if_neg (by rw [hstopped]; decide), if_neg (by decide), if_neg (by decide)]

theorem stoppedTable_found : Mm.findproc stoppedTable 10 = some 3 ∧
    (stoppedTable.flags 3).STOPPED = true ∧ Mm.findproc stoppedTable 11 = some 4 ∧
    (stoppedTable.flags 4).STOPPED = true := by
  decide

/-- A child is stepped, and then the other, which is careful. -/
theorem trace_queues_step : ∃ t,
    Run (fun t a t' => TraceStep plainLayout t a t' ∧ CarefulAct plainLayout t a) stoppedChildren
      [.ptrace 2 9 10 0 0] t ∧ ReadyOk t.kernel.m.k ∧
    ∃ r v k, doTrace plainLayout t.kernel (slotOf 4) 9 0 0 = some (r, v, k) ∧ ReadyOk k.m.k := by
  obtain ⟨hfound, hstopped, hfound', hstopped'⟩ := stoppedTable_found
  have hchild : ∃ q, doTrace plainLayout stoppedChildren.kernel (slotOf 3) 9 0 0 = some q ∧
      q.2.2.m.k.p_flags 13 = P_STOP := by
    refine Option.map_eq_some_iff.mp (show (doTrace plainLayout stoppedChildren.kernel (slotOf 3)
      9 0 0).map (fun q => q.2.2.m.k.p_flags 13) = some P_STOP from ?_)
    decide +kernel
  obtain ⟨⟨r, v, k⟩, hk, hother⟩ := hchild
  have hstep : TraceStep plainLayout stoppedChildren (.ptrace 2 9 10 0 0) ⟨k, stoppedTable⟩ :=
    step_forwarded hfound hstopped stoppedChildren.kernel k hk
  have hcareful : CarefulAct plainLayout stoppedChildren (.ptrace 2 9 10 0 0) := by
    intro child hc
    cases hfound.symm.trans hc
    exact (careful_of_stop (by decide)).2
  have hrun : Run (fun t a t' => TraceStep plainLayout t a t' ∧ CarefulAct plainLayout t a)
      stoppedChildren [.ptrace 2 9 10 0 0] ⟨k, stoppedTable⟩ := Run.single ⟨hstep, hcareful⟩
  obtain ⟨hready, hnext⟩ := trace_queues stoppedChildren_ready hrun
  refine ⟨_, hrun, hready, (hnext 9 11 0 0 4 ⟨by decide, hfound', hstopped', by decide⟩).mpr ?_⟩
  have hstop : (k.m.k.p_flags (slotOf 4)).stop = true := by
    rw [show k.m.k.p_flags (slotOf 4) = P_STOP from hother]
    rfl
  exact (careful_of_stop hstop).2

/-- Two children that are stopped are stepped one after the other, and then the first again, which
is ready then: the second has no flags, and is in no queue. -/
theorem trace_drops : ReadyOk stoppedChildren.kernel.m.k ∧ ∃ t,
    Run (TraceStep plainLayout) stoppedChildren
      [.ptrace 2 9 10 0 0, .ptrace 2 9 11 0 0, .ptrace 2 9 10 0 0] t ∧
    t.kernel.m.k.p_flags 13 = PFlags.zero ∧ ¬ReadyOk t.kernel.m.k := by
  obtain ⟨hfound, hstopped, hfound', hstopped'⟩ := stoppedTable_found
  have hrun : ((doTrace plainLayout stoppedChildren.kernel (slotOf 3) 9 0 0).bind fun q =>
      (doTrace plainLayout q.2.2 (slotOf 4) 9 0 0).bind fun q' =>
      (doTrace plainLayout q'.2.2 (slotOf 3) 9 0 0).map fun q'' =>
        decide (q''.2.2.m.k.p_flags 13 = PFlags.zero ∧ queueOf q''.2.2.m.k 13 = .USER_Q ∧
          q''.2.2.m.k.rdy_head .USER_Q = some 12 ∧ q''.2.2.m.k.p_nextready 12 = none)) =
      some true := by
    decide +kernel
  obtain ⟨⟨r₁, v₁, k₁⟩, h₁, hrun⟩ := Option.bind_eq_some_iff.mp hrun
  obtain ⟨⟨r₂, v₂, k₂⟩, h₂, hrun⟩ := Option.bind_eq_some_iff.mp hrun
  obtain ⟨⟨r₃, v₃, k₃⟩, h₃, hrun⟩ := Option.map_eq_some_iff.mp hrun
  obtain ⟨hzero, hqueue, hhead, hnext⟩ := of_decide_eq_true hrun
  have s₁ := step_forwarded hfound hstopped _ _ h₁
  have s₂ := step_forwarded hfound' hstopped' _ _ h₂
  have s₃ := step_forwarded hfound hstopped _ _ h₃
  have s₁ : TraceStep plainLayout stoppedChildren _ _ := s₁
  refine ⟨stoppedChildren_ready, ⟨k₃, stoppedTable⟩, ((Run.single s₁).snoc s₂).snoc s₃, hzero, ?_⟩
  rintro ⟨rq, h⟩
  have hmem := h.mem 13 (by decide) (by decide) hzero
  have hmem : 13 ∈ rq .USER_Q := hqueue ▸ hmem
  have hchain := h.queues.chains.chain .USER_Q
  have hone : Chain k₃.m.k.p_nextready (k₃.m.k.rdy_head .USER_Q) [12] none := ⟨hhead, hnext⟩
  rw [hchain.unique hone] at hmem
  exact absurd hmem (by decide)

end Runs

end Minix.Kernel
