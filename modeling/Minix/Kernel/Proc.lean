import Mathlib.Data.Fintype.Card
import Mathlib.Logic.Function.Basic
import Minix.Lib.Indices
import Minix.Lib.Rendezvous

/-!
# The kernel's process table

The data of `kernel/proc.h` and `kernel/glo.h` that process switching and message passing read and
write, in the configuration of `include/minix/config.h` (`MACHINE == ATARI`, so `CHIP == M68000`).
The table `proc[]` is kept field by field: `s.p_flags rp` is `rp->p_flags`. A pointer into the table
is a `Slot`, the nil pointer is `none`, and the flag bits of `p_flags` are the fields of `PFlags`.

Memory holds messages at physical addresses. `log` is the one field that the kernel does not have:
it records the calls and the copies of messages in the order in which they were made.
-/

namespace Minix.Kernel

/-- Number of tasks in the transfer vector. -/
abbrev NR_TASKS : ℕ := 9

/-- Number of slots for servers and users. -/
abbrev NR_PROCS : ℕ := 32

/-- First user process that is not part of the operating system. -/
abbrev LOW_USER : ℕ := 2

/-- The address of an entry of `proc[]`. -/
abbrev Slot := Fin (NR_TASKS + NR_PROCS)

theorem slot_lt (n : Fin NR_PROCS) : NR_TASKS + n.val < NR_TASKS + NR_PROCS :=
  Nat.add_lt_add_left n.isLt NR_TASKS

/-- `proc_number(p)`, the number of a process: tasks have negative numbers. -/
def procNumber (p : Slot) : ℤ := (p.val : ℤ) - NR_TASKS

/-- `receive(ANY, buf)` accepts from any source. -/
def ANY : ℤ := NR_PROCS + 100

/-- Source of the messages that interrupts generate. -/
def HARDWARE : ℤ := -1

/-- The task that runs when there is nothing to run. -/
def IDLE : ℤ := -8

/-- The memory manager. -/
def MM_PROC_NR : ℤ := 0

/-- Type of the message that an interrupt generates. -/
def HARD_INT : ℤ := 2

/-- Type of the message that tells the memory manager about signals. -/
def KSIG : ℤ := 64

/-- The pseudo-signal of a stack fault. -/
def SIGSTKFLT : ℕ := 16

/-- `isokprocn(n)`: the number is that of an entry of the table. -/
def isokprocn (n : ℤ) : Bool := -(NR_TASKS : ℤ) ≤ n && n < NR_PROCS

/-- `isoksrc_dest(n)`. -/
def isoksrcDest (n : ℤ) : Bool := isokprocn n || n == ANY

/-- `isrxhardware(n)`: a process that receives from `n` accepts an interrupt's message. -/
def isrxhardware (n : ℤ) : Bool := n == ANY || n == HARDWARE

/-- `isservn(n)`: the number of a server. -/
def isservn (n : ℤ) : Bool := 0 ≤ n && n < LOW_USER

/-- `proc_addr(n)`, where the number is that of an entry; an address outside the table is `none`. -/
def procAddr (n : ℤ) : Option Slot :=
  if h : 0 ≤ n + NR_TASKS ∧ n + NR_TASKS < (NR_TASKS + NR_PROCS : ℕ) then
    some ⟨(n + NR_TASKS).toNat, by omega⟩
  else none

/-- The entry of the idle task. -/
def idleSlot : Slot := ⟨1, by decide⟩

/-- The entry that stands for the hardware. -/
def hardwareSlot : Slot := ⟨8, by decide⟩

/-- The entry of the memory manager. -/
def mmSlot : Slot := ⟨9, by decide⟩

/-- `istaskp(p)`: below the servers, and not the idle task. -/
def istaskp (p : Slot) : Bool := p.val < NR_TASKS && p != idleSlot

/-- `isuserp(p)`. -/
def isuserp (p : Slot) : Bool := NR_TASKS + LOW_USER ≤ p.val

/-- The bits of `p_flags`. A process is runnable when none is set. -/
structure PFlags where
  /-- `P_SLOT_FREE`: the slot is not in use. -/
  slotFree : Bool
  /-- `NO_MAP`: keeps an unmapped forked child from running. -/
  noMap : Bool
  /-- `SENDING`: the process is blocked trying to send. -/
  sending : Bool
  /-- `RECEIVING`: the process is blocked trying to receive. -/
  receiving : Bool
  /-- `PENDING`: `inform()` of a signal is pending. -/
  pending : Bool
  /-- `SIG_PENDING`: keeps a process that is to be signalled from running. -/
  sigPending : Bool
  /-- `P_STOP`: the process is being traced. -/
  stop : Bool
  deriving DecidableEq

/-- `p_flags == 0`. -/
def PFlags.zero : PFlags := ⟨false, false, false, false, false, false, false⟩

/-- `f | g`. -/
def PFlags.or (f g : PFlags) : PFlags :=
  ⟨f.slotFree || g.slotFree, f.noMap || g.noMap, f.sending || g.sending,
    f.receiving || g.receiving, f.pending || g.pending, f.sigPending || g.sigPending,
    f.stop || g.stop⟩

/-- `f & ~g`. -/
def PFlags.clear (f g : PFlags) : PFlags :=
  ⟨f.slotFree && !g.slotFree, f.noMap && !g.noMap, f.sending && !g.sending,
    f.receiving && !g.receiving, f.pending && !g.pending, f.sigPending && !g.sigPending,
    f.stop && !g.stop⟩

/-- The data segment's entry `p_map[D]` of a memory map, in clicks. -/
structure MemMap where
  /-- Virtual address. -/
  mem_vir : ℕ
  /-- Physical address. -/
  mem_phys : ℕ
  /-- Length. -/
  mem_len : ℕ
  deriving DecidableEq

/-- A message: its source, its type, and the words of the union `m_u`. -/
structure Message where
  m_source : ℤ
  m_type : ℤ
  m_u : Fin 11 → ℤ

/-- Where a message lies, in bytes. -/
abbrev Addr := ℕ

/-- The ready queues. -/
inductive Queue
  /-- Ready tasks. -/
  | TASK_Q
  /-- Ready servers. -/
  | SERVER_Q
  /-- Ready users. -/
  | USER_Q
  /-- Runnable, but shadowed processes. -/
  | SHADOW_Q
  deriving DecidableEq

/-- What the log records: a message that `mini_send` accepted, a call of `mini_rec`, a message that
`CopyMess` copied, and an interrupt's message that was put in a task's buffer. -/
abbrev Event := Lib.Rendezvous.Event Slot Addr ℤ Message

/-- The kernel's state. -/
structure State where
  p_flags : Slot → PFlags
  p_map : Slot → MemMap
  p_shadow : Slot → ℕ
  p_int_blocked : Slot → Bool
  p_int_held : Slot → Bool
  p_nextheld : Slot → Option Slot
  p_callerq : Slot → Option Slot
  p_sendlink : Slot → Option Slot
  p_messbuf : Slot → Addr
  p_getfrom : Slot → ℤ
  p_nextready : Slot → Option Slot
  p_pending : Slot → BitVec 16
  p_pendcount : Slot → ℕ
  rdy_head : Queue → Option Slot
  rdy_tail : Queue → Option Slot
  proc_ptr : Slot
  bill_ptr : Slot
  held_head : Option Slot
  held_tail : Option Slot
  sig_procs : ℤ
  /-- The address of the message `m` of `system.c`. -/
  sys_m : Addr
  mem : Addr → Message
  log : List Event

/-- `rp->p_flags = f`. -/
def State.setFlags (s : State) (rp : Slot) (f : PFlags) : State :=
  { s with p_flags := Function.update s.p_flags rp f }

/-- The flags that were set. -/
@[simp]
theorem State.setFlags_self (s : State) (rp : Slot) (f : PFlags) :
    (s.setFlags rp f).p_flags rp = f := Function.update_self ..

/-- The flags of the others stay. -/
theorem State.setFlags_of_ne (s : State) {p rp : Slot} (f : PFlags) (h : p ≠ rp) :
    (s.setFlags rp f).p_flags p = s.p_flags p := Function.update_of_ne h ..

/-- No walk over the table takes this many turns, unless it goes round in a circle. -/
def fuel : ℕ := NR_TASKS + NR_PROCS + 1

/-- `isshadowp(p)`. -/
def isshadowp (s : State) (p : Slot) : Bool := s.p_shadow p != 0

section Numbers

variable {p x : Slot}

/-- Processes have different numbers. -/
theorem procNumber_inj : procNumber p = procNumber x ↔ p = x := by
  unfold procNumber
  rw [Fin.ext_iff]
  omega

/-- No process has the number `ANY`. -/
theorem procNumber_ne_any (p : Slot) : procNumber p ≠ ANY := by
  have := p.isLt
  unfold procNumber ANY
  omega

/-- A number that stands for the hardware, and is a process', is its entry's. -/
theorem isrxhardware_procNumber : isrxhardware (procNumber p) = true ↔ p = hardwareSlot := by
  have hp : p.val < NR_TASKS + NR_PROCS := p.isLt
  unfold isrxhardware procNumber hardwareSlot HARDWARE ANY
  simp only [Bool.or_eq_true, beq_iff_eq, Fin.ext_iff]
  unfold NR_TASKS NR_PROCS at *
  omega

/-- `proc_addr` and `proc_number` are inverse. -/
theorem procAddr_eq_some {n : ℤ} : procAddr n = some p ↔ n = procNumber p := by
  have := p.isLt
  unfold procAddr procNumber
  constructor
  · intro h
    split_ifs at h with hn
    simp only [Option.some.injEq] at h
    have := congrArg Fin.val h
    simp only at this
    omega
  · rintro rfl
    rw [dif_pos (by omega)]
    simp only [Option.some.injEq, Fin.ext_iff]
    omega

end Numbers

end Minix.Kernel
