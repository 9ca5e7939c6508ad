import Mathlib.Data.Fintype.Basic
import Mathlib.Logic.Function.Basic
import Minix.Kernel.Proc
import Minix.Lib.Indices

/-!
# The memory manager's process table

The data of `mm/mproc.h` and `mm/glo.h`. A pointer into `mproc[]` is a `ProcNr`. What the kernel and
the file system answer while a call is executed is given with the call (`Outside`). Two fields are
not variables of the memory manager, but record what it tells others, newest first: `log` has the
forks and the exits, and `replies` the replies.
-/

namespace Minix.Mm

open Kernel (NR_PROCS)

/-- The address of an entry of `mproc[]`, which is also the number of the process. -/
abbrev ProcNr := Fin NR_PROCS

/-- The memory manager itself. -/
abbrev MM_PROC_NR : ProcNr := 0

/-- The file system. -/
abbrev FS_PROC_NR : ProcNr := 1

/-- The process that goes multiuser. -/
abbrev INIT_PROC_NR : ProcNr := 2

/-- The process id of `INIT`. -/
def INIT_PID : ℕ := 1

/-- The user id that may signal everybody. -/
def SUPER_USER : ℕ := 0

/-- The replies, as `errno.h` has them for the system. -/
def OK : ℤ := 0
def EPERM : ℤ := -1
def ESRCH : ℤ := -3
def EINTR : ℤ := -4
def EIO : ℤ := -5
def ECHILD : ℤ := -10
def EAGAIN : ℤ := -11
def EINVAL : ℤ := -22

/-- Number of signals. -/
def NSIG : ℕ := 16

/-- The signals that the memory manager treats in their own way. -/
def SIGINT : ℕ := 2
def SIGQUIT : ℕ := 3
def SIGKILL : ℕ := 9
def SIGSEGV : ℕ := 11
def SIGALRM : ℕ := 14
def SIGSTKFLT : ℕ := 16

/-- A value of type `unshort`, `vir_clicks` or `phys_clicks`. -/
def u16 (n : ℤ) : ℕ := (n % 2 ^ 16).toNat

/-- A segment of memory. -/
structure MemMap where
  mem_vir : ℕ
  mem_phys : ℕ
  mem_len : ℕ
  deriving DecidableEq, Repr

/-- The flag values. -/
structure MFlags where
  IN_USE : Bool
  WAITING : Bool
  HANGING : Bool
  PAUSED : Bool
  ALARM_ON : Bool
  SEPARATE : Bool
  TRACED : Bool
  STOPPED : Bool
  deriving DecidableEq, Repr

/-- No flags. -/
def MFlags.zero : MFlags := ⟨false, false, false, false, false, false, false, false⟩

/-- An entry of `mproc[]`. The bit maps of signals have the bit `sig - 1` for the signal `sig`. -/
structure MProc where
  segT : MemMap
  segD : MemMap
  segS : MemMap
  mp_exitstatus : ℕ
  mp_sigstatus : ℕ
  mp_pid : ℕ
  mp_parent : ProcNr
  mp_procgrp : ℕ
  mp_realuid : ℕ
  mp_effuid : ℕ
  mp_ignore : ℕ
  mp_catch : ℕ
  mp_func : ℕ
  mp_flags : MFlags
  deriving DecidableEq, Repr

/-- The steps of `mm_exit` that must not be made twice. -/
inductive ExitStep
  | mmExit
  | sysXit
  | freeMem
  deriving DecidableEq, Repr

/-- What is recorded of a process. -/
inductive MmEvent
  /-- The process was created. -/
  | fork (child : ProcNr)
  /-- A step of `mm_exit` was made for the process. -/
  | exit (proc : ProcNr) (step : ExitStep)
  deriving DecidableEq, Repr

/-- The variables of the memory manager. -/
structure MState where
  mproc : ProcNr → MProc
  procs_in_use : ℤ
  next_pid : ℕ
  dont_reply : Bool
  log : List MmEvent
  replies : List (ProcNr × ℤ × ℤ)

/-- What others answer while a call is executed. The signal is that for which they are asked. -/
structure Outside where
  /-- `alloc_mem` has got memory for a child. -/
  memory : Bool
  /-- The stack pointer that `sys_getsp` reports. -/
  sp : ProcNr → ℕ → ℕ
  /-- The request to stop the process is accepted. -/
  stops : ProcNr → ℕ → Bool
  /-- The file system lets the process dump core. -/
  dumps : ProcNr → ℕ → Bool
  /-- The seconds that were left on the timer. -/
  seconds_left : ℤ
  /-- What `sys_trace` returns for a request to the tracer. -/
  trace : ℤ

/-- A record of what happened. -/
def MState.record (s : MState) (e : MmEvent) : MState := { s with log := e :: s.log }

/-- An assignment to fields of an entry. -/
def MState.set (s : MState) (n : ProcNr) (f : MProc → MProc) : MState :=
  { s with mproc := Function.update s.mproc n (f (s.mproc n)) }

/-- An assignment to flags of an entry. -/
def MState.setFlags (s : MState) (n : ProcNr) (f : MFlags → MFlags) : MState :=
  s.set n fun p => { p with mp_flags := f p.mp_flags }

/-- The flags of a process. -/
def MState.flags (s : MState) (n : ProcNr) : MFlags := (s.mproc n).mp_flags

/-- `(map >> (sig_nr - 1)) & 1`. -/
def hasSig (map sig_nr : ℕ) : Bool := map.testBit (sig_nr - 1)

/-- `map | mask`, for the mask of a signal. -/
def setSig (map sig_nr : ℕ) : ℕ := map ||| 1 <<< (sig_nr - 1)

/-- `map & ~mask`, for the mask of a signal. -/
def clearSig (map sig_nr : ℕ) : ℕ := map &&& (0xFFFF ^^^ 1 <<< (sig_nr - 1))

/-- Send a reply to a user process, if it is still alive. -/
def reply (s : MState) (proc_nr : ProcNr) (result res2 : ℤ) : MState :=
  if (s.flags proc_nr).IN_USE = false ∨ (s.flags proc_nr).HANGING = true then s
  else { s with replies := (proc_nr, result, res2) :: s.replies }

/-- Start or stop the timer of a process, which is up to the clock. -/
def setAlarm (s : MState) (proc_nr : ProcNr) (sec : ℕ) : MState :=
  s.setFlags proc_nr fun f => { f with ALARM_ON := sec != 0 }

/-- Initialize the tables, the segments of `INIT` aside, which the file system reports. -/
def mmInit (seg : ProcNr → MemMap × MemMap × MemMap) : MState where
  mproc n :=
    { segT := (seg n).1
      segD := (seg n).2.1
      segS := (seg n).2.2
      mp_exitstatus := 0
      mp_sigstatus := 0
      mp_pid := if n = INIT_PROC_NR then INIT_PID else 0
      mp_parent := 0
      mp_procgrp := 0
      mp_realuid := 0
      mp_effuid := 0
      mp_ignore := 0
      mp_catch := 0
      mp_func := 0
      mp_flags := { MFlags.zero with
        IN_USE := n == MM_PROC_NR || n == FS_PROC_NR || n == INIT_PROC_NR } }
  procs_in_use := 3
  next_pid := INIT_PID + 1
  dont_reply := false
  log := []
  replies := []

end Minix.Mm
