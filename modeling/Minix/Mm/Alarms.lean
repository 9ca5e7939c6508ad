import Minix.Kernel.Clock
import Minix.Mm.ExitOnce

/-!
# Alarms of the memory manager and of the kernel

An alarm is a time in the kernel's table and a bit in that of the memory manager. The memory manager
deals with one message at a time, and what it asks the kernel for meanwhile is done one request
after the other, while the clock goes on; it is told of signals when it has nothing to do. `Deed` is
what matters of its work: that it acts upon a signal, or asks the kernel for something.

`log` has, newest first, what processes ask for and what is done to them. A `SIGALRM` is owned if
the last that happened to the process is that it asked for an alarm (`Owned`).
-/

namespace Minix.Mm

open Lib
open Kernel (Clock ClockAct ClockStep Slot NR_TASKS)

/-- What the kernel is asked for. -/
inductive KernelCall
  | setAlarm (proc_nr : ProcNr) (delta_ticks : ℤ)
  | sysFork (parent child : ProcNr)
  | sysExec (proc_nr : ProcNr)
  | sysXit (proc_nr : ProcNr)
  deriving DecidableEq

/-- What the memory manager does: it acts upon a `SIGALRM` for a process, or asks the kernel. -/
inductive Deed
  | acts (proc_nr : ProcNr)
  | asks (call : KernelCall)
  deriving DecidableEq

/-- What the kernel is asked for. -/
def Deed.call : Deed → Option KernelCall
  | .acts _ => none
  | .asks call => some call

/-- What `mm_exit` does: a timer that is on is turned off. -/
def exitDeeds (s : MState) (rmp : ProcNr) : List Deed :=
  (if (s.flags rmp).ALARM_ON then [.asks (.setAlarm rmp 0)] else []) ++ [.asks (.sysXit rmp)]

/-- What `sig_proc` does. -/
def sigDeeds (k : Outside) (s : MState) (rmp : ProcNr) (sig_nr : ℕ) : List Deed :=
  if kills k s rmp sig_nr then exitDeeds s rmp else []

/-- What a turn of the loop of `check_sig` does. A `SIGALRM` that is sent is acted upon, be it
ignored or not. -/
def visitDeeds (k : Outside) (mp : ProcNr) (proc_id : ℤ) (sig_nr send_uid : ℕ) (s : MState)
    (rmp : ProcNr) : List Deed :=
  if (s.flags rmp).IN_USE = false ∨ sig_nr = SIGALRM ∧ (s.flags rmp).ALARM_ON = false ∨
      sendSig s mp proc_id sig_nr send_uid rmp = false then []
  else
    (if sig_nr = SIGALRM then [.acts rmp] else []) ++
      if hasSig (s.mproc rmp).mp_ignore sig_nr then []
      else sigDeeds k (alarmGone s rmp sig_nr true) rmp sig_nr

/-- What the loop of `check_sig` does. -/
def checkSigDeeds (k : Outside) (mp : ProcNr) (proc_id : ℤ) (sig_nr send_uid : ℕ) :
    List ProcNr → MState → List Deed
  | [], _ => []
  | rmp :: rest, s =>
    visitDeeds k mp proc_id sig_nr send_uid s rmp ++
      match checkSigProc k mp proc_id sig_nr send_uid s rmp with
      | none => []
      | some (visit, s') =>
        if visit = .sent ∧ 0 < proc_id then [] else checkSigDeeds k mp proc_id sig_nr send_uid rest s'

/-- What the loop of `do_ksig` over the signals does. -/
def ksigDeeds (k : Outside) (proc_id : ℤ) (sig_map : ℕ) : List ℕ → MState → List Deed
  | [], _ => []
  | j :: rest, s =>
    if hasSig sig_map j then
      checkSigDeeds k MM_PROC_NR (ksigId proc_id j) j SUPER_USER userProcs s ++
        match checkSig k s MM_PROC_NR (ksigId proc_id j) j SUPER_USER with
        | none => []
        | some (_, s') => ksigDeeds k proc_id sig_map rest s'
    else ksigDeeds k proc_id sig_map rest s

/-- What a stack fault does: the process exits if the stack cannot grow. -/
def faultDeeds (k : Outside) (s : MState) (proc_nr : ProcNr) : List Deed :=
  let (room, p) := adjust proc_nr (s.mproc proc_nr) (s.mproc proc_nr).segD.mem_len
    (k.sp proc_nr SIGSTKFLT - CLICK_SIZE)
  if room then []
  else sigDeeds k ((s.set proc_nr fun _ => p).set proc_nr fun p => { p with mp_catch := 0 }) proc_nr
    SIGSEGV

/-- What `do_ksig` does. -/
def doKsigDeeds (k : Outside) (s : MState) (proc_nr : ProcNr) (sig_map : ℕ) : List Deed :=
  let s := { s with dont_reply := true }
  if (s.flags proc_nr).IN_USE = false ∨ (s.flags proc_nr).HANGING then []
  else
    let s₀ := s.set MM_PROC_NR fun p => { p with mp_procgrp := (s.mproc proc_nr).mp_procgrp }
    (if sig_map = 1 <<< (SIGSTKFLT - 1) then faultDeeds k s₀ proc_nr else []) ++
      match ksigStart k s proc_nr sig_map with
      | none => []
      | some s₁ => ksigDeeds k (s.mproc proc_nr).mp_pid sig_map ksigs s₁

/-- What `do_kill` does. -/
def killDeeds (k : Outside) (s : MState) (who : ProcNr) (pid kill_sig : ℤ) : List Deed :=
  if kill_sig < 1 ∨ NSIG < kill_sig then []
  else checkSigDeeds k who pid kill_sig.toNat (s.mproc who).mp_effuid userProcs s

/-- What `do_trace` does. -/
def traceDeeds (k : Outside) (s : MState) (request pid data : ℤ) : List Deed :=
  match findproc s pid with
  | none => []
  | some child =>
    if request = 0 ∨ (s.flags child).STOPPED = false then []
    else if request = 8 then exitDeeds s child
    else if request = 7 ∧ 0 < data ∧ data ≤ NSIG then
      sigDeeds k (s.setFlags child fun f => { f with TRACED := false }) child data.toNat
    else []

/-- The slot of the child, if there is one. -/
def forked (s s' : MState) : Option ProcNr :=
  if s'.procs_in_use = s.procs_in_use then none else mprocs.find? fun rmc => !(s.flags rmc).IN_USE

/-- The ticks that are asked for, which are computed as an unsigned number. -/
def alarmTicks (seconds : ℕ) : ℤ := Kernel.HZ * seconds % 2 ^ 16

/-- What the kernel is asked for while a call is executed. -/
def callDeeds (k : Outside) (s s' : MState) (who : ProcNr) : MmCall → List KernelCall
  | .fork => (forked s s').toList.map (.sysFork who)
  | .exit _ => (exitDeeds s who).filterMap Deed.call
  | .kill pid kill_sig => (killDeeds k s who pid kill_sig).filterMap Deed.call
  | .trace request pid data => (traceDeeds k s request pid data).filterMap Deed.call
  | .alarm seconds => [.setAlarm who (alarmTicks seconds)]
  | _ => []

/-- A program that is executed, as far as the process table knows it. -/
structure ExecImage where
  segT : MemMap
  segD : MemMap
  segS : MemMap
  /-- The owner of the file, if the bit is set that makes him the user. -/
  st_uid : Option ℕ
  ft : Bool

/-- `do_exec`, from where it cannot fail any more. -/
def doExec (s : MState) (who : ProcNr) (image : ExecImage) : MState :=
  s.set who fun p =>
    { p with
      segT := image.segT
      segD := image.segD
      segS := image.segS
      mp_effuid := if p.mp_flags.TRACED then p.mp_effuid else image.st_uid.getD p.mp_effuid
      mp_catch := 0
      mp_flags := { p.mp_flags with SEPARATE := image.ft } }

/-! ## The system -/

/-- What happens to alarms. -/
inductive AlarmEvent
  /-- The process calls `alarm`. -/
  | alarm (proc_nr : ProcNr) (seconds : ℕ)
  /-- A `SIGALRM` of the kernel is acted upon for the process. -/
  | acted (proc_nr : ProcNr)
  /-- The process executes a program. -/
  | exec (proc_nr : ProcNr)
  /-- The process is created. -/
  | fork (child : ProcNr)
  deriving DecidableEq

/-- Whom the event is about. -/
def AlarmEvent.proc : AlarmEvent → ProcNr
  | .alarm p _ | .acted p | .exec p | .fork p => p

/-- The memory manager, the clock, the processes for which a `SIGALRM` is pending in the kernel, and
what the memory manager has still to ask for. -/
structure AlarmSys (F : Type) where
  mm : MState
  clock : Clock F
  pending : ProcNr → Bool
  calls : List KernelCall
  log : List AlarmEvent

/-- The kernel's entry of a process. -/
def procAddr (n : ProcNr) : Slot := ⟨NR_TASKS + n.val, Kernel.slot_lt n⟩

/-- What the clock, or the system task, does for a request. -/
def KernelCall.clockAct (F : Type) : KernelCall → ClockAct F
  | .setAlarm proc_nr delta_ticks => .message (.SET_ALARM (procAddr proc_nr) delta_ticks none)
  | .sysFork parent child => .fork (procAddr parent) (procAddr child)
  | .sysExec proc_nr => .exec (procAddr proc_nr)
  | .sysXit proc_nr => .xit (procAddr proc_nr)

/-- The signals that are pending after a request: a new process and one that has exited have none.
-/
def KernelCall.pending (pending : ProcNr → Bool) : KernelCall → ProcNr → Bool
  | .sysFork _ child => Function.update pending child false
  | .sysXit proc_nr => Function.update pending proc_nr false
  | _ => pending

/-- The clock task causes a `SIGALRM` for the process. -/
def ClockEvent.causes {F : Type} (p : ProcNr) : Kernel.ClockEvent F → Bool
  | .causeSig q => q == procAddr p
  | _ => false

/-- The signals that are pending after a step of the clock task. -/
def caused {F : Type} (pending : ProcNr → Bool) (w w' : Clock F) (p : ProcNr) : Bool :=
  pending p || (w'.log.drop w.log.length).any (ClockEvent.causes p)

/-- The event that a deed is. -/
def Deed.event : Deed → Option AlarmEvent
  | .acts proc_nr => some (.acted proc_nr)
  | .asks _ => none

/-- The events that a call is. -/
def callEvents (s s' : MState) (who : ProcNr) : MmCall → List AlarmEvent
  | .alarm seconds => [.alarm who seconds]
  | .fork => (forked s s').toList.map .fork
  | _ => []

/-- The clock task is not asked by the memory manager: tasks ask for alarms of their own. -/
def Elsewhere {F : Type} : ClockAct F → Prop
  | .message (.SET_ALARM proc_nr _ _) => Kernel.istaskp proc_nr = true
  | .fork _ _ | .exec _ | .xit _ => False
  | _ => True

/-- What may happen. -/
inductive AlarmAct (F : Type)
  /-- The memory manager gets a message about a call, or about signals that are pending. -/
  | call (who : ProcNr) (c : MmCall) (k : Outside)
  | exec (who : ProcNr) (image : ExecImage)
  | inform (proc_nr : ProcNr) (sig_map : ℕ) (k : Outside)
  /-- The first of the memory manager's requests is dealt with. -/
  | serve
  /-- The clock task goes on. -/
  | clock (act : ClockAct F)

variable {F : Type}

/-- A step. Neither the memory manager nor the file system make calls to the memory manager, or are
sent signals. -/
inductive AlarmStep (w : AlarmSys F) : AlarmAct F → AlarmSys F → Prop
  | call {who : ProcNr} {c : MmCall} {k : Outside} {s' : MState} (hidle : w.calls = [])
      (huser : INIT_PROC_NR ≤ who) (hst : MmStep w.mm (.call who c k) s') :
      AlarmStep w (.call who c k)
        { w with
          mm := s'
          calls := callDeeds k (newCall w.mm) s' who c
          log := callEvents (newCall w.mm) s' who c ++ w.log }
  | exec {who : ProcNr} {image : ExecImage} (hidle : w.calls = []) (huser : INIT_PROC_NR ≤ who)
      (hlive : w.mm.life who = .live) :
      AlarmStep w (.exec who image)
        { w with mm := doExec w.mm who image, calls := [.sysExec who], log := .exec who :: w.log }
  | inform {proc_nr : ProcNr} {sig_map : ℕ} {k : Outside} {s' : MState} (hidle : w.calls = [])
      (huser : INIT_PROC_NR ≤ proc_nr) (hmap : hasSig sig_map SIGALRM = w.pending proc_nr)
      (hst : MmStep w.mm (.ksig proc_nr sig_map k) s') :
      AlarmStep w (.inform proc_nr sig_map k)
        { w with
          mm := s'
          pending := Function.update w.pending proc_nr false
          calls := (doKsigDeeds k (newCall w.mm) proc_nr sig_map).filterMap Deed.call
          log := ((doKsigDeeds k (newCall w.mm) proc_nr sig_map).filterMap Deed.event).reverse ++
            w.log }
  | serve {c : KernelCall} {calls : List KernelCall} {clock : Clock F} (hcalls : w.calls = c :: calls)
      (hst : ClockStep w.clock (c.clockAct F) clock) :
      AlarmStep w .serve { w with clock := clock, pending := c.pending w.pending, calls := calls }
  | clock {act : ClockAct F} {clock : Clock F} (helse : Elsewhere act)
      (hst : ClockStep w.clock act clock) :
      AlarmStep w (.clock act) { w with clock := clock, pending := caused w.pending w.clock clock }

/-- The variables at the start. -/
structure AlarmBoot (w : AlarmSys F) : Prop where
  mm : MmBoot w.mm
  clock : Kernel.ClockStart w.clock
  pending : w.pending = fun _ => false
  calls : w.calls = []
  log : w.log = []

/-- The last that happened to the process is that it asked for an alarm. -/
def outstanding (p : ProcNr) : List AlarmEvent → Bool
  | [] => false
  | .alarm q seconds :: l => if q = p then seconds != 0 else outstanding p l
  | .acted q :: l | .exec q :: l | .fork q :: l => if q = p then false else outstanding p l

/-- Whenever a `SIGALRM` was acted upon for a process, its own request was outstanding. -/
def Owned (log : List AlarmEvent) : Prop := ∀ p l, .acted p :: l <:+ log → outstanding p l = true

/-- When a process is created, its parent has no alarm, and when one executes a program, no
`SIGALRM` is pending for it; unless the bit of the memory manager is off. -/
def Disarmed (w : AlarmSys F) : AlarmAct F → Prop
  | .serve =>
    match w.calls with
    | .sysFork parent child :: _ =>
      w.clock.p_alarm (procAddr parent) = 0 ∨ (w.mm.flags child).ALARM_ON = false
    | .sysExec who :: _ => w.pending who = false ∨ (w.mm.flags who).ALARM_ON = false
    | _ => True
  | _ => True

/-- A step from disarmed processes. -/
def DisarmedStep (w : AlarmSys F) (act : AlarmAct F) (w' : AlarmSys F) : Prop :=
  AlarmStep w act w' ∧ Disarmed w act

end Minix.Mm
