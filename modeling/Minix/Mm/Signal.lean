import Minix.Mm.ForkExit

/-!
# Signals and tracing

`mm/signal.c`, `mm/trace.c`, and the growth of the stack in `mm/break.c`, for a machine without
pages. The loop of `check_sig` is `checkSigFrom`, and what it does for one process `checkSigProc`.
-/

namespace Minix.Mm

open Kernel (NR_PROCS)

/-- Unit in which memory is allocated, and its logarithm. -/
def CLICK_SIZE : ℤ := 256
def CLICK_SHIFT : ℕ := 8

/-- How many bytes are pushed by a signal. -/
def SIG_PUSH_BYTES : ℤ := 8

/-- A safety margin for future stack growth. -/
def SAFETY_CLICKS : ℕ := 6

/-- Which signals cause core images. -/
def coreBits : ℕ := 0x0EFC

/-- Bit set in status when core dumped. -/
def DUMPED : ℕ := 0x80

/-- Check to see if the sizes are feasible. -/
def sizeOk (dc dvir s_vir : ℕ) : Bool := u16 (dvir + dc) ≤ s_vir

/-- The stack begins `delta` clicks further down, and ends where it did. -/
def moveStack (p : MProc) (delta : ℤ) : MProc :=
  { p with segS :=
      { mem_vir := u16 (p.segS.mem_vir - delta)
        mem_phys := u16 (p.segS.mem_phys - delta)
        mem_len := u16 (p.segS.mem_len + delta) } }

/-- See if data and stack segments can coexist, adjusting them if need be: whether they can, and the
entry afterwards. -/
def adjust (n : ProcNr) (p : MProc) (data_clicks : ℕ) (sp : ℤ) : Bool × MProc :=
  if n = INIT_PROC_NR then (true, p)
  else
    let base_of_stack := p.segS.mem_vir + p.segS.mem_len
    let sp_click := u16 (sp >>> CLICK_SHIFT)
    if base_of_stack ≤ sp_click then (false, p)
    else
      let delta := (p.segS.mem_vir : ℤ) - sp_click
      let lower := if 0 < delta then sp_click else p.segS.mem_vir
      let gap_base := u16 (p.segD.mem_vir + data_clicks + SAFETY_CLICKS)
      if lower < gap_base then (false, p)
      else
        let old_clicks := p.segD.mem_len
        let p := { p with segD := { p.segD with mem_len := data_clicks } }
        let p := if 0 < delta then moveStack p delta else p
        if sizeOk p.segD.mem_len p.segD.mem_vir p.segS.mem_vir then (true, p)
        else
          let p := { p with segD := { p.segD with mem_len := old_clicks } }
          (false, if 0 < delta then moveStack p (-delta) else p)

/-- A traced process got a signal so stop. -/
def stopProc (k : Outside) (s : MState) (rmp : ProcNr) (sig_nr : ℕ) : MState :=
  if k.stops rmp sig_nr = false then s
  else
    let s := s.setFlags rmp fun f => { f with STOPPED := true }
    let parent := (s.mproc rmp).mp_parent
    if (s.flags parent).WAITING then
      let s := s.setFlags parent fun f => { f with WAITING := false }
      reply s parent (s.mproc rmp).mp_pid ((127 ||| (sig_nr <<< 8) % 2 ^ 16 : ℕ) : ℤ)
    else s.set rmp fun p => { p with mp_sigstatus := sig_nr }

/-- Make a core dump, if possible. -/
def dumpCore (k : Outside) (s : MState) (rmp : ProcNr) (sig_nr : ℕ) : MState :=
  if (s.mproc rmp).mp_realuid ≠ (s.mproc rmp).mp_effuid ∨ k.dumps rmp sig_nr = false then s
  else s.set rmp fun p => { p with mp_sigstatus := p.mp_sigstatus ||| DUMPED }

/-- The signal is to be caught, and further ones are not: whether there is room on the stack. -/
def catchSig (k : Outside) (s : MState) (rmp : ProcNr) (sig_nr : ℕ) : Bool × MState :=
  let s := s.set rmp fun p => { p with mp_catch := clearSig p.mp_catch sig_nr }
  let (room, p) := adjust rmp (s.mproc rmp) (s.mproc rmp).segD.mem_len
    (k.sp rmp sig_nr - SIG_PUSH_BYTES)
  (room, s.set rmp fun _ => p)

/-- Signal should not or cannot be caught. Take default action. -/
def killProc (k : Outside) (s : MState) (rmp : ProcNr) (sig_nr : ℕ) : Option MState :=
  let s := s.set rmp fun p => { p with mp_sigstatus := sig_nr }
  let s := if hasSig coreBits sig_nr then dumpCore k s rmp sig_nr else s
  mmExit s rmp 0

/-- Send a signal to a process. -/
def sigProc (k : Outside) (s : MState) (rmp : ProcNr) (sig_nr : ℕ) : Option MState :=
  if (s.flags rmp).IN_USE = false then some s
  else if (s.flags rmp).TRACED ∧ sig_nr ≠ SIGKILL then some (stopProc k s rmp sig_nr)
  else if hasSig (s.mproc rmp).mp_catch sig_nr then
    let (room, s) := catchSig k s rmp sig_nr
    if room then some s else killProc k s rmp sig_nr
  else killProc k s rmp sig_nr

/-- Check to see if process is suspended on anything. -/
def unpause (s : MState) (pro : ProcNr) : MState :=
  if (s.flags pro).PAUSED ∧ (s.flags pro).HANGING = false then
    reply (s.setFlags pro fun f => { f with PAUSED := false }) pro EINTR 0
  else if (s.flags pro).WAITING ∧ (s.flags pro).HANGING = false then
    reply (s.setFlags pro fun f => { f with WAITING := false }) pro EINTR 0
  else s

/-- The tests of `check_sig`, the later of which override those before them. -/
def sendSig (s : MState) (mp : ProcNr) (proc_id : ℤ) (sig_nr send_uid : ℕ) (rmp : ProcNr) : Bool :=
  let p := s.mproc rmp
  let send_sig := true
  let send_sig := if send_uid ≠ p.mp_effuid ∧ send_uid ≠ SUPER_USER then false else send_sig
  let send_sig := if 0 < proc_id ∧ proc_id ≠ p.mp_pid then false else send_sig
  let send_sig := if p.mp_flags.HANGING then false else send_sig
  let send_sig := if proc_id = 0 ∧ (s.mproc mp).mp_procgrp ≠ p.mp_procgrp then false else send_sig
  let send_sig := if send_uid = SUPER_USER ∧ proc_id = -1 then true else send_sig
  let send_sig := if p.mp_pid = INIT_PID ∧ proc_id = -1 then false else send_sig
  if p.mp_pid = INIT_PID ∧ sig_nr = SIGKILL then false else send_sig

/-- What `check_sig` does for one process. -/
inductive Visit
  | skipped
  | ignored
  | sent
  deriving DecidableEq, Repr

/-- Turn off the ALARM_ON bit when the timer goes off. -/
def alarmGone (s : MState) (rmp : ProcNr) (sig_nr : ℕ) (send_sig : Bool) : MState :=
  if sig_nr = SIGALRM ∧ send_sig then s.setFlags rmp fun f => { f with ALARM_ON := false } else s

/-- One turn of the loop of `check_sig`. -/
def checkSigProc (k : Outside) (mp : ProcNr) (proc_id : ℤ) (sig_nr send_uid : ℕ) (s : MState)
    (rmp : ProcNr) : Option (Visit × MState) :=
  if (s.flags rmp).IN_USE = false then some (.skipped, s)
  else
    let send_sig := sendSig s mp proc_id sig_nr send_uid rmp
    if sig_nr = SIGALRM ∧ (s.flags rmp).ALARM_ON = false then some (.skipped, s)
    else
      let s := alarmGone s rmp sig_nr send_sig
      if send_sig = false then some (.skipped, s)
      else if hasSig (s.mproc rmp).mp_ignore sig_nr then some (.ignored, s)
      else (sigProc k s rmp sig_nr).map fun s => (.sent, unpause s rmp)

/-- The loop of `check_sig`, from an entry on: how many processes could be signaled. -/
def checkSigFrom (k : Outside) (mp : ProcNr) (proc_id : ℤ) (sig_nr send_uid : ℕ) :
    List ProcNr → ℕ → MState → Option (ℕ × MState)
  | [], count, s => some (count, s)
  | rmp :: rest, count, s => do
    let (visit, s) ← checkSigProc k mp proc_id sig_nr send_uid s rmp
    match visit with
    | .skipped => checkSigFrom k mp proc_id sig_nr send_uid rest count s
    | .ignored => checkSigFrom k mp proc_id sig_nr send_uid rest (count + 1) s
    | .sent =>
      if 0 < proc_id then some (count + 1, s)
      else checkSigFrom k mp proc_id sig_nr send_uid rest (count + 1) s

/-- The processes that can be signaled, which are those from `INIT` on. -/
def userProcs : List ProcNr := mprocs.drop INIT_PROC_NR

/-- Check to see if it is possible to send a signal, and send it. -/
def checkSig (k : Outside) (s : MState) (mp : ProcNr) (proc_id : ℤ) (sig_nr : ℤ) (send_uid : ℕ) :
    Option (ℤ × MState) :=
  if sig_nr < 1 ∨ NSIG < sig_nr then some (EINVAL, s)
  else do
    let (count, s) ← checkSigFrom k mp proc_id sig_nr.toNat send_uid userProcs 0 s
    let s := if (s.flags mp).IN_USE = false ∨ (s.flags mp).HANGING then
      { s with dont_reply := true } else s
    some (if 0 < count then OK else ESRCH, s)

/-- Perform the kill(pid, kill_sig) system call. -/
def doKill (k : Outside) (s : MState) (who : ProcNr) (pid kill_sig : ℤ) : Option (ℤ × MState) :=
  checkSig k s who pid kill_sig (s.mproc who).mp_effuid

/-- Handle a stack fault by growing the stack segment until sp is inside of it. -/
def stackFault (k : Outside) (s : MState) (proc_nr : ProcNr) : Option MState :=
  let (room, p) := adjust proc_nr (s.mproc proc_nr) (s.mproc proc_nr).segD.mem_len
    (k.sp proc_nr SIGSTKFLT - CLICK_SIZE)
  let s := s.set proc_nr fun _ => p
  if room then some s
  else sigProc k (s.set proc_nr fun p => { p with mp_catch := 0 }) proc_nr SIGSEGV

/-- Whom a signal of the kernel is sent to. -/
def ksigId (proc_id : ℤ) (j : ℕ) : ℤ :=
  if j = SIGKILL then -1 else if j = SIGINT ∨ j = SIGQUIT then 0 else proc_id

/-- The loop of `do_ksig` over the signals. -/
def ksigFrom (k : Outside) (proc_id : ℤ) (sig_map : ℕ) : List ℕ → MState → Option MState
  | [], s => some s
  | j :: rest, s =>
    if hasSig sig_map j then do
      let (_, s) ← checkSig k s MM_PROC_NR (ksigId proc_id j) j SUPER_USER
      ksigFrom k proc_id sig_map rest s
    else ksigFrom k proc_id sig_map rest s

/-- The signals that `do_ksig` looks for. -/
def ksigs : List ℕ := List.range' 1 (NSIG - 1)

/-- What `do_ksig` does before its loop: a stack fault is handled, if it is one. -/
def ksigStart (k : Outside) (s : MState) (proc_nr : ProcNr) (sig_map : ℕ) : Option MState :=
  let s := s.set MM_PROC_NR fun p => { p with mp_procgrp := (s.mproc proc_nr).mp_procgrp }
  if sig_map = 1 <<< (SIGSTKFLT - 1) then stackFault k s proc_nr else some s

/-- Signals that originate in the kernel. -/
def doKsig (k : Outside) (s : MState) (proc_nr : ProcNr) (sig_map : ℕ) : Option (ℤ × MState) :=
  let s := { s with dont_reply := true }
  if (s.flags proc_nr).IN_USE = false ∨ (s.flags proc_nr).HANGING then some (OK, s)
  else do
    let s₁ ← ksigStart k s proc_nr sig_map
    let s₂ ← ksigFrom k (s.mproc proc_nr).mp_pid sig_map ksigs s₁
    some (OK, s₂)

/-- Set the bit maps for subsequent signal processing; `none` is `SIG_IGN`, and 0 `SIG_DFL`. -/
def setFunc (p : MProc) (sig_nr : ℕ) : Option ℕ → MProc
  | none => { p with
      mp_ignore := setSig p.mp_ignore sig_nr, mp_catch := clearSig p.mp_catch sig_nr }
  | some 0 => { p with
      mp_ignore := clearSig p.mp_ignore sig_nr, mp_catch := clearSig p.mp_catch sig_nr }
  | some func => { p with
      mp_ignore := clearSig p.mp_ignore sig_nr
      mp_catch := setSig p.mp_catch sig_nr
      mp_func := func }

/-- Perform the signal(sig, func) system call. -/
def doSignal (s : MState) (who : ProcNr) (sig : ℤ) (func : Option ℕ) : ℤ × MState :=
  if sig < 1 ∨ NSIG < sig then (EINVAL, s)
  else if sig = SIGKILL then (OK, s)
  else
    (if hasSig (s.mproc who).mp_ignore sig.toNat then 1 else OK,
      s.set who fun p => setFunc p sig.toNat func)

/-- Perform the pause() system call. -/
def doPause (s : MState) (who : ProcNr) : ℤ × MState :=
  (OK, { s.setFlags who fun f => { f with PAUSED := true } with dont_reply := true })

/-- Find a traced process. -/
def findproc (s : MState) (lpid : ℤ) : Option ProcNr :=
  (mprocs.drop (INIT_PROC_NR + 1)).find? fun rmp =>
    (s.flags rmp).IN_USE && ((s.mproc rmp).mp_pid : ℤ) == lpid

/-- Issue a signal to a process that is resumed. -/
def traceSig (k : Outside) (s : MState) (child : ProcNr) (sig_nr : ℕ) : Option MState := do
  let s ← sigProc k (s.setFlags child fun f => { f with TRACED := false }) child sig_nr
  some (s.setFlags child fun f => { f with TRACED := true })

/-- Resume execution. -/
def traceResume (k : Outside) (s : MState) (child : ProcNr) (data : ℤ) : Option MState :=
  (if 0 < data then traceSig k s child data.toNat else some s).map fun s =>
    s.setFlags child fun f => { f with STOPPED := false }

/-- A request for a process that was found. -/
def traceChild (k : Outside) (s : MState) (child : ProcNr) (request data : ℤ) :
    Option (ℤ × MState) :=
  if (s.flags child).STOPPED = false then some (ESRCH, s)
  else if request = 8 then (mmExit s child data).map fun s => (OK, s)
  else if request = 7 then
    if NSIG < data then some ( EIO, s)
    else (traceResume k s child data).map fun s => (k.trace, s)
  else some (k.trace, s)

/-- Perform the ptrace(request, pid, addr, data) system call. -/
def doTrace (k : Outside) (s : MState) (who : ProcNr) (request pid data : ℤ) :
    Option (ℤ × MState) :=
  if request = 0 then some (OK, s.setFlags who fun f => { f with TRACED := true })
  else match findproc s pid with
  | none => some (ESRCH, s)
  | some child => traceChild k s child request data

end Minix.Mm
