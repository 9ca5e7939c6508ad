import Minix.Kernel.Shadow
import Minix.Lib.Run

/-!
# The clock task

`kernel/clock.c`, and what `do_fork`, `do_exec` and `do_xit` of `kernel/system.c` do to the alarms.
The clock task is a sequential program that `clock_handler` may interrupt anywhere: `ClockPc` says
where it is, and a step of it is as much as it does to the variables that the handler reads. The
other tasks run only while it waits for a message.

Times are numbers of ticks. They stay below the range of `time_t`, which is a condition on the
steps. `log` is the one field that the kernel does not have: what the clock task did about alarms.
-/

namespace Minix.Kernel

open Lib

/-- Clock frequency. -/
def HZ : ℤ := 60

/-- Maximum positive long. -/
def MAX_P_LONG : ℤ := 2147483647

/-- Number of ticks per schedule. -/
def SCHED_RATE : ℤ := 100 * HZ / 1000

/-- Where the clock task is. -/
inductive ClockPc
  /-- It waits for a message. -/
  | receive
  /-- In `do_setalarm`, in front of the reset of `next_alarm`. -/
  | setalarm
  /-- In the loop of `do_setalarm`. -/
  | setalarmScan (i : ℕ)
  /-- In front of the test of `do_clocktick`. -/
  | clocktick
  /-- In the loop of `do_clocktick`. -/
  | clocktickScan (i : ℕ)
  /-- Behind the alarms in `do_clocktick`. -/
  | clocktickEnd
  deriving DecidableEq

/-- What the clock task does: it begins a `do_clocktick`, causes a `SIGALRM`, or calls a function.
-/
inductive ClockEvent (F : Type)
  | clocktick (realtime : ℤ)
  | causeSig (p : Slot)
  | watchDog (p : Slot) (function : Option F)
  deriving DecidableEq

/-- The variables of the clock task, and the alarms of the processes. -/
structure Clock (F : Type) where
  p_alarm : Slot → ℤ
  boot_time : ℤ
  next_alarm : ℤ
  pending_ticks : ℤ
  realtime : ℤ
  sched_ticks : ℤ
  prev_ptr : Option Slot
  watch_dog : Slot → Option F
  /-- The word of `mc` that is `SECONDS_LEFT` and `NEW_TIME`. -/
  mc_l1 : ℤ
  pc : ClockPc
  log : List (ClockEvent F)

/-- The messages that the clock task accepts. -/
inductive ClockMsg (F : Type)
  | SET_ALARM (proc_nr : Slot) (delta_ticks : ℤ) (function : Option F)
  | GET_TIME
  | SET_TIME (newtime : ℤ)
  | HARD_INT

variable {F : Type}

/-- `clock_handler`: whether it interrupts the clock task, while `bill_ptr` is billed, and `ready`
says that there is somebody on one of the queues of users. -/
def clockHandler (w : Clock F) (bill_ptr : Slot) (ready : Bool) : Bool × Clock F :=
  let w := { w with pending_ticks := w.pending_ticks + 1 }
  if w.next_alarm ≤ w.realtime + w.pending_ticks ∨
      w.sched_ticks = 1 ∧ w.prev_ptr = some bill_ptr ∧ ready then (true, w)
  else
    let w := { w with sched_ticks := w.sched_ticks - 1 }
    if w.sched_ticks = 0 then
      (false, { w with sched_ticks := SCHED_RATE, prev_ptr := some bill_ptr })
    else (false, w)

/-- The first part of `do_setalarm`, which records the request. -/
def doSetalarm (w : Clock F) (rp : Slot) (delta_ticks : ℤ) (function : Option F) : Clock F :=
  { w with
    mc_l1 := if w.p_alarm rp = 0 then 0 else (w.p_alarm rp - w.realtime).tdiv HZ
    p_alarm := Function.update w.p_alarm rp (if delta_ticks = 0 then 0 else w.realtime + delta_ticks)
    watch_dog := if istaskp rp then Function.update w.watch_dog rp function else w.watch_dog
    pc := .setalarm }

/-- A message to the clock task, from where the ticks are transferred to the call that it is for. -/
def clockTask (w : Clock F) (msg : ClockMsg F) : Clock F :=
  let w := { w with realtime := w.realtime + w.pending_ticks, pending_ticks := 0 }
  match msg with
  | .SET_ALARM proc_nr delta_ticks function => doSetalarm w proc_nr delta_ticks function
  | .GET_TIME => { w with mc_l1 := w.boot_time + w.realtime.tdiv HZ }
  | .SET_TIME newtime => { w with boot_time := newtime - w.realtime.tdiv HZ }
  | .HARD_INT => { w with pc := .clocktick, log := w.log ++ [.clocktick w.realtime] }

/-- The alarm is the next one so far. -/
def nextIs (w : Clock F) (rp : Slot) : Clock F :=
  if w.p_alarm rp ≠ 0 ∧ w.p_alarm rp < w.next_alarm then { w with next_alarm := w.p_alarm rp }
  else w

/-- A timer has gone off. -/
def fire (w : Clock F) (rp : Slot) : Clock F :=
  { w with
    log := w.log ++
      [if 0 ≤ procNumber rp then .causeSig rp else .watchDog rp (w.watch_dog rp)]
    p_alarm := Function.update w.p_alarm rp 0 }

/-- A turn of the loop of `do_clocktick`. -/
def clocktickProc (w : Clock F) (rp : Slot) : Clock F :=
  if w.p_alarm rp ≠ 0 then nextIs (if w.p_alarm rp ≤ w.realtime then fire w rp else w) rp else w

/-- The end of `do_clocktick`, where another process may be picked. -/
def quantum (w : Clock F) (bill_ptr : Slot) : Clock F :=
  let w := { w with sched_ticks := w.sched_ticks - 1 }
  if w.sched_ticks = 0 then { w with sched_ticks := SCHED_RATE, prev_ptr := some bill_ptr } else w

/-- The clock task goes on. -/
def goOn (w : Clock F) (bill_ptr : Slot) : Clock F :=
  match w.pc with
  | .receive => w
  | .setalarm => { w with next_alarm := MAX_P_LONG, pc := .setalarmScan 0 }
  | .setalarmScan i =>
    match nth (NR_TASKS + NR_PROCS) i with
    | some rp => { nextIs w rp with pc := .setalarmScan (i + 1) }
    | none => { w with pc := .receive }
  | .clocktick =>
    if w.next_alarm ≤ w.realtime then { w with next_alarm := MAX_P_LONG, pc := .clocktickScan 0 }
    else { w with pc := .clocktickEnd }
  | .clocktickScan i =>
    match nth (NR_TASKS + NR_PROCS) i with
    | some rp => { clocktickProc w rp with pc := .clocktickScan (i + 1) }
    | none => { w with pc := .clocktickEnd }
  | .clocktickEnd => { quantum w bill_ptr with pc := .receive }

/-- `do_fork` copies the entry of the parent, with its alarm. -/
def forkAlarm (w : Clock F) (rpp rpc : Slot) : Clock F :=
  { w with p_alarm := Function.update w.p_alarm rpc (w.p_alarm rpp) }

/-- `do_exec` and `do_xit` turn off the alarm timer. -/
def clearAlarm (w : Clock F) (rp : Slot) : Clock F :=
  { w with p_alarm := Function.update w.p_alarm rp 0 }

/-! ## Runs -/

/-- What may happen. -/
inductive ClockAct (F : Type)
  | tick (bill_ptr : Slot) (ready : Bool)
  | message (msg : ClockMsg F)
  | goOn (bill_ptr : Slot)
  | fork (rpp rpc : Slot)
  | exec (rp : Slot)
  | xit (rc : Slot)

/-- The request is for a time in the range of `time_t`. -/
def InRange (w : Clock F) : ClockMsg F → Prop
  | .SET_ALARM _ delta_ticks _ => -MAX_P_LONG ≤ w.realtime + w.pending_ticks + delta_ticks ∧
      w.realtime + w.pending_ticks + delta_ticks ≤ MAX_P_LONG
  | _ => True

instance (w : Clock F) (msg : ClockMsg F) : Decidable (InRange w msg) :=
  match msg with
  | .SET_ALARM _ _ _ => inferInstanceAs (Decidable (_ ∧ _))
  | .GET_TIME | .SET_TIME _ | .HARD_INT => inferInstanceAs (Decidable True)

/-- A step. -/
inductive ClockStep (w : Clock F) : ClockAct F → Clock F → Prop
  | tick {bill_ptr : Slot} {ready : Bool} (hr : w.realtime + w.pending_ticks < MAX_P_LONG) :
      ClockStep w (.tick bill_ptr ready) (clockHandler w bill_ptr ready).2
  | message {msg : ClockMsg F} (hpc : w.pc = .receive) (hr : InRange w msg) :
      ClockStep w (.message msg) (clockTask w msg)
  | goOn {bill_ptr : Slot} (hpc : w.pc ≠ .receive) : ClockStep w (.goOn bill_ptr) (goOn w bill_ptr)
  | fork {rpp rpc : Slot} (hpc : w.pc = .receive) (hpp : isoksusern rpp = true)
      (hpc' : isoksusern rpc = true) : ClockStep w (.fork rpp rpc) (forkAlarm w rpp rpc)
  | exec {rp : Slot} (hpc : w.pc = .receive) (hp : isoksusern rp = true) :
      ClockStep w (.exec rp) (clearAlarm w rp)
  | xit {rc : Slot} (hpc : w.pc = .receive) (hc : isoksusern rc = true) :
      ClockStep w (.xit rc) (clearAlarm w rc)

/-- The variables at the start. -/
structure ClockStart (w : Clock F) : Prop where
  p_alarm : w.p_alarm = fun _ => 0
  next_alarm : w.next_alarm = 0
  pending_ticks : w.pending_ticks = 0
  realtime : w.realtime = 0
  sched_ticks : w.sched_ticks = SCHED_RATE
  pc : w.pc = .receive
  log : w.log = []

/-- The clock task is recomputing `next_alarm`. -/
def Scanning (w : Clock F) : Prop :=
  match w.pc with
  | .setalarm | .setalarmScan _ | .clocktickScan _ => True
  | _ => False

/-- The clock task is in `do_clocktick`, where alarms go off. -/
def Ticking (w : Clock F) : Prop :=
  match w.pc with
  | .clocktick | .clocktickScan _ => True
  | _ => False

/-- The event is that the alarm of the process has gone off. -/
def ClockEvent.fires (p : Slot) : ClockEvent F → Prop
  | .causeSig q => q = p
  | .watchDog q _ => q = p
  | .clocktick _ => False

/-- An action sets or clears the alarm of a process. -/
def ClockAct.sets (p : Slot) : ClockAct F → Prop
  | .message (.SET_ALARM q _ _) => q = p
  | .fork _ q | .exec q | .xit q => q = p
  | _ => False

/-- What becomes of an alarm for the time `a`, from the events since it was set. -/
inductive AlarmFate (p : Slot) (a : ℤ) (w : Clock F) (evs : List (ClockEvent F)) : Prop
  /-- There was no `do_clocktick` at that time or later. It has not gone off. -/
  | early (hno : ∀ e ∈ evs, ¬e.fires p) (hlate : ∀ t, .clocktick t ∈ evs → t < a)
      (halarm : w.p_alarm p = a)
  /-- The first one goes on. It has not come to the process. -/
  | due (e₁ e₂ : List (ClockEvent F)) (t : ℤ) (hevs : evs = e₁ ++ .clocktick t :: e₂) (ht : a ≤ t)
      (hlate : ∀ t, .clocktick t ∈ e₁ → t < a) (hone : ∀ t, .clocktick t ∉ e₂)
      (hno : ∀ e ∈ evs, ¬e.fires p) (hticking : Ticking w) (halarm : w.p_alarm p = a)
  /-- In the first one it has gone off, and only there. -/
  | fired (e₁ e₂ e₃ : List (ClockEvent F)) (t : ℤ) (e : ClockEvent F)
      (hevs : evs = e₁ ++ .clocktick t :: (e₂ ++ e :: e₃)) (ht : a ≤ t)
      (hlate : ∀ t, .clocktick t ∈ e₁ → t < a) (hone : ∀ t, .clocktick t ∉ e₂) (hfires : e.fires p)
      (hno : ∀ e' ∈ e₁ ++ e₂ ++ e₃, ¬e'.fires p) (halarm : w.p_alarm p = 0)

/-- What should hold of the alarms. -/
structure AlarmsOk (w : Clock F) : Prop where
  /-- `next_alarm` is not behind any alarm, unless it is being recomputed. -/
  next : ¬Scanning w → ∀ p, w.p_alarm p ≠ 0 → w.next_alarm ≤ w.p_alarm p
  /-- An alarm that is due makes the next `clock_handler` interrupt the clock task, unless that is
  recomputing `next_alarm`. -/
  interrupts : ¬Scanning w → ∀ p, w.p_alarm p ≠ 0 → w.p_alarm p ≤ w.realtime + w.pending_ticks →
    ∀ bill_ptr ready, (clockHandler w bill_ptr ready).1 = true
  /-- An alarm that is neither set again nor cleared goes off once, in time. -/
  fate : ¬Ticking w → ∀ p, w.p_alarm p ≠ 0 → ∀ as w', Run ClockStep w as w' →
    (∀ act ∈ as, ¬act.sets p) → ∃ evs, w'.log = w.log ++ evs ∧ AlarmFate p (w.p_alarm p) w' evs

end Minix.Kernel
