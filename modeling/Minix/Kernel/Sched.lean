import Minix.Kernel.Proc
import Minix.Lib.Chain

/-!
# Scheduling

`ready`, `unready`, `pick_proc` and `sched` of `kernel/proc.c`. `none` is what the code does not
survive: a nil pointer followed, or a walk that does not end. `ready` and `unready` treat the four
queues in turn and in the same way, so each is one function of the queue (`addReady`,
`removeReady`), applied to the queue that the tests at the head of the source's branches select.
-/

namespace Minix.Kernel

open Lib

/-- The queue that `ready` and `unready` use for a process. -/
def queueOf (s : State) (rp : Slot) : Queue :=
  if istaskp rp then .TASK_Q
  else if !isuserp rp then .SERVER_Q
  else if isshadowp s rp then .SHADOW_Q
  else .USER_Q

/-- Decide who to run now. -/
def pickProc (s : State) : State :=
  match s.rdy_head .TASK_Q with
  | some rp => { s with proc_ptr := rp }
  | none =>
    match s.rdy_head .SERVER_Q with
    | some rp => { s with proc_ptr := rp }
    | none =>
      match s.rdy_head .USER_Q with
      | some rp => { s with proc_ptr := rp, bill_ptr := rp }
      | none => { s with proc_ptr := idleSlot, bill_ptr := idleSlot }

/-- Put `rp` at the end of the queue `q`. -/
def addReady (s : State) (q : Queue) (rp : Slot) : Option State :=
  match s.rdy_head q with
  | some _ =>
    match s.rdy_tail q with
    | some t =>
      some { s with
        p_nextready :=
          Function.update (Function.update s.p_nextready t (some rp)) rp none
        rdy_tail := Function.update s.rdy_tail q (some rp) }
    | none => none
  | none =>
    some { s with
      p_nextready := Function.update s.p_nextready rp none
      rdy_head := Function.update s.rdy_head q (some rp)
      rdy_tail := Function.update s.rdy_tail q (some rp) }

/-- Add `rp` to the end of one of the queues of runnable processes. -/
def ready (s : State) (rp : Slot) : Option State :=
  if istaskp rp then addReady s .TASK_Q rp
  else if !isuserp rp then addReady s .SERVER_Q rp
  else if isshadowp s rp then addReady s .SHADOW_Q rp
  else addReady s .USER_Q rp

/-- Take `rp` off the queue `q`: from its head, or from the body after a search, where the tail is
found anew. -/
def removeReady (s : State) (q : Queue) (rp : Slot) : Option State :=
  match s.rdy_head q with
  | none => some s
  | some xp =>
    if xp = rp then
      let s := { s with rdy_head := Function.update s.rdy_head q (s.p_nextready xp) }
      some (if rp = s.proc_ptr then pickProc s else s)
    else
      match cellBefore s.p_nextready rp fuel xp with
      | none => none
      | some none => some s
      | some (some xp) =>
        let next := Function.update s.p_nextready xp (s.p_nextready rp)
        match lastCell next fuel xp with
        | none => none
        | some xp =>
          some { s with p_nextready := next, rdy_tail := Function.update s.rdy_tail q (some xp) }

/-- A process has blocked. -/
def unready (s : State) (rp : Slot) : Option State :=
  if istaskp rp then removeReady s .TASK_Q rp
  else if !isuserp rp then removeReady s .SERVER_Q rp
  else if isshadowp s rp then removeReady s .SHADOW_Q rp
  else removeReady s .USER_Q rp

/-- The current process has run too long: the head of the user queue goes to its end. -/
def sched (s : State) : Option State :=
  match s.rdy_head .USER_Q with
  | none => some s
  | some h =>
    match s.rdy_tail .USER_Q with
    | none => none
    | some t =>
      let next := Function.update s.p_nextready t (some h)
      some (pickProc { s with
        p_nextready := Function.update next h none
        rdy_head := Function.update s.rdy_head .USER_Q (next h)
        rdy_tail := Function.update s.rdy_tail .USER_Q (some h) })

/-- The branches of `ready` differ only in the queue. -/
theorem ready_eq (s : State) (rp : Slot) : ready s rp = addReady s (queueOf s rp) rp := by
  unfold ready queueOf
  split_ifs <;> rfl

/-- The branches of `unready` differ only in the queue. -/
theorem unready_eq (s : State) (rp : Slot) : unready s rp = removeReady s (queueOf s rp) rp := by
  unfold unready queueOf
  split_ifs <;> rfl

end Minix.Kernel
