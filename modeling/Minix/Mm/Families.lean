import Mathlib.Algebra.BigOperators.Group.Finset.Basic
import Minix.Lib.Run
import Minix.Mm.Lives

/-!
# Families of processes

What waiting and exiting come to, apart from how `mproc[]` is searched. A `Family` has of each
process what matters to its parent. It changes by events: a call is accepted, a process dies, its
slot is released and the parent is told, and so on. `Annals.can` says when an event may happen,
which includes what it carries with it, and `Annals.next` what it does. The events are recorded,
newest first, so that it can be said of the whole past which calls were answered, and who was told
of a death.
-/

namespace Minix.Mm

open Lib

/-- What an entry says about a process, as far as its family is concerned. -/
@[ext]
structure Member where
  life : Life
  waiting : Bool
  paused : Bool
  /-- It is traced or stopped, or hangs without being in use. -/
  odd : Bool
  parent : ProcNr
  pid : ℕ
  status : ℤ
  catches : ℕ

/-- All processes, how many slots are said to be in use, and what was recorded. -/
@[ext]
structure Family where
  member : ProcNr → Member
  count : ℤ
  log : List MmEvent
  replies : List (ProcNr × ℤ × ℤ)

/-- What happens to processes. -/
inductive FamEvent
  /-- A call is accepted. -/
  | call (who : ProcNr) (wait : Bool)
  /-- A child is created, and told so. -/
  | fork (child who : ProcNr) (pid : ℕ)
  /-- The status that a process would exit with changes, or which signals it catches. -/
  | mark (n : ProcNr) (status : ℤ) (catches : ℕ)
  /-- A process exits, while its parent is alive, or not. -/
  | died (n parent : ProcNr) (alive : Bool) (pid : ℕ) (status : ℤ)
  /-- The slot of a process is released; the parent is sent a reply, or not. -/
  | released (n parent : ProcNr) (sent : Bool) (pid : ℕ) (status : ℤ)
  /-- The caller has to wait for a child. -/
  | waits (who : ProcNr)
  /-- The caller has to wait for a signal. -/
  | pauses (who : ProcNr)
  /-- The caller is sent the result of the call. -/
  | told (who : ProcNr) (result res2 : ℤ)
  /-- A process catches a signal. -/
  | caught (n : ProcNr) (sig_nr : ℕ)
  /-- A process does not wait any more. -/
  | interrupted (n : ProcNr)

/-- The reply that is sent. -/
def FamEvent.reply : FamEvent → Option (ProcNr × ℤ × ℤ)
  | .fork child _ _ => some (child, 0, 0)
  | .released _ parent sent pid status => if sent then some (parent, pid, status) else none
  | .told who result res2 => some (who, result, res2)
  | .interrupted n => some (n, EINTR, 0)
  | _ => none

/-- What is recorded of a process. -/
def FamEvent.logged : FamEvent → Option MmEvent
  | .fork child _ _ => some (.fork child)
  | .died n _ _ _ _ => some (.exit n .mmExit)
  | _ => none

/-- The call that is accepted. -/
def FamEvent.called : FamEvent → Option (ProcNr × Bool)
  | .call who wait => some (who, wait)
  | _ => none

/-! ## The past -/

/-- What is known of the death of a process. -/
structure Death where
  parent : ProcNr
  alive : Bool
  pid : ℕ
  status : ℤ
  orphan : Bool

/-- The death of the process that is in a slot, until the slot is released. -/
def death (n : ProcNr) : List FamEvent → Option Death
  | [] => none
  | .fork child _ _ :: hist => if child = n then none else death n hist
  | .died m parent alive pid status :: hist =>
    if m = n then some ⟨parent, alive, pid, status, false⟩ else death n hist
  | .released m _ _ _ _ :: hist =>
    if m = n then none
    else (death n hist).map fun d => if d.parent = m then { d with orphan := true } else d
  | _ :: hist => death n hist

/-- Slots are released of processes that have died, once a death, and with a reply to the parent
that has their process id and status if the parent was alive; to `INIT`, if the parent's slot has
been released in between. -/
def Reported : List FamEvent → Prop
  | [] => True
  | .released n parent sent pid status :: hist =>
    (∃ d, death n hist = some d ∧ d.pid = pid ∧ d.status = status ∧
      (d.alive → sent ∧ parent = if d.orphan then INIT_PROC_NR else d.parent)) ∧ Reported hist
  | _ :: hist => Reported hist

/-- The last call of a process, if there was one: whether it was to wait. -/
def lastCall (n : ProcNr) : List FamEvent → Option Bool
  | [] => none
  | .call who wait :: hist => if who = n then some wait else lastCall n hist
  | .fork child _ _ :: hist => if child = n then none else lastCall n hist
  | _ :: hist => lastCall n hist

/-- The replies to a process since its last call. -/
def answers (n : ProcNr) : List FamEvent → List FamEvent
  | [] => []
  | .call who _ :: hist => if who = n then [] else answers n hist
  | .fork child _ _ :: hist => if child = n then [] else answers n hist
  | e :: hist => if e.reply.map Prod.fst = some n then e :: answers n hist else answers n hist

/-- What a call to wait is answered: a child, or that there is none, or that a signal was caught. -/
def EndsWait : FamEvent → Prop
  | .released _ _ _ _ _ => True
  | .told _ result res2 => result = ECHILD ∧ res2 = 0
  | .interrupted _ => True
  | _ => False

/-- The last call was answered once. -/
def AnsweredOnce (n : ProcNr) (hist : List FamEvent) : Prop :=
  ∀ wait, lastCall n hist = some wait → ∃ e, answers n hist = [e] ∧ (wait = true → EndsWait e)

/-- Every call was answered once when its caller made the next. -/
def Answered : List FamEvent → Prop
  | [] => True
  | .call who _ :: hist => AnsweredOnce who hist ∧ Answered hist
  | _ :: hist => Answered hist

/-- A process is interrupted when it has caught a signal. -/
def Interrupted : List FamEvent → Prop
  | [] => True
  | .interrupted n :: hist => (∃ sig_nr, hist.head? = some (.caught n sig_nr)) ∧ Interrupted hist
  | _ :: hist => Interrupted hist

/-- What happens to a slot. -/
inductive SlotEvent
  | forked (n : ProcNr)
  | released (n : ProcNr)
  deriving DecidableEq

/-- What happens to the slots. -/
def FamEvent.slot : FamEvent → Option SlotEvent
  | .fork child _ _ => some (.forked child)
  | .released n _ _ _ _ => some (.released n)
  | _ => none

/-! ## Events -/

/-- A family with its past, and whose call is executed: whether it is a call to wait. -/
structure Annals where
  fam : Family
  busy : Option (ProcNr × Bool)
  hist : List FamEvent

/-- An assignment to a process. -/
def Family.put (F : Family) (n : ProcNr) (m : Member) : Family :=
  { F with member := Function.update F.member n m }

/-- A reply is sent. -/
def Family.say (F : Family) (n : ProcNr) (result res2 : ℤ) : Family :=
  { F with replies := (n, result, res2) :: F.replies }

/-- The slot is released: the parent does not wait any more, and the children are given to `INIT`.
-/
def Member.afterRelease (n parent x : ProcNr) (m : Member) : Member :=
  { m with
    life := if x = n then .free else m.life
    waiting := if x = n ∨ x = parent then false else m.waiting
    parent := if m.parent = n then INIT_PROC_NR else m.parent }

/-- What an event does. -/
def Family.after (F : Family) : FamEvent → Family
  | .call _ _ => F
  | .fork child who pid =>
    { F.put child { F.member who with parent := who, pid := pid, status := 0 } with
      count := F.count + 1
      log := .fork child :: F.log
      replies := (child, 0, 0) :: F.replies }
  | .mark n status catches => F.put n { F.member n with status := status, catches := catches }
  | .died n _ _ _ _ =>
    { F.put n { F.member n with life := .zombie, paused := false } with
      log := .exit n .mmExit :: F.log }
  | .released n parent sent pid status =>
    { F with
      member := fun x => (F.member x).afterRelease n parent x
      count := F.count - 1
      replies := if sent then (parent, (pid : ℤ), status) :: F.replies else F.replies }
  | .waits who => F.put who { F.member who with waiting := true }
  | .pauses who => F.put who { F.member who with paused := true }
  | .told who result res2 => F.say who result res2
  | .caught n sig_nr =>
    F.put n { F.member n with catches := clearSig (F.member n).catches sig_nr }
  | .interrupted n =>
    (F.put n { F.member n with waiting := false, paused := false }).say n EINTR 0

/-- Whose call is executed after an event. -/
def busyAfter (busy : Option (ProcNr × Bool)) : FamEvent → Option (ProcNr × Bool)
  | .call who wait => some (who, wait)
  | .died n _ _ _ _ => busy.filter fun b => b.1 != n
  | .released _ parent _ _ _ => if busy = some (parent, true) then none else busy
  | .waits _ => none
  | .pauses _ => none
  | .told _ _ _ => none
  | _ => busy

/-- The event happens. -/
def Annals.next (A : Annals) (e : FamEvent) : Annals :=
  ⟨A.fam.after e, busyAfter A.busy e, e :: A.hist⟩

/-- The event may happen. -/
def Annals.can (A : Annals) : FamEvent → Prop
  | .call who _ => A.busy = none ∧ (A.fam.member who).life = .live ∧
      (A.fam.member who).waiting = false ∧ (A.fam.member who).paused = false
  | .fork child who _ => A.busy = some (who, false) ∧ (A.fam.member child).life = .free
  | .mark n _ _ => (A.fam.member n).life = .live
  | .died n parent alive pid status =>
    (A.fam.member n).life = .live ∧ INIT_PROC_NR < n ∧ parent = (A.fam.member n).parent ∧
      (alive = true ↔ (A.fam.member parent).life = .live) ∧ pid = (A.fam.member n).pid ∧
      status = (A.fam.member n).status ∧
      -- While it waits it has no child that hangs, so that none is left without an answer.
      ∀ x, (A.fam.member x).life = .zombie → (A.fam.member x).parent = n →
        (A.fam.member n).waiting = false
  | .released n parent sent pid status =>
    (A.fam.member n).life = .zombie ∧ parent = (A.fam.member n).parent ∧
      (sent = true ↔ (A.fam.member parent).life = .live) ∧ pid = (A.fam.member n).pid ∧
      status = (A.fam.member n).status ∧
      ((A.fam.member parent).waiting = true ∨ A.busy = some (parent, true))
  | .waits who => A.busy = some (who, true)
  | .pauses who => A.busy = some (who, false)
  | .told who result res2 =>
    A.busy = some (who, false) ∨ A.busy = some (who, true) ∧ result = ECHILD ∧ res2 = 0 ∧
      ∀ x, (A.fam.member x).life ≠ .free → (A.fam.member x).parent ≠ who
  | .caught n sig_nr => (A.fam.member n).life = .live ∧ hasSig (A.fam.member n).catches sig_nr = true
  | .interrupted n =>
    (A.fam.member n).life = .live ∧
      ((A.fam.member n).waiting = true ∨ (A.fam.member n).paused = true) ∧
      ∃ sig_nr, A.hist.head? = some (.caught n sig_nr)

/-- One event. -/
def AnnalsStep (A : Annals) (e : FamEvent) (A' : Annals) : Prop := A.can e ∧ A' = A.next e

end Minix.Mm
