import Minix.Mm.Mproc

/-!
# Creating and deleting processes

`mm/forkexit.c`. `cleanup` calls itself for a zombie that `INIT` inherits while it waits; as `INIT`
does not wait any more after that, the calls are not nested any deeper (`cleanup_isSome`), and
`cleanupDepth` is enough. `none` is a pointer that leaves the table, or a loop that does not end.
-/

namespace Minix.Mm

open Kernel (NR_PROCS)

/-- The entries of `mproc[]`, in order. -/
def mprocs : List ProcNr := List.finRange NR_PROCS

/-- Last few slots reserved for superuser. -/
def LAST_FEW : ℤ := 2

/-- The next process id that is tried. -/
def nextPid (s : MState) : ℕ := if s.next_pid < 30000 then s.next_pid + 1 else INIT_PID + 1

/-- Find a free pid for the child and put it in the table. -/
def findPid (rmc : ProcNr) : ℕ → MState → Option MState
  | 0, _ => none
  | fuel + 1, s =>
    let next_pid := nextPid s
    let t := mprocs.any fun rmp =>
      (s.mproc rmp).mp_pid == next_pid || (s.mproc rmp).mp_procgrp == next_pid
    let s := { s with next_pid := next_pid }.set rmc fun p => { p with mp_pid := next_pid }
    if t then findPid rmc fuel s else some s

/-- The state with this process id as the last one, in the entry of the child. -/
def MState.withPid (s : MState) (rmc : ProcNr) (pid : ℕ) : MState :=
  { s with next_pid := pid }.set rmc fun p => { p with mp_pid := pid }

/-- The id is one that may be given, and no other slot has it. -/
structure PidFree (s : MState) (rmc : ProcNr) (pid : ℕ) : Prop where
  pos : 0 < pid
  le : pid ≤ 30000
  low : INIT_PID ≤ s.next_pid → INIT_PID < pid
  other_pid : ∀ n ≠ rmc, (s.mproc n).mp_pid ≠ pid
  other_procgrp : ∀ n ≠ rmc, (s.mproc n).mp_procgrp ≠ pid

theorem MState.withPid_self (s : MState) (rmc : ProcNr) (pid : ℕ) :
    (s.withPid rmc pid).mproc rmc = { s.mproc rmc with mp_pid := pid } :=
  Function.update_self ..

theorem MState.withPid_of_ne (s : MState) {n rmc : ProcNr} (pid : ℕ) (h : n ≠ rmc) :
    (s.withPid rmc pid).mproc n = s.mproc n :=
  Function.update_of_ne h ..

theorem MState.withPid_withPid (s : MState) (rmc : ProcNr) (pid pid' : ℕ) :
    (s.withPid rmc pid).withPid rmc pid' = s.withPid rmc pid' := by
  simp [MState.withPid, MState.set]

/-- An id that is put in the table is seen by the next turn in the slot of the child only. -/
theorem findPid_found {rmc : ProcNr} {fuel : ℕ} {s s' : MState} (h : findPid rmc fuel s = some s') :
    ∃ pid, s' = s.withPid rmc pid ∧ PidFree s rmc pid := by
  induction fuel generalizing s with
  | zero => cases h
  | succ fuel ih =>
    rw [findPid] at h
    split_ifs at h with ht
    · obtain ⟨pid, hs', hfree⟩ := ih h
      refine ⟨pid, hs'.trans (s.withPid_withPid rmc (nextPid s) pid), hfree.pos, hfree.le,
        fun hnext => hfree.low ?_, fun n hn => ?_, fun n hn => ?_⟩
      · show INIT_PID ≤ nextPid s
        unfold nextPid
        split_ifs <;> omega
      · rw [← s.withPid_of_ne (nextPid s) hn]
        exact hfree.other_pid n hn
      · rw [← s.withPid_of_ne (nextPid s) hn]
        exact hfree.other_procgrp n hn
    · have hfree : ∀ n, (s.mproc n).mp_pid ≠ nextPid s ∧ (s.mproc n).mp_procgrp ≠ nextPid s := by
        intro n
        have hno := mt (fun hn => List.any_eq_true.mpr ⟨n, List.mem_finRange n, hn⟩) ht
        rw [Bool.or_eq_true, beq_iff_eq, beq_iff_eq] at hno
        exact not_or.mp hno
      refine ⟨nextPid s, (Option.some.inj h).symm, ?_, ?_, fun hnext => ?_, fun n _ => (hfree n).1,
        fun n _ => (hfree n).2⟩ <;>
      · unfold nextPid INIT_PID at *
        split_ifs <;> omega

/-- Of so many process ids one is free. -/
def pidFuel : ℕ := 2 * NR_PROCS + 1

/-- The entry of a child, as it is made from that of its parent. -/
def childOf (who : ProcNr) (p : MProc) : MProc :=
  { p with
    mp_parent := who
    mp_flags := { p.mp_flags with TRACED := false }
    mp_exitstatus := 0
    mp_sigstatus := 0 }

/-- Set process group: that of a child of `INIT` is its own. -/
def setProcgrp (s : MState) (who rmc : ProcNr) : MState :=
  if who = INIT_PROC_NR then s.set rmc fun p => { p with mp_procgrp := p.mp_pid } else s

/-- The second part of `do_fork`: a slot is found for the child and set up. -/
def makeChild (s : MState) (who : ProcNr) : Option (ℤ × MState) := do
  let rmc ← mprocs.find? fun rmc => !(s.flags rmc).IN_USE
  let s := { s with procs_in_use := s.procs_in_use + 1 }
  let s ← findPid rmc pidFuel (s.set rmc fun _ => childOf who (s.mproc who))
  let s := (setProcgrp s who rmc).record (.fork rmc)
  some ((s.next_pid : ℤ), reply s rmc 0 0)

/-- The process has forked. Create a child process, unless tables might fill up. -/
def doFork (k : Outside) (s : MState) (who : ProcNr) : Option (ℤ × MState) :=
  if s.procs_in_use = NR_PROCS then some (EAGAIN, s)
  else if (NR_PROCS : ℤ) - LAST_FEW ≤ s.procs_in_use ∧ (s.mproc who).mp_effuid ≠ 0 then
    some (EAGAIN, s)
  else if k.memory = false then some (EAGAIN, s)
  else makeChild s who

/-- The status that a parent gets: the signal, and the status given to `exit`. -/
def waitStatus (p : MProc) : ℤ := ((p.mp_sigstatus % 2 ^ 8) ||| (p.mp_exitstatus <<< 8) % 2 ^ 16 : ℕ)

/-- `cleanup` updates the flags. -/
def releaseFlags (s : MState) (child parent : ProcNr) : MState :=
  ((s.setFlags child fun f => { f with TRACED := false, HANGING := false, PAUSED := false }).setFlags
    parent fun f => { f with WAITING := false }).setFlags child fun f => { f with IN_USE := false }

/-- The first part of `cleanup`: wake up the parent, and release the slot. -/
def releaseSlot (s : MState) (child : ProcNr) : MState :=
  let parent := (s.mproc child).mp_parent
  let s := reply s parent (s.mproc child).mp_pid (waitStatus (s.mproc child))
  { releaseFlags s child parent with procs_in_use := s.procs_in_use - 1 }

/-- What is done for one entry in the second part of `cleanup`: a child of the exiting process is
given to `INIT`, and cleaned up if `INIT` was waiting for it. -/
def disinherit (cleanup : MState → ProcNr → Option MState) (child_nr : ProcNr)
    (st : MState × Bool) (rp : ProcNr) : Option (MState × Bool) :=
  if (st.1.mproc rp).mp_parent = child_nr then
    let s := st.1.set rp fun p => { p with mp_parent := INIT_PROC_NR }
    if st.2 ∧ (s.flags rp).HANGING then (cleanup s rp).map fun s => (s, false)
    else some (s, st.2)
  else some st

/-- Clean up the remains of a process. -/
def cleanup : ℕ → MState → ProcNr → Option MState
  | 0, _, _ => none
  | depth + 1, s, child =>
    let s := releaseSlot s child
    let init_waiting := (s.flags INIT_PROC_NR).WAITING
    (mprocs.foldlM (disinherit (cleanup depth) child) (s, init_waiting)).map Prod.fst

/-- So deep are the calls of `cleanup` nested. -/
def cleanupDepth : ℕ := 2

/-- The first part of `mm_exit`: if parent is waiting for the process, clean it up, else hang. -/
def endProc (s : MState) (rmp : ProcNr) : Option MState :=
  if (s.flags (s.mproc rmp).mp_parent).WAITING then cleanup cleanupDepth s rmp
  else some (s.setFlags rmp fun f => { f with HANGING := true })

/-- The second part of `mm_exit`: the timer is turned off, and the kernel and the file system are
told that the process is no longer runnable. The memory that the kernel reports for it is free. -/
def tellExit (s : MState) (rmp : ProcNr) : MState :=
  let s := if (s.flags rmp).ALARM_ON then setAlarm s rmp 0 else s
  (s.record (.exit rmp .sysXit)).record (.exit rmp .freeMem)

/-- A process is done. -/
def mmExit (s : MState) (rmp : ProcNr) (exit_status : ℤ) : Option MState :=
  let s := s.record (.exit rmp .mmExit)
  let s := s.set rmp fun p => { p with mp_exitstatus := (exit_status % 2 ^ 8).toNat }
  (endProc s rmp).map fun s => tellExit s rmp

/-- Perform the exit(status) system call. -/
def doMmExit (s : MState) (who : ProcNr) (status : ℤ) : Option (ℤ × MState) :=
  (mmExit s who status).map fun s => (OK, { s with dont_reply := true })

/-- The search of `do_wait` for a child, from an entry on. -/
def waitFrom (who : ProcNr) : List ProcNr → ℕ → MState → Option (ℤ × MState)
  | [], children, s =>
    if 0 < children then
      some (OK, { s.setFlags who fun f => { f with WAITING := true } with dont_reply := true })
    else some (ECHILD, s)
  | rp :: rest, children, s =>
    if (s.flags rp).IN_USE ∧ (s.mproc rp).mp_parent = who then
      if (s.flags rp).HANGING then
        (cleanup cleanupDepth s rp).map fun s => (OK, { s with dont_reply := true })
      else if (s.flags rp).STOPPED ∧ (s.mproc rp).mp_sigstatus ≠ 0 then
        let s := reply s who (s.mproc rp).mp_pid
          ((127 ||| ((s.mproc rp).mp_sigstatus <<< 8) % 2 ^ 16 : ℕ) : ℤ)
        some (OK, { s.set rp fun p => { p with mp_sigstatus := 0 } with dont_reply := true })
      else waitFrom who rest (children + 1) s
    else waitFrom who rest children s

/-- A process wants to wait for a child to terminate. -/
def doWait (s : MState) (who : ProcNr) : Option (ℤ × MState) := waitFrom who mprocs 0 s

end Minix.Mm
