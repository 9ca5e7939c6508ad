import Minix.Pipe.Fproc

/-!
# Suspension and revival

`fs/pipe.c`, `rw_dev` of `fs/device.c` and `do_revive` of `fs/misc.c`. What tasks answer, and the
`REVIVE` messages that `rw_dev` must take in before it can send its own, is given with a call
(`Outside`).
-/

namespace Minix.Pipe

open Kernel (NR_PROCS)

/-- What a name leads to: an error, an inode that exists, or one that has been created. -/
inductive Looked
  | failed (err_code : ℤ)
  | found (rip : Ino)
  | created (rip : Ino)

/-- What the parts of the system answer that a call depends on. -/
structure Outside where
  path : Looked
  /-- What `forbidden` returns. -/
  forbidden : ℤ
  /-- What `alloc_inode` returns, or its error. -/
  alloc : Except ℤ Ino
  /-- The largest size of a file on the device. -/
  s_max_size : ℕ
  /-- How many bytes the loop of `read_write` moves and with which result it is left, if it fails.
  -/
  io : Option (ℕ × ℤ)
  /-- The task that serves a device, and what it replies. -/
  task : ℤ
  rep_status : ℤ
  /-- The `REVIVE` messages that are taken in before the task gets the message. -/
  locked : List (ProcNr × ℤ)
  /-- Those that are taken in while a terminal is told of a process group. -/
  tty : List (ProcNr × ℤ)

/-- Take measures to suspend the processing of the present system call. -/
def suspend (s : FsState) (fp : ProcNr) (fd : Fin OPEN_MAX) (fs_call : CallNr) (buffer : ℕ → UInt8)
    (nbytes : ℤ) (task : Task) : FsState :=
  let s := if task.onPipe then { s with susp_count := s.susp_count + 1 } else s
  { s.setProc fp fun rfp =>
      { rfp with
        fp_suspended := true
        fp_fd := (fd, fs_call)
        fp_buffer := buffer
        fp_nbytes := nbytes
        fp_task := task } with
    dont_reply := true }

/-- Revive a previously blocked process. -/
def revive (s : FsState) (proc_nr : ProcNr) (bytes : ℤ) : FsState :=
  let rfp := s.fproc proc_nr
  if rfp.fp_suspended = false ∨ rfp.fp_revived then s
  else
    match rfp.fp_task with
    | .XPIPE =>
      let s := s.setProc proc_nr fun rfp => { rfp with fp_revived := true }
      { s with reviving := s.reviving + 1 }
    | .XOPEN =>
      (s.setProc proc_nr fun rfp => { rfp with fp_suspended := false }).reply proc_nr rfp.fp_fd.1.val
    | .task _ =>
      (s.setProc proc_nr fun rfp => { rfp with fp_suspended := false, fp_nbytes := bytes }).reply
        proc_nr bytes

/-- The process hangs on the inode, in the call. -/
def hangs (s : FsState) (ip : Ino) (call_nr : CallNr) (rp : ProcNr) : Bool :=
  (s.fproc rp).fp_suspended && !(s.fproc rp).fp_revived && (s.fproc rp).fp_fd.2 == call_nr &&
    ((s.fproc rp).fp_filp (s.fproc rp).fp_fd.1).any fun f => (s.filp f).filp_ino == ip

/-- The loop of `release`, from a process on. -/
def releaseFrom (ip : Ino) (call_nr : CallNr) : List ProcNr → ℤ → FsState → FsState
  | [], _, s => s
  | rp :: rest, count, s =>
    if hangs s ip call_nr rp then
      let s := revive s rp 0
      let s := { s with susp_count := s.susp_count - 1 }
      if count - 1 = 0 then s else releaseFrom ip call_nr rest (count - 1) s
    else releaseFrom ip call_nr rest count s

/-- Check to see if any process is hanging on the pipe, and release at most so many. -/
def release (s : FsState) (ip : Ino) (call_nr : CallNr) (count : ℤ) : FsState :=
  releaseFrom ip call_nr fprocs count s

/-- Check to see that a read or write on a pipe is feasible now. -/
def pipeCheck (s : FsState) (fp : ProcNr) (fd : Fin OPEN_MAX) (buffer : ℕ → UInt8) (rip : Ino)
    (rw_flag : RwFlag) (oflags : OFlags) (bytes : ℕ) (position : ℕ) : ℤ × FsState :=
  match rw_flag with
  | .READING =>
    if (s.inode rip).i_size ≤ position then
      -- The pipe is empty.
      if (findFilp s rip Mode.W).isSome then
        let (r, s) := if oflags.O_NONBLOCK then (EAGAIN, s)
          else (0, suspend s fp fd .READ buffer bytes .XPIPE)
        -- If need be, activate sleeping writers.
        (r, if 0 < s.susp_count then release s rip .WRITE s.susp_count else s)
      else (0, s)
    else (1, s)
  | .WRITING =>
    if PIPE_SIZE < bytes then (EFBIG, s)
    else if (findFilp s rip Mode.R).isNone then (EPIPE, s.record (.sigpipe fp))
    else if PIPE_SIZE < position + bytes then
      if oflags.O_NONBLOCK then (EAGAIN, s)
      else (0, suspend s fp fd .WRITE buffer bytes .XPIPE)
    -- Writing to an empty pipe.  Search for suspended reader.
    else (1, if position = 0 then release s rip .READ s.susp_count else s)

/-- The messages that `rw_dev` takes in. One for the process whose request is cancelled ends the
request. -/
def rwDev (cancel : Option ProcNr) : List (ProcNr × ℤ) → FsState → FsState
  | [], s => s
  | (proc_nr, status) :: rest, s =>
    if cancel = some proc_nr then s else rwDev cancel rest (revive s proc_nr status)

/-- Abort the system call of a process that a signal has been sent to. -/
def doUnpause (k : Outside) (s : FsState) (who pro : ProcNr) : ℤ × FsState :=
  if MM_PROC_NR < who then (EPERM, s)
  else
    match (s.fproc pro).fp_suspended, (s.fproc pro).fp_task with
    | false, _ => (OK, s)
    | true, .XPIPE => (OK, s)
    | true, .XOPEN =>
      (OK, (s.setProc pro fun rfp => { rfp with fp_suspended := false }).reply pro EINTR)
    | true, .task _ =>
      let s := rwDev (some pro) k.locked s
      (OK, (s.setProc pro fun rfp => { rfp with fp_suspended := false }).reply pro EINTR)

/-- A task has done what was needed for a previous request. -/
def doRevive (s : FsState) (rep_proc_nr : ProcNr) (rep_status : ℤ) : FsState :=
  { revive s rep_proc_nr rep_status with dont_reply := true }

end Minix.Pipe
