import Minix.Lib.Counts
import Minix.Pipe.Suspend

/-!
# Calls on descriptors

The calls of `fs/read.c`, `fs/open.c`, `fs/pipe.c` and `fs/misc.c` that have to do with descriptors,
and the main loop of `fs/main.c`. What a write leaves in the blocks behind the end of the file is
what `rw_chunk` makes of it, for zones of one block.
-/

namespace Minix.Pipe

open Lib
open Kernel (NR_PROCS)

/-- The call that reads or writes. -/
def RwFlag.call : RwFlag → CallNr
  | .READING => .READ
  | .WRITING => .WRITE

/-- The bit that a file must be opened with. -/
def RwFlag.bit : RwFlag → Mode
  | .READING => Mode.R
  | .WRITING => Mode.W

/-- The memory manager loads segments by putting funny things in the upper bits of the descriptor.
-/
def userFd (who : ProcNr) (fd : ℤ) : ℤ :=
  if who = MM_PROC_NR ∧ ¬(0 ≤ fd ∧ fd < 256) then fd % 64 else fd

/-- Where the last chunk of a transfer begins. -/
def lastChunk (position n : ℕ) : ℕ := max position ((position + n - 1) / BLOCK_SIZE * BLOCK_SIZE)

/-- The bytes of a file after a write of `n` bytes. The rest of a block at the end of the file is
zeroed when it is begun. -/
def writeBytes (bytes : ℕ → UInt8) (f_size position n : ℕ) (buffer : ℕ → UInt8) : ℕ → UInt8 := fun p =>
  if position ≤ p ∧ p < position + n then buffer (p - position)
  else if 0 < n ∧ position + n ≤ p ∧ p / BLOCK_SIZE = (position + n - 1) / BLOCK_SIZE ∧
      lastChunk position n % BLOCK_SIZE = 0 ∧ f_size ≤ lastChunk position n then 0
  else bytes p

/-- What the loop of `read_write` does about so many bytes: how many are moved, and the result. -/
def moved (k : Outside) (n : ℕ) : ℕ × ℤ :=
  match k.io with
  | none => (n, OK)
  | some (m, r) => (min m n, r)

/-- So many bytes from an address on. -/
def bytesAt (f : ℕ → UInt8) (start n : ℕ) : List UInt8 := (List.range n).map fun i => f (start + i)

/-- The end of `read_write`: `cum_io` bytes have been moved, and `r` is the result of the transfer.
-/
def rwEnd (s : FsState) (f : FilpNr) (rip : Ino) (rw_flag : RwFlag) (f_size position : ℕ) (cum_io : ℕ)
    (r : ℤ) : ℤ × FsState :=
  let result := if r = OK then (cum_io : ℤ) else r
  let ip := s.inode rip
  match rw_flag with
  | .WRITING =>
    let s := if ip.i_type ≠ .I_CHAR_SPECIAL ∧ ip.i_type ≠ .I_BLOCK_SPECIAL ∧ f_size < position then
      s.setInode rip fun ip => { ip with i_size := position } else s
    (result, s.setFilp f fun f => { f with filp_pos := position })
  | .READING =>
    if ip.i_pipe ∧ ip.i_size ≤ position then
      -- Reset pipe pointers.
      let s := s.setInode rip fun ip => { ip with i_size := 0 }
      let s := match findFilp s rip Mode.W with
        | some wf => s.setFilp wf fun wf => { wf with filp_pos := 0 }
        | none => s
      (result, s.setFilp f fun f => { f with filp_pos := 0 })
    else (result, s.setFilp f fun f => { f with filp_pos := position })

/-- The size that counts for a transfer: a block special file without one has no end. -/
def fSize (ip : Inode) : ℕ :=
  if ip.i_type = .I_BLOCK_SPECIAL ∧ ip.i_size = 0 then MAX_P_LONG else ip.i_size

/-- The loop of `read_write` and what comes after it. -/
def transfer (k : Outside) (s : FsState) (who : ProcNr) (f : FilpNr) (rip : Ino) (rw_flag : RwFlag)
    (f_size position nbytes : ℕ) (buffer : ℕ → UInt8) : ℤ × FsState :=
  match rw_flag with
  | .READING =>
    let (n, r) := moved k (min nbytes (f_size - position))
    let s := s.record (.read who rip (bytesAt (s.inode rip).bytes position n))
    rwEnd s f rip .READING f_size (position + n) n r
  | .WRITING =>
    -- Only block special files are not written beyond their end.
    let left := if (s.inode rip).i_type = .I_BLOCK_SPECIAL then f_size - position else nbytes
    let (n, r) := moved k (min nbytes left)
    let s := (s.setInode rip fun ip =>
      { ip with bytes := writeBytes ip.bytes ip.i_size position n buffer }).record
        (.wrote who rip (bytesAt buffer 0 n))
    rwEnd s f rip .WRITING f_size (position + n) n r

/-- A character special file is read or written: the work is done by a task. -/
def rwChar (k : Outside) (s : FsState) (who : ProcNr) (fd : Fin OPEN_MAX) (f : FilpNr) (rip : Ino)
    (rw_flag : RwFlag) (nbytes : ℕ) (buffer : ℕ → UInt8) : ℤ × FsState :=
  let position := (s.filp f).filp_pos
  let s := rwDev none k.locked s
  let s := if k.rep_status = SUSPEND then
    suspend s who fd rw_flag.call buffer nbytes (.task k.task) else s
  if 0 ≤ k.rep_status then
    rwEnd s f rip rw_flag (fSize (s.inode rip)) (position + k.rep_status.toNat) k.rep_status.toNat OK
  else rwEnd s f rip rw_flag (fSize (s.inode rip)) position 0 k.rep_status

/-- Any other file is read or written. -/
def rwFile (k : Outside) (s : FsState) (who : ProcNr) (fd : Fin OPEN_MAX) (f : FilpNr) (rip : Ino)
    (rw_flag : RwFlag) (nbytes : ℕ) (buffer : ℕ → UInt8) : ℤ × FsState :=
  let oflags := (s.filp f).filp_flags
  let f_size := fSize (s.inode rip)
  let writes := rw_flag = .WRITING ∧ (s.inode rip).i_type ≠ .I_BLOCK_SPECIAL
  if writes ∧ k.s_max_size < (s.filp f).filp_pos + nbytes then (EFBIG, s)
  else
    let position := if writes ∧ oflags.O_APPEND then f_size else (s.filp f).filp_pos
    if (s.inode rip).i_pipe then
      let (r, s) := pipeCheck s who fd buffer rip rw_flag oflags nbytes position
      if r ≤ 0 then (r, s) else transfer k s who f rip rw_flag f_size position nbytes buffer
    else transfer k s who f rip rw_flag f_size position nbytes buffer

/-- Perform the `read` or `write` call. -/
def readWrite (k : Outside) (s : FsState) (who : ProcNr) (rw_flag : RwFlag) (fd nbytes : ℤ)
    (buffer : ℕ → UInt8) : ℤ × FsState :=
  if nbytes < 0 then (EINVAL, s)
  else
    match getFilp s who (userFd who fd) with
    | none => (EBADF, s)
    | some (fd, f) =>
      let rip := (s.filp f).filp_ino
      if (s.filp f).filp_mode.meets rw_flag.bit = false then (EBADF, s)
      else if nbytes = 0 then (0, s)
      else if MAX_FILE_POS < (s.filp f).filp_pos then (EINVAL, s)
      else if (s.inode rip).i_type = .I_CHAR_SPECIAL then
        rwChar k s who fd f rip rw_flag nbytes.toNat buffer
      else rwFile k s who fd f rip rw_flag nbytes.toNat buffer

/-- Perform the `lseek` call. -/
def doLseek (s : FsState) (who : ProcNr) (ls_fd offset : ℤ) (whence : ℕ) : ℤ × FsState :=
  match getFilp s who ls_fd with
  | none => (EBADF, s)
  | some (_, f) =>
    if (s.inode (s.filp f).filp_ino).i_pipe then (ESPIPE, s)
    else
      let pos : Option ℤ := match whence with
        | 0 => some offset
        | 1 => some ((s.filp f).filp_pos + offset)
        | 2 => some ((s.inode (s.filp f).filp_ino).i_size + offset)
        | _ => none
      match pos with
      | none => (EINVAL, s)
      | some pos =>
        if pos < 0 ∨ (MAX_FILE_POS : ℤ) < pos then (EINVAL, s)
        else (OK, s.setFilp f fun f => { f with filp_pos := pos.toNat })

/-- Perform the `pipe` call; the descriptors that it returns are not modelled. -/
def doPipe (k : Outside) (s : FsState) (fp : ProcNr) : ℤ × FsState :=
  -- Acquire two file descriptors.
  match getFd s fp 0 Mode.R with
  | .error r => (r, s)
  | .ok (fd₀, fil₀, s) =>
    let s := (s.setFd fp fd₀ (some fil₀)).setFilp fil₀ fun f => { f with filp_count := 1 }
    match getFd s fp 0 Mode.W with
    | .error r => (r, (s.setFd fp fd₀ none).setFilp fil₀ fun f => { f with filp_count := 0 })
    | .ok (fd₁, fil₁, s) =>
      let s := (s.setFd fp fd₁ (some fil₁)).setFilp fil₁ fun f => { f with filp_count := 1 }
      match k.alloc with
      | .error err_code =>
        let s := (s.setFd fp fd₀ none).setFilp fil₀ fun f => { f with filp_count := 0 }
        (err_code, (s.setFd fp fd₁ none).setFilp fil₁ fun f => { f with filp_count := 0 })
      | .ok rip =>
        let s := s.setInode rip fun ip =>
          { wipeInode ip with i_type := .I_REGULAR, i_nlinks := 0, i_count := 1, i_pipe := true }
        let s := s.setFilp fil₀ fun f => { f with filp_ino := rip }
        (OK, (dupInode s rip).setFilp fil₁ fun f => { f with filp_ino := rip })

/-- Check if there is a reader and a writer for the pipe; if not suspend the caller, otherwise
revive all processes that wait for it to be opened. -/
def pipeOpen (s : FsState) (fp : ProcNr) (fd : Fin OPEN_MAX) (fs_call : CallNr) (rip : Ino)
    (oflags : OFlags) : ℤ × FsState :=
  if (findFilp s rip (if oflags.bits.W_BIT then Mode.R else Mode.W)).isNone then
    if oflags.O_NONBLOCK then (if oflags.bits.W_BIT then ENXIO else OK, s)
    else (OK, (suspend s fp fd fs_call (fun _ => 0) 0 .XOPEN).setInode rip fun ip =>
      { ip with i_pipe := true })
  else
    let s := if 0 < s.susp_count then
      let s := release s rip .OPEN s.susp_count
      release s rip .CREAT s.susp_count else s
    (OK, s.setInode rip fun ip => { ip with i_pipe := true })

/-- Opening a file that exists, as far as its type matters. -/
def openType (k : Outside) (s : FsState) (fp : ProcNr) (fd : Fin OPEN_MAX) (fs_call : CallNr)
    (rip : Ino) (oflags : OFlags) : ℤ × FsState :=
  match (s.inode rip).i_type with
  | .I_REGULAR =>
    (OK, if oflags.O_TRUNC then s.setInode rip fun ip => wipeInode (truncate ip) else s)
  | .I_DIRECTORY => (if oflags.bits.W_BIT then EISDIR else OK, s)
  | .I_CHAR_SPECIAL =>
    -- A terminal may become the controlling one.
    if 1 < (s.inode rip).i_count then (OK, s) else (k.rep_status, rwDev none k.tty s)
  | .I_BLOCK_SPECIAL => (OK, s)
  | .I_NAMED_PIPE => pipeOpen s fp fd fs_call rip oflags

/-- The part of `common_open` behind the search for the file. -/
def openFound (k : Outside) (s : FsState) (fp : ProcNr) (fd : Fin OPEN_MAX) (fil_ptr : FilpNr)
    (fs_call : CallNr) (oflags : OFlags) (rip : Ino) (exist : Bool) (r : ℤ) : ℤ × FsState :=
  let (r, s) := if exist then
    if k.forbidden = OK then openType k s fp fd fs_call rip oflags else (k.forbidden, s)
    else (r, s)
  if r ≠ OK then (r, putInode s rip)
  else
    (fd.val, (s.setFd fp fd (some fil_ptr)).setFilp fil_ptr fun f =>
      { f with filp_count := 1, filp_ino := rip, filp_flags := oflags })

/-- Common code from `do_creat` and `do_open`. -/
def commonOpen (k : Outside) (s : FsState) (fp : ProcNr) (fs_call : CallNr) (oflags : OFlags) :
    ℤ × FsState :=
  match getFd s fp 0 oflags.bits with
  | .error r => (r, s)
  | .ok (fd, fil_ptr, s) =>
    match k.path with
    | .failed err_code => (err_code, s)
    | .found rip =>
      -- With `O_CREAT`, that it exists is an error if `O_EXCL` is set.
      openFound k (dupInode s rip) fp fd fil_ptr fs_call oflags rip
        (!(oflags.O_CREAT && oflags.O_EXCL)) EEXIST
    | .created rip =>
      let s := s.setInode rip fun ip =>
        { wipeInode ip with i_type := .I_REGULAR, i_nlinks := 1, i_count := 1, i_pipe := false }
      openFound k s fp fd fil_ptr fs_call oflags rip false OK

/-- What `do_creat` opens a file with. -/
def creatFlags : OFlags := ⟨Mode.W, true, false, true, false, false⟩

/-- Perform the `close` call. -/
def doClose (s : FsState) (fp : ProcNr) (fd : ℤ) : ℤ × FsState :=
  match getFilp s fp fd with
  | none => (EBADF, s)
  | some (fd, rfilp) =>
    let rip := (s.filp rfilp).filp_ino
    -- If the inode being closed is a pipe, release everyone hanging on it.
    let s := if (s.inode rip).i_pipe then
      release s rip (if (s.filp rfilp).filp_mode.R_BIT then .WRITE else .READ) NR_PROCS else s
    let s := s.setFilp rfilp fun f => { f with filp_count := f.filp_count - 1 }
    let s := if (s.filp rfilp).filp_count = 0 then putInode s rip else s
    (OK, s.setFd fp fd none)

/-- Perform the `dup` or `dup2` call; the bit that tells them apart is whether there is an `fd2`. -/
def doDup (s : FsState) (fp : ProcNr) (rfd : ℤ) (fd2 : Option ℤ) : ℤ × FsState :=
  match getFilp s fp rfd with
  | none => (EBADF, s)
  | some (fd, f) =>
    match fd2 with
    | none =>
      match getFd s fp 0 Mode.none with
      | .error r => (r, s)
      | .ok (new_fd, _, s) =>
        (new_fd.val, (s.setFilp f fun f => { f with filp_count := f.filp_count + 1 }).setFd fp new_fd
          (some f))
    | some fd2 =>
      match toFd fd2 with
      | none => (EBADF, s)
      | some new_fd =>
        if fd = new_fd then (fd2, s)
        else
          let (_, s) := doClose s fp fd2
          (fd2, (s.setFilp f fun f => { f with filp_count := f.filp_count + 1 }).setFd fp new_fd
            (some f))

/-- The requests of `fcntl`. -/
inductive Fcntl
  | F_DUPFD (addr : ℤ)
  | F_GETFL
  | F_SETFL (append nonblock : Bool)
  | other

/-- Perform the `fcntl` call; the flags that `F_GETFL` returns are not modelled. -/
def doFcntl (s : FsState) (fp : ProcNr) (fd : ℤ) (request : Fcntl) : ℤ × FsState :=
  match getFilp s fp fd with
  | none => (EBADF, s)
  | some (_, f) =>
    match request with
    | .F_DUPFD addr =>
      if addr < 0 ∨ (OPEN_MAX : ℤ) ≤ addr then (EINVAL, s)
      else
        match getFd s fp addr.toNat Mode.none with
        | .error r => (r, s)
        | .ok (new_fd, _, s) =>
          (new_fd.val, (s.setFilp f fun f => { f with filp_count := f.filp_count + 1 }).setFd fp new_fd
            (some f))
    | .F_GETFL => (OK, s)
    | .F_SETFL append nonblock =>
      (OK, s.setFilp f fun f =>
        { f with filp_flags := { f.filp_flags with O_APPEND := append, O_NONBLOCK := nonblock } })
    | .other => (EINVAL, s)

/-- Perform the `ioctl` call, which is up to the task of the terminal. -/
def doIoctl (k : Outside) (s : FsState) (who : ProcNr) (ls_fd : ℤ) : ℤ × FsState :=
  match getFilp s who ls_fd with
  | none => (EBADF, s)
  | some (fd, f) =>
    if (s.inode (s.filp f).filp_ino).i_type ≠ .I_CHAR_SPECIAL then (ENOTTY, s)
    else
      let s := rwDev none k.locked s
      (k.rep_status, if k.rep_status = SUSPEND then
        suspend s who fd .IOCTL (fun _ => 0) 0 (.task k.task) else s)

/-- The child has the same files open. -/
def doFork (s : FsState) (who parent child : ProcNr) : ℤ × FsState :=
  if who ≠ MM_PROC_NR then (ERROR, s)
  else
    let s := { s with fproc := Function.update s.fproc child (s.fproc parent) }
    (OK, { s with
      filp := fun f => { s.filp f with
        filp_count := (s.filp f).filp_count +
          (fds.filter fun i => (s.fproc child).fp_filp i == some f).length } })

/-- The first part of `do_exit`: an exiting process does not wait any more. -/
def exitUnpause (k : Outside) (s : FsState) (exitee : ProcNr) : FsState :=
  if (s.fproc exitee).fp_suspended then
    let s := if (s.fproc exitee).fp_task.onPipe then { s with susp_count := s.susp_count - 1 } else s
    ((doUnpause k s MM_PROC_NR exitee).2).setProc exitee fun rfp => { rfp with fp_suspended := false }
  else s

/-- Close all files of a process. -/
def closeAll (s : FsState) (fp : ProcNr) : FsState :=
  fds.foldl (fun s i => (doClose s fp i.val).2) s

/-- Perform the file system portion of the `exit` call. -/
def doExit (k : Outside) (s : FsState) (who slot1 : ProcNr) : ℤ × FsState :=
  if who ≠ MM_PROC_NR then (ERROR, s)
  else (OK, closeAll (exitUnpause k (rwDev none k.tty s) slot1) slot1)

/-! ## The main loop -/

/-- The calls. What the others do to files is given with them. -/
inductive FsCall
  | read (fd nbytes : ℤ)
  | write (fd nbytes : ℤ) (buffer : ℕ → UInt8)
  | open (oflags : OFlags)
  | creat
  | close (fd : ℤ)
  | lseek (ls_fd offset : ℤ) (whence : ℕ)
  | dup (rfd : ℤ) (fd2 : Option ℤ)
  | fcntl (fd : ℤ) (request : Fcntl)
  | ioctl (ls_fd : ℤ)
  | pipe
  | fork (parent child : ProcNr)
  | exit (slot1 : ProcNr)
  | unpause (pro : ProcNr)
  | other (inode : Ino → Inode) (result : ℤ)

/-- The internal function that does the work. -/
def perform (k : Outside) (s : FsState) (who : ProcNr) : FsCall → ℤ × FsState
  | .read fd nbytes => readWrite k s who .READING fd nbytes fun _ => 0
  | .write fd nbytes buffer => readWrite k s who .WRITING fd nbytes buffer
  | .open oflags => commonOpen k s who .OPEN oflags
  | .creat => commonOpen k s who .CREAT creatFlags
  | .close fd => doClose s who fd
  | .lseek ls_fd offset whence => doLseek s who ls_fd offset whence
  | .dup rfd fd2 => doDup s who rfd fd2
  | .fcntl fd request => doFcntl s who fd request
  | .ioctl ls_fd => doIoctl k s who ls_fd
  | .pipe => doPipe k s who
  | .fork parent child => doFork s who parent child
  | .exit slot1 => doExit k s who slot1
  | .unpause pro => doUnpause k s who pro
  | .other inode result => (result, { s with inode := inode })

/-- Copy the results back to the user and send reply. -/
def sendReply (who : ProcNr) (r : ℤ × FsState) : FsState :=
  if r.2.dont_reply then r.2 else r.2.reply who r.1

/-- The part of the main loop behind `get_work`. -/
def mainTurn (k : Outside) (s : FsState) (who : ProcNr) (c : FsCall) : FsState :=
  sendReply who (perform k { s with dont_reply := false } who c)

/-- `get_work`, when a suspended process must be awakened: who it is, and the state afterwards. -/
def getWork (s : FsState) : Option (ProcNr × FsState) :=
  (fprocs.find? fun rp => (s.fproc rp).fp_revived).map fun rp =>
    (rp, { s.setProc rp fun rfp => { rfp with fp_suspended := false, fp_revived := false } with
      reviving := s.reviving - 1 })

/-- The call that was saved. -/
def savedCall (rfp : Fproc) : FsCall :=
  let fd := (rfp.fp_fd.1.val : ℤ)
  match rfp.fp_fd.2 with
  | .READ => .read fd rfp.fp_nbytes
  | .WRITE => .write fd rfp.fp_nbytes rfp.fp_buffer
  | .OPEN => .open OFlags.zero
  | .CREAT => .creat
  | .IOCTL => .ioctl fd

/-- What may happen. -/
inductive FsAction
  | message (who : ProcNr) (c : FsCall) (k : Outside)
  | restart (k : Outside)
  | revive (rep_proc_nr : ProcNr) (rep_status : ℤ)

/-- The process is suspended by another process, and not by a task. -/
def OnPipe (s : FsState) (p : ProcNr) : Prop :=
  (s.fproc p).fp_suspended = true ∧ (s.fproc p).fp_task.onPipe = true

/-- What is promised of answers: tasks reply to requests that they have got, and inodes that are
allocated are not in use. -/
structure Honest (s : FsState) (k : Outside) : Prop where
  locked : ∀ m ∈ k.locked, ¬OnPipe s m.1
  tty : ∀ m ∈ k.tty, ¬OnPipe s m.1
  alloc : ∀ rip, k.alloc = .ok rip → (s.inode rip).i_count = 0
  created : ∀ rip, k.path = .created rip → (s.inode rip).i_count = 0

/-- How many open files the inode has. -/
def opens (s : FsState) (rip : Ino) : ℕ :=
  howMany fun f => (s.filp f).filp_count != 0 && (s.filp f).filp_ino == rip

/-- What is promised of calls: a process that forks is not suspended, and its child has been no
process so far; and calls that have nothing to do with descriptors keep the files that are open. -/
def Proper (s : FsState) : FsCall → Prop
  | .fork parent child => (s.fproc parent).fp_suspended = false ∧
      (s.fproc child).fp_suspended = false ∧ ∀ fd, (s.fproc child).fp_filp fd = none
  | .other inode _ => ∀ rip, (inode rip).i_pipe = (s.inode rip).i_pipe ∧
      ((s.inode rip).i_count ≠ 0 ∨ (s.inode rip).i_pipe = true →
        (inode rip).i_type = (s.inode rip).i_type) ∧
      opens s rip ≤ (inode rip).i_count
  | _ => True

/-- One turn of the main loop. -/
inductive FsStep (s : FsState) : FsAction → FsState → Prop
  | message {who : ProcNr} {c : FsCall} {k : Outside} (hidle : s.reviving = 0)
      (hrun : (s.fproc who).fp_suspended = false) (hk : Honest s k) (hc : Proper s c) :
      FsStep s (.message who c k) (mainTurn k s who c)
  | restart {who : ProcNr} {k : Outside} {s₁ : FsState} (hbusy : s.reviving ≠ 0)
      (hwork : getWork s = some (who, s₁)) (hk : Honest s₁ k) :
      FsStep s (.restart k) (mainTurn k s₁ who (savedCall (s.fproc who)))
  | revive {rep_proc_nr : ProcNr} {rep_status : ℤ} (hidle : s.reviving = 0)
      (hk : ¬OnPipe s rep_proc_nr) :
      FsStep s (.revive rep_proc_nr rep_status)
        (doRevive { s with dont_reply := false } rep_proc_nr rep_status)

/-- The tables when the file system starts. -/
structure FsBoot (s : FsState) : Prop where
  suspended : ∀ p, (s.fproc p).fp_suspended = false
  revived : ∀ p, (s.fproc p).fp_revived = false
  fp_filp : ∀ p fd, (s.fproc p).fp_filp fd = none
  filp_count : ∀ f, (s.filp f).filp_count = 0
  i_pipe : ∀ rip, (s.inode rip).i_pipe = false
  susp_count : s.susp_count = 0
  reviving : s.reviving = 0
  log : s.log = []

end Minix.Pipe
