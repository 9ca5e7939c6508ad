import Mathlib.Algebra.BigOperators.Fin
import Mathlib.Data.Fintype.Basic
import Minix.Kernel.Proc
import Minix.Lib.Indices

/-!
# Processes, descriptors and open files

The data of `fs/fproc.h`, `fs/file.h` and `fs/inode.h`, as far as suspended processes and pipes go.
A pointer into `filp[]` is a `FilpNr`. Inodes are known by what they are on their device, and
`i_count = 0` says that one is not in the table. The bytes of a file are kept with the inode.

Two fields are not variables of the file system, but record what it tells others, newest first:
`replies` has the replies, and `log` what is done to pipes.
-/

namespace Minix.Pipe

open Kernel (NR_PROCS)

/-- The address of an entry of `fproc[]`, which is also the number of the process. -/
abbrev ProcNr := Fin NR_PROCS

/-- The memory manager. -/
abbrev MM_PROC_NR : ProcNr := 0

/-- How many files a process may have open. -/
abbrev OPEN_MAX : ℕ := 20

/-- How many slots the filp table has. -/
abbrev NR_FILPS : ℕ := 64

/-- The address of an entry of `filp[]`. -/
abbrev FilpNr := Fin NR_FILPS

/-- An inode of a device. -/
abbrev Ino := ℕ

/-- Number of bytes of a block, and of a pipe. -/
def BLOCK_SIZE : ℕ := 1024
def PIPE_SIZE : ℕ := 7 * BLOCK_SIZE

def MAX_FILE_POS : ℕ := 2147483647
def MAX_P_LONG : ℕ := 2147483647

/-- The results of calls, as `errno.h` has them for the system. -/
def OK : ℤ := 0
def ERROR : ℤ := -1
def EPERM : ℤ := -1
def EINTR : ℤ := -4
def ENXIO : ℤ := -6
def EBADF : ℤ := -9
def EAGAIN : ℤ := -11
def EEXIST : ℤ := -17
def EISDIR : ℤ := -21
def EINVAL : ℤ := -22
def ENFILE : ℤ := -23
def EMFILE : ℤ := -24
def ENOTTY : ℤ := -25
def EFBIG : ℤ := -27
def ESPIPE : ℤ := -29
def EPIPE : ℤ := -32

/-- What a task replies when it cannot do the work yet. -/
def SUSPEND : ℤ := -998

/-- The calls for which a process may be suspended. -/
inductive CallNr
  | READ
  | WRITE
  | OPEN
  | CREAT
  | IOCTL
  deriving DecidableEq, Repr

/-- Whether a file is read or written. -/
inductive RwFlag
  | READING
  | WRITING
  deriving DecidableEq, Repr

/-- What a process waits for. -/
inductive Task
  | XPIPE
  | XOPEN
  | task (task_nr : ℤ)
  deriving DecidableEq, Repr

/-- The process waits for another process, which `susp_count` counts. -/
def Task.onPipe : Task → Bool
  | .XPIPE | .XOPEN => true
  | .task _ => false

/-- The `RW` bits, which tell how a file is opened. -/
structure Mode where
  R_BIT : Bool
  W_BIT : Bool
  deriving DecidableEq, Repr

/-- `mode & bits`. -/
def Mode.meets (m bits : Mode) : Bool := m.R_BIT && bits.R_BIT || m.W_BIT && bits.W_BIT

/-- Only one of the bits. -/
def Mode.R : Mode := ⟨true, false⟩
def Mode.W : Mode := ⟨false, true⟩
def Mode.none : Mode := ⟨false, false⟩

/-- The flags of `open` and `fcntl`; the bottom two bits are remapped. -/
structure OFlags where
  bits : Mode
  O_CREAT : Bool
  O_EXCL : Bool
  O_TRUNC : Bool
  O_APPEND : Bool
  O_NONBLOCK : Bool
  deriving DecidableEq, Repr

/-- No flags. -/
def OFlags.zero : OFlags := ⟨Mode.none, false, false, false, false, false⟩

/-- The types of files. -/
inductive FileType
  | I_REGULAR
  | I_DIRECTORY
  | I_CHAR_SPECIAL
  | I_BLOCK_SPECIAL
  | I_NAMED_PIPE
  deriving DecidableEq, Repr

/-- An entry of `fproc[]`. `fp_fd` is the descriptor and the call, which the code packs into a word.
-/
structure Fproc where
  fp_filp : Fin OPEN_MAX → Option FilpNr
  fp_fd : Fin OPEN_MAX × CallNr
  /-- The bytes from the address of the buffer on. -/
  fp_buffer : ℕ → UInt8
  fp_nbytes : ℤ
  fp_suspended : Bool
  fp_revived : Bool
  fp_task : Task

/-- An entry of `filp[]`. -/
structure Filp where
  filp_mode : Mode
  filp_flags : OFlags
  filp_count : ℕ
  filp_ino : Ino
  filp_pos : ℕ

/-- An inode. -/
structure Inode where
  i_type : FileType
  i_nlinks : ℕ
  i_count : ℕ
  i_pipe : Bool
  i_size : ℕ
  bytes : ℕ → UInt8

/-- What happens to pipes. -/
inductive PipeEvent
  /-- So many bytes are read from the pipe, or written to it. -/
  | read (who : ProcNr) (rip : Ino) (bytes : List UInt8)
  | wrote (who : ProcNr) (rip : Ino) (bytes : List UInt8)
  /-- The kernel is told to generate a `SIGPIPE`. -/
  | sigpipe (who : ProcNr)
  deriving DecidableEq, Repr

/-- The variables of the file system. -/
@[ext] structure FsState where
  fproc : ProcNr → Fproc
  filp : FilpNr → Filp
  inode : Ino → Inode
  susp_count : ℤ
  reviving : ℤ
  dont_reply : Bool
  replies : List (ProcNr × ℤ)
  log : List PipeEvent

/-- An assignment to fields of a process. -/
def FsState.setProc (s : FsState) (p : ProcNr) (f : Fproc → Fproc) : FsState :=
  { s with fproc := Function.update s.fproc p (f (s.fproc p)) }

/-- An assignment to fields of an open file. -/
def FsState.setFilp (s : FsState) (fil : FilpNr) (f : Filp → Filp) : FsState :=
  { s with filp := Function.update s.filp fil (f (s.filp fil)) }

/-- An assignment to fields of an inode. -/
def FsState.setInode (s : FsState) (rip : Ino) (f : Inode → Inode) : FsState :=
  { s with inode := Function.update s.inode rip (f (s.inode rip)) }

/-- An assignment to a descriptor of a process. -/
def FsState.setFd (s : FsState) (p : ProcNr) (fd : Fin OPEN_MAX) (fil : Option FilpNr) : FsState :=
  s.setProc p fun rfp => { rfp with fp_filp := Function.update rfp.fp_filp fd fil }

/-- A record of what happened. -/
def FsState.record (s : FsState) (e : PipeEvent) : FsState := { s with log := e :: s.log }

/-- Send a reply to a user process. -/
def FsState.reply (s : FsState) (whom : ProcNr) (result : ℤ) : FsState :=
  { s with replies := (whom, result) :: s.replies }

/-- The entries of `fproc[]`, of `filp[]` and of a descriptor table, in order. -/
def fprocs : List ProcNr := List.finRange NR_PROCS
def filps : List FilpNr := List.finRange NR_FILPS
def fds : List (Fin OPEN_MAX) := List.finRange OPEN_MAX

/-- The descriptor, if it is in range. -/
def toFd (fild : ℤ) : Option (Fin OPEN_MAX) :=
  if h : fild.toNat < OPEN_MAX then if 0 ≤ fild then some ⟨fild.toNat, h⟩ else none else none

/-- See if a descriptor is valid; if so, return it and its filp. -/
def getFilp (s : FsState) (fp : ProcNr) (fild : ℤ) : Option (Fin OPEN_MAX × FilpNr) :=
  (toFd fild).bind fun fd => ((s.fproc fp).fp_filp fd).map fun f => (fd, f)

/-- Look for a free descriptor from `start` on and a free filp slot, and fill in the mode word in
the latter, but claim neither yet. -/
def getFd (s : FsState) (fp : ProcNr) (start : ℕ) (bits : Mode) :
    Except ℤ (Fin OPEN_MAX × FilpNr × FsState) :=
  match fds.find? fun i => decide (start ≤ i.val) && ((s.fproc fp).fp_filp i).isNone with
  | none => .error EMFILE
  | some k =>
    match filps.find? fun f => (s.filp f).filp_count == 0 with
    | none => .error ENFILE
    | some f =>
      .ok (k, f, s.setFilp f fun f =>
        { f with filp_mode := bits, filp_pos := 0, filp_flags := OFlags.zero })

/-- Find a filp slot that refers to the inode in a way as described by the mode bits. -/
def findFilp (s : FsState) (rip : Ino) (bits : Mode) : Option FilpNr :=
  filps.find? fun f =>
    (s.filp f).filp_count != 0 && (s.filp f).filp_ino == rip && (s.filp f).filp_mode.meets bits

/-- The inode has another user. -/
def dupInode (s : FsState) (rip : Ino) : FsState :=
  s.setInode rip fun ip => { ip with i_count := ip.i_count + 1 }

/-- Erase the size of an inode, and its zones. -/
def wipeInode (ip : Inode) : Inode := { ip with i_size := 0, bytes := fun _ => 0 }

/-- Remove all the zones from an inode. That of a pipe is wiped; others keep size and zone numbers,
which are to be wiped by the caller, if at all. -/
def truncate (ip : Inode) : Inode := if ip.i_pipe then wipeInode ip else ip

/-- The caller is no longer using the inode. If no one else is, a pipe is truncated. -/
def putInode (s : FsState) (rip : Ino) : FsState :=
  s.setInode rip fun ip =>
    let ip := { ip with i_count := ip.i_count - 1 }
    if ip.i_count = 0 then { truncate ip with i_pipe := false } else ip

end Minix.Pipe
