import Minix.Fs.Write

/-!
# Reading and writing files

`read_write`, `rw_chunk` and `rw_user` of `fs/read.c`, and `do_lseek` of `fs/open.c`, for every file
but the character special ones. What `sys_copy` returns for the copies to come is a list, in which
an exhausted one stands for copies that succeed. A copy that fails moves nothing.

`read_write` is in parts: the checks in front of its loop, the loop on the chunks, and what is
updated behind it. Between the first two, a pipe is checked.
-/

namespace Minix.Fs

/-- The type of a regular file. -/
def I_REGULAR : ℕ := 0o100000

/-- The type of a named pipe. -/
def I_NAMED_PIPE : ℕ := 0o010000

/-- The type of a directory. -/
def I_DIRECTORY : ℕ := 0o040000

def R_BIT : ℕ := 4
def W_BIT : ℕ := 2
def O_APPEND : ℕ := 0o2000
def O_NONBLOCK : ℕ := 0o4000

def MAX_FILE_POS : ℕ := 2147483647

def EBADF : ℤ := -9
def EINVAL : ℤ := -22

/-- The memory of a process, and what the copies to come return. -/
structure User where
  mem : ℕ → UInt8
  copies : List ℤ

/-- An open file, as far as it is read and written. -/
structure Filp where
  filp_mode : ℕ
  filp_flags : ℕ
  filp_pos : ℕ

/-- The variables of `read_write`, and what it works on. -/
structure Xfer where
  cache : Cache
  rip : Inode
  user : User
  position : ℕ
  nbytes : ℕ
  buffer : ℕ
  cum_io : ℕ
  r : ℤ

/-- Whether the type of an inode is that of a regular file or a named pipe. -/
def Inode.regular (rip : Inode) : Bool :=
  rip.i_mode &&& I_TYPE = I_REGULAR ∨ rip.i_mode &&& I_TYPE = I_NAMED_PIPE

/-- Whether an inode is that of a directory. -/
def Inode.directory (rip : Inode) : Bool := rip.i_mode &&& I_TYPE = I_DIRECTORY

/-- Bytes that come from a process, in a block. -/
def fromUser (mem : ℕ → UInt8) (buff off chunk : ℕ) (b : Block) : Block := fun k =>
  if off ≤ k.val ∧ k.val < off + chunk then mem (buff + (k.val - off)) else b k

/-- Bytes of a block that go to a process. -/
def toUser (mem : ℕ → UInt8) (buff off chunk : ℕ) (b : Block) : ℕ → UInt8 := fun i =>
  if h : buff ≤ i ∧ i < buff + chunk ∧ off + (i - buff) < BLOCK_SIZE then b ⟨off + (i - buff), h.2.2⟩
  else mem i

/-- Transfer a block of data, and mark it as dirty when it has been written. -/
def rwUser (x : Xfer) (rw_flag : RwFlag) (bp : Buf) (off chunk : ℕ) : Xfer :=
  let r := x.user.copies.headD OK
  let b := x.cache.b_data bp
  let u := { x.user with copies := x.user.copies.tail }
  match rw_flag with
  | .READING =>
    { x with
      user := { u with mem := if r = OK then toUser u.mem x.buffer off chunk b else u.mem }
      r := r }
  | .WRITING =>
    { x with
      user := u
      cache := writeBuf x.cache bp (if r = OK then fromUser u.mem x.buffer off chunk b else b)
      r := r }

/-- The buffer for a block that no zone is there for. -/
def holeBuf (s : Cache) (sp : SuperBlock) (rip : Inode) (position : ℕ) (rw_flag : RwFlag) :
    Option (Written Buf) :=
  match rw_flag with
  | .READING => do
    let (bp, s) ← getBlock s NO_DEV NO_BLOCK .NORMAL
    some ⟨.ok bp, rip, zeroBlock s bp⟩
  | .WRITING => newBlock s sp rip position

/-- A full block need not be read in, nor one at the end of the file. -/
def writeSearch (rip : Inode) (position off chunk : ℕ) : Search :=
  if chunk = BLOCK_SIZE then .NO_READ
  else if rip.blockSpec = false ∧ off = 0 ∧ position ≥ rip.i_size then .NO_READ
  else .NORMAL

/-- The buffer for a block that is there. -/
def blockBuf (s : Cache) (sp : SuperBlock) (rip : Inode) (b position off chunk left : ℕ)
    (rw_flag : RwFlag) : Option (Written Buf) := do
  let (bp, s) ← match rw_flag with
    | .READING => rahead s rip sp.s_log_zone_size b position left
    | .WRITING => getBlock s (raheadDev rip) b (writeSearch rip position off chunk)
  some ⟨.ok bp, rip, s⟩

/-- The block of a position, of a block special file or of another one. -/
def chunkBlock (s : Cache) (sp : SuperBlock) (rip : Inode) (position : ℕ) : Option (ℕ × Cache) :=
  if rip.blockSpec then some (unshort (position / BLOCK_SIZE), s)
  else readMap s rip sp.s_log_zone_size position

/-- The buffer for a chunk. -/
def chunkBuf (s : Cache) (sp : SuperBlock) (rip : Inode) (position off chunk left : ℕ)
    (rw_flag : RwFlag) : Option (Written Buf) := do
  let (b, s) ← chunkBlock s sp rip position
  if rip.blockSpec = false ∧ b = NO_BLOCK then holeBuf s sp rip position rw_flag
  else blockBuf s sp rip b position off chunk left rw_flag

/-- A block at the end of the file is cleared, if it is not written in full. -/
def clearAtEnd (s : Cache) (rip : Inode) (bp : Buf) (position off chunk : ℕ) (rw_flag : RwFlag) :
    Cache :=
  if rw_flag = .WRITING ∧ chunk ≠ BLOCK_SIZE ∧ rip.blockSpec = false ∧ position ≥ rip.i_size ∧
    off = 0 then zeroBlock s bp
  else s

/-- Read or write (part of) a block. -/
def rwChunk (sp : SuperBlock) (rw_flag : RwFlag) (x : Xfer) (off chunk : ℕ) : Option Xfer := do
  let w ← chunkBuf x.cache sp x.rip x.position off chunk x.nbytes rw_flag
  match w.res with
  | .error r => some { x with cache := w.cache, rip := w.rip, r := r }
  | .ok bp =>
    let s := clearAtEnd w.cache w.rip bp x.position off chunk rw_flag
    let x := rwUser { x with cache := s, rip := w.rip } rw_flag bp off chunk
    let block_type := if off + chunk = BLOCK_SIZE then FULL_DATA_BLOCK else PARTIAL_DATA_BLOCK
    some { x with cache := putBlock x.cache (some bp) block_type }

/-- Whether the size of a file limits a transfer. -/
def limited (rip : Inode) (rw_flag : RwFlag) : Bool := rw_flag = .READING ∨ rip.blockSpec

/-- Update counters and pointers. -/
def Xfer.advance (x : Xfer) (chunk : ℕ) : Xfer :=
  { x with
    buffer := x.buffer + chunk
    nbytes := x.nbytes - chunk
    cum_io := x.cum_io + chunk
    position := x.position + chunk }

/-- The size of the next chunk. -/
def chunkSize (rw_flag : RwFlag) (f_size : ℕ) (x : Xfer) : ℕ :=
  let chunk := min x.nbytes (BLOCK_SIZE - x.position % BLOCK_SIZE)
  if limited x.rip rw_flag then min chunk (f_size - x.position) else chunk

/-- A turn of the loop, and whether the loop goes on. -/
def rwTurn (sp : SuperBlock) (rw_flag : RwFlag) (f_size : ℕ) (x : Xfer) : Option (Bool × Xfer) :=
  if limited x.rip rw_flag ∧ x.position ≥ f_size then some (false, x)
  else do
    let chunk := chunkSize rw_flag f_size x
    let x ← rwChunk sp rw_flag x (x.position % BLOCK_SIZE) chunk
    some (if x.r ≠ OK ∨ x.cache.rdwt_err < 0 then (false, x) else (true, x.advance chunk))

/-- Split the transfer into chunks that don't span two blocks. A turn that goes on transfers a byte
at least, so that there are no more turns than bytes. -/
def rwLoop (sp : SuperBlock) (rw_flag : RwFlag) (f_size : ℕ) : ℕ → Xfer → Option Xfer
  | 0, x => some x
  | n + 1, x =>
    if x.nbytes = 0 then some x
    else
      match rwTurn sp rw_flag f_size x with
      | none => none
      | some (false, x) => some x
      | some (true, x) => rwLoop sp rw_flag f_size n x

/-- The size of a file, which is unknown for a block special file of size 0. -/
def fileSize (rip : Inode) : ℕ := if rip.blockSpec ∧ rip.i_size = 0 then MAX_P_LONG else rip.i_size

/-- What is checked before a file is written: the position, and whether it will grow too big. The
zone of the end of the file is cleared if a hole is about to be created. -/
def writeStart (s : Cache) (sp : SuperBlock) (rip : Inode) (f : Filp) (nbytes : ℕ) :
    Option (Except ℤ (ℕ × Cache)) :=
  if (f.filp_pos : ℤ) > sp.s_max_size - nbytes then some (.error EFBIG)
  else
    let position := if f.filp_flags &&& O_APPEND ≠ 0 then rip.i_size else f.filp_pos
    if position > rip.i_size then do
      let s ← clearZone s sp rip rip.i_size false
      some (.ok (position, s))
    else some (.ok (position, s))

/-- The position at which a transfer starts. -/
def rwStart (s : Cache) (sp : SuperBlock) (rip : Inode) (f : Filp) (rw_flag : RwFlag) (nbytes : ℕ) :
    Option (Except ℤ (ℕ × Cache)) :=
  if rw_flag = .WRITING ∧ rip.blockSpec = false then writeStart s sp rip f nbytes
  else some (.ok (f.filp_pos, s))

/-- The inode of a file that has been read or written up to a position. -/
def rwUpdate (rip : Inode) (rw_flag : RwFlag) (f_size position : ℕ) : Inode :=
  { rip with
    i_size :=
      if rw_flag = .WRITING ∧ (rip.regular ∨ rip.directory) ∧ position > f_size then position
      else rip.i_size
    i_seek := false }

/-- What `read_write` returns after a transfer. -/
def rwResult (x : Xfer) : ℤ :=
  let r := if x.cache.rdwt_err ≠ OK then x.cache.rdwt_err else x.r
  let r := if x.cache.rdwt_err = END_OF_FILE then (x.cum_io : ℤ) else r
  if r = OK then x.cum_io else r

/-- A file that is open, with the process that reads and writes it. -/
structure OpenFile where
  cache : Cache
  rip : Inode
  filp : Filp
  user : User

/-- The checks that depend on the open file and the number of bytes only. -/
def rwCheck (f : Filp) (rw_flag : RwFlag) (nbytes : ℤ) : Option ℤ :=
  let bit := match rw_flag with
    | .READING => R_BIT
    | .WRITING => W_BIT
  if nbytes < 0 then some EINVAL
  else if f.filp_mode &&& bit = 0 then some EBADF
  else if nbytes = 0 then some 0
  else if f.filp_pos > MAX_FILE_POS then some EINVAL
  else none

/-- The variables of `read_write` in front of its loop. -/
def rwXfer (o : OpenFile) (cache : Cache) (position nbytes buffer : ℕ) : Xfer where
  cache := cache
  rip := o.rip
  user := o.user
  position := position
  nbytes := nbytes
  buffer := buffer
  cum_io := 0
  r := OK

/-- Perform a read or a write of a file that is not a pipe. -/
def readWrite (sp : SuperBlock) (o : OpenFile) (rw_flag : RwFlag) (nbytes : ℤ) (buffer : ℕ) :
    Option (ℤ × OpenFile) :=
  match rwCheck o.filp rw_flag nbytes with
  | some r => some (r, o)
  | none => do
    let n := nbytes.toNat
    match ← rwStart { o.cache with rdwt_err := OK } sp o.rip o.filp rw_flag n with
    | .error r => some (r, { o with cache := { o.cache with rdwt_err := OK } })
    | .ok (position, s) =>
      let x ← rwLoop sp rw_flag (fileSize o.rip) n (rwXfer o s position n buffer)
      some (rwResult x, {
        cache := x.cache
        rip := rwUpdate x.rip rw_flag (fileSize o.rip) x.position
        filp := { o.filp with filp_pos := x.position }
        user := x.user })

/-- Perform the lseek(ls_fd, offset, whence) system call. -/
def doLseek (o : OpenFile) (offset : ℤ) (whence : ℕ) : ℤ × OpenFile :=
  let base : Option ℤ := match whence with
    | 0 => some 0
    | 1 => some o.filp.filp_pos
    | 2 => some o.rip.i_size
    | _ => none
  match base with
  | none => (EINVAL, o)
  | some base =>
    if base + offset < 0 ∨ base + offset > MAX_FILE_POS then (EINVAL, o)
    else
      let pos := (base + offset).toNat
      (OK, { o with
        rip := { o.rip with i_seek := o.rip.i_seek || pos ≠ o.filp.filp_pos }
        filp := { o.filp with filp_pos := pos } })

end Minix.Fs
