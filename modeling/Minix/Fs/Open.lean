import Minix.Fs.Link

/-!
# Opening files

`common_open`, `new_node` and `pipe_open` of `fs/open.c`, `get_fd` and `find_filp` of
`fs/filedes.c`, `alloc_inode` and `wipe_inode` of `fs/inode.c`, and `truncate` of `fs/link.c`.

The inode table, the directories and the inode maps are those of `Names`. A file on a device has its
zone numbers beside them, and the zone maps are in the buffers of a cache, of which the part is told
that `truncate` has in it: the blocks that a search of a directory reads are those of `Names.dirs`.
The answer of a driver that opens its device is an argument. Which processes `pipe_open` suspends
and revives is left out.
-/

namespace Minix.Fs

abbrev NR_FILPS : ℕ := 64
abbrev OPEN_MAX : ℕ := 20

def ALL_MODES : ℕ := 0o6777
def PIPE_SIZE : ℕ := NR_DZONE_NUM * BLOCK_SIZE

def O_CREAT : ℕ := 0o100
def O_EXCL : ℕ := 0o200
def O_TRUNC : ℕ := 0o1000
def O_ACCMODE : ℕ := 3

def ENXIO : ℤ := -6
def EMFILE : ℤ := -24

/-! ## Truncating a file -/

/-- Erase some fields in the inode. -/
def wipeInode (rip : Inode) : Inode := { rip with i_size := 0, i_zone := fun _ => NO_ZONE }

/-- Step through the file a zone at a time, finding and freeing the zones: `n` of them are left. -/
def freeData (sp : SuperBlock) (rip : Inode) : ℕ → ℕ → Cache → Option Cache
  | 0, _, s => some s
  | n + 1, position, s => do
    let (b, s) ← readMap s rip sp.s_log_zone_size position
    let s := if b ≠ NO_BLOCK then freeZone s sp (b >>> sp.s_log_zone_size) else s
    freeData sp rip n (position + BLOCK_SIZE <<< sp.s_log_zone_size) s

/-- Free the zones that a double indirect block names, and the zone of that block. -/
def freeIndirects (s : Cache) (sp : SuperBlock) (dev z : ℕ) : Option Cache :=
  if z = NO_ZONE then some s
  else do
    let (bp, s) ← getBlock s dev (zoneBlock z sp.s_log_zone_size 0) .NORMAL
    let s := (List.range NR_INDIRECTS).foldl (fun s i => freeZone s sp (bInd (s.b_data bp) i)) s
    some (freeZone (putBlock s (some bp) INDIRECT_BLOCK) sp z)

/-- The number of turns of the loop of `truncate`. -/
def zoneTurns (sp : SuperBlock) (i_size : ℕ) : ℕ :=
  (i_size + BLOCK_SIZE <<< sp.s_log_zone_size - 1) / BLOCK_SIZE <<< sp.s_log_zone_size

/-- Remove all the zones from an inode. A pipe is taken to have its greatest size, and cleared. -/
def truncate (s : Cache) (sp : SuperBlock) (rip : Inode) (i_pipe : Bool) : Option (Inode × Cache) :=
  if rip.i_mode &&& I_TYPE = I_CHAR_SPECIAL ∨ rip.i_mode &&& I_TYPE = I_BLOCK_SPECIAL then
    some (rip, s)
  else do
    let rip := if i_pipe then { rip with i_size := PIPE_SIZE } else rip
    let s ← freeData sp rip (zoneTurns sp rip.i_size) 0 s
    let s ← freeIndirects (freeZone s sp (rip.i_zone 7)) sp rip.i_dev (rip.i_zone 8)
    some (if i_pipe then wipeInode rip else rip, s)

/-! ## The tables -/

/-- A slot of the filp table. -/
structure FilpSlot extends Filp where
  filp_count : ℕ
  filp_ino : Option InodePtr

/-- The state of the file system, as far as files are opened by a process. -/
structure FileSys where
  names : Names
  /-- The zone numbers of an inode, by its device and inode number. -/
  i_zone : ℕ → ℕ → Fin NR_ZONE_NUMS → ℕ
  cache : Cache
  /-- The super block of each slot. -/
  sb : Fin NR_SUPERS → SuperBlock
  s_ninodes : Fin NR_SUPERS → ℕ
  filp : Fin NR_FILPS → FilpSlot
  fp_filp : Fin OPEN_MAX → Option (Fin NR_FILPS)
  fp_umask : ℕ

/-- The file of an inode of the table. -/
def FileSys.file (st : FileSys) (rip : InodePtr) : Inode where
  i_mode := (st.names.inode rip).i_mode
  i_size := (st.names.inode rip).i_size
  i_zone := st.i_zone (st.names.inode rip).i_dev (st.names.inode rip).i_num
  i_dev := (st.names.inode rip).i_dev
  i_seek := false

/-- The zone numbers of an inode are changed. -/
def FileSys.setZones (st : FileSys) (dev numb : ℕ) (i_zone : Fin NR_ZONE_NUMS → ℕ) : FileSys :=
  { st with i_zone := Function.update st.i_zone dev (Function.update (st.i_zone dev) numb i_zone) }

/-- The slots of the inode table are those of other names. -/
def FileSys.withNames (st : FileSys) (s : Names) : FileSys := { st with names := s }

/-- Look for a free file descriptor and a free filp slot. Fill in the mode word in the latter. -/
def getFd (st : FileSys) (bits : ℕ) : Except ℤ (Fin OPEN_MAX × Fin NR_FILPS × FileSys) :=
  match (List.finRange OPEN_MAX).find? fun fd => (st.fp_filp fd).isNone with
  | none => .error EMFILE
  | some fd =>
    match (List.finRange NR_FILPS).find? fun f => (st.filp f).filp_count = 0 with
    | none => .error ENFILE
    | some f =>
      .ok (fd, f, { st with
        filp := Function.update st.filp f ⟨⟨bits, 0, 0⟩, 0, (st.filp f).filp_ino⟩ })

/-- Find a filp slot that refers to the inode in a way as described by the mode bits. -/
def findFilp (st : FileSys) (rip : InodePtr) (bits : ℕ) : Option (Fin NR_FILPS) :=
  (List.finRange NR_FILPS).find? fun f => (st.filp f).filp_count ≠ 0 ∧
    (st.filp f).filp_ino = some rip ∧ (st.filp f).filp_mode &&& bits ≠ 0

/-! ## Making a file -/

/-- Set the variable `err_code`. -/
def Names.setErr (s : Names) (err_code : ℤ) : Names := { s with err_code := err_code }

/-- A bit of an inode map is set. -/
def Names.setImap (s : Names) (dev numb : ℕ) (b : Bool) : Names :=
  { s with imap := Function.update s.imap dev (Function.update (s.imap dev) numb b) }

/-- Allocate a free inode on a device, and return a pointer to it. -/
def allocInode (st : FileSys) (fp : Caller) (dev bits : ℕ) : Option (Option InodePtr × FileSys) := do
  let sp ← getSuper st.names dev
  match (List.range (st.s_ninodes sp + 1)).find? fun b => st.names.imap dev b = false with
  | none => some (none, st.withNames (st.names.setErr ENFILE))
  | some numb =>
    let s := st.names.setImap dev numb true
    match getInode s NO_DEV numb with
    | (none, s) => some (none, st.withNames (freeInode s dev numb))
    | (some rip, s) =>
      let slot := { s.inode rip with
        toDInode := ⟨bits, fp.fp_effuid, fp.fp_effgid, 0, 0⟩
        i_dev := dev
        i_dirt := true }
      let st := st.withNames (s.setInode rip slot)
      some (some rip, st.setZones dev numb fun _ => NO_ZONE)

/-- A directory entry is made for an inode that is new, or the inode is freed again. -/
def enterNode (st : FileSys) (fp : Caller) (ldip rip : InodePtr) (string : Name) :
    Option InodePtr × FileSys :=
  let found := searchSlots st.names fp ldip string (st.names.inode rip).i_num .ENTER
  let s := putInode found.names (some ldip)
  if found.r ≠ OK then
    let s := putInode (s.addLinks rip 255) (some rip)
    (none, st.withNames (s.setErr found.r))
  else (some rip, st.withNames (s.setErr OK))

/-- Make a new file, with a directory entry for it. -/
def makeNode (st : FileSys) (fp : Caller) (ldip : InodePtr) (string : Name) (bits z0 lsize : ℕ) :
    Option (Option InodePtr × FileSys) := do
  let dev := (st.names.inode ldip).i_dev
  let (rip, st) ← allocInode st fp dev bits
  match rip with
  | none => some (none, st.withNames (putInode st.names (some ldip)))
  | some rip =>
    -- Force the inode to the disk before making the directory entry.
    let slot := st.names.inode rip
    let s := st.names.setInode rip { slot with
      i_nlinks := slot.i_nlinks + 1
      i_size := lsize }
    let st := st.setZones dev slot.i_num (Function.update (st.i_zone dev slot.i_num) 0 z0)
    some (enterNode (st.withNames (writeInode s rip)) fp ldip rip string)

/-- Allocate a new inode, and make a directory entry for it on a path. `err_code` tells what has
happened; a file that exists is returned with `EEXIST`. -/
def newNode (st : FileSys) (fp : Fproc) (path : List UInt8) (bits z0 lsize : ℕ) :
    Option (Option InodePtr × FileSys) := do
  let ld ← lastDir st.names fp .other path noName
  match ld.rip with
  | none => some (none, st.withNames ld.names)
  | some ldip =>
    let (rip, s) ← advance fp.caller mountFuel ld.names (some ldip) ld.string
    match rip with
    | some rip => some (some rip, st.withNames ((putInode s (some ldip)).setErr EEXIST))
    | none =>
      if s.err_code = ENOENT then makeNode (st.withNames s) fp.caller ldip ld.string bits z0 lsize
      else some (none, st.withNames (putInode s (some ldip)))

/-! ## Opening a file -/

/-- Remap the bottom two bits of `oflags`. -/
def modeMap (access : ℕ) : ℕ := [R_BIT, W_BIT, R_BIT ||| W_BIT, 0].getD access 0

/-- A file of the table is truncated and wiped. -/
def truncateFile (st : FileSys) (rip : InodePtr) : Option FileSys := do
  let slot := st.names.inode rip
  let sp ← getSuper st.names slot.i_dev
  let (file, cache) ← truncate st.cache (st.sb sp) (st.file rip) slot.i_pipe
  let file := wipeInode file
  let s := st.names.setInode rip { slot with
    i_size := file.i_size
    i_dirt := true }
  some { (st.withNames s).setZones slot.i_dev slot.i_num file.i_zone with cache := cache }

/-- Special files may need special processing upon open. -/
def devOpen (st : FileSys) (rip : InodePtr) (driver : ℕ → ℤ) : ℤ :=
  if (st.names.inode rip).i_count > 1 then OK else driver ((st.file rip).i_zone 0)

/-- Check if there is at least one reader and one writer for a pipe. -/
def pipeOpen (st : FileSys) (rip : InodePtr) (bits oflags : ℕ) : ℤ × FileSys :=
  let other := findFilp st rip (if bits &&& W_BIT ≠ 0 then R_BIT else W_BIT)
  if other = none ∧ oflags &&& O_NONBLOCK ≠ 0 then (if bits &&& W_BIT ≠ 0 then ENXIO else OK, st)
  else (OK, st.withNames (st.names.setInode rip { st.names.inode rip with i_pipe := true }))

/-- Opening regular files, directories and special files differs. -/
def openType (st : FileSys) (rip : InodePtr) (bits oflags : ℕ) (driver : ℕ → ℤ) :
    Option (ℤ × FileSys) :=
  let i_type := (st.names.inode rip).i_mode &&& I_TYPE
  if i_type = I_REGULAR then
    -- Truncate a regular file if `O_TRUNC`.
    if oflags &&& O_TRUNC ≠ 0 then (truncateFile st rip).map (OK, ·) else some (OK, st)
  else if i_type = I_DIRECTORY then some (if bits &&& W_BIT ≠ 0 then EISDIR else OK, st)
  else if i_type = I_CHAR_SPECIAL ∨ i_type = I_BLOCK_SPECIAL then some (devOpen st rip driver, st)
  else if i_type = I_NAMED_PIPE then some (pipeOpen st rip bits oflags)
  else some (OK, st)

/-- Check the protections of a file that exists, and open it. -/
def openExisting (st : FileSys) (fp : Caller) (rip : InodePtr) (bits oflags : ℕ) (driver : ℕ → ℤ) :
    Option (ℤ × FileSys) :=
  let r := st.names.forbidden fp rip bits
  if r = OK then openType st rip bits oflags driver else some (r, st)

/-- What `common_open` has found before it opens a file. -/
structure Located where
  rip : InodePtr
  exist : Bool
  r : ℤ
  fs : FileSys

/-- Make the file, or scan the path name for it. The result is an error code if there is no file. -/
def locate (st : FileSys) (fp : Fproc) (path : List UInt8) (oflags omode : ℕ) :
    Option (Except (ℤ × FileSys) Located) :=
  if oflags &&& O_CREAT ≠ 0 then do
    let bits := I_REGULAR ||| (omode &&& ALL_MODES &&& st.fp_umask)
    let (rip, st) ← newNode st fp path bits NO_ZONE 0
    let r := st.names.err_code
    if r ≠ OK ∧ r ≠ EEXIST then some (.error (r, st))
    else do
      let rip ← rip
      -- The file exists; if `O_EXCL` is set this is an error.
      some (.ok ⟨rip, r = EEXIST ∧ oflags &&& O_EXCL = 0, r, st⟩)
  else do
    let (rip, s) ← eatPath st.names fp .other path
    match rip with
    | none => some (.error (s.err_code, st.withNames s))
    | some rip => some (.ok ⟨rip, true, OK, st.withNames s⟩)

/-- Claim the file descriptor and filp slot and fill them in. -/
def claimFd (st : FileSys) (fd : Fin OPEN_MAX) (fil_ptr : Fin NR_FILPS) (rip : InodePtr)
    (oflags : ℕ) : FileSys :=
  { st with
    fp_filp := Function.update st.fp_filp fd (some fil_ptr)
    filp := Function.update st.filp fil_ptr { st.filp fil_ptr with
      filp_count := 1
      filp_ino := some rip
      filp_flags := oflags } }

/-- The last part of `common_open`: if there was an error, the inode is released. -/
def openEnd (st : FileSys) (fd : Fin OPEN_MAX) (fil_ptr : Fin NR_FILPS) (rip : InodePtr)
    (oflags : ℕ) (r : ℤ) : ℤ × FileSys :=
  if r ≠ OK then (r, st.withNames (putInode st.names (some rip)))
  else (fd.val, claimFd st fd fil_ptr rip oflags)

/-- Common code from `do_creat` and `do_open`. -/
def commonOpen (st : FileSys) (fp : Fproc) (path : List UInt8) (oflags omode : ℕ)
    (driver : ℕ → ℤ) : Option (ℤ × FileSys) :=
  let bits := modeMap (oflags &&& O_ACCMODE)
  match getFd st bits with
  | .error r => some (r, st)
  | .ok (fd, fil_ptr, st) => do
    match ← locate st fp path oflags omode with
    | .error e => some e
    | .ok l =>
      -- Only do the normal open code if we did not just create the file.
      let (r, st) ← if l.exist then openExisting l.fs fp.caller l.rip bits oflags driver
        else some (l.r, l.fs)
      some (openEnd st fd fil_ptr l.rip oflags r)

end Minix.Fs
