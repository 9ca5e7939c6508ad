import Minix.Fs.DirScan

/-!
# The inode table

`fs/inode.c` and `search_dir` of `fs/path.c`, for calls that deal with names. A directory is a
function from slots to entries, which `search_dir` searches as it searches the blocks
(`IsDir.sameSearch`). The blocks of files are left out, and with them `truncate`, which leaves an
inode as it is unless it is a pipe. Whether `new_block` finds room for a directory that grows is
told by the state.

The device of an inode in the table has a super block, so that `get_super` finds it.
-/

namespace Minix.Fs

def NR_INODES : ℕ := 32

theorem NR_INODES_pos : 0 < NR_INODES := by decide
def NR_SUPERS : ℕ := 5
def NR_FPROCS : ℕ := 32

/-- Inode number of the root directory of a device. -/
def ROOT_INODE : ℕ := 1

def I_NOT_ALLOC : ℕ := 0
def I_CHAR_SPECIAL : ℕ := 0o020000

def ENFILE : ℤ := -23

/-- A pointer into the inode table. `NIL_INODE` is `none`. -/
abbrev InodePtr : Type := Fin NR_INODES

/-- The fields of an inode that are on the disk. -/
structure DInode where
  i_mode : ℕ
  i_uid : ℕ
  i_gid : ℕ
  i_size : ℕ
  i_nlinks : UInt8

/-- A slot of the inode table. -/
structure InodeSlot extends DInode where
  i_dev : ℕ
  i_num : ℕ
  i_count : ℕ
  i_dirt : Bool
  i_pipe : Bool
  i_mount : Bool

/-- A slot of the super block table. -/
structure SuperSlot where
  s_dev : ℕ
  s_rd_only : Bool
  s_imount : Option InodePtr

/-- What a process is to calls that deal with names. -/
structure Fproc where
  caller : Caller
  fp_workdir : Option InodePtr
  fp_rootdir : Option InodePtr

/-- The state of the file system, as far as names are concerned. -/
structure Names where
  inode : InodePtr → InodeSlot
  super_block : Fin NR_SUPERS → SuperSlot
  fproc : Fin NR_FPROCS → Fproc
  err_code : ℤ
  /-- The inodes on the disk. -/
  disk : ℕ → ℕ → DInode
  /-- The inodes that are in use in the bit map of their device. -/
  imap : ℕ → ℕ → Bool
  /-- The entries of a directory, by its device and inode number. -/
  dirs : ℕ → ℕ → ℕ → DirEntry
  /-- Whether there is room for a directory that grows, from this time on. -/
  room : ℕ → Bool

/-! ## Super blocks -/

/-- Search the super block table for a device. -/
def getSuper (s : Names) (dev : ℕ) : Option (Fin NR_SUPERS) :=
  (List.finRange NR_SUPERS).find? fun sp => (s.super_block sp).s_dev = dev

/-- Whether the file system of a device is mounted read only. -/
def rdOnly (s : Names) (dev : ℕ) : Bool :=
  match getSuper s dev with
  | some sp => (s.super_block sp).s_rd_only
  | none => false

/-! ## Getting and putting inodes -/

/-- An inode of the table is changed. -/
def Names.setInode (s : Names) (rip : InodePtr) (slot : InodeSlot) : Names :=
  { s with inode := Function.update s.inode rip slot }

/-- Indicate that someone else is using an inode table entry. -/
def dupInode (s : Names) (ip : InodePtr) : Names :=
  s.setInode ip { s.inode ip with i_count := (s.inode ip).i_count + 1 }

/-- Load an inode into a slot of the inode table. -/
def loadInode (s : Names) (xp : InodePtr) (dev numb : ℕ) : Names :=
  s.setInode xp ⟨s.disk dev numb, dev, numb, 1, false, (s.inode xp).i_pipe, (s.inode xp).i_mount⟩

/-- Find a slot in the inode table, load the specified inode into it, and return a pointer to the
slot. The last of the free slots is taken. -/
def getInode (s : Names) (dev numb : ℕ) : Option InodePtr × Names :=
  let slots := List.finRange NR_INODES
  match slots.find? fun rip =>
    (s.inode rip).i_count > 0 ∧ (s.inode rip).i_dev = dev ∧ (s.inode rip).i_num = numb with
  | some rip => (some rip, dupInode s rip)
  | none =>
    match slots.reverse.find? fun rip => (s.inode rip).i_count = 0 with
    | some xp => (some xp, loadInode s xp dev numb)
    | none => (none, { s with err_code := ENFILE })

/-- `truncate`, which clears out the inode for pipes. -/
def InodeSlot.truncate (rip : InodeSlot) : InodeSlot :=
  if rip.i_mode &&& I_TYPE = I_CHAR_SPECIAL ∨ rip.i_mode &&& I_TYPE = I_BLOCK_SPECIAL then rip
  else if rip.i_pipe then { rip with i_size := 0, i_dirt := true }
  else { rip with i_dirt := true }

/-- Write an inode back to the disk. -/
def writeInode (s : Names) (rip : InodePtr) : Names :=
  let slot := s.inode rip
  let s := s.setInode rip { slot with i_dirt := false }
  let disk := Function.update (s.disk slot.i_dev) slot.i_num slot.toDInode
  { s with disk := Function.update s.disk slot.i_dev disk }

/-- Return an inode to the pool of unallocated inodes. -/
def freeInode (s : Names) (dev numb : ℕ) : Names :=
  { s with imap := Function.update s.imap dev (Function.update (s.imap dev) numb false) }

/-- What is done with an inode that nobody uses any more. -/
def releaseInode (s : Names) (rip : InodePtr) : Names :=
  let slot := s.inode rip
  let s :=
    if slot.i_nlinks = 0 then
      let s := s.setInode rip { slot.truncate with i_mode := I_NOT_ALLOC }
      freeInode s slot.i_dev slot.i_num
    else if slot.i_pipe then s.setInode rip slot.truncate
    else s
  let s := s.setInode rip { s.inode rip with i_pipe := false }
  if (s.inode rip).i_dirt then writeInode s rip else s

/-- The caller is no longer using an inode. -/
def putInode (s : Names) (rip : Option InodePtr) : Names :=
  match rip with
  | none => s
  | some rip =>
    let i_count := (s.inode rip).i_count
    let s := s.setInode rip { s.inode rip with i_count := i_count - 1 }
    if i_count = 1 then releaseInode s rip else s

/-! ## Searching directories -/

/-- An inode with its owner, as `forbidden` sees it. -/
def InodeSlot.owned (rip : InodeSlot) : OwnedInode where
  i_mode := rip.i_mode
  i_size := rip.i_size
  i_zone _ := NO_ZONE
  i_dev := rip.i_dev
  i_seek := false
  i_uid := rip.i_uid
  i_gid := rip.i_gid

/-- Determine if a caller has access to an inode of the table. -/
def Names.forbidden (s : Names) (fp : Caller) (rip : InodePtr) (access_desired : ℕ) : ℤ :=
  Fs.forbidden fp (rdOnly s (s.inode rip).i_dev) (s.inode rip).owned access_desired false

/-- The entries of a directory. -/
def Names.entries (s : Names) (rip : InodePtr) : ℕ → DirEntry :=
  s.dirs (s.inode rip).i_dev (s.inode rip).i_num

/-- The number of slots of a directory. -/
def Names.slots (s : Names) (rip : InodePtr) : ℕ := unshort ((s.inode rip).i_size / DIR_ENTRY_SIZE)

/-- The entries of a directory are changed. -/
def Names.setEntries (s : Names) (rip : InodePtr) (entry : ℕ → DirEntry) : Names :=
  let dev := (s.inode rip).i_dev
  let dirs := Function.update (s.dirs dev) (s.inode rip).i_num entry
  { s with dirs := Function.update s.dirs dev dirs }

/-- An entry is made in slot `k`. -/
def enterSlot (s : Names) (ldir_ptr : InodePtr) (string : Name) (numb k new_slots : ℕ) : Names :=
  let old_slots := s.slots ldir_ptr
  let s := s.setEntries ldir_ptr (Function.update (s.entries ldir_ptr) k ⟨numb, string⟩)
  let i_size := if new_slots > old_slots then new_slots * DIR_ENTRY_SIZE
    else (s.inode ldir_ptr).i_size
  s.setInode ldir_ptr { s.inode ldir_ptr with i_dirt := true, i_size := i_size }

/-- A directory in which no slot is free and no room is left in the last block is extended. -/
def extendDir (s : Names) (ldir_ptr : InodePtr) (string : Name) (numb : ℕ) : ℤ × Names :=
  let old_slots := s.slots ldir_ptr
  let new_slots := unshort (unshort (reach old_slots) + 1)
  if new_slots = 0 then (EFBIG, s)
  else
    let found := s.room 0
    let s := { s with room := fun n => s.room (n + 1) }
    if found then
      let block := old_slots / NR_DIR_ENTRIES
      let s := s.setEntries ldir_ptr fun k =>
        if k / NR_DIR_ENTRIES = block then ⟨0, fun _ => 0⟩ else s.entries ldir_ptr k
      (OK, enterSlot s ldir_ptr string numb (block * NR_DIR_ENTRIES) new_slots)
    else (ENOSPC, { s with err_code := ENOSPC })

/-- The last part of a search to `ENTER`. -/
def enterString (s : Names) (ldir_ptr : InodePtr) (string : Name) (numb : ℕ) : ℤ × Names :=
  let old_slots := s.slots ldir_ptr
  match hunt (s.entries ldir_ptr) .ENTER string old_slots with
  | some k => (OK, enterSlot s ldir_ptr string numb k (unshort (k + 1)))
  | none =>
    -- There may be room behind the last slot in its block.
    if reach old_slots = old_slots ∧ old_slots % NR_DIR_ENTRIES ≠ 0 then
      (OK, enterSlot s ldir_ptr string numb old_slots (unshort (old_slots + 1)))
    else extendDir s ldir_ptr string numb

/-- What `search_dir` returns: its result, the inode number and the state. -/
structure Found where
  r : ℤ
  numb : ℕ
  names : Names

/-- What `search_dir` does with a directory that may be searched. -/
def searchEntries (s : Names) (ldir_ptr : InodePtr) (string : Name) (numb : ℕ) (flag : DirFlag) :
    Found :=
  let entry := s.entries ldir_ptr
  match flag with
  | .ENTER =>
    let (r, s) := enterString s ldir_ptr string numb
    ⟨r, numb, s⟩
  | .LOOK_UP =>
    match hunt entry .LOOK_UP string (s.slots ldir_ptr) with
    | some k => ⟨OK, (entry k).d_inum, s⟩
    | none => ⟨ENOENT, numb, s⟩
  | .DELETE =>
    match hunt entry .DELETE string (s.slots ldir_ptr) with
    | some k => ⟨OK, numb, s.setEntries ldir_ptr (Function.update entry k (entry k).erase)⟩
    | none => ⟨ENOENT, numb, s⟩

/-- `search_dir` -/
def searchSlots (s : Names) (fp : Caller) (ldir_ptr : InodePtr) (string : Name) (numb : ℕ)
    (flag : DirFlag) : Found :=
  if (s.inode ldir_ptr).i_mode &&& I_TYPE ≠ I_DIRECTORY then ⟨ENOTDIR, numb, s⟩
  else
    let r := s.forbidden fp ldir_ptr flag.bits
    if r ≠ OK then ⟨r, numb, s⟩ else searchEntries s ldir_ptr string numb flag

end Minix.Fs
