import Minix.Fs.BitMap
import Minix.Fs.CacheRun
import Minix.Fs.Link

/-!
# Mounting a device

`do_mount` and `name_to_dev` of `fs/mount.c`, and `load_bit_maps`, `unload_bit_maps` and `rw_super` of
`fs/super.c`. A slot of the super block table is the bytes that `rw_super` has copied from the device,
of which some are in the places of the pointers to the bit maps, and the pointers that `load_bit_maps`
has written over them.

What the searches of names do to the inode table is told by `Names`. The blocks that they and
`do_sync` get from the cache, and the bits that they clear in the bit maps, are arguments (`Use`). The
times and the `s_dirt` of super blocks are left out.

A call ends without returning when it panics, when it follows a pointer from the device that is not
one to a buffer, and when a search of a path does not come back (`Fate`).
-/

namespace Minix.Fs

def SUPER_BLOCK : ℕ := 1
def SUPER_MAGIC : ℕ := 0x137F
def SUPER_SIZE : ℕ := 98
def I_MAP_SLOTS : ℕ := 8
def ENOTBLK : ℤ := -15

/-- How a call ends that does not return. -/
inductive Fate
  /-- It panics; whether it has put a buffer that it had not got. -/
  | panic (stray : Bool)
  /-- It follows a pointer that is not one to a buffer. -/
  | wild
  /-- The search of a path does not come back. -/
  | stuck

/-- What a pointer to a buffer is that may come from a device. -/
inductive BufPtr
  | nil
  | buf (bp : Buf)
  | other
  deriving DecidableEq

/-- Where the tables are in memory, and the pointers in the memory behind the slot of the super block
table that a mount takes. -/
structure Addresses where
  buf : Buf → ℕ
  inode : InodePtr → ℕ
  behind : ℕ → BufPtr

/-- The buffer at an address. -/
def Addresses.bufPtr (A : Addresses) (a : ℕ) : BufPtr :=
  if a = 0 then .nil
  else
    match (List.finRange NR_BUFS).find? fun bp => A.buf bp = a with
    | some bp => .buf bp
    | none => .other

/-- The inode at an address. -/
def Addresses.inodePtr (A : Addresses) (a : ℕ) : Option InodePtr :=
  (List.finRange NR_INODES).find? fun rip => A.inode rip = a

/-! ## Super blocks -/

/-- The bytes of a slot of the super block table, and the pointers to the buffers of the bit maps that
have been loaded. -/
structure SuperData where
  byte : ℕ → UInt8
  s_imap : List Buf
  s_zmap : List Buf

/-- A 16-bit number in a super block. -/
def SuperData.short (d : SuperData) (off : ℕ) : ℕ := (d.byte off).toNat * 256 + (d.byte (off + 1)).toNat

/-- A 32-bit number in a super block. -/
def SuperData.long (d : SuperData) (off : ℕ) : ℕ := d.short off * 65536 + d.short (off + 2)

def SuperData.s_ninodes (d : SuperData) : ℕ := d.short 0
def SuperData.s_nzones (d : SuperData) : ℕ := d.short 2
def SuperData.s_imap_blocks (d : SuperData) : ℕ := d.short 4
def SuperData.s_zmap_blocks (d : SuperData) : ℕ := d.short 6
def SuperData.s_magic (d : SuperData) : ℕ := d.short 16
def SuperData.s_imount (d : SuperData) : ℕ := d.long 88
def SuperData.s_rd_only (d : SuperData) : Bool := d.byte 96 ≠ 0

/-- Place of `s_imap` in a super block. -/
def IMAP_OFFSET : ℕ := 18

/-- Place of `s_zmap` in a super block. -/
def ZMAP_OFFSET : ℕ := 50

/-- A pointer of an array in a super block, of which some have been loaded. -/
def mapPtr (A : Addresses) (d : SuperData) (loaded : List Buf) (offset i : ℕ) : BufPtr :=
  match loaded[i]? with
  | some bp => .buf bp
  | none =>
    if offset + 4 * i < SUPER_SIZE then A.bufPtr (d.long (offset + 4 * i))
    else A.behind (offset + 4 * i - SUPER_SIZE)

/-- `s_imap[i]` -/
def imapPtr (A : Addresses) (d : SuperData) (i : ℕ) : BufPtr := mapPtr A d d.s_imap IMAP_OFFSET i

/-- `s_zmap[i]` -/
def zmapPtr (A : Addresses) (d : SuperData) (i : ℕ) : BufPtr := mapPtr A d d.s_zmap ZMAP_OFFSET i

/-- What `rw_super` copies, with the device number restored and `s_dirt` cleared. -/
def copySuper (b : Block) (dev : ℕ) : SuperData where
  byte k :=
    if k = 82 then UInt8.ofNat (dev / 256)
    else if k = 83 then UInt8.ofNat dev
    else if k = 97 then 0
    else if h : k < BLOCK_SIZE then b ⟨k, h⟩ else 0
  s_imap := []
  s_zmap := []

/-! ## The state -/

/-- The state of the file system, as far as devices are mounted. -/
structure MountState where
  names : Names
  /-- The zone numbers of an inode, by its device and inode number. -/
  i_zone : ℕ → ℕ → Fin NR_ZONE_NUMS → ℕ
  cache : Cache
  super : Fin NR_SUPERS → SuperData
  root_dev : ℕ
  /-- How often this call has got a buffer that it has not put. -/
  got : Buf → ℕ
  /-- Whether this call has put a buffer that it had not got. -/
  stray : Bool

/-- The names are changed. -/
def MountState.withNames (st : MountState) (s : Names) : MountState := { st with names := s }

@[simp] theorem MountState.withNames_names (st : MountState) (s : Names) : (st.withNames s).names = s :=
  rfl

@[simp] theorem MountState.withNames_super (st : MountState) (s : Names) :
    (st.withNames s).super = st.super := rfl

@[simp] theorem MountState.withNames_stray (st : MountState) (s : Names) :
    (st.withNames s).stray = st.stray := rfl

/-- Get a block. -/
def MountState.get (st : MountState) (dev block : ℕ) (only_search : Search) :
    Except Fate (Buf × MountState) :=
  match getBlock st.cache dev block only_search with
  | none => .error (.panic st.stray)
  | some (bp, c) => .ok (bp, { st with
      cache := c
      got := Function.update st.got bp (st.got bp + 1) })

/-- Put a block. -/
def MountState.put (st : MountState) (p : BufPtr) (block_type : ℕ) : Except Fate MountState :=
  match p with
  | .nil => .ok st
  | .buf bp => .ok { st with
      cache := putBlock st.cache (some bp) block_type
      got := Function.update st.got bp (st.got bp - 1)
      stray := st.stray || st.got bp = 0 }
  | .other => .error .wild

/-- Blocks are put in order. -/
def MountState.putAll (st : MountState) (ps : List BufPtr) (block_type : ℕ) : Except Fate MountState :=
  ps.foldlM (fun st p => st.put p block_type) st

/-- The slot of a super block is changed, and its device number. -/
def MountState.setSuper (A : Addresses) (st : MountState) (sp : Fin NR_SUPERS) (dev : ℕ)
    (d : SuperData) : MountState :=
  { st with
    names := { st.names with
      super_block := Function.update st.names.super_block sp
        ⟨dev, d.s_rd_only, A.inodePtr d.s_imount⟩ }
    super := Function.update st.super sp d }

/-- `sp->s_dev = dev` -/
def MountState.setDev (st : MountState) (sp : Fin NR_SUPERS) (dev : ℕ) : MountState :=
  { st with names := { st.names with
      super_block := Function.update st.names.super_block sp
        { st.names.super_block sp with s_dev := dev } } }

/-- Read a super block. -/
def rwSuper (A : Addresses) (st : MountState) (sp : Fin NR_SUPERS) (dev : ℕ) :
    Except Fate MountState := do
  let (bp, st) ← st.get dev SUPER_BLOCK .NORMAL
  let d := copySuper (st.cache.b_data bp) dev
  let st ← st.put (.buf bp) ZUPER_BLOCK
  .ok (st.setSuper A sp dev d)

/-! ## Bit maps -/

/-- Get the blocks of a bit map. -/
def loadMap (dev : ℕ) : ℕ → ℕ → MountState → Except Fate (List Buf × MountState)
  | 0, _, st => .ok ([], st)
  | n + 1, b, st => do
    let (bp, st) ← st.get dev (unshort b) .NORMAL
    let (bufs, st) ← loadMap dev n (b + 1) st
    .ok (bp :: bufs, st)

/-- Mark the first bits of a map as busy. -/
def markBusy (st : MountState) (map : List Buf) (bits : ℕ) : MountState :=
  match map.head? with
  | none => st
  | some bp => { st with cache := { st.cache with
      b_data := Function.update st.cache.b_data bp
        (setInd (st.cache.b_data bp) 0 (bInd (st.cache.b_data bp) 0 ||| bits)) } }

/-- Whether there are insufficient buffers left for bit maps. The sum is kept in an `unsigned`. -/
def mapsRefused (bufs_in_use : ℤ) (d : SuperData) : Bool :=
  ((bufs_in_use + d.s_imap_blocks + d.s_zmap_blocks) % 2 ^ 16).toNat ≥ NR_BUFS - 3

/-- Whether there are too many map blocks. -/
def mapsTooBig (d : SuperData) : Bool := d.s_imap_blocks > I_MAP_SLOTS ∨ d.s_zmap_blocks > ZMAP_SLOTS

/-- Load the bit maps of a device into the cache, unless buffers are insufficient. -/
def loadBitMaps (st : MountState) (sp : Fin NR_SUPERS) (dev : ℕ) : Except Fate (Bool × MountState) :=
  let d := st.super sp
  if mapsRefused st.cache.bufs_in_use d then .ok (false, st)
  else if mapsTooBig d then .error (.panic st.stray)
  else do
    let (imap, st) ← loadMap dev d.s_imap_blocks (SUPER_BLOCK + 1) st
    let (zmap, st) ← loadMap dev d.s_zmap_blocks (SUPER_BLOCK + 1 + d.s_imap_blocks) st
    let st := markBusy (markBusy st imap 3) zmap 1
    .ok (true, { st with super := Function.update st.super sp ⟨d.byte, imap, zmap⟩ })

/-- The pointers that `unload_bit_maps` puts. -/
def imapPtrs (A : Addresses) (d : SuperData) : List BufPtr :=
  (List.range d.s_imap_blocks).map (imapPtr A d)

def zmapPtrs (A : Addresses) (d : SuperData) : List BufPtr :=
  (List.range d.s_zmap_blocks).map (zmapPtr A d)

/-- Unload the bit maps of a device. -/
def unloadBitMaps (A : Addresses) (st : MountState) (sp : Fin NR_SUPERS) : Except Fate MountState := do
  let d := st.super sp
  let st ← st.putAll (imapPtrs A d) I_MAP_BLOCK
  st.putAll (zmapPtrs A d) ZMAP_BLOCK

/-- `free_bit` on a map of the device, which may not have been loaded. -/
def clearBit (st : MountState) (p : BufPtr) (bit_returned : ℕ) : Except Fate MountState :=
  let r := bit_returned % 2 ^ BIT_MAP_SHIFT
  match p with
  | .nil => .ok st
  | .buf bp =>
    let b := st.cache.b_data bp
    let w := r / INT_BITS
    let data := setInd b w (bInd b w &&& (65535 ^^^ 1 <<< (r % INT_BITS)))
    .ok { st with cache := writeBuf st.cache bp data }
  | .other => .error .wild

/-! ## What is done to the cache besides -/

/-- A block is got, buffers are written and the block is put again; or a buffer is written that is
held, as those of the bit maps are. -/
inductive BlockUse
  | block (dev block : ℕ) (only_search : Search) (writes : List (Buf × Block)) (block_type : ℕ)
  | write (bp : Buf) (data : Block)

/-- A use of a block, or a bit that is cleared in a map of the device to be mounted. -/
inductive Use
  | block (u : BlockUse)
  | imapBit (bit_returned : ℕ)
  | zmapBit (bit_returned : ℕ)

def MountState.useBlock (st : MountState) : BlockUse → Except Fate MountState
  | .block dev block only_search writes block_type => do
    let (bp, st) ← st.get dev block only_search
    let c := writes.foldl (fun c w => writeBuf c w.1 w.2) st.cache
    MountState.put { st with cache := c } (.buf bp) block_type
  | .write bp data => .ok { st with cache := writeBuf st.cache bp data }

def Use.run (A : Addresses) (sp : Fin NR_SUPERS) (st : MountState) : Use → Except Fate MountState
  | .block u => st.useBlock u
  | .imapBit b => clearBit st (imapPtr A (st.super sp) (b >>> BIT_MAP_SHIFT)) b
  | .zmapBit b => clearBit st (zmapPtr A (st.super sp) (b >>> BIT_MAP_SHIFT)) b

/-- The uses of the cache are made in order. -/
def MountState.uses (A : Addresses) (sp : Fin NR_SUPERS) (st : MountState) (us : List Use) :
    Except Fate MountState :=
  us.foldlM (Use.run A sp) st

/-- What `do_mount` is called with, and what is done to the cache besides. -/
structure MountCall where
  name1 : Except Errno (List UInt8)
  name2 : Except Errno (List UInt8)
  rd_only : Bool
  /-- By the search for the special file. -/
  search1 : List BlockUse
  /-- By the search for the file to be mounted on. -/
  search2 : List Use
  /-- By reading the root inode. -/
  rootRead : List BlockUse
  /-- By releasing the file to be mounted on. -/
  release : List Use
  /-- By truncating the root inode when it has no links. -/
  truncate : List Use
  /-- By `do_sync` for the inodes and the super blocks. -/
  sync : List BlockUse

/-! ## Mounting -/

/-- Convert the block special file of a path to a device number, which is `NO_DEV` if there is none. -/
def nameToDev (st : MountState) (fp : Fproc) (path : List UInt8) : Except Fate (ℕ × MountState) :=
  match eatPath st.names fp .other path with
  | none => .error .stuck
  | some (none, s) => .ok (NO_DEV, st.withNames s)
  | some (some rip, s) =>
    if (s.inode rip).i_mode &&& I_TYPE ≠ I_BLOCK_SPECIAL then
      .ok (NO_DEV, st.withNames (putInode { s with err_code := ENOTBLK } (some rip)))
    else
      .ok (st.i_zone (s.inode rip).i_dev (s.inode rip).i_num 0, st.withNames (putInode s (some rip)))

/-- Find a free slot in the super block table. -/
def freeSuper (s : Names) : Option (Fin NR_SUPERS) :=
  (List.finRange NR_SUPERS).reverse.find? fun sp => (s.super_block sp).s_dev = NO_DEV

/-- Whether the super block looks reasonable. -/
def reasonable (d : SuperData) : Bool :=
  d.s_magic = SUPER_MAGIC ∧ 1 ≤ d.s_ninodes ∧ 1 ≤ d.s_nzones ∧ 1 ≤ d.s_imap_blocks ∧
    1 ≤ d.s_zmap_blocks

/-- The variables of `do_mount` when it comes to the bit maps. -/
structure Mounting where
  st : MountState
  dev : ℕ
  sp : Fin NR_SUPERS
  rip : InodePtr
  root_ip : Option InodePtr
  r : ℤ

/-- What `do_mount` has found when it comes to the bit maps, unless it has returned an error. -/
inductive Prepared
  | failed (r : ℤ) (st : MountState)
  | ready (m : Mounting)

/-- The checks of the file to be mounted on. -/
def checkMountPoint (slot : InodeSlot) : ℤ :=
  let i_type := slot.i_mode &&& I_TYPE
  if i_type = I_BLOCK_SPECIAL ∨ i_type = I_CHAR_SPECIAL then ENOTDIR
  else if slot.i_count > 1 then EBUSY
  else OK

/-- Get the root inode of the device. -/
def getRoot (st : MountState) (call : MountCall) (sp : Fin NR_SUPERS) (dev : ℕ)
    (rip : InodePtr) : Except Fate Mounting :=
  let r := checkMountPoint (st.names.inode rip)
  if r ≠ OK then .ok ⟨st, dev, sp, rip, none, r⟩
  else do
    let (root_ip, s) := getInode st.names dev ROOT_INODE
    let st ← call.rootRead.foldlM MountState.useBlock (st.withNames s)
    match root_ip with
    | none => .ok ⟨st, dev, sp, rip, none, s.err_code⟩
    | some root => .ok ⟨st, dev, sp, rip, some root, if (s.inode root).i_mode = 0 then EINVAL else OK⟩

/-- Get the inode of the file to be mounted on, and the root inode. -/
def getMountPoint (st : MountState) (fp : Fproc) (call : MountCall) (sp : Fin NR_SUPERS) (dev : ℕ)
    (path : List UInt8) : Except Fate Prepared :=
  match eatPath st.names fp .other path with
  | none => .error .stuck
  | some (none, s) => .ok (.failed s.err_code ((st.withNames s).setDev sp NO_DEV))
  | some (some rip, s) => do
    let m ← getRoot (st.withNames s) call sp dev rip
    .ok (.ready m)

/-- Find the file to be mounted on. -/
def findMountPoint (A : Addresses) (st : MountState) (fp : Fproc) (call : MountCall)
    (sp : Fin NR_SUPERS) (dev : ℕ) : Except Fate Prepared :=
  match call.name2 with
  | .error e => .ok (.failed e.code (st.setDev sp NO_DEV))
  | .ok path => do
    let st ← st.uses A sp call.search2
    getMountPoint st fp call sp dev path

/-- Fill in the super block, and make a few basic checks. -/
def readDevice (A : Addresses) (st : MountState) (fp : Fproc) (call : MountCall) (sp : Fin NR_SUPERS)
    (dev : ℕ) : Except Fate Prepared := do
  let st ← rwSuper A st sp dev
  if ¬reasonable (st.super sp) then .ok (.failed EINVAL (st.setDev sp NO_DEV))
  else findMountPoint A st fp call sp dev

/-- Scan the super block table to see if the device is already mounted, and find a free slot. -/
def findSlot (A : Addresses) (st : MountState) (fp : Fproc) (call : MountCall) (dev : ℕ) :
    Except Fate Prepared :=
  if dev = NO_DEV then .ok (.failed st.names.err_code st)
  else if (List.finRange NR_SUPERS).any fun sp => (st.names.super_block sp).s_dev = dev then
    .ok (.failed EBUSY st)
  else
    match freeSuper st.names with
    | none => .ok (.failed ENFILE st)
    | some sp => readDevice A st fp call sp dev

/-- Find the device of the special file. -/
def findDevice (A : Addresses) (st : MountState) (fp : Fproc) (call : MountCall) (path : List UInt8) :
    Except Fate Prepared := do
  let st ← call.search1.foldlM MountState.useBlock st
  let (dev, st) ← nameToDev st fp path
  findSlot A st fp call dev

/-- The part of `do_mount` in front of the bit maps. -/
def prepareMount (A : Addresses) (st : MountState) (fp : Fproc) (call : MountCall) :
    Except Fate Prepared :=
  -- Only the superuser may do MOUNT.
  if fp.caller.fp_effuid ≠ SU_UID then .ok (.failed EPERM st)
  else
    match call.name1 with
    | .error e => .ok (.failed e.code st)
    | .ok path => findDevice A st fp call path

/-- Write the dirty inodes to the disk. -/
def syncInodes (s : Names) : Names :=
  (List.finRange NR_INODES).foldl (fun s rip =>
    if 0 < (s.inode rip).i_count ∧ (s.inode rip).i_dirt = true then writeInode s rip else s) s

/-- Write all the dirty blocks to the disk. -/
def MountState.syncCache (st : MountState) : Except Fate MountState :=
  match syncBuffers st.cache with
  | none => .error (.panic st.stray)
  | some c => .ok { st with cache := c }

/-- `do_sync` -/
def syncAll (st : MountState) (us : List BlockUse) : Except Fate MountState :=
  match getSuper st.names st.root_dev with
  | none => .error (.panic st.stray)
  | some _ => do
    let st ← us.foldlM MountState.useBlock (st.withNames (syncInodes st.names))
    st.syncCache

/-- The uses of the cache when the root inode is put: if nobody else uses it and it has no links, it is
truncated and its bit in the inode map is cleared. -/
def rootUses (s : Names) (call : MountCall) (root_ip : Option InodePtr) : List Use :=
  match root_ip with
  | none => []
  | some root =>
    if (s.inode root).i_count = 1 ∧ (s.inode root).i_nlinks = 0 then
      call.truncate ++ [.imapBit (s.inode root).i_num]
    else []

/-- Return both inodes. -/
def releaseInodes (A : Addresses) (m : Mounting) (call : MountCall) : Except Fate MountState := do
  let st ← (m.st.withNames (putInode m.st.names (some m.rip))).uses A m.sp call.release
  let st ← st.uses A m.sp (rootUses st.names call m.root_ip)
  .ok (st.withNames (putInode st.names m.root_ip))

/-- Release the maps if they count as loaded. -/
def releaseMaps (A : Addresses) (st : MountState) (sp : Fin NR_SUPERS) (loaded : Bool) :
    Except Fate MountState :=
  if loaded then unloadBitMaps A st sp else .ok st

/-- Return the super block and both inodes, and release the maps. -/
def undoMount (A : Addresses) (m : Mounting) (call : MountCall) (loaded : Bool) (r : ℤ) :
    Except Fate (ℤ × MountState) := do
  let st ← releaseInodes A m call
  let st ← releaseMaps A st m.sp loaded
  let st ← syncAll st call.sync
  .ok (r, { st with cache := invalidate st.cache m.dev }.setDev m.sp NO_DEV)

/-- Whether the file types of the file to be mounted on and of the root inode conflict. -/
def typesConflict (s : Names) (rip : InodePtr) (root_ip : Option InodePtr) : Bool :=
  (s.inode rip).i_mode &&& I_TYPE = I_DIRECTORY ∧
    ∀ root ∈ root_ip, (s.inode root).i_mode &&& I_TYPE ≠ I_DIRECTORY

/-- Perform the mount. -/
def doneMount (m : Mounting) (st : MountState) (rd_only : Bool) : MountState :=
  let s := st.names.setInode m.rip { st.names.inode m.rip with i_mount := true }
  st.withNames { s with super_block := Function.update s.super_block m.sp ⟨m.dev, rd_only, some m.rip⟩ }

/-- The part of `do_mount` that loads the bit maps. -/
def finishMount (A : Addresses) (m : Mounting) (call : MountCall) : Except Fate (ℤ × MountState) :=
  if m.r ≠ OK then undoMount A m call false m.r
  else do
    let (ok, st) ← loadBitMaps m.st m.sp m.dev
    -- The maps count as loaded even if they were refused.
    if ¬ok then undoMount A { m with st := st } call true ENFILE
    else if typesConflict st.names m.rip m.root_ip then
      undoMount A { m with st := st } call true ENOTDIR
    else .ok (OK, doneMount m st call.rd_only)

/-- Perform the mount(name, mfile, rd_only) system call. -/
def doMount (A : Addresses) (st : MountState) (fp : Fproc) (call : MountCall) :
    Except Fate (ℤ × MountState) := do
  match ← prepareMount A st fp call with
  | .failed r st => .ok (r, st)
  | .ready m => finishMount A m call

end Minix.Fs
