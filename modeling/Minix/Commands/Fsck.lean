import Mathlib.Logic.Function.Basic
import Minix.Lib.Comp
import Minix.Lib.Words

/-!
# The check of the file system tree

`getsuper`, `chksuper` and `chktree` of `commands/fsck.c`, with what they call. The program reads
the disk and asks questions; it may write back inodes and chunks of directories, and it may stop,
because the user says so, because of an error that is fatal, or, in the model, because it goes on
for too long (`diverges`): `descendtree` may call itself only so often, and a loop may have only so
many turns.

What is printed, and what only serves to print it, is left out. `files` is not a variable of the
program; it lists the inodes whose contents are looked at.
-/

namespace Minix.Fsck

open Lib Function

abbrev Byte := BitVec 8

/-- The bytes of a block, or of what follows a place in it. -/
abbrev Bytes := ℕ → Byte

def BLOCK_SIZE : ℕ := 1024
def INODE_SIZE : ℕ := 32
def INODES_PER_BLOCK : ℕ := 32
def DIR_ENTRY_SIZE : ℕ := 16
def NAME_MAX : ℕ := 14
def NR_DZONE_NUM : ℕ := 7
def NR_ZONE_NUMS : ℕ := 9
def NR_DIR_ENTRIES : ℕ := 64
def NR_INDIRECTS : ℕ := 512
def CINDIR : ℕ := 128
def CDIRECT : ℕ := 16
def INDCHUNK : ℕ := 256
def DIRCHUNK : ℕ := 256
def BITMAPSHIFT : ℕ := 13
def ROOT_INODE : ℕ := 1
def LINK_MAX : ℕ := 127
def NO_ENTRY : ℕ := 0
def NO_ZONE : ℕ := 0
def BLK_SUPER : ℕ := 1
def SUPER_MAGIC : ℤ := 0x137F

def SLASH : Byte := 47
def FULL_STOP : Byte := 46

/-- The type of a file, in the mode of an inode. -/
def I_TYPE (mode : ℕ) : ℕ := mode / 4096
def I_REGULAR : ℕ := 8
def I_BLOCK_SPECIAL : ℕ := 6
def I_DIRECTORY : ℕ := 4
def I_CHAR_SPECIAL : ℕ := 2
def I_NAMED_PIPE : ℕ := 1

/-! ## What is on the disk -/

/-- A word with its upper byte first. -/
def Bytes.word (b : Bytes) (i : ℕ) : ℕ := 256 * (b i).toNat + (b (i + 1)).toNat

def Bytes.long (b : Bytes) (i : ℕ) : ℤ := long32 (65536 * b.word i + b.word (i + 2))

/-- The super block. -/
structure Dsb where
  s_ninodes : ℕ
  s_nzones : ℕ
  s_imap_blocks : ℕ
  s_zmap_blocks : ℕ
  s_firstdatazone : ℕ
  s_log_zone_size : ℤ
  s_maxsize : ℤ
  s_magic : ℤ

def Dsb.read (b : Bytes) : Dsb where
  s_ninodes := b.word 0
  s_nzones := b.word 2
  s_imap_blocks := b.word 4
  s_zmap_blocks := b.word 6
  s_firstdatazone := b.word 8
  s_log_zone_size := int16 (b.word 10)
  s_maxsize := b.long 12
  s_magic := int16 (b.word 16)

/-- The fields of an inode. -/
structure DInode where
  i_mode : ℕ
  i_size : ℤ
  i_nlinks : Byte
  i_zone : List ℕ

def DInode.read (b : Bytes) : DInode where
  i_mode := b.word 0
  i_size := b.long 4
  i_nlinks := b 13
  i_zone := (List.range NR_ZONE_NUMS).map fun k => b.word (14 + 2 * k)

/-- A directory entry. -/
structure DirStruct where
  d_inum : ℕ
  d_name : List Byte

def DirStruct.read (b : Bytes) : DirStruct :=
  ⟨b.word 0, (List.range NAME_MAX).map fun k => b (2 + k)⟩

/-- An entry that has been cleared. -/
def DirStruct.cleared : DirStruct := ⟨ NO_ENTRY, List.replicate NAME_MAX 0⟩

def DirStruct.bytes (dp : DirStruct) : List Byte :=
  BitVec.ofNat 8 (dp.d_inum / 256) :: BitVec.ofNat 8 dp.d_inum :: dp.d_name

/-- The characters of the name. -/
def DirStruct.name (dp : DirStruct) : List Byte := dp.d_name.takeWhile (· ≠ 0)

/-! ## Where it is on the disk

Block numbers are unsigned words, and so are sums of them. -/

/-- `ztob`. -/
def Dsb.ztob (sb : Dsb) (z : ℕ) : ℕ := z * 2 ^ sb.s_log_zone_size.toNat % 65536

/-- The number of blocks in a zone. -/
def Dsb.SCALE (sb : Dsb) : ℤ := int16 (sb.ztob 1)

def Dsb.ZONE_SIZE (sb : Dsb) : ℤ := int16 (sb.ztob BLOCK_SIZE)

def Dsb.N_ILIST (sb : Dsb) : ℕ := (sb.s_ninodes + INODES_PER_BLOCK - 1) % 65536 / INODES_PER_BLOCK

def Dsb.BLK_ILIST (sb : Dsb) : ℕ := (BLK_SUPER + 1 + sb.s_imap_blocks + sb.s_zmap_blocks) % 65536

/-- Byte address of a zone. -/
def Dsb.zaddr (sb : Dsb) (z : ℕ) : ℕ := sb.ztob z * BLOCK_SIZE

/-- Byte address of an inode. -/
def Dsb.inoaddr (sb : Dsb) (i : ℕ) : ℕ := (i - 1) * INODE_SIZE + sb.BLK_ILIST * BLOCK_SIZE

/-- The block of a byte address. -/
def blockOf (offset : ℕ) : ℕ := offset / BLOCK_SIZE % 65536

/-! ## The program -/

/-- How a question is answered. -/
inductive Answer
  | yes
  | no
  | quit

/-- Why the program stops. -/
inductive Why
  | fatal
  | quit
  | diverges
deriving DecidableEq

/-- The flags, the answers, and the blocks that can be written. -/
structure Env where
  repair : Bool
  automatic : Bool
  listing : Bool
  answers : ℕ → Answer
  writable : ℕ → Bool

/-- An entry that is being descended, and whether `.` and `..` have been found in it. -/
structure Stack where
  st_inum : ℕ
  dot : Bool
  dotdot : Bool

/-- The disk, where a block may be unreadable, and the variables of the program. -/
structure State where
  dev : ℕ → Option Bytes
  imap : ℕ → Bool
  zmap : ℕ → Bool
  dirmap : ℕ → Bool
  count : ℕ → Byte
  ftop : List Stack
  asked : ℕ
  files : List ℕ

abbrev M := Comp State Why

variable (env : Env) (sb : Dsb)

def fatal {α : Type} : M α := Comp.stop .fatal

/-- Ask a question. -/
def yes : M Bool :=
  if !env.repair then pure false
  else if env.automatic then pure true
  else do
    let s ← Comp.get
    Comp.modify fun s => { s with asked := s.asked + 1 }
    match env.answers s.asked with
    | .quit => Comp.stop .quit
    | .yes => pure true
    | .no => pure false

/-- Read what follows a byte address. -/
def devread (offset : ℕ) : M Bytes := do
  let s ← Comp.get
  match s.dev (blockOf offset) with
  | none => fatal
  | some b => pure fun i => b (offset % BLOCK_SIZE + i)

/-- Some bytes of a block are other ones. -/
def Bytes.overwrite (b : Bytes) (start : ℕ) (buf : List Byte) : Bytes := fun i =>
  if start ≤ i ∧ i < start + buf.length then buf.getD (i - start) 0 else b i

/-- Write less than a block. -/
def devwrite (offset : ℕ) (buf : List Byte) : M Unit :=
  if !env.repair then fatal
  else do
    let s ← Comp.get
    match s.dev (blockOf offset) with
    | none => fatal
    | some b =>
      if env.writable (blockOf offset) then
        Comp.modify fun s => { s with
          dev := update s.dev (blockOf offset) (b.overwrite (offset % BLOCK_SIZE) buf) }
      else fatal

/-- `count[ino] += n`. -/
def addCount (ino : ℕ) (n : Byte) : M Unit :=
  Comp.modify fun s => { s with count := update s.count ino (s.count ino + n) }

/-- Change the top of the stack. -/
def onTop (f : Stack → Stack) : M Unit := Comp.modify fun s => { s with ftop := s.ftop.modifyHead f }

/-- Remove an entry from a directory if ok with the user, who clears it then. -/
def Remove (dp : DirStruct) : M Bool := do
  if ← yes env then
    addCount dp.d_inum (-1)
    pure true
  else pure false

/-- See if the `.` or `..` entry is as expected. The value is that of the source and the entry. -/
def chkdots (dp : DirStruct) (exp : ℕ) : M (Bool × DirStruct) :=
  if dp.d_inum ≠ exp then do
    if ← yes env then
      addCount dp.d_inum (-1)
      addCount exp 1
      pure (false, { dp with d_inum := exp })
    else pure (true, dp)
  else pure (true, dp)

/-- Check the name in a directory entry. -/
def chkname (dp : DirStruct) : M Bool :=
  if dp.name = [] ∨ SLASH ∈ dp.name then do
    let removed ← Remove env dp
    pure (!removed)
  else pure true

/-- The end of `chkentry`, for an entry that counts. -/
def chklink (descend : DirStruct → M (Bool × DirStruct)) (ino : ℕ) (dp : DirStruct) :
    M (Bool × DirStruct) := do
  addCount dp.d_inum 1
  if dp.name = [FULL_STOP] then
    onTop fun t => { t with dot := true }
    chkdots env dp ino
  else if dp.name = [FULL_STOP, FULL_STOP] then
    onTop fun t => { t with dotdot := true }
    let s ← Comp.get
    chkdots env dp (if ino = ROOT_INODE then ino else (s.ftop.tail.headD ⟨0, false, false⟩).st_inum)
  else do
    let ok ← chkname env dp
    if !ok then pure (false, .cleared)
    else do
      let s ← Comp.get
      if s.dirmap dp.d_inum then
        let removed ← Remove env dp
        if removed then pure (false, .cleared) else pure (true, dp)
      else descend dp

/-- Check a directory entry. -/
def chkentry (descend : DirStruct → M (Bool × DirStruct)) (ino : ℕ) (dp : DirStruct) :
    M (Bool × DirStruct) :=
  if dp.d_inum < ROOT_INODE ∨ dp.d_inum > sb.s_ninodes then do
    if ← yes env then pure (false, .cleared) else pure (true, dp)
  else do
    let s ← Comp.get
    if (s.count dp.d_inum).toNat = LINK_MAX then
      let removed ← Remove env dp
      if removed then pure (false, .cleared) else chklink env descend ino dp
    else chklink env descend ino dp

/-- The position in a file, and its size. -/
structure Cursor where
  pos : ℤ
  i_size : ℤ

/-- What the entries of a chunk lead to. -/
structure Scan where
  refused : Bool
  dirty : Bool
  entries : List DirStruct
  cursor : Cursor

/-- Whether the file is truncated, because an entry does not fit in it. -/
def truncate (short : Bool) : M Bool := if short then yes env else pure false

/-- An entry that is in use is checked. -/
def chkused (entry : DirStruct → M (Bool × DirStruct)) (dp : DirStruct) : M (Bool × DirStruct) :=
  if dp.d_inum ≠ NO_ENTRY then entry dp else pure (true, dp)

/-- The loop over the entries of a chunk. -/
def chkentries (entry : DirStruct → M (Bool × DirStruct)) : List DirStruct → Cursor → M Scan
  | [], c => pure ⟨false, false, [], c⟩
  | dp :: dps, c => do
    let short := decide (long32 (c.i_size - c.pos) < DIR_ENTRY_SIZE)
    let truncated ← truncate env short
    if short && !truncated then pure ⟨true, false, dp :: dps, c⟩
    else do
      let c : Cursor := if truncated then ⟨c.pos, c.pos⟩ else c
      let r ← chkused entry dp
      let c : Cursor := ⟨long32 (c.pos + DIR_ENTRY_SIZE), c.i_size⟩
      if c.pos ≥ c.i_size then pure ⟨false, truncated || !r.1, r.2 :: dps, c⟩
      else do
        let rest ← chkentries entry dps c
        pure { rest with
          dirty := truncated || !r.1 || rest.dirty
          entries := r.2 :: rest.entries }

/-- The entries of a chunk. -/
def dirblk (b : Bytes) : List DirStruct :=
  (List.range CDIRECT).map fun k => .read fun i => b (DIR_ENTRY_SIZE * k + i)

/-- A chunk that has been changed is written back. -/
def writeBack (offset : ℕ) (scan : Scan) : M Unit :=
  if scan.dirty then devwrite env offset (scan.entries.flatMap DirStruct.bytes) else pure ()

/-- The loop of `chkdirzone` over the chunks of a zone, where `n` is an `int`. -/
def chkchunks (entry : DirStruct → M (Bool × DirStruct)) : ℕ → ℤ → ℕ → Cursor → M (Bool × Cursor)
  | 0, _, _, _ => Comp.stop .diverges
  | turns + 1, n, offset, c => do
    let b ← devread offset
    let scan ← chkentries env entry (dirblk b) c
    if scan.refused then pure (false, scan.cursor)
    else do
      writeBack env offset scan
      let n := int16 (n - 1)
      if n ≠ 0 ∧ scan.cursor.pos < scan.cursor.i_size then
        chkchunks entry turns n (offset + DIRCHUNK) scan.cursor
      else pure (true, scan.cursor)

/-- The number of turns that a loop may have. -/
def TURNS : ℕ := 65536

/-- Check a zone of a directory by checking all the entries in the zone. -/
def chkdirzone (entry : DirStruct → M (Bool × DirStruct)) (c : Cursor) (zno : ℕ) :
    M (Bool × Cursor) := do
  let n := int16 (sb.SCALE * (NR_DIR_ENTRIES / CDIRECT))
  let r ← chkchunks env entry TURNS n (sb.zaddr zno) c
  -- The position is the caller's.
  pure (r.1, ⟨c.pos, r.2.i_size⟩)

/-- Found the given zone in some inode. Check it, and if ok, mark it in the zone bitmap. -/
def markzone (zno : ℕ) : M Bool :=
  if zno < sb.s_firstdatazone ∨ zno ≥ sb.s_nzones then pure false
  else do
    let bit := zno - sb.s_firstdatazone + 1
    let s ← Comp.get
    if s.zmap bit then pure false
    else do
      Comp.modify fun s => { s with zmap := update s.zmap bit true }
      pure true

/-- The size of a gap in the file. -/
def jump : ℕ → ℤ
  | 0 => sb.ZONE_SIZE
  | level + 1 => long32 (jump level * NR_INDIRECTS)

/-- Check one of a list of zones, or leave it out. -/
def chkzone (check : ℕ → Cursor → M (Bool × Cursor)) (level zno : ℕ) (c : Cursor) :
    M (Bool × Cursor) :=
  let past : Cursor := ⟨long32 (c.pos + jump sb level), c.i_size⟩
  if zno = NO_ZONE then pure (true, past)
  else do
    let marked ← markzone sb zno
    if marked then check zno c else pure (false, past)

/-- Check a list of zones, each of them by `check`, at some level of indirection. -/
def chkzones (check : ℕ → Cursor → M (Bool × Cursor)) (level : ℕ) :
    List ℕ → Cursor → M (Bool × Cursor)
  | [], c => pure (true, c)
  | zno :: zlist, c =>
    if c.pos < c.i_size then do
      let r ← chkzone sb check level zno c
      let rest ← chkzones check level zlist r.2
      pure (r.1 && rest.1, rest.2)
    else pure (true, c)

/-- The entries of a chunk of an indirect zone. -/
def indirect (b : Bytes) : List ℕ := (List.range CINDIR).map fun k => b.word (2 * k)

/-- The loop of `chkindzone` over the chunks of an indirect zone. -/
def chkindirects (zones : List ℕ → Cursor → M (Bool × Cursor)) :
    ℕ → ℤ → ℕ → Cursor → M (Bool × Cursor)
  | 0, _, _, _ => Comp.stop .diverges
  | turns + 1, n, offset, c => do
    let b ← devread offset
    let r ← zones (indirect b) c
    if !r.1 then pure (false, r.2)
    else
      let n := int16 (n - 1)
      if n ≠ 0 ∧ r.2.pos < r.2.i_size then chkindirects zones turns n (offset + INDCHUNK) r.2
      else pure (true, r.2)

/-- Check the entries of a zone of a directory. -/
def chkdata (entry : DirStruct → M (Bool × DirStruct)) (ip : DInode) (zno : ℕ) (c : Cursor) :
    M (Bool × Cursor) :=
  if I_TYPE ip.i_mode = I_DIRECTORY then chkdirzone env sb entry c zno else pure (true, c)

/-- Check a zone, which may be either a normal data zone, a directory zone, or an indirect zone. -/
def zonechk (entry : DirStruct → M (Bool × DirStruct)) (ip : DInode) :
    ℕ → ℕ → Cursor → M (Bool × Cursor)
  | 0, zno, c => do
    let r ← chkdata env sb entry ip zno c
    if r.1 then pure (true, ⟨long32 (r.2.pos + sb.ZONE_SIZE), r.2.i_size⟩) else pure (false, r.2)
  | level + 1, zno, c =>
    chkindirects (chkzones sb (zonechk entry ip level) level) TURNS
      (NR_INDIRECTS / CINDIR : ℕ) (sb.zaddr zno) c

/-- Check a file or a directory. -/
def chkfile (entry : DirStruct → M (Bool × DirStruct)) (ino : ℕ) (ip : DInode) : M Bool := do
  Comp.modify fun s => { s with files := s.files ++ [ino] }
  let zones := fun level => chkzones sb (zonechk env sb entry ip level) level
  let r ← zones 0 (ip.i_zone.take NR_DZONE_NUM) ⟨0, ip.i_size⟩
  let r1 ← zones 1 [ip.i_zone.getD NR_DZONE_NUM 0] r.2
  let r2 ← zones 2 [ip.i_zone.getD (NR_DZONE_NUM + 1) 0] r1.2
  pure (r.1 && r1.1 && r2.1)

/-- Check a directory by checking the contents. Check if . and .. are present. -/
def chkdirectory (descend : DirStruct → M (Bool × DirStruct)) (ino : ℕ) (ip : DInode) : M Bool := do
  Comp.modify fun s => { s with dirmap := update s.dirmap ino true }
  let ok ← chkfile env sb (chkentry env sb descend ino) ino ip
  let s ← Comp.get
  let top := s.ftop.headD ⟨0, false, false⟩
  pure (ok && top.dot && top.dotdot)

/-- Check the mode of an inode, and if it is a file or a directory, check the contents. -/
def chkmode (descend : DirStruct → M (Bool × DirStruct)) (ino : ℕ) (ip : DInode) : M Bool :=
  if I_TYPE ip.i_mode = I_REGULAR then chkfile env sb (chkentry env sb descend ino) ino ip
  else if I_TYPE ip.i_mode = I_DIRECTORY then chkdirectory env sb descend ino ip
  else if I_TYPE ip.i_mode = I_BLOCK_SPECIAL then pure true
  else if I_TYPE ip.i_mode = I_CHAR_SPECIAL then pure true
  else if I_TYPE ip.i_mode = I_NAMED_PIPE then pure true
  else pure false

/-- Check an inode. -/
def chkinode (descend : DirStruct → M (Bool × DirStruct)) (ino : ℕ) (ip : DInode) : M Bool :=
  if ino = ROOT_INODE ∧ I_TYPE ip.i_mode ≠ I_DIRECTORY then fatal
  else if ip.i_nlinks = 0 then pure false
  else do
    Comp.modify fun s => { s with imap := update s.imap ino true }
    addCount ino (if ip.i_nlinks.toNat > LINK_MAX then -(BitVec.ofNat 8 LINK_MAX) else -ip.i_nlinks)
    chkmode env sb descend ino ip

/-- An inode that has not been visited is checked, and removed if ok with the user. -/
def chkunvisited (descend : DirStruct → M (Bool × DirStruct)) (ino : ℕ) (inode : DInode) :
    M Bool := do
  let ok ← chkinode env sb descend ino inode
  if ok then pure false
  else do
    if ← yes env then
      addCount ino (inode.i_nlinks - 1)
      Comp.modify fun s => { s with imap := update s.imap ino false }
      devwrite env (sb.inoaddr ino) (List.replicate INODE_SIZE 0)
      pure true
    else pure false

/-- An inode is read if it has not been visited, or to list it. -/
def chkvisit (descend : DirStruct → M (Bool × DirStruct)) (ino : ℕ) (visited : Bool) : M Bool :=
  if !visited || env.listing then do
    let b ← devread (sb.inoaddr ino)
    if !visited then chkunvisited env sb descend ino (.read b) else pure false
  else pure false

/-- Check the directory entry, by checking the inode. It may call itself so often. -/
def descendtree : ℕ → DirStruct → M (Bool × DirStruct)
  | 0, _ => Comp.stop .diverges
  | depth + 1, dp => do
    Comp.modify fun s => { s with ftop := ⟨dp.d_inum, false, false⟩ :: s.ftop }
    let s ← Comp.get
    let removed ← chkvisit env sb (descendtree depth) dp.d_inum (s.imap dp.d_inum)
    Comp.modify fun s => { s with ftop := s.ftop.tail }
    if removed then pure (false, .cleared) else pure (true, dp)

/-- Check the file system tree. -/
def chktree : M Unit := do
  let r ← descendtree env sb sb.s_ninodes ⟨ROOT_INODE, List.replicate NAME_MAX 0⟩
  if r.1 then pure () else fatal

/-- Convert from bit count to a block count. -/
def bitmapsize (nr_bits : ℕ) : ℤ :=
  let nr_blocks := nr_bits / 2 ^ BITMAPSHIFT
  if nr_blocks * 2 ^ BITMAPSHIFT < nr_bits then nr_blocks + 1 else nr_blocks

/-- The checks of `getsuper`. -/
def getsuperOk : Bool :=
  sb.s_magic = SUPER_MAGIC && 0 < int16 sb.s_ninodes && 2 < sb.s_nzones &&
    0 < int16 sb.s_imap_blocks && 0 < int16 sb.s_zmap_blocks && 1 < int16 sb.s_firstdatazone &&
    0 ≤ sb.s_log_zone_size && 0 < sb.s_maxsize

/-- The checks of `chksuper` that are fatal. -/
def chksuperOk : Bool :=
  bitmapsize ((1 + sb.s_ninodes) % 65536) ≤ int16 sb.s_imap_blocks &&
    bitmapsize sb.s_nzones ≤ int16 sb.s_zmap_blocks &&
    uint16 (int16 sb.s_firstdatazone) < sb.s_nzones && sb.s_log_zone_size < 16 &&
    int16 (uint16 (sb.BLK_ILIST + sb.N_ILIST + sb.SCALE - 1) / 2 ^ sb.s_log_zone_size.toNat) ≤
      int16 sb.s_firstdatazone

/-- The super block of a disk. -/
def superBlock : M Dsb := do
  let b ← devread (BLK_SUPER * BLOCK_SIZE)
  pure (.read b)

/-- The part of the program that checks the tree. -/
def fsck : M Unit := do
  let sb ← superBlock
  if getsuperOk sb && chksuperOk sb then chktree env sb else fatal

/-- The variables when the program starts. -/
def State.start (dev : ℕ → Option Bytes) : State where
  dev := dev
  imap b := b = 0
  zmap b := b = 0
  dirmap b := b = 0
  count _ := 0
  ftop := []
  asked := 0
  files := []

end Minix.Fsck
