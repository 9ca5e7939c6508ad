import Minix.Fs.File

/-!
# Searching directories

`search_dir` of `fs/path.c` and `forbidden` of `fs/protect.c`. A directory is a file of entries, of
which the name ends with a zero, or with the last of its characters. Slots are counted in a 16-bit
number. An entry that is deleted keeps its inode number at the end of its name; its caller has the
inode, so that `get_inode` and `put_inode` do no more than count one user up and down.
-/

namespace Minix.Fs

/-- Number of characters in a file name. -/
abbrev NAME_MAX : ℕ := 14

/-- Number of bytes in a directory entry. -/
abbrev DIR_ENTRY_SIZE : ℕ := 16

/-- Number of directory entries in a block. -/
abbrev NR_DIR_ENTRIES : ℕ := BLOCK_SIZE / DIR_ENTRY_SIZE

def X_BIT : ℕ := 1
def SU_UID : ℕ := 0

def ENOENT : ℤ := -2
def EACCES : ℤ := -13
def ENOTDIR : ℤ := -20
def EROFS : ℤ := -30

/-! ## Permissions -/

/-- The identity of a process. -/
structure Caller where
  fp_realuid : ℕ
  fp_effuid : ℕ
  fp_realgid : ℕ
  fp_effgid : ℕ

/-- An inode with its owner. -/
structure OwnedInode extends Inode where
  i_uid : ℕ
  i_gid : ℕ

/-- Check to see if the file system of an inode is mounted read only. -/
def readOnly (s_rd_only : Bool) : ℤ := if s_rd_only then EROFS else OK

/-- The `rwx` bits of a mode that apply to a user. -/
def permBits (rip : OwnedInode) (test_uid test_gid : ℕ) : ℕ :=
  if test_uid = SU_UID then 7
  else
    let shift := if test_uid = rip.i_uid then 6 else if test_gid = rip.i_gid then 3 else 0
    (rip.i_mode >>> shift) &&& 7

/-- Determine if an access is allowed, and if not why not. -/
def forbidden (fp : Caller) (s_rd_only : Bool) (rip : OwnedInode) (access_desired : ℕ)
    (real_uid : Bool) : ℤ :=
  let test_uid := if real_uid then fp.fp_realuid else fp.fp_effuid
  let test_gid := if real_uid then fp.fp_realgid else fp.fp_effgid
  let perm_bits := permBits rip test_uid test_gid
  let r := if perm_bits ||| access_desired ≠ perm_bits then EACCES else OK
  -- If none of the X bits are on, not even the superuser can execute it.
  let xmask := X_BIT <<< 6 ||| X_BIT <<< 3 ||| X_BIT
  let r := if access_desired &&& X_BIT ≠ 0 ∧ rip.i_mode &&& xmask = 0 then EACCES else r
  if r = OK ∧ access_desired &&& W_BIT ≠ 0 then readOnly s_rd_only else r

/-! ## Entries -/

/-- The characters of a name. -/
abbrev Name : Type := Fin NAME_MAX → UInt8

/-- The characters in front of the zero that ends a name, if there is one. -/
def cName (name : Name) : List UInt8 := (List.ofFn name).takeWhile (· ≠ 0)

/-- `.` -/
def dotName : List UInt8 := [46]

/-- `..` -/
def dotDotName : List UInt8 := [46, 46]

/-- `dir_struct` -/
structure DirEntry where
  d_inum : ℕ
  d_name : Name

/-- The entry with an index, in bytes. Inode numbers have their most significant byte first. -/
def entryOf (byte : ℕ → UInt8) (i : ℕ) : DirEntry where
  d_inum := (byte (DIR_ENTRY_SIZE * i)).toNat * 256 + (byte (DIR_ENTRY_SIZE * i + 1)).toNat
  d_name j := byte (DIR_ENTRY_SIZE * i + 2 + j)

/-- A byte of an entry. -/
def DirEntry.byte (e : DirEntry) (k : ℕ) : UInt8 :=
  if k = 0 then UInt8.ofNat (e.d_inum / 256)
  else if k = 1 then UInt8.ofNat e.d_inum
  else if h : k - 2 < NAME_MAX then e.d_name ⟨k - 2, h⟩
  else 0

/-- An entry of a block. -/
def bDir (b : Block) (i : ℕ) : DirEntry :=
  entryOf (fun p => b ⟨p % BLOCK_SIZE, offset_lt p⟩) i

/-- An entry is written into a block. -/
def setDir (b : Block) (i : ℕ) (e : DirEntry) : Block := fun k =>
  if k.val / DIR_ENTRY_SIZE = i then e.byte (k.val % DIR_ENTRY_SIZE) else b k

/-- An entry that is erased. Its inode number is saved for recovery. -/
def DirEntry.erase (e : DirEntry) : DirEntry where
  d_inum := 0
  d_name j :=
    if j.val = NAME_MAX - 2 then UInt8.ofNat (e.d_inum / 256)
    else if j.val = NAME_MAX - 1 then UInt8.ofNat e.d_inum
    else e.d_name j

/-! ## Searching -/

/-- What a directory is searched for. -/
inductive DirFlag
  | LOOK_UP
  | ENTER
  | DELETE
  deriving DecidableEq

/-- The access that a search needs. -/
def DirFlag.bits : DirFlag → ℕ
  | .LOOK_UP => X_BIT
  | .ENTER | .DELETE => W_BIT ||| X_BIT

/-- Whether an entry matches a string. The empty string matches all except `.` and `..`. -/
def DirEntry.isMatch (e : DirEntry) (string : Name) : Bool :=
  if cName string = [] then cName e.d_name ≠ dotName ∧ cName e.d_name ≠ dotDotName
  else cName e.d_name = cName string

/-- Search a directory block, of which `n` slots are left, from slot `i` on. The result is the slot
where the search ends, and the number of slots that have been seen. Such a slot has a match, or is
free or behind the others and there for the benefit of `ENTER`. -/
def searchBlock (b : Block) (flag : DirFlag) (string : Name) (old_slots : ℕ) :
    ℕ → ℕ → ℕ → Option ℕ × ℕ
  | 0, _, new_slots => (none, new_slots)
  | n + 1, i, new_slots =>
    let new_slots := unshort (new_slots + 1)
    let dp := bDir b i
    if new_slots > old_slots then (if flag = .ENTER then some i else none, new_slots)
    else if flag ≠ .ENTER ∧ dp.d_inum ≠ 0 ∧ dp.isMatch string then (some i, new_slots)
    else if flag = .ENTER ∧ dp.d_inum = 0 then (some i, new_slots)
    else searchBlock b flag string old_slots n (i + 1) new_slots

/-- Step through the directory one block at a time. The buffer of the slot where the search ends is
held. -/
def searchBlocks (s : Cache) (sp : SuperBlock) (ldir_ptr : Inode) (flag : DirFlag) (string : Name)
    (old_slots : ℕ) : ℕ → ℕ → ℕ → Option (Option (Buf × ℕ) × ℕ × Cache)
  | 0, _, new_slots => some (none, new_slots, s)
  | n + 1, pos, new_slots =>
    if pos < ldir_ptr.i_size then do
      let (b, s) ← readMap s ldir_ptr sp.s_log_zone_size pos
      let (bp, s) ← getBlock s ldir_ptr.i_dev b .NORMAL
      match searchBlock (s.b_data bp) flag string old_slots NR_DIR_ENTRIES 0 new_slots with
      | (some i, new_slots) => some (some (bp, i), new_slots, s)
      | (none, new_slots) =>
        searchBlocks (putBlock s (some bp) DIRECTORY_BLOCK) sp ldir_ptr flag string old_slots n
          (pos + BLOCK_SIZE) new_slots
    else some (none, new_slots, s)

/-- What `search_dir` leaves: what it returns, the inode number and the directory. -/
structure Searched where
  r : ℤ
  numb : ℕ
  ldir_ptr : OwnedInode
  cache : Cache

/-- The slot for a new entry: the one that has been found, or the first one of a new block. -/
def newSlot (s : Cache) (sp : SuperBlock) (ldir_ptr : Inode) (hit : Option (Buf × ℕ))
    (new_slots : ℕ) : Option (Written (Buf × ℕ) × ℕ) :=
  match hit with
  | some (bp, i) => some (⟨.ok (bp, i), ldir_ptr, s⟩, new_slots)
  | none =>
    let new_slots := unshort (new_slots + 1)
    if new_slots = 0 then some (⟨.error EFBIG, ldir_ptr, s⟩, new_slots)
    else do
      let w ← newBlock s sp ldir_ptr ldir_ptr.i_size
      some (⟨w.res.map (·, 0), w.rip, w.cache⟩, new_slots)

/-- The last part of `search_dir`: an entry is made, in a directory that is extended if need be. -/
def enterEntry (s : Cache) (sp : SuperBlock) (ldir_ptr : OwnedInode) (string : Name) (numb : ℕ)
    (hit : Option (Buf × ℕ)) (new_slots old_slots : ℕ) : Option Searched := do
  let (w, new_slots) ← newSlot s sp ldir_ptr.toInode hit new_slots
  match w.res with
  | .error r => some ⟨r, numb, { ldir_ptr with toInode := w.rip }, w.cache⟩
  | .ok (bp, i) =>
    let s := writeBuf w.cache bp (setDir (w.cache.b_data bp) i ⟨numb, string⟩)
    let i_size := if new_slots > old_slots then new_slots * DIR_ENTRY_SIZE else w.rip.i_size
    some ⟨OK, numb, { ldir_ptr with toInode := { w.rip with i_size := i_size } },
      putBlock s (some bp) DIRECTORY_BLOCK⟩

/-- What is done with the slot where the search ends. -/
def searchEnd (s : Cache) (sp : SuperBlock) (ldir_ptr : OwnedInode) (string : Name) (numb : ℕ)
    (flag : DirFlag) (hit : Option (Buf × ℕ)) (new_slots old_slots : ℕ) : Option Searched :=
  match flag, hit with
  | .ENTER, _ => enterEntry s sp ldir_ptr string numb hit new_slots old_slots
  | _, none => some ⟨ENOENT, numb, ldir_ptr, s⟩
  | .LOOK_UP, some (bp, i) =>
    some ⟨OK, (bDir (s.b_data bp) i).d_inum, ldir_ptr, putBlock s (some bp) DIRECTORY_BLOCK⟩
  | .DELETE, some (bp, i) =>
    let s := writeBuf s bp (setDir (s.b_data bp) i (bDir (s.b_data bp) i).erase)
    some ⟨OK, numb, ldir_ptr, putBlock s (some bp) DIRECTORY_BLOCK⟩

/-- Enter a string in a directory with an inode number, delete it from the directory, or look up its
inode number. -/
def searchDir (fp : Caller) (s_rd_only : Bool) (sp : SuperBlock) (s : Cache) (ldir_ptr : OwnedInode)
    (string : Name) (numb : ℕ) (flag : DirFlag) : Option Searched :=
  if ldir_ptr.i_mode &&& I_TYPE ≠ I_DIRECTORY then some ⟨ENOTDIR, numb, ldir_ptr, s⟩
  else
    let r := forbidden fp s_rd_only ldir_ptr flag.bits false
    if r ≠ OK then some ⟨r, numb, ldir_ptr, s⟩
    else do
      let old_slots := unshort (ldir_ptr.i_size / DIR_ENTRY_SIZE)
      let (hit, new_slots, s) ← searchBlocks s sp ldir_ptr.toInode flag string old_slots
        (ldir_ptr.i_size / BLOCK_SIZE + 1) 0 0
      searchEnd s sp ldir_ptr string numb flag hit new_slots old_slots

end Minix.Fs
