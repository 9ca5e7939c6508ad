import Minix.Fs.Path

/-!
# Linking, removing and renaming

The system calls of `fs/link.c`. What `fetch_name` gets is an argument: a path, or an error.
-/

namespace Minix.Fs

def LINK_MAX : ℕ := 127
def S_IRWXU : ℕ := 0o700

/-- The slot of `INIT` in the table of the processes. -/
def INIT_SLOT : ℕ := 2

def EPERM : ℤ := -1
def EBUSY : ℤ := -16
def EEXIST : ℤ := -17
def EXDEV : ℤ := -18
def EISDIR : ℤ := -21
def EMLINK : ℤ := -31
def ENOTEMPTY : ℤ := -39

/-- An error. -/
structure Errno where
  code : ℤ
  neg : code < 0

/-- The old and the new name are of the same file. -/
def SAME : ℤ := 1000

/-- The name `.`, padded with zeros. -/
def dot1 : Name := padded dotName

/-- The name `..`, padded with zeros. -/
def dot2 : Name := padded dotDotName

/-- The empty name. -/
def noName : Name := padded []

/-- Whether an inode is a directory. -/
def InodeSlot.isDir (rip : InodeSlot) : Bool := rip.i_mode &&& I_TYPE = I_DIRECTORY

/-- The number of links to an inode is changed. -/
def Names.addLinks (s : Names) (rip : InodePtr) (n : UInt8) : Names :=
  s.setInode rip { s.inode rip with
    i_nlinks := (s.inode rip).i_nlinks + n
    i_dirt := true }

/-! ## Linking -/

/-- Perform the link(name1, name2) system call. -/
def doLink (s : Names) (fp : Fproc) (name1 name2 : Except Errno (List UInt8)) : Option (ℤ × Names) :=
  match name1 with
  | .error e => some (e.code, s)
  | .ok path1 => do
    let (rip, s) ← eatPath s fp .other path1
    match rip with
    | none => some (s.err_code, s)
    | some rip =>
      let r := if (s.inode rip).i_nlinks.toNat = LINK_MAX then EMLINK
        else if (s.inode rip).isDir ∧ fp.caller.fp_effuid ≠ SU_UID then EPERM
        else OK
      if r ≠ OK then some (r, putInode s (some rip))
      else
        match name2 with
        | .error e => some (e.code, putInode s (some rip))
        | .ok path2 => do
          let ld ← lastDir s fp .other path2 noName
          match ld.rip with
          | none => some (ld.names.err_code, putInode ld.names (some rip))
          | some ip =>
            let (new_ip, s) ← advance fp.caller mountFuel ld.names (some ip) ld.string
            -- If `name2` exists in full (even if no space) it is an error.
            let r := match new_ip with
              | some _ => EEXIST
              | none => if s.err_code = ENOENT then OK else s.err_code
            let s := putInode s new_ip
            let r := if r = OK ∧ (s.inode rip).i_dev ≠ (s.inode ip).i_dev then EXDEV else r
            let (r, s) :=
              if r = OK then
                let found := searchSlots s fp.caller ip ld.string (s.inode rip).i_num .ENTER
                (found.r, if found.r = OK then found.names.addLinks rip 1 else found.names)
              else (r, s)
            some (r, putInode (putInode s (some rip)) (some ip))

/-! ## Removing -/

/-- A file that is to be removed: its directory, its name there, the path in the buffer, its inode
and the state. -/
structure ToRemove where
  rldirp : InodePtr
  string : Name
  user_path : List UInt8
  rip : InodePtr
  names : Names

/-- Get the last directory in the path, and the file if it exists too. -/
def findToRemove (s : Names) (fp : Fproc) (fs_call : FsCall) (name : Except Errno (List UInt8)) :
    Option (Except (ℤ × Names) ToRemove) :=
  match name with
  | .error e => some (.error (e.code, s))
  | .ok path => do
    let ld ← lastDir s fp fs_call path noName
    match ld.rip with
    | none => some (.error (ld.names.err_code, ld.names))
    | some rldirp =>
      let (rip, s) ← advance fp.caller mountFuel ld.names (some rldirp) ld.string
      match rip with
      | none => some (.error (s.err_code, putInode s (some rldirp)))
      | some rip => some (.ok ⟨rldirp, ld.string, ld.user_path, rip, s⟩)

/-- Whether an inode is the working directory or the root directory of a process. -/
def Names.usedDir (s : Names) (rip : InodePtr) : Bool :=
  (List.finRange NR_FPROCS).any fun p =>
    p.val > INIT_SLOT ∧ ((s.fproc p).fp_workdir = some rip ∨ (s.fproc p).fp_rootdir = some rip)

/-- Test if rmdir() is allowed. A later condition that is not met takes the place of an earlier one.
-/
def rmdirCheck (fp : Caller) (t : ToRemove) : ℤ :=
  let s := t.names
  let r := OK
  let r := if (s.inode t.rip).isDir then r else ENOTDIR
  let r := if (searchSlots s fp t.rip noName 0 .LOOK_UP).r = OK then ENOTEMPTY else r
  let r := if t.user_path = [slash] then EPERM else r
  let r := if cName t.string = dotName ∨ cName t.string = dotDotName then EPERM else r
  if s.usedDir t.rip then EBUSY else r

/-- The mode and the owner of a directory are fudged: all the owner bits are turned on, and it may
not fail due to uid. -/
def fudge (s : Names) (fp : Caller) (rip : InodePtr) : Names :=
  s.setInode rip { s.inode rip with
    i_mode := (s.inode rip).i_mode ||| S_IRWXU
    i_uid := fp.fp_effuid }

/-- Remove `.` and `..` from a directory that has been removed. If the directory is not searchable,
it will not be possible to unlink them even though this is legal, so the mode is changed. -/
def removeDots (s : Names) (fp : Caller) (rldirp rip : InodePtr) : ℤ × Names :=
  let old_mode := (s.inode rip).i_mode
  let old_uid := (s.inode rip).i_uid
  let s := fudge s fp rip
  let found := searchSlots s fp rip dot1 0 .DELETE
  let s := if found.r = OK then found.names.addLinks rip (-1) else found.names
  let found1 := searchSlots s fp rip dot2 0 .DELETE
  let s := if found1.r = OK then found1.names.addLinks rldirp (-1) else found1.names
  let s := (s.addLinks rip 0).addLinks rldirp 0
  let r := if found1.r ≠ OK then found1.r else found.r
  (r, s.setInode rip { s.inode rip with
    i_mode := old_mode
    i_uid := old_uid })

/-- What unlink() does with a file that has been found. -/
def unlinkFile (fp : Caller) (t : ToRemove) : ℤ × Names :=
  if (t.names.inode t.rip).isDir ∧ fp.fp_effuid ≠ SU_UID then (EPERM, t.names)
  else
    let found := searchSlots t.names fp t.rldirp t.string 0 .DELETE
    (found.r, found.names)

/-- What rmdir() does with a file that has been found. -/
def rmdirFile (fp : Caller) (t : ToRemove) : ℤ × Names :=
  let r := rmdirCheck fp t
  if r ≠ OK then (r, t.names)
  else
    let found := searchSlots t.names fp t.rldirp t.string 0 .DELETE
    if found.r ≠ OK then (found.r, found.names) else removeDots found.names fp t.rldirp t.rip

/-- The last part of `do_unlink`. -/
def removeFound (fp : Caller) (fs_call : FsCall) (t : ToRemove) : ℤ × Names :=
  let old_mode := (t.names.inode t.rip).i_mode
  let (r, s) := if fs_call = .UNLINK then unlinkFile fp t else rmdirFile fp t
  let s := if r = OK then s.addLinks t.rip (-1) else s
  -- If unlink was possible, it has been done, otherwise it has not.
  let s := s.setInode t.rip { s.inode t.rip with i_mode := old_mode }
  (r, putInode (putInode s (some t.rip)) (some t.rldirp))

/-- Perform the unlink(name) or rmdir(name) system call. -/
def doUnlink (s : Names) (fp : Fproc) (fs_call : FsCall) (name : Except Errno (List UInt8)) :
    Option (ℤ × Names) := do
  match ← findToRemove s fp fs_call name with
  | .error res => some res
  | .ok t => some (removeFound fp.caller fs_call t)

/-! ## Renaming -/

/-- What `do_rename` finds of both names: an error so far, the directories and inodes, and the
names. -/
structure ToRename where
  r : ℤ
  old_dirp : InodePtr
  old_ip : Option InodePtr
  old_name : List UInt8
  old_string : Name
  new_dirp : Option InodePtr
  new_ip : Option InodePtr
  user_path : List UInt8
  string : Name
  names : Names

/-- See if `name1` exists and if `name2` exists. -/
def findToRename (s : Names) (fp : Fproc) (name1 name2 : Except Errno (List UInt8)) :
    Option (Except (ℤ × Names) ToRename) :=
  match name1 with
  | .error e => some (.error (e.code, s))
  | .ok path1 => do
    let old ← lastDir s fp .other path1 noName
    match old.rip with
    | none => some (.error (old.names.err_code, old.names))
    | some old_dirp =>
      let (old_ip, s) ← advance fp.caller mountFuel old.names (some old_dirp) old.string
      let r := if old_ip = none then s.err_code else OK
      -- The old name is still in the buffer if the new one cannot be fetched.
      let (r, path2) := match name2 with
        | .error e => (e.code, old.user_path)
        | .ok path2 => (r, path2)
      let new ← lastDir s fp .other path2 old.string
      let r := if new.rip = none then new.names.err_code else r
      let (new_ip, s) ← advance fp.caller mountFuel new.names new.rip new.string
      some (.ok ⟨r, old_dirp, old_ip, old.user_path, old.string, new.rip, new_ip, new.user_path,
        new.string, s⟩)

/-- Check for a variety of possible errors. A later one takes the place of an earlier one. -/
def renameCheck (fp : Caller) (t : ToRename) (old_ip new_dirp : InodePtr) : ℤ :=
  let s := t.names
  let r := OK
  let r := if t.old_name <+: t.user_path then EINVAL else r
  let r := if t.old_name = dotName ∨ t.old_name = dotDotName then EINVAL else r
  let r := if (s.inode t.old_dirp).i_dev ≠ (s.inode new_dirp).i_dev then EXDEV else r
  let r := if s.forbidden fp t.old_dirp (W_BIT ||| X_BIT) ≠ OK then EACCES else r
  let r := if s.forbidden fp new_dirp (W_BIT ||| X_BIT) ≠ OK then EACCES else r
  -- Some tests apply only if the new path exists.
  match t.new_ip with
  | none => r
  | some new_ip =>
    let odir := (s.inode old_ip).isDir
    let ndir := (s.inode new_ip).isDir
    let r := if odir ∧ ¬ndir then ENOTDIR else r
    let r := if ¬odir ∧ ndir then EISDIR else r
    let r := if (s.inode old_ip).i_num = (s.inode new_ip).i_num then SAME else r
    if ndir ∧ (searchSlots s fp new_ip noName 0 .LOOK_UP).r = OK then ENOTEMPTY else r

/-- The entry for the new name is made, in place of the one that is there. -/
def renameNew (fp : Caller) (t : ToRename) (old_ip new_dirp : InodePtr) : ℤ × Names :=
  let s := t.names
  let odir := (s.inode old_ip).isDir
  let numb := (s.inode old_ip).i_num
  match t.new_ip with
  | none =>
    let found := searchSlots s fp new_dirp t.string numb .ENTER
    (found.r, if found.r = OK ∧ odir then found.names.addLinks new_dirp 1 else found.names)
  | some new_ip =>
    let s := (searchSlots s fp new_dirp t.string 0 .DELETE).names
    let s := (searchSlots s fp new_dirp t.string numb .ENTER).names
    let s := s.addLinks new_ip (-1)
    (OK, if odir then s.addLinks new_ip (-1) else s)

/-- The entry for the old name is deleted, and `..` of a directory is changed. -/
def renameOld (s : Names) (fp : Caller) (t : ToRename) (old_ip new_dirp : InodePtr) : Names :=
  let s :=
    if (t.names.inode old_ip).isDir then
      let s := s.addLinks t.old_dirp (-1)
      let numb := (s.inode new_dirp).i_num
      let s := (searchSlots s fp old_ip dot2 0 .DELETE).names
      (searchSlots s fp old_ip dot2 numb .ENTER).names
    else s
  (searchSlots s fp t.old_dirp t.old_string 0 .DELETE).names

/-- What `do_rename` does with what it has found. -/
def renameFound (fp : Caller) (t : ToRename) : Option (ℤ × Names) := do
  let (r, s) ←
    if t.r = OK then do
      let old_ip ← t.old_ip
      let new_dirp ← t.new_dirp
      let r := renameCheck fp t old_ip new_dirp
      if r = OK then
        let (r, s) := renameNew fp t old_ip new_dirp
        some (r, if r = OK then renameOld s fp t old_ip new_dirp else s)
      else some (r, t.names)
    else some (t.r, t.names)
  let s := putInode (putInode s (some t.old_dirp)) t.old_ip
  let s := putInode (putInode s t.new_dirp) t.new_ip
  some (if r = SAME then OK else r, s)

/-- Perform the rename(name1, name2) system call. -/
def doRename (s : Names) (fp : Fproc) (name1 name2 : Except Errno (List UInt8)) : Option (ℤ × Names) :=
    do
  match ← findToRename s fp name1 name2 with
  | .error res => some res
  | .ok t => renameFound fp.caller t

end Minix.Fs
