import Minix.Fs.InodeTable

/-!
# Path names

`get_name`, `advance`, `last_dir` and `eat_path` of `fs/path.c`. A path is the list of its
characters in front of the zero. A function does not return when it uses a pointer that is
`NIL_INODE`, or when it follows mounted devices without end; the fuel of `advance` bounds how many
it follows.
-/

namespace Minix.Fs

abbrev PATH_MAX : ℕ := 255

def ENAMETOOLONG : ℤ := -36

/-- `/` -/
def slash : UInt8 := 47

/-- `.` -/
def dot : UInt8 := 46

/-- What a process asks the file system for, as far as path names depend on it. -/
inductive FsCall
  | UNLINK
  | RMDIR
  | other
  deriving DecidableEq

/-- A component name that is padded with zeros. -/
def padded (component : List UInt8) : Name := fun j => (component[j.val]?).getD 0

/-- Parse a path name: the next component, and that part of the name as yet unparsed, if the end of
the buffer is not reached. -/
def getName (old_name : List UInt8) : Option (List UInt8) × Name :=
  let start := old_name.dropWhile (· = slash)
  let component := start.takeWhile (· ≠ slash)
  let new_name := (start.dropWhile (· ≠ slash)).dropWhile (· = slash)
  let string := padded (component.take (PATH_MAX - (old_name.length - start.length)))
  (if old_name.length - new_name.length ≥ PATH_MAX then none else some new_name, string)

/-- Remove `/.` from the front of the characters of a path in reverse order, unless there is nothing
else. -/
def stripFront : List UInt8 → List UInt8
  | c₂ :: c₁ :: c :: rest =>
    if c₁ = slash ∧ c₂ = dot then stripFront (c :: rest) else c₂ :: c₁ :: c :: rest
  | rest => rest

/-- Remove trailing `/.` from a path. -/
def stripDots (path : List UInt8) : List UInt8 := (stripFront path.reverse).reverse

/-! ## Mounted devices -/

/-- If an inode is mounted on, switch to the root directory of the mounted file system. -/
def enterMounted : ℕ → Names → Option InodePtr → Option (Option InodePtr × Names)
  | _, s, none => some (none, s)
  | 0, s, some rip => if (s.inode rip).i_mount then none else some (some rip, s)
  | fuel + 1, s, some rip =>
    if (s.inode rip).i_mount then do
      let sp ← (List.finRange NR_SUPERS).find? fun sp => (s.super_block sp).s_imount = some rip
      let s := putInode s (some rip)
      let (rip, s) := getInode s (s.super_block sp).s_dev ROOT_INODE
      enterMounted fuel s rip
    else some (some rip, s)

/-- The super block, other than that of the root device, of a root directory of which `..` leads out
of its device. -/
def mountedRoot (s : Names) (dirp rip : InodePtr) (string : Name) : Option (Fin NR_SUPERS) :=
  if (s.inode rip).i_num = ROOT_INODE ∧ (s.inode dirp).i_num = ROOT_INODE ∧ string 1 = dot then
    (List.finRange NR_SUPERS).find? fun sp =>
      sp.val ≠ 0 ∧ (s.super_block sp).s_dev = (s.inode rip).i_dev
  else none

/-- Given a directory and a component of a path, look up the component in the directory, find the
inode, open it, and return a pointer to its inode slot. -/
def advance (fp : Caller) : ℕ → Names → Option InodePtr → Name → Option (Option InodePtr × Names)
  | 0, _, _, _ => none
  | fuel + 1, s, dirp, string =>
    if string 0 = 0 then do
      let dirp ← dirp
      some (getInode s (s.inode dirp).i_dev (s.inode dirp).i_num)
    else
      match dirp with
      | none => some (none, s)
      | some dirp =>
        let found := searchSlots s fp dirp string 0 .LOOK_UP
        if found.r ≠ OK then some (none, { s with err_code := found.r })
        else
          match getInode s (s.inode dirp).i_dev found.numb with
          | (none, s) => some (none, s)
          | (some rip, s) =>
            match mountedRoot s dirp rip string with
            | some sp => do
              let s := putInode s (some rip)
              let s_imount ← (s.super_block sp).s_imount
              let (rip2, s) := getInode s (s.inode s_imount).i_dev (s.inode s_imount).i_num
              let (rip, s) ← advance fp fuel s rip2 string
              enterMounted NR_SUPERS (putInode s rip2) rip
            | none => enterMounted NR_SUPERS s (some rip)

/-- Fuel that is enough for every component: `..` leads out of a device for each super block. -/
def mountFuel : ℕ := NR_SUPERS + 1

/-! ## Paths -/

/-- What `last_dir` leaves: a pointer to the last directory, the final component, the path in the
buffer and the state. -/
structure LastDir where
  rip : Option InodePtr
  string : Name
  user_path : List UInt8
  names : Names

/-- Scan a path component by component. A component is not empty, so that the length of the path is
fuel enough. -/
def scanPath (fp : Caller) (user_path : List UInt8) : ℕ → Names → InodePtr → List UInt8 →
    Option LastDir
  | 0, _, _, _ => none
  | fuel + 1, s, rip, path =>
    match getName path with
    | (none, string) =>
      let s := putInode { s with err_code := ENAMETOOLONG } (some rip)
      some ⟨none, string, user_path, s⟩
    | (some new_name, string) =>
      if new_name = [] then some ⟨some rip, string, user_path, s⟩
      else do
        let (new_ip, s) ← advance fp mountFuel s (some rip) string
        let s := putInode s (some rip)
        match new_ip with
        | none => some ⟨none, string, user_path, s⟩
        | some new_ip => scanPath fp user_path fuel s new_ip new_name

/-- Parse a path as far as the last directory, fetch the inode for the last directory into the inode
table, and return a pointer to the inode and the final component. The string is not set if the path
is not parsed at all. -/
def lastDir (s : Names) (fp : Fproc) (fs_call : FsCall) (path : List UInt8) (string : Name) :
    Option LastDir := do
  let rip ← if path.head? = some slash then fp.fp_rootdir else fp.fp_workdir
  if (s.inode rip).i_nlinks = 0 ∨ path = [] then
    some ⟨none, string, path, { s with err_code := ENOENT }⟩
  else
    let s := dupInode s rip
    let path := if fs_call = .other then path else stripDots path
    scanPath fp.caller path (path.length + 1) s rip path

/-- Parse a path and put its inode in the inode table. -/
def eatPath (s : Names) (fp : Fproc) (fs_call : FsCall) (path : List UInt8) :
    Option (Option InodePtr × Names) := do
  let ld ← lastDir s fp fs_call path (fun _ => 0)
  match ld.rip with
  | none => some (none, ld.names)
  | some ldip =>
    if ld.string 0 = 0 then some (some ldip, ld.names)
    else do
      let (rip, s) ← advance fp.caller mountFuel ld.names (some ldip) ld.string
      some (rip, putInode s (some ldip))

end Minix.Fs
