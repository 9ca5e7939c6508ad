import Minix.Fs.Link

/-!
# Directories that are removed

`rmdir` and `rename` take a directory to be empty unless a search for anything but `.` and `..` in
it succeeds. Such a search also fails when the caller may not search the directory, so that a
directory that is not empty can be removed (`removed_not_empty`). Otherwise it cannot
(`removed_empty`).
-/

namespace Minix.Fs

/-- There is no entry except `.` and `..` -/
def OnlyDots (s : Names) (rip : InodePtr) : Prop :=
  ∀ k < s.slots rip, (s.entries rip k).d_inum ≠ 0 →
    cName (s.entries rip k).d_name = dotName ∨ cName (s.entries rip k).d_name = dotDotName

/-- There is an entry that matches a string. -/
def Has (s : Names) (rip : InodePtr) (string : Name) : Prop :=
  ∃ k < reach (s.slots rip), (s.entries rip k).d_inum ≠ 0 ∧
    (s.entries rip k).isMatch string = true

/-- A call by which a directory can be removed. -/
inductive DirCall
  | rmdir (name : Except Errno (List UInt8))
  | rename (name1 name2 : Except Errno (List UInt8))

/-- The existing directory that is replaced, if `do_rename` has found one. -/
def ToRename.target (t : ToRename) : Option InodePtr := do
  let old_ip ← t.old_ip
  let new_ip ← t.new_ip
  if (t.names.inode new_ip).isDir ∧ (t.names.inode old_ip).i_num ≠ (t.names.inode new_ip).i_num then
    some new_ip
  else none

/-- What a call does. -/
def DirCall.run (s : Names) (fp : Fproc) : DirCall → Option (ℤ × Names)
  | rmdir name => doUnlink s fp .RMDIR name
  | rename name1 name2 => doRename s fp name1 name2

/-- The directory that is removed by a call that succeeds, and the state in which it has been found.
-/
def DirCall.target (s : Names) (fp : Fproc) : DirCall → Option (Names × InodePtr)
  | rmdir name =>
    match findToRemove s fp .RMDIR name with
    | some (.ok t) => some (t.names, t.rip)
    | _ => none
  | rename name1 name2 =>
    match findToRename s fp name1 name2 with
    | some (.ok t) => t.target.map fun rip => (t.names, rip)
    | _ => none

/-- What else `rmdir` needs to succeed. -/
structure RmdirAllowed (fp : Caller) (t : ToRemove) : Prop where
  type : (t.names.inode t.rip).isDir = true
  path : t.user_path ≠ [slash]
  string : cName t.string ≠ dotName ∧ cName t.string ≠ dotDotName
  unused : t.names.usedDir t.rip = false
  parent : (t.names.inode t.rldirp).isDir = true
  access : t.names.forbidden fp t.rldirp (W_BIT ||| X_BIT) = OK
  there : Has t.names t.rldirp t.string
  dots : Has t.names t.rip dot1 ∧ Has t.names t.rip dot2
  writable : rdOnly t.names (t.names.inode t.rip).i_dev = false

/-- What else `rename` needs to succeed with an existing directory. -/
structure RenameAllowed (fp : Caller) (t : ToRename) (old_ip new_dirp : InodePtr) : Prop where
  found : t.r = OK ∧ t.old_ip = some old_ip ∧ t.new_dirp = some new_dirp
  path : ¬t.old_name <+: t.user_path
  old_name : t.old_name ≠ dotName ∧ t.old_name ≠ dotDotName
  dev : (t.names.inode t.old_dirp).i_dev = (t.names.inode new_dirp).i_dev
  old_access : t.names.forbidden fp t.old_dirp (W_BIT ||| X_BIT) = OK
  new_access : t.names.forbidden fp new_dirp (W_BIT ||| X_BIT) = OK
  type : (t.names.inode old_ip).isDir = true

/-- Nothing but the contents of the directory stands against a call. -/
def DirCall.Allowed (s : Names) (fp : Fproc) : DirCall → Prop
  | rmdir name => ∃ t, findToRemove s fp .RMDIR name = some (.ok t) ∧ RmdirAllowed fp.caller t
  | rename name1 name2 => ∃ t old_ip new_dirp, findToRename s fp name1 name2 = some (.ok t) ∧
      RenameAllowed fp.caller t old_ip new_dirp

/-- The directory is empty if a call succeeds. -/
def DirCall.Right (s : Names) (fp : Fproc) (call : DirCall) : Prop :=
  ∀ s' s₁ rip, call.run s fp = some (OK, s') → call.target s fp = some (s₁, rip) → OnlyDots s₁ rip

/-- The caller may search the directory, or it is empty, or the call is not allowed. -/
def DirCall.Guarded (s : Names) (fp : Fproc) (call : DirCall) : Prop :=
  ∀ s₁ rip, call.target s fp = some (s₁, rip) →
    s₁.forbidden fp.caller rip X_BIT = OK ∨ OnlyDots s₁ rip ∨ ¬call.Allowed s fp

variable {s s' : Names} {fp : Fproc} {user : Caller} {rip rip' ldir_ptr old_ip new_dirp new_ip : InodePtr}
  {string : Name} {numb k : ℕ} {t : ToRemove} {u : ToRename} {call : DirCall} {n : UInt8}

/-! ## Searches -/

theorem isDir_iff {slot : InodeSlot} :
    slot.isDir = true ↔ slot.i_mode &&& I_TYPE = I_DIRECTORY := decide_eq_true_iff

/-- A search for any entry but `.` and `..` succeeds if the directory may be searched and has one.
-/
theorem searchSlots_any (hdir : (s.inode rip).isDir = true) :
    (searchSlots s user rip noName 0 .LOOK_UP).r = OK ↔
      s.forbidden user rip X_BIT = OK ∧ Has s rip noName := by
  unfold searchSlots searchEntries
  rw [if_neg (not_not.mpr (isDir_iff.mp hdir))]
  dsimp only [DirFlag.bits]
  split_ifs with hx
  · exact iff_of_false hx fun h => hx h.1
  · rw [not_not] at hx
    cases hhunt : hunt (s.entries rip) .LOOK_UP noName (s.slots rip) with
    | none =>
      refine iff_of_false (show ENOENT ≠ OK by decide) ?_
      rintro ⟨-, k, hk, hinum, hmatch⟩
      have hno := hunt_none.mp hhunt k hk
      rw [(wanted_match (by decide)).mpr ⟨hinum, hmatch⟩] at hno
      exact Bool.noConfusion hno
    | some k =>
      obtain ⟨hk, hwant, -⟩ := hunt_some hhunt
      exact iff_of_true rfl ⟨hx, k, hk, (wanted_match (by decide)).mp hwant⟩

/-- A directory that has nothing that the empty string matches is empty. -/
theorem onlyDots_of_not_has (h : ¬Has s rip noName) : OnlyDots s rip := by
  intro k hk hinum
  by_contra hname
  rw [not_or] at hname
  have hs : s.slots rip < 65536 := Nat.mod_lt _ (by decide)
  have hreach : k < reach (s.slots rip) := by
    rcases reach_cases hs with ⟨hr, -⟩ | ⟨hr, -⟩ <;> omega
  exact h ⟨k, hreach, hinum, (isMatch_empty (by decide)).mpr hname⟩

/-- An entry is erased. -/
structure Erased (s : Names) (rip : InodePtr) (string : Name) (s' : Names) : Prop where
  state : ∃ k, (s.entries rip k).isMatch string = true ∧
    s' = s.setEntries rip (Function.update (s.entries rip) k (s.entries rip k).erase)

/-- A search to `DELETE` succeeds if the directory may be written and has an entry. -/
theorem searchSlots_delete : (searchSlots s user rip string numb .DELETE).r = OK ↔
    (s.inode rip).isDir = true ∧ s.forbidden user rip (W_BIT ||| X_BIT) = OK ∧ Has s rip string := by
  unfold searchSlots searchEntries
  dsimp only [DirFlag.bits]
  split_ifs with hdir ha
  · exact iff_of_false (show ENOTDIR ≠ OK by decide) fun h => hdir (isDir_iff.mp h.1)
  · exact iff_of_false ha fun h => ha h.2.1
  · have hok : (s.inode rip).isDir = true ∧ s.forbidden user rip (W_BIT ||| X_BIT) = OK :=
      ⟨isDir_iff.mpr (not_not.mp hdir), not_not.mp ha⟩
    cases hhunt : hunt (s.entries rip) .DELETE string (s.slots rip) with
    | none =>
      refine iff_of_false (show ENOENT ≠ OK by decide) ?_
      rintro ⟨-, -, k, hk, hinum, hmatch⟩
      have hno := hunt_none.mp hhunt k hk
      rw [(wanted_match (by decide)).mpr ⟨hinum, hmatch⟩] at hno
      exact Bool.noConfusion hno
    | some k =>
      obtain ⟨hk, hwant, -⟩ := hunt_some hhunt
      exact iff_of_true rfl ⟨hok.1, hok.2, k, hk, (wanted_match (by decide)).mp hwant⟩

/-- Such a search erases an entry that matches. -/
theorem searchSlots_erased (h : (searchSlots s user rip string numb .DELETE).r = OK) :
    Erased s rip string (searchSlots s user rip string numb .DELETE).names := by
  obtain ⟨hdir, ha, k, hk, hinum, hmatch⟩ := searchSlots_delete.mp h
  unfold searchSlots searchEntries
  rw [if_neg (not_not.mpr (isDir_iff.mp hdir))]
  dsimp only [DirFlag.bits]
  rw [if_neg (not_not.mpr ha)]
  cases hhunt : hunt (s.entries rip) .DELETE string (s.slots rip) with
  | none =>
    have hno := hunt_none.mp hhunt k hk
    rw [(wanted_match (by decide)).mpr ⟨hinum, hmatch⟩] at hno
    exact Bool.noConfusion hno
  | some k =>
    obtain ⟨-, hwant, -⟩ := hunt_some hhunt
    exact ⟨k, ((wanted_match (by decide)).mp hwant).2, rfl⟩

/-! ## What is left alone -/

/-- What a search of a directory depends on is the same. -/
structure Alike (s s' : Names) (rip : InodePtr) : Prop where
  mode : (s'.inode rip).i_mode = (s.inode rip).i_mode
  uid : (s'.inode rip).i_uid = (s.inode rip).i_uid
  gid : (s'.inode rip).i_gid = (s.inode rip).i_gid
  size : (s'.inode rip).i_size = (s.inode rip).i_size
  dev : (s'.inode rip).i_dev = (s.inode rip).i_dev
  num : (s'.inode rip).i_num = (s.inode rip).i_num
  super : s'.super_block = s.super_block

theorem Alike.slots (h : Alike s s' rip) : s'.slots rip = s.slots rip := by
  unfold Names.slots
  rw [h.size]

theorem Alike.isDir (h : Alike s s' rip) : (s'.inode rip).isDir = (s.inode rip).isDir := by
  unfold InodeSlot.isDir
  rw [h.mode]

theorem Alike.rdOnly (h : Alike s s' rip) (dev : ℕ) : Fs.rdOnly s' dev = Fs.rdOnly s dev := by
  unfold Fs.rdOnly getSuper
  rw [h.super]

theorem Alike.forbidden (h : Alike s s' rip) (access : ℕ) :
    s'.forbidden user rip access = s.forbidden user rip access := by
  have hrights : SameRights (s.inode rip).owned (s'.inode rip).owned := ⟨h.mode, h.uid, h.gid⟩
  unfold Names.forbidden
  rw [h.dev, h.rdOnly]
  exact hrights.forbidden _ _

theorem Alike.has (h : Alike s s' rip) (hdirs : s'.dirs = s.dirs) :
    Has s' rip string ↔ Has s rip string := by
  have hentries : s'.entries rip = s.entries rip := by
    unfold Names.entries
    rw [hdirs, h.dev, h.num]
  unfold Has
  rw [hentries, h.slots]

/-- A number of links matters to no search. -/
theorem addLinks_alike (s : Names) (rip' : InodePtr) (n : UInt8) (rip : InodePtr) :
    Alike s (s.addLinks rip' n) rip := by
  have hinode : ∀ rip, (s.addLinks rip' n).inode rip = (Function.update s.inode rip'
      { s.inode rip' with
        i_nlinks := (s.inode rip').i_nlinks + n
        i_dirt := true }) rip := fun _ => rfl
  by_cases hr : rip = rip'
  · subst hr
    constructor <;> first | rfl | rw [hinode, Function.update_self]
  · constructor <;> first | rfl | rw [hinode, Function.update_of_ne hr]

theorem Erased.alike (h : Erased s rip' string s') (rip : InodePtr) : Alike s s' rip := by
  obtain ⟨k, -, rfl⟩ := h.state
  exact ⟨rfl, rfl, rfl, rfl, rfl, rfl, rfl⟩

/-- The entries of a directory when one has been erased, in it or in another one. -/
theorem Erased.entries (h : Erased s ldir_ptr string s') : ∃ k : ℕ,
    (s.entries ldir_ptr k).isMatch string = true ∧ ∀ rip j, s'.entries rip j = s.entries rip j ∨
      j = k ∧ s.entries rip = s.entries ldir_ptr ∧ (s'.entries rip j).d_inum = 0 := by
  obtain ⟨k, hmatch, rfl⟩ := h.state
  refine ⟨k, hmatch, fun rip j => ?_⟩
  unfold Names.setEntries
  unfold Names.entries
  dsimp only
  by_cases hdev : (s.inode rip).i_dev = (s.inode ldir_ptr).i_dev
  · rw [hdev, Function.update_self]
    by_cases hnum : (s.inode rip).i_num = (s.inode ldir_ptr).i_num
    · rw [hnum, Function.update_self]
      by_cases hjk : j = k
      · rw [hjk, Function.update_self]
        exact Or.inr ⟨rfl, rfl, rfl⟩
      · exact Or.inl (Function.update_of_ne hjk ..)
    · rw [Function.update_of_ne hnum]
      exact Or.inl rfl
  · rw [Function.update_of_ne hdev]
    exact Or.inl rfl

/-- The entries that match other strings are still there. -/
theorem Erased.has {other : Name} (h : Erased s ldir_ptr string s')
    (hne : ∀ e : DirEntry, e.isMatch string = true → e.isMatch other = false) :
    Has s' rip other ↔ Has s rip other := by
  obtain ⟨k, hmatch, hentry⟩ := h.entries
  unfold Has
  rw [(h.alike rip).slots]
  refine exists_congr fun j => and_congr_right fun _ => ?_
  rcases hentry rip j with heq | ⟨rfl, hsame, hinum⟩
  · rw [heq]
  · refine iff_of_false (fun hj => hj.1 hinum) fun hj => ?_
    rw [hsame, hne _ hmatch] at hj
    exact Bool.noConfusion hj.2

/-- No entry matches two strings, unless one of them is empty. -/
theorem isMatch_ne {other : Name} (hne : cName string ≠ cName other) (hn : cName string ≠ [])
    (ho : cName other ≠ []) (e : DirEntry) (h : e.isMatch string = true) :
    e.isMatch other = false := by
  rw [Bool.eq_false_iff]
  intro hother
  exact hne (((isMatch_name hn).mp h).symm.trans ((isMatch_name ho).mp hother))

/-- An entry that is not `.` or `..` is not erased for one. -/
theorem isMatch_dot {other : Name} (ho : cName other = dotName ∨ cName other = dotDotName)
    (hs : cName string ≠ dotName ∧ cName string ≠ dotDotName) (e : DirEntry)
    (h : e.isMatch string = true) : e.isMatch other = false := by
  have hne : cName other ≠ [] := by
    rcases ho with ho | ho <;> rw [ho] <;> decide
  by_cases hempty : cName string = []
  · rw [Bool.eq_false_iff]
    intro hother
    rw [isMatch_name hne] at hother
    obtain ⟨h1, h2⟩ := (isMatch_empty hempty).mp h
    rw [hother] at h1 h2
    exact ho.elim h1 h2
  · refine isMatch_ne ?_ hempty hne e h
    rcases ho with ho | ho <;> rw [ho]
    · exact hs.1
    · exact hs.2

/-! ## Removing `.` and `..` -/

/-- The owner of a directory may write and search it when all the owner bits have been turned on,
unless its device is read only. -/
theorem forbidden_fudged {dir : OwnedInode} {mode : ℕ} {rd : Bool}
    (hmode : dir.i_mode = mode ||| S_IRWXU) (huid : dir.i_uid = user.fp_effuid) :
    forbidden user rd dir (W_BIT ||| X_BIT) false = readOnly rd := by
  have howner : ((mode ||| S_IRWXU) >>> 6) &&& 7 = 7 := by
    refine Nat.eq_of_testBit_eq fun i => ?_
    rw [Nat.testBit_and, Nat.testBit_shiftRight, Nat.testBit_or]
    by_cases hi : i < 3
    · have hbit : ∀ i < 3, Nat.testBit 7 i = true ∧ Nat.testBit S_IRWXU (6 + i) = true := by decide
      obtain ⟨h7, h700⟩ := hbit i hi
      rw [h7, h700, Bool.or_true, Bool.and_true]
    · have h7 : Nat.testBit 7 i = false := Nat.testBit_lt_two_pow
        (lt_of_lt_of_le (by decide) (Nat.pow_le_pow_right (by decide) (not_lt.mp hi) : 2 ^ 3 ≤ 2 ^ i))
      rw [h7, Bool.and_false]
  have hbits : permBits dir user.fp_effuid user.fp_effgid = 7 := by
    unfold permBits
    rw [huid, hmode, if_pos rfl]
    split_ifs
    · rfl
    · exact howner
  have hx : (dir.i_mode &&& (X_BIT <<< 6 ||| X_BIT <<< 3 ||| X_BIT)) ≠ 0 := by
    intro h0
    have := congrArg (Nat.testBit · 6) h0
    rw [hmode] at this
    simp only [Nat.testBit_and, Nat.testBit_or] at this
    revert this
    cases mode.testBit 6 <;> decide
  unfold forbidden
  dsimp only
  have hnox : ¬((W_BIT ||| X_BIT) &&& X_BIT ≠ 0 ∧
      dir.i_mode &&& (X_BIT <<< 6 ||| X_BIT <<< 3 ||| X_BIT) = 0) := fun h => hx h.2
  rw [if_neg Bool.false_ne_true, if_neg Bool.false_ne_true, hbits, if_neg hnox]
  exact if_pos (by decide)

/-- The type of a mode is not changed by the owner bits. -/
theorem type_fudged (mode : ℕ) : (mode ||| S_IRWXU) &&& I_TYPE = mode &&& I_TYPE := by
  rw [Nat.and_or_distrib_right]
  exact Nat.or_zero _

theorem fudge_inode (s : Names) (user : Caller) (rip : InodePtr) :
    (fudge s user rip).inode rip = { s.inode rip with
      i_mode := (s.inode rip).i_mode ||| S_IRWXU
      i_uid := user.fp_effuid } := Function.update_self ..

theorem fudge_has : Has (fudge s user rip) rip string ↔ Has s rip string := by
  have hentries : (fudge s user rip).entries rip = s.entries rip := by
    unfold Names.entries
    rw [fudge_inode]
    rfl
  have hslots : (fudge s user rip).slots rip = s.slots rip := by
    unfold Names.slots
    rw [fudge_inode]
  unfold Has
  rw [hentries, hslots]

theorem fudge_isDir : ((fudge s user rip).inode rip).isDir = (s.inode rip).isDir := by
  unfold InodeSlot.isDir
  rw [fudge_inode, type_fudged]

theorem fudge_forbidden : (fudge s user rip).forbidden user rip (W_BIT ||| X_BIT) = OK ↔
    rdOnly s (s.inode rip).i_dev = false := by
  have howned : ((fudge s user rip).inode rip).owned.i_mode = (s.inode rip).i_mode ||| S_IRWXU ∧
      ((fudge s user rip).inode rip).owned.i_uid = user.fp_effuid := by
    rw [fudge_inode]
    exact ⟨rfl, rfl⟩
  have hrd : rdOnly (fudge s user rip) ((fudge s user rip).inode rip).i_dev =
      rdOnly s (s.inode rip).i_dev := by
    rw [fudge_inode]
    rfl
  unfold Names.forbidden
  rw [forbidden_fudged howned.1 howned.2, hrd]
  cases rdOnly s (s.inode rip).i_dev <;> decide

/-- `.` and `..` are removed from a directory that has them, on a device that can be written. -/
theorem removeDots_ok (hdir : (s.inode rip).isDir = true) :
    (removeDots s user ldir_ptr rip).1 = OK ↔
      rdOnly s (s.inode rip).i_dev = false ∧ Has s rip dot1 ∧ Has s rip dot2 := by
  obtain ⟨s₁, hs₁⟩ : ∃ s₁, s₁ = fudge s user rip := ⟨_, rfl⟩
  obtain ⟨found, hfound⟩ : ∃ found, found = searchSlots s₁ user rip dot1 0 .DELETE := ⟨_, rfl⟩
  have hfirst : found.r = OK ↔ rdOnly s (s.inode rip).i_dev = false ∧ Has s rip dot1 := by
    rw [hfound, searchSlots_delete, hs₁, fudge_isDir, fudge_forbidden, fudge_has, hdir]
    exact and_iff_right rfl
  have hresult : (removeDots s user ldir_ptr rip).1 = OK ↔ found.r = OK ∧
      (searchSlots (found.names.addLinks rip (-1)) user rip dot2 0 .DELETE).r = OK := by
    unfold removeDots
    dsimp only
    rw [← hs₁, ← hfound]
    by_cases hr : found.r = OK
    · rw [if_pos hr, hr]
      split_ifs with hr1
      · exact iff_of_false hr1 fun h => hr1 h.2
      · exact iff_of_true rfl ⟨rfl, not_not.mp hr1⟩
    · rw [if_neg hr]
      split_ifs with hr1
      · exact iff_of_false hr1 fun h => hr h.1
      · exact iff_of_false hr fun h => hr h.1
  rw [hresult]
  by_cases hr : found.r = OK
  · have herased : Erased s₁ rip dot1 found.names := by
      rw [hfound] at hr ⊢
      exact searchSlots_erased hr
    have halike := herased.alike rip
    have hlinks := addLinks_alike found.names rip (-1) rip
    have hhas : Has (found.names.addLinks rip (-1)) rip dot2 ↔ Has s rip dot2 := by
      rw [hlinks.has rfl, herased.has
        (isMatch_ne (show cName dot1 ≠ cName dot2 by decide) (by decide) (by decide)), hs₁, fudge_has]
    rw [searchSlots_delete, hlinks.isDir, halike.isDir, hlinks.forbidden, halike.forbidden, hhas, hs₁,
      fudge_isDir, fudge_forbidden, hdir, hfirst]
    tauto
  · have hno := hr
    rw [hfirst] at hno
    tauto

/-! ## Checks -/

/-- An error takes the place of what was found before. -/
theorem ite_ok {p : Prop} [Decidable p] {e r : ℤ} (he : e ≠ OK) :
    (if p then e else r) = OK ↔ ¬p ∧ r = OK := by
  split_ifs with h
  · exact iff_of_false he fun hr => hr.1 h
  · exact (and_iff_right h).symm

/-- What `rmdir` tests before it deletes anything. -/
theorem rmdirCheck_ok : rmdirCheck user t = OK ↔ t.names.usedDir t.rip = false ∧
    (cName t.string ≠ dotName ∧ cName t.string ≠ dotDotName) ∧ t.user_path ≠ [slash] ∧
    (searchSlots t.names user t.rip noName 0 .LOOK_UP).r ≠ OK ∧
    (t.names.inode t.rip).isDir = true := by
  have htype : (if (t.names.inode t.rip).isDir = true then OK else ENOTDIR) = OK ↔
      (t.names.inode t.rip).isDir = true := by
    split_ifs with h
    · exact iff_of_true rfl h
    · exact iff_of_false (by decide) h
  unfold rmdirCheck
  dsimp only
  rw [ite_ok (by decide), ite_ok (by decide), ite_ok (by decide), ite_ok (by decide), htype,
    Bool.not_eq_true, not_or]

/-- What `rename` tests before it replaces a directory. -/
theorem renameCheck_ok (hnew : u.new_ip = some new_ip)
    (hdir : (u.names.inode new_ip).isDir = true)
    (hnum : (u.names.inode old_ip).i_num ≠ (u.names.inode new_ip).i_num) :
    renameCheck user u old_ip new_dirp = OK ↔
      (searchSlots u.names user new_ip noName 0 .LOOK_UP).r ≠ OK ∧
      (u.names.inode old_ip).isDir = true ∧
      u.names.forbidden user new_dirp (W_BIT ||| X_BIT) = OK ∧
      u.names.forbidden user u.old_dirp (W_BIT ||| X_BIT) = OK ∧
      (u.names.inode u.old_dirp).i_dev = (u.names.inode new_dirp).i_dev ∧
      (u.old_name ≠ dotName ∧ u.old_name ≠ dotDotName) ∧ ¬u.old_name <+: u.user_path := by
  unfold renameCheck
  dsimp only
  rw [hnew]
  dsimp only
  rw [ite_ok (by decide), ite_ok (by decide), ite_ok (by decide), ite_ok (by decide),
    ite_ok (by decide), ite_ok (by decide), ite_ok (by decide), ite_ok (by decide),
    ite_ok (by decide), hdir]
  simp only [true_and, and_true, not_or, not_not, ne_eq, not_true_eq_false, and_false,
    not_false_eq_true, hnum, Bool.not_eq_true, Bool.not_eq_false]

/-- The result of `rmdir` is that of its checks and searches. -/
theorem removeFound_rmdir : (removeFound user .RMDIR t).1 = (rmdirFile user t).1 := rfl

/-- A value that is not among those of a choice. -/
theorem ite_ne {p : Prop} [Decidable p] {e r v : ℤ} (he : p → e ≠ v) (hr : r ≠ v) :
    (if p then e else r) ≠ v := by
  split_ifs with h
  · exact he h
  · exact hr

/-- The names are not taken to be of the same file. -/
theorem renameCheck_ne_same (hnew : u.new_ip = some new_ip)
    (hnum : (u.names.inode old_ip).i_num ≠ (u.names.inode new_ip).i_num) :
    renameCheck user u old_ip new_dirp ≠ SAME := by
  unfold renameCheck
  dsimp only
  rw [hnew]
  have hempty : ENOTEMPTY ≠ SAME := by decide
  have hfile : EISDIR ≠ SAME ∧ ENOTDIR ≠ SAME := by decide
  have hdirs : EACCES ≠ SAME ∧ EXDEV ≠ SAME := by decide
  have hpath : EINVAL ≠ SAME := by decide
  refine ite_ne (fun _ => hempty) (ite_ne (fun h => absurd h hnum) (ite_ne (fun _ => hfile.1)
    (ite_ne (fun _ => hfile.2) (ite_ne (fun _ => hdirs.1) (ite_ne (fun _ => hdirs.1)
      (ite_ne (fun _ => hdirs.2) (ite_ne (fun _ => hpath) (ite_ne (fun _ => hpath) ?_))))))))
  decide

/-- A directory that has been found to replace is replaced if the checks are passed. -/
theorem renameFound_ok (hr : u.r = OK) (hold : u.old_ip = some old_ip)
    (hdirp : u.new_dirp = some new_dirp) (hnew : u.new_ip = some new_ip)
    (hnum : (u.names.inode old_ip).i_num ≠ (u.names.inode new_ip).i_num) :
    (∃ s', renameFound user u = some (OK, s')) ↔ renameCheck user u old_ip new_dirp = OK := by
  have hsame : renameCheck user u old_ip new_dirp ≠ SAME := renameCheck_ne_same hnew hnum
  unfold renameFound
  rw [if_pos hr, hold, hdirp, Option.bind_eq_bind, Option.bind_eq_bind, Option.bind_some,
    Option.bind_some]
  dsimp only
  by_cases hc : renameCheck user u old_ip new_dirp = OK
  · rw [if_pos hc, Option.bind_some]
    have hok : (renameNew user u old_ip new_dirp).1 = OK := by
      unfold renameNew
      rw [hnew]
    rw [hok]
    exact iff_of_true ⟨_, rfl⟩ hc
  · rw [if_neg hc, Option.bind_some]
    dsimp only
    rw [if_neg hsame]
    refine iff_of_false ?_ hc
    rintro ⟨s', he⟩
    exact hc (Prod.mk.inj (Option.some.inj he)).1

/-- Nothing is found in a directory that has not been found. -/
theorem advance_nil {fuel : ℕ} {res : Option InodePtr × Names}
    (h : advance user fuel s none string = some res) : res.1 = none := by
  cases fuel with
  | zero => exact nomatch h
  | succ fuel =>
    unfold advance at h
    split_ifs at h
    · exact nomatch h
    · rw [← Option.some.inj h]

/-- When both files have been found, there was no error, or one that is not that of a search. -/
theorem findToRename_r {name1 name2 : Except Errno (List UInt8)}
    (h : findToRename s fp name1 name2 = some (.ok u)) (hold : u.old_ip ≠ none)
    (hnew : u.new_ip ≠ none) : u.r = OK ∧ u.new_dirp ≠ none ∨ u.r < 0 := by
  unfold findToRename at h
  cases name1 with
  | error e => exact nomatch h
  | ok path1 =>
    dsimp only at h
    obtain ⟨old, hlast, h⟩ := Option.bind_eq_some_iff.mp h
    cases hdirp : old.rip with
    | none =>
      rw [hdirp] at h
      exact nomatch h
    | some old_dirp =>
      rw [hdirp] at h
      obtain ⟨⟨old_ip, s₁⟩, hadvance, h⟩ := Option.bind_eq_some_iff.mp h
      dsimp only at h
      obtain ⟨new, hnewdir, h⟩ := Option.bind_eq_some_iff.mp h
      obtain ⟨⟨new_ip, s₂⟩, hadvance', h⟩ := Option.bind_eq_some_iff.mp h
      obtain rfl := Except.ok.inj (Option.some.inj h)
      dsimp only at hold hnew ⊢
      have hdir : new.rip ≠ none := by
        intro hnone
        rw [hnone] at hadvance'
        exact hnew (advance_nil hadvance')
      rw [if_neg hdir, if_neg hold]
      cases name2 with
      | error e => exact Or.inr e.neg
      | ok path2 => exact Or.inl ⟨rfl, hdir⟩

/-- A directory that is removed has been found with what else is in the way of `rmdir`. -/
theorem doUnlink_rmdir {name : Except Errno (List UInt8)}
    (h : findToRemove s fp .RMDIR name = some (.ok t)) :
    doUnlink s fp .RMDIR name = some (removeFound fp.caller .RMDIR t) := by
  unfold doUnlink
  rw [h]
  rfl

theorem doRename_found {name1 name2 : Except Errno (List UInt8)}
    (h : findToRename s fp name1 name2 = some (.ok u)) :
    doRename s fp name1 name2 = renameFound fp.caller u := by
  unfold doRename
  rw [h]
  rfl

/-- The directory that is found by `rmdir`. -/
theorem rmdir_target {name : Except Errno (List UInt8)}
    (h : (DirCall.rmdir name).target s fp = some (s', rip)) :
    ∃ t, findToRemove s fp .RMDIR name = some (.ok t) ∧ s' = t.names ∧ rip = t.rip := by
  dsimp only [DirCall.target] at h
  split at h
  · next t ht =>
    obtain ⟨rfl, rfl⟩ := Prod.mk.inj (Option.some.inj h)
    exact ⟨t, ht, rfl, rfl⟩
  · exact nomatch h

/-- The directory that is found by `rename`. -/
theorem rename_target {name1 name2 : Except Errno (List UInt8)}
    (h : (DirCall.rename name1 name2).target s fp = some (s', rip)) :
    ∃ u old_ip, findToRename s fp name1 name2 = some (.ok u) ∧ s' = u.names ∧
      u.old_ip = some old_ip ∧ u.new_ip = some rip ∧ (u.names.inode rip).isDir = true ∧
      (u.names.inode old_ip).i_num ≠ (u.names.inode rip).i_num := by
  dsimp only [DirCall.target] at h
  split at h
  · next u hu =>
    obtain ⟨rip', htarget, heq⟩ := Option.map_eq_some_iff.mp h
    obtain ⟨rfl, rfl⟩ := Prod.mk.inj heq
    unfold ToRename.target at htarget
    obtain ⟨old_ip, hold, htarget⟩ := Option.bind_eq_some_iff.mp htarget
    obtain ⟨new_ip, hnew, htarget⟩ := Option.bind_eq_some_iff.mp htarget
    split_ifs at htarget with hc
    obtain rfl := Option.some.inj htarget
    exact ⟨u, old_ip, hu, rfl, hold, hnew, hc⟩
  · exact nomatch h

/-- A directory that may be searched is empty when it is removed. -/
theorem onlyDots_of_search (hdir : (s.inode rip).isDir = true)
    (hx : s.forbidden user rip X_BIT = OK)
    (hno : (searchSlots s user rip noName 0 .LOOK_UP).r ≠ OK) : OnlyDots s rip :=
  onlyDots_of_not_has fun h => hno ((searchSlots_any hdir).mpr ⟨hx, h⟩)

/-- When `rmdir` succeeds with a directory. -/
theorem rmdir_ok : (removeFound user .RMDIR t).1 = OK ↔
    (searchSlots t.names user t.rip noName 0 .LOOK_UP).r ≠ OK ∧ RmdirAllowed user t := by
  rw [removeFound_rmdir]
  unfold rmdirFile
  dsimp only
  by_cases hcheck : rmdirCheck user t = OK
  · rw [if_neg (not_not.mpr hcheck)]
    obtain ⟨hunused, hstring, hpath, hno, hdir⟩ := rmdirCheck_ok.mp hcheck
    by_cases hr : (searchSlots t.names user t.rldirp t.string 0 .DELETE).r = OK
    · rw [if_neg (not_not.mpr hr)]
      have herased := searchSlots_erased hr
      have halike := herased.alike t.rip
      have hdots : ∀ {other : Name}, cName other = dotName ∨ cName other = dotDotName →
          (Has (searchSlots t.names user t.rldirp t.string 0 .DELETE).names t.rip other ↔
            Has t.names t.rip other) := fun ho => herased.has (isMatch_dot ho hstring)
      obtain ⟨hparent, haccess, hthere⟩ := searchSlots_delete.mp hr
      rw [removeDots_ok (by rw [halike.isDir, hdir]), halike.rdOnly, halike.dev,
        hdots (Or.inl (by decide)), hdots (Or.inr (by decide))]
      constructor
      · rintro ⟨hrd, hdots⟩
        exact ⟨hno, hdir, hpath, hstring, hunused, hparent, haccess, hthere, hdots, hrd⟩
      · rintro ⟨-, h⟩
        exact ⟨h.writable, h.dots⟩
    · rw [if_pos hr]
      refine iff_of_false hr ?_
      rintro ⟨-, h⟩
      exact hr (searchSlots_delete.mpr ⟨h.parent, h.access, h.there⟩)
  · rw [if_pos hcheck]
    refine iff_of_false hcheck ?_
    rintro ⟨hno, h⟩
    exact hcheck (rmdirCheck_ok.mpr ⟨h.unused, h.string, h.path, hno, h.type⟩)

/-- When `rename` succeeds with an existing directory. -/
theorem rename_ok {name1 name2 : Except Errno (List UInt8)}
    (h : findToRename s fp name1 name2 = some (.ok u)) (hold : u.old_ip = some old_ip)
    (hnew : u.new_ip = some new_ip) (hdir : (u.names.inode new_ip).isDir = true)
    (hnum : (u.names.inode old_ip).i_num ≠ (u.names.inode new_ip).i_num) :
    (∃ s', renameFound user u = some (OK, s')) ↔
      (searchSlots u.names user new_ip noName 0 .LOOK_UP).r ≠ OK ∧
        ∃ new_dirp, RenameAllowed user u old_ip new_dirp := by
  rcases findToRename_r h (by rw [hold]; exact Option.some_ne_none _)
    (by rw [hnew]; exact Option.some_ne_none _) with ⟨hr, hdirp⟩ | hneg
  · obtain ⟨new_dirp, hdirp⟩ := Option.ne_none_iff_exists'.mp hdirp
    rw [renameFound_ok hr hold hdirp hnew hnum, renameCheck_ok hnew hdir hnum]
    constructor
    · rintro ⟨hno, htype, haccess, haccess', hdev, hname, hpath⟩
      exact ⟨hno, new_dirp, ⟨hr, hold, hdirp⟩, hpath, hname, hdev, haccess', haccess, htype⟩
    · rintro ⟨hno, new_dirp', h⟩
      obtain rfl := Option.some.inj (h.found.2.2.symm.trans hdirp)
      exact ⟨hno, h.type, h.new_access, h.old_access, h.dev, h.old_name, h.path⟩
  · have hr : u.r ≠ OK := fun e => absurd (e ▸ hneg) (by decide)
    have hsame : u.r ≠ SAME := fun e => absurd (e ▸ hneg) (by decide)
    refine iff_of_false ?_ ?_
    · rintro ⟨s', he⟩
      unfold renameFound at he
      rw [if_neg hr] at he
      obtain ⟨⟨r, s₁⟩, h₁, h₂⟩ := Option.bind_eq_some_iff.mp he
      obtain ⟨rfl, rfl⟩ := Prod.mk.inj (Option.some.inj h₁)
      have hres := (Prod.mk.inj (Option.some.inj h₂)).1
      rw [if_neg hsame] at hres
      exact hr hres
    · rintro ⟨-, new_dirp, h⟩
      exact hr h.found.1

/-- A directory is empty when it is removed by a call that succeeds, exactly if the caller may
search it, or it is empty, or the call is not allowed. -/
theorem removed_empty : call.Right s fp ↔ call.Guarded s fp := by
  cases call with
  | rmdir name =>
    constructor
    · intro h s₁ rip htarget
      obtain ⟨t, ht, rfl, rfl⟩ := rmdir_target htarget
      rw [or_iff_not_imp_left, or_iff_not_imp_right, not_not]
      rintro hx ⟨t', ht', ha⟩
      obtain rfl := Except.ok.inj (Option.some.inj (ht.symm.trans ht'))
      have hr : (removeFound fp.caller .RMDIR t).1 = OK :=
        rmdir_ok.mpr ⟨fun e => hx ((searchSlots_any ha.type).mp e).1, ha⟩
      exact h _ _ _ ((doUnlink_rmdir ht).trans (by rw [← hr])) htarget
    · intro h s' s₁ rip hrun htarget
      obtain ⟨t, ht, rfl, rfl⟩ := rmdir_target htarget
      have hr : (removeFound fp.caller .RMDIR t).1 = OK := by
        rw [Option.some.inj ((doUnlink_rmdir ht).symm.trans hrun)]
      obtain ⟨hno, ha⟩ := rmdir_ok.mp hr
      rcases h _ _ htarget with hx | hempty | hallowed
      · exact onlyDots_of_search ha.type hx hno
      · exact hempty
      · exact absurd ⟨t, ht, ha⟩ hallowed
  | rename name1 name2 =>
    constructor
    · intro h s₁ rip htarget
      obtain ⟨u, old_ip, hu, rfl, hold, hnew, hdir, hnum⟩ := rename_target htarget
      rw [or_iff_not_imp_left, or_iff_not_imp_right, not_not]
      rintro hx ⟨u', old_ip', new_dirp, hu', ha⟩
      obtain rfl := Except.ok.inj (Option.some.inj (hu.symm.trans hu'))
      obtain rfl := Option.some.inj (hold.symm.trans ha.found.2.1)
      obtain ⟨s', hs'⟩ := (rename_ok hu hold hnew hdir hnum).mpr
        ⟨fun e => hx ((searchSlots_any hdir).mp e).1, new_dirp, ha⟩
      exact h _ _ _ ((doRename_found hu).trans hs') htarget
    · intro h s' s₁ rip hrun htarget
      obtain ⟨u, old_ip, hu, rfl, hold, hnew, hdir, hnum⟩ := rename_target htarget
      obtain ⟨hno, new_dirp, ha⟩ := (rename_ok hu hold hnew hdir hnum).mp
        ⟨s', (doRename_found hu).symm.trans hrun⟩
      rcases h _ _ htarget with hx | hempty | hallowed
      · exact onlyDots_of_search hdir hx hno
      · exact hempty
      · exact absurd ⟨u, old_ip, new_dirp, hu, ha⟩ hallowed

/-! ## A directory that nobody may search -/

/-- The entries of a directory: its own, that of its parent, and another one. -/
def threeEntries (self parent numb : ℕ) (string : Name) (k : ℕ) : DirEntry :=
  if k = 0 then ⟨self, dot1⟩ else if k = 1 then ⟨parent, dot2⟩
  else if k = 2 then ⟨numb, string⟩ else ⟨0, noName⟩

/-- The root directory has a directory `d`, which nobody may search and which has a file `f`. -/
def closedDir : Names where
  inode rip :=
    if rip.val = 0 then ⟨⟨I_DIRECTORY ||| 0o777, 0, 0, 48, 3⟩, 1, 1, 2, false, false, false⟩
    else ⟨⟨0, 0, 0, 0, 0⟩, 0, 0, 0, false, false, false⟩
  super_block sp := if sp.val = 0 then ⟨1, false, some ⟨0, NR_INODES_pos⟩⟩ else ⟨0, false, none⟩
  fproc _ := ⟨⟨SU_UID, SU_UID, 0, 0⟩, none, none⟩
  err_code := OK
  disk _ numb :=
    if numb = 2 then ⟨I_DIRECTORY ||| 0o600, 0, 0, 48, 2⟩ else ⟨I_REGULAR ||| 0o600, 0, 0, 0, 1⟩
  imap _ _ := true
  dirs _ numb := if numb = 1 then threeEntries 1 1 2 (padded [100]) else
    threeEntries 2 1 3 (padded [102])
  room _ := true

/-- The superuser, who works in the root directory. -/
def suProc : Fproc := ⟨⟨SU_UID, SU_UID, 0, 0⟩, some ⟨0, NR_INODES_pos⟩, some ⟨0, NR_INODES_pos⟩⟩

/-- The superuser removes a directory that is not empty. -/
theorem removed_not_empty : ¬(DirCall.rmdir (.ok [100])).Right closedDir suProc := by
  have hrun : ((DirCall.rmdir (.ok [100])).run closedDir suProc).map Prod.fst = some OK := by
    decide +kernel
  have htarget : ((DirCall.rmdir (.ok [100])).target closedDir suProc).map (fun p =>
      (p.1.slots p.2, (p.1.entries p.2 2).d_inum, cName (p.1.entries p.2 2).d_name)) =
        some (3, 3, [102]) := by
    decide +kernel
  obtain ⟨⟨_, s'⟩, hrun, rfl⟩ := Option.map_eq_some_iff.mp hrun
  obtain ⟨⟨s₁, rip⟩, htarget, heq⟩ := Option.map_eq_some_iff.mp htarget
  obtain ⟨hslots, hentry⟩ := Prod.mk.inj heq
  obtain ⟨hinum, hname⟩ := Prod.mk.inj hentry
  intro h
  have hdots := h s' s₁ rip hrun htarget 2 (hslots ▸ by decide) (hinum ▸ by decide)
  rw [hname] at hdots
  exact absurd hdots (by decide)

end Minix.Fs
