import Minix.Fs.BitMap
import Minix.Fs.Holding
import Minix.Fs.Open
import Minix.Fs.SearchErrors

/-!
# Opening a file that may not be written

`common_open` checks the access that the access mode asks for, and truncates with `O_TRUNC` whatever
that mode is. So a file that the caller may only read loses its contents when it is opened for
reading with `O_TRUNC` (`readOnly_truncated`). Nothing else that it does with a file that may not be
written changes the file or a bit map (`open_harmless`).
-/

namespace Minix.Fs

/-- A path names an inode that the caller may not write. -/
structure Unwritable (st : FileSys) (fp : Fproc) (path : List UInt8) (rip : InodePtr) (s : Names) :
    Prop where
  found : eatPath st.names fp .other path = some (some rip, s)
  refused : s.forbidden fp.caller rip W_BIT ≠ OK ∨ rdOnly s (s.inode rip).i_dev = true

/-- A directory of a path is on a device that is mounted read only, and does not have the last name
of the path. -/
structure Missing (st : FileSys) (fp : Fproc) (path : List UInt8) (ld : LastDir) (ldip : InodePtr)
    (s : Names) : Prop where
  last : lastDir st.names fp .other path noName = some ld
  dir : ld.rip = some ldip
  missing : advance fp.caller mountFuel ld.names (some ldip) ld.string = some (none, s)
  rdOnly : rdOnly ld.names (ld.names.inode ldip).i_dev = true

/-- The bit maps of the devices are the same. -/
structure SameMaps (st st' : FileSys) : Prop where
  imap : st'.names.imap = st.names.imap
  zmap : ∀ sp a, bitOf st'.cache (st'.sb sp).s_zmap a = bitOf st.cache (st.sb sp).s_zmap a

/-- The size, the zones and the mode of an inode are the same, and the bit maps. -/
structure LeftAlone (st st' : FileSys) (dev numb : ℕ) : Prop extends SameMaps st st' where
  size : (st'.names.current dev numb).i_size = (st.names.current dev numb).i_size
  mode : (st'.names.current dev numb).i_mode = (st.names.current dev numb).i_mode
  zones : st'.i_zone dev numb = st.i_zone dev numb

/-- Opening a path changes nothing that the caller may not write. -/
structure OpenHarmless (st : FileSys) (fp : Fproc) (path : List UInt8) (oflags omode : ℕ)
    (driver : ℕ → ℤ) : Prop where
  existing : ∀ rip s, Unwritable st fp path rip s →
    ∃ r st', commonOpen st fp path oflags omode driver = some (r, st') ∧
      LeftAlone st st' (s.inode rip).i_dev (s.inode rip).i_num
  missing : ∀ ld ldip s, Missing st fp path ld ldip s →
    ∃ r st', commonOpen st fp path oflags omode driver = some (r, st') ∧ SameMaps st st'

/-- There is a file descriptor and a filp slot to open a file with. -/
def FdLeft (st : FileSys) : Prop :=
  (∃ fd, st.fp_filp fd = none) ∧ ∃ f, (st.filp f).filp_count = 0

/-- A regular file that is not empty and may not be written is opened to be truncated, and what the
access mode asks for is granted. -/
structure TruncatesUnwritable (st : FileSys) (fp : Fproc) (path : List UInt8) (oflags : ℕ)
    (rip : InodePtr) (s : Names) : Prop where
  unwritable : Unwritable st fp path rip s
  fdLeft : FdLeft st
  trunc : oflags &&& O_TRUNC ≠ 0
  notExcl : ¬(oflags &&& O_CREAT ≠ 0 ∧ oflags &&& O_EXCL ≠ 0)
  granted : s.forbidden fp.caller rip (modeMap (oflags &&& O_ACCMODE)) = OK
  regular : (s.inode rip).i_mode &&& I_TYPE = I_REGULAR
  notEmpty : (s.inode rip).i_size ≠ 0 ∨
    st.i_zone (s.inode rip).i_dev (s.inode rip).i_num ≠ fun _ => NO_ZONE

variable {st st' : FileSys} {fp : Fproc} {path : List UInt8} {oflags omode bits z0 lsize : ℕ}
  {driver : ℕ → ℤ} {s s' s₁ s₂ : Names} {rip : InodePtr} {l : List InodePtr} {dev numb : ℕ}
  {r : ℤ}

/-! ## Truncating an empty file -/

/-- A file without zones has no blocks. -/
theorem readMap_wiped {c : Cache} {file : Inode} {scale position : ℕ}
    (hz : file.i_zone = fun _ => NO_ZONE) : readMap c file scale position = some (NO_BLOCK, c) := by
  unfold readMap
  dsimp only
  rw [hz]
  by_cases hdirect : (position / BLOCK_SIZE) >>> scale < NR_DZONE_NUM
  · rw [dif_pos hdirect]
    exact congrArg (fun b => some (b, c)) (if_pos rfl)
  · rw [dif_neg hdirect]
    by_cases hsingle : (position / BLOCK_SIZE) >>> scale - NR_DZONE_NUM < NR_INDIRECTS
    · rw [if_pos hsingle]
      exact if_pos rfl
    · rw [if_neg hsingle]
      exact if_pos rfl

/-- No zone of a file without zones is freed. -/
theorem freeData_wiped {c : Cache} {sp : SuperBlock} {file : Inode} {n position : ℕ}
    (hz : file.i_zone = fun _ => NO_ZONE) : freeData sp file n position c = some c := by
  induction n generalizing position with
  | zero => rfl
  | succ n ih =>
    unfold freeData
    rw [readMap_wiped hz]
    exact ih

/-- Truncating a file without zones does nothing to the zone map. -/
theorem truncate_wiped {c : Cache} {sp : SuperBlock} {file : Inode} {i_pipe : Bool}
    (hz : file.i_zone = fun _ => NO_ZONE) : ∃ file', truncate c sp file i_pipe = some (file', c) := by
  unfold truncate
  split_ifs
  · exact ⟨_, rfl⟩
  · dsimp only
    have hpipe : ({ file with i_size := PIPE_SIZE } : Inode).i_zone = fun _ => NO_ZONE := hz
    rw [freeData_wiped hpipe]
    rw [Option.bind_eq_bind, Option.bind_some, hz]
    exact ⟨_, rfl⟩
  · dsimp only
    rw [freeData_wiped hz]
    rw [Option.bind_eq_bind, Option.bind_some, hz]
    exact ⟨_, rfl⟩

/-! ## Looking up a file -/

/-- The free file descriptor and filp slot are found, if there are any. -/
theorem getFd_cases (st : FileSys) (bits : ℕ) :
    (∃ r, getFd st bits = .error r ∧ ¬FdLeft st) ∨
      ∃ fd f filp, getFd st bits = .ok (fd, f, { st with filp := filp }) ∧ FdLeft st := by
  unfold getFd
  cases hfd : (List.finRange OPEN_MAX).find? fun fd => (st.fp_filp fd).isNone with
  | none =>
    refine .inl ⟨EMFILE, rfl, fun hleft => ?_⟩
    obtain ⟨⟨fd, hfree⟩, -⟩ := hleft
    have hnot := List.find?_eq_none.mp hfd fd (List.mem_finRange fd)
    exact hnot (by rw [hfree, Option.isNone_none])
  | some fd =>
    dsimp only
    have hfree := List.find?_some hfd
    cases hf : (List.finRange NR_FILPS).find? fun f => (st.filp f).filp_count = 0 with
    | none =>
      refine .inl ⟨ENFILE, rfl, fun hleft => ?_⟩
      obtain ⟨-, f, hzero⟩ := hleft
      exact List.find?_eq_none.mp hf f (List.mem_finRange f) (decide_eq_true hzero)
    | some f =>
      have hzero := List.find?_some hf
      exact .inr ⟨fd, f, _, rfl, ⟨fd, Option.isNone_iff_eq_none.mp hfree⟩,
        f, of_decide_eq_true hzero⟩

/-- A file that exists is found by `new_node`, with `EEXIST`. -/
theorem newNode_exists (ht : Tidy st.names) (hfp : fp.Held st.names)
    (hfound : eatPath st.names fp .other path = some (some rip, s)) :
    ∃ s', newNode st fp path bits z0 lsize = some (some rip, st.withNames (s'.setErr EEXIST)) ∧
      Holding st.names s' [rip] ∧ (s'.inode rip).i_dev = (s.inode rip).i_dev ∧
      (s'.inode rip).i_num = (s.inode rip).i_num := by
  have hend := Holding.eatPath ht hfp hfound
  unfold eatPath at hfound
  obtain ⟨ld, hlast, hfound⟩ := Option.bind_eq_some_iff.mp hfound
  have hld := Holding.lastDir ht hfp hlast
  have hlast' : lastDir st.names fp .other path noName = some ld := hlast
  unfold newNode
  rw [hlast', Option.bind_eq_bind, Option.bind_some]
  cases hrip : ld.rip with
  | none =>
    rw [hrip] at hfound
    exact nomatch hfound
  | some ldip =>
    rw [hrip] at hfound hld
    dsimp only at hfound ⊢
    by_cases hempty : ld.string 0 = 0
    · -- The path has no last component: the directory itself is got once more.
      rw [if_pos hempty] at hfound
      obtain ⟨hip, rfl⟩ := Prod.mk.inj (Option.some.inj hfound)
      obtain rfl := Option.some.inj hip
      have hpos := hld.pos List.mem_cons_self
      have hstep : advance fp.caller mountFuel ld.names (some ldip) ld.string =
          some (some ldip, dupInode ld.names ldip) := by
        unfold mountFuel advance
        rw [if_pos hempty]
        exact congrArg some (hld.unique.get hpos)
      rw [hstep, Option.bind_eq_bind, Option.bind_some]
      have hput := (hld.dup hpos).put
      refine ⟨_, rfl, hput, ?_⟩
      have hmem : ldip ∈ [ldip] := List.mem_cons_self
      unfold putInode dupInode
      dsimp only
      rw [Names.setInode_self]
      dsimp only
      rw [if_neg (by omega), Names.setInode_self]
      exact ⟨rfl, rfl⟩
    · rw [if_neg hempty] at hfound
      obtain ⟨⟨rip', s₁⟩, hstep, hfound⟩ := Option.bind_eq_some_iff.mp hfound
      obtain ⟨rfl, rfl⟩ := Prod.mk.inj (Option.some.inj hfound)
      rw [hstep, Option.bind_eq_bind, Option.bind_some]
      exact ⟨_, rfl, hend, rfl, rfl⟩

/-- A file that exists is located. With `O_EXCL` and `O_CREAT` that is an error. -/
theorem locate_exists (ht : Tidy st.names) (hfp : fp.Held st.names)
    (hfound : eatPath st.names fp .other path = some (some rip, s)) :
    ∃ s' r, locate st fp path oflags omode = some (.ok ⟨rip,
        ¬(oflags &&& O_CREAT ≠ 0 ∧ oflags &&& O_EXCL ≠ 0), r, st.withNames s'⟩) ∧
      (oflags &&& O_CREAT ≠ 0 → r = EEXIST) ∧
      Holding st.names s' [rip] ∧ (s'.inode rip).i_dev = (s.inode rip).i_dev ∧
      (s'.inode rip).i_num = (s.inode rip).i_num := by
  unfold locate
  by_cases hcreat : oflags &&& O_CREAT ≠ 0
  · obtain ⟨s', hnew, hend, hdev, hnum⟩ := @newNode_exists st fp path
      (I_REGULAR ||| (omode &&& ALL_MODES &&& st.fp_umask)) NO_ZONE 0 s rip ht hfp hfound
    have herr : (st.withNames (s'.setErr EEXIST)).names.err_code = EEXIST := rfl
    refine ⟨s'.setErr EEXIST, EEXIST, ?_, fun _ => rfl, hend.setErr EEXIST, hdev, hnum⟩
    rw [if_pos hcreat]
    dsimp only
    rw [hnew, Option.bind_eq_bind, Option.bind_some]
    dsimp only
    rw [herr, if_neg (fun h => h.2 rfl), Option.bind_eq_bind, Option.bind_some]
    have hexcl : decide (EEXIST = EEXIST ∧ oflags &&& O_EXCL = 0) =
        decide ¬(oflags &&& O_CREAT ≠ 0 ∧ oflags &&& O_EXCL ≠ 0) := by
      simp [hcreat]
    rw [hexcl]
  · have hend := Holding.eatPath ht hfp hfound
    refine ⟨s, OK, ?_, fun h => absurd h hcreat, hend, rfl, rfl⟩
    rw [if_neg hcreat, hfound, Option.bind_eq_bind, Option.bind_some]
    dsimp only
    have hexist : (decide ¬(oflags &&& O_CREAT ≠ 0 ∧ oflags &&& O_EXCL ≠ 0)) = true :=
      decide_eq_true fun h => hcreat h.1
    rw [hexist]

/-! ## Opening a file that exists -/

/-- Access to an inode is the same for all who hold it. -/
theorem Holding.forbidden (ht : Tidy s) {caller : Caller} {access_desired : ℕ}
    (h₁ : Holding s s₁ [rip]) (h₂ : Holding s s₂ [rip])
    (hdev : (s₂.inode rip).i_dev = (s₁.inode rip).i_dev)
    (hnum : (s₂.inode rip).i_num = (s₁.inode rip).i_num) :
    s₂.forbidden caller rip access_desired = s₁.forbidden caller rip access_desired ∧
      (s₂.inode rip).toDInode = (s₁.inode rip).toDInode := by
  have hdata : (s₂.inode rip).toDInode = (s₁.inode rip).toDInode := by
    rw [h₂.data ht (h₂.pos List.mem_cons_self), h₁.data ht (h₁.pos List.mem_cons_self), hdev, hnum]
  refine ⟨?_, hdata⟩
  have howned : (s₂.inode rip).owned = (s₁.inode rip).owned := by
    unfold InodeSlot.owned
    rw [hdata, hdev]
  unfold Names.forbidden rdOnly
  rw [h₁.getSuper, h₂.getSuper, h₁.super_block, h₂.super_block, howned, hdev]

/-- Opening a file does nothing, or marks a pipe, unless it truncates the file. -/
theorem openType_cases
    (hno : ¬((st.names.inode rip).i_mode &&& I_TYPE = I_REGULAR ∧ oflags &&& O_TRUNC ≠ 0)) :
    ∃ r st', openType st rip bits oflags driver = some (r, st') ∧ (st' = st ∨
      r = OK ∧ st' = st.withNames (st.names.setInode rip { st.names.inode rip with i_pipe := true })) := by
  unfold openType pipeOpen
  dsimp only
  by_cases hreg : (st.names.inode rip).i_mode &&& I_TYPE = I_REGULAR
  · rw [if_pos hreg, if_neg fun h => hno ⟨hreg, h⟩]
    exact ⟨_, _, rfl, .inl rfl⟩
  · rw [if_neg hreg]
    split_ifs
    all_goals first | exact ⟨_, _, rfl, .inl rfl⟩ | exact ⟨_, _, rfl, .inr ⟨rfl, rfl⟩⟩

/-- What truncating a file leaves. -/
structure Truncated (st st' : FileSys) (rip : InodePtr) : Prop where
  names : st'.names = st.names.setInode rip { st.names.inode rip with
    i_size := 0
    i_dirt := true }
  zones : st'.i_zone (st.names.inode rip).i_dev (st.names.inode rip).i_num = fun _ => NO_ZONE
  sb : st'.sb = st.sb

/-- A file that is truncated has no size and no zones. -/
theorem truncateFile_spec (h : truncateFile st rip = some st') : Truncated st st' rip := by
  unfold truncateFile at h
  obtain ⟨sp, -, h⟩ := Option.bind_eq_some_iff.mp h
  obtain ⟨⟨file, cache⟩, -, h⟩ := Option.bind_eq_some_iff.mp h
  obtain rfl := Option.some.inj h
  refine ⟨rfl, ?_, rfl⟩
  unfold FileSys.setZones
  dsimp only
  rw [Function.update_self, Function.update_self]
  rfl

/-- An empty file that is truncated stays as it is. -/
theorem truncateFile_empty (hsuper : (getSuper st.names (st.names.inode rip).i_dev).isSome)
    (hz : st.i_zone (st.names.inode rip).i_dev (st.names.inode rip).i_num = fun _ => NO_ZONE) :
    ∃ st', truncateFile st rip = some st' ∧ st'.cache = st.cache ∧ st'.i_zone = st.i_zone := by
  obtain ⟨sp, hsp⟩ := Option.isSome_iff_exists.mp hsuper
  have hfile : (st.file rip).i_zone = fun _ => NO_ZONE := hz
  obtain ⟨file, htrunc⟩ := @truncate_wiped st.cache (st.sb sp) (st.file rip)
    (st.names.inode rip).i_pipe hfile
  unfold truncateFile
  dsimp only
  rw [hsp, Option.bind_eq_bind, Option.bind_some, htrunc, Option.bind_eq_bind, Option.bind_some]
  refine ⟨_, rfl, rfl, ?_⟩
  have hwiped : (wipeInode file).i_zone =
      st.i_zone (st.names.inode rip).i_dev (st.names.inode rip).i_num := hz.symm
  unfold FileSys.setZones
  dsimp only
  rw [hwiped]
  exact (congrArg _ (Function.update_eq_self _ _)).trans (Function.update_eq_self _ _)

/-- What `common_open` does when a file is located. -/
theorem commonOpen_located {fd : Fin OPEN_MAX} {f : Fin NR_FILPS} {located : Located}
    (hfd : getFd st (modeMap (oflags &&& O_ACCMODE)) = .ok (fd, f, st'))
    (hloc : locate st' fp path oflags omode = some (.ok located)) :
    commonOpen st fp path oflags omode driver =
      (if located.exist then
        openExisting located.fs fp.caller located.rip (modeMap (oflags &&& O_ACCMODE)) oflags driver
      else some (located.r, located.fs)).bind
        fun (r, st) => some (openEnd st fd f located.rip oflags r) := by
  unfold commonOpen
  dsimp only
  rw [hfd]
  dsimp only
  rw [hloc, Option.bind_eq_bind, Option.bind_some]
  dsimp only
  split_ifs
  · rfl
  · rfl

/-- The inodes, the zones and the bit maps are the same, so that a file is untouched. -/
theorem LeftAlone.of_current
    (hcurrent : st'.names.current dev numb = st.names.current dev numb)
    (hmaps : SameMaps st st') (hzones : st'.i_zone = st.i_zone) : LeftAlone st st' dev numb where
  toSameMaps := hmaps
  size := by rw [hcurrent]
  mode := by rw [hcurrent]
  zones := by rw [hzones]

/-- Only the names and the tables of the open files differ. -/
theorem SameMaps.of_eq (himap : st'.names.imap = st.names.imap) (hcache : st'.cache = st.cache)
    (hsb : st'.sb = st.sb) : SameMaps st st' where
  imap := himap
  zmap sp a := by rw [hcache, hsb]

/-- The last part of `common_open` touches nothing, when nothing was touched before. -/
theorem openEnd_untouched {fd : Fin OPEN_MAX} {f : Fin NR_FILPS} (ht : Tidy st.names)
    (hhold : r ≠ OK → Holding st.names st'.names [rip]) (hu : LeftAlone st st' dev numb) :
    LeftAlone st (openEnd st' fd f rip oflags r).2 dev numb := by
  unfold openEnd
  by_cases hr : r = OK
  · rw [if_neg (not_not.mpr hr)]
    exact ⟨⟨hu.imap, hu.zmap⟩, hu.size, hu.mode, hu.zones⟩
  · rw [if_pos hr]
    have hput := (hhold hr).put
    have hcurrent := hput.current ht.unique dev numb
    refine ⟨⟨hput.imap, hu.zmap⟩, ?_, ?_, hu.zones⟩
    · exact congrArg DInode.i_size hcurrent
    · exact congrArg DInode.i_mode hcurrent

section Existing

variable {fd : Fin OPEN_MAX} {f : Fin NR_FILPS} {filp : Fin NR_FILPS → FilpSlot}

/-- A file that exists is opened without being touched, if it is not truncated or was empty. -/
theorem openExisting_untouched (ht : Tidy st.names) (hhold : Holding st.names s' [rip])
    (hno : s'.forbidden fp.caller rip bits = OK →
      (s'.inode rip).i_mode &&& I_TYPE = I_REGULAR → oflags &&& O_TRUNC ≠ 0 →
        (s'.inode rip).i_size = 0 ∧
          st.i_zone (s'.inode rip).i_dev (s'.inode rip).i_num = fun _ => NO_ZONE) :
    ∃ r st', openExisting { st with
        filp := filp
        names := s' } fp.caller rip bits oflags driver = some (r, st') ∧
      (r ≠ OK → Holding st.names st'.names [rip]) ∧ LeftAlone st st' dev numb := by
  have hsame : ∀ slot : InodeSlot, SameInode (s'.inode rip) slot →
      slot.toDInode = (s'.inode rip).toDInode →
      (s'.setInode rip slot).current dev numb = st.names.current dev numb := fun slot hslot hdata =>
    (Names.current_setInode hslot hdata dev numb).trans (hhold.current ht.unique dev numb)
  have hplain : LeftAlone st { st with
      filp := filp
      names := s' } dev numb :=
    .of_current (hhold.current ht.unique dev numb) (.of_eq hhold.imap rfl rfl) rfl
  unfold openExisting
  dsimp only
  by_cases hperm : s'.forbidden fp.caller rip bits = OK
  · rw [if_pos hperm]
    by_cases htrunc : (s'.inode rip).i_mode &&& I_TYPE = I_REGULAR ∧ oflags &&& O_TRUNC ≠ 0
    · obtain ⟨hsize, hz⟩ := hno hperm htrunc.1 htrunc.2
      obtain ⟨-, hsuper⟩ := hhold.onDevice ht (hhold.pos List.mem_cons_self)
      rw [← hhold.getSuper] at hsuper
      obtain ⟨st', htr, hcache, hzone⟩ := @truncateFile_empty { st with
        filp := filp
        names := s' } rip hsuper hz
      have hspec := truncateFile_spec htr
      refine ⟨OK, st', ?_, fun h => absurd rfl h, .of_current ?_ (.of_eq ?_ hcache hspec.sb) hzone⟩
      · unfold openType
        dsimp only
        rw [if_pos htrunc.1, if_pos htrunc.2, htr]
        rfl
      · rw [hspec.names]
        refine hsame _ ⟨rfl, rfl, rfl⟩ ?_
        rw [← hsize]
      · rw [hspec.names]
        exact hhold.imap
    · obtain ⟨r, st', hopen, hst⟩ := @openType_cases { st with
        filp := filp
        names := s' } oflags bits driver rip htrunc
      refine ⟨r, st', hopen, ?_⟩
      rcases hst with rfl | ⟨rfl, rfl⟩
      · exact ⟨fun _ => hhold, hplain⟩
      · exact ⟨fun h => absurd rfl h, .of_current (hsame _ ⟨rfl, rfl, rfl⟩ rfl)
          (.of_eq hhold.imap rfl rfl) rfl⟩
  · rw [if_neg hperm]
    exact ⟨_, _, rfl, fun _ => hhold, hplain⟩

/-- A file that may not be written is not touched, unless it is truncated. -/
theorem commonOpen_existing (ht : Tidy st.names) (hfp : fp.Held st.names)
    (hu : Unwritable st fp path rip s) (hno : ¬TruncatesUnwritable st fp path oflags rip s) :
    ∃ r st', commonOpen st fp path oflags omode driver = some (r, st') ∧ LeftAlone st st' dev numb := by
  rcases getFd_cases st (modeMap (oflags &&& O_ACCMODE)) with ⟨r, hfd, -⟩ | ⟨fd, f, filp, hfd, hleft⟩
  · refine ⟨r, st, ?_, .of_current rfl (.of_eq rfl rfl rfl) rfl⟩
    unfold commonOpen
    dsimp only
    rw [hfd]
  · have hend := Holding.eatPath ht hfp hu.found
    obtain ⟨s', r, hloc, hr, hhold, hdev, hnum⟩ := @locate_exists { st with filp := filp } fp path
      oflags omode s rip ht hfp hu.found
    rw [commonOpen_located hfd hloc]
    dsimp only
    by_cases hexcl : oflags &&& O_CREAT ≠ 0 ∧ oflags &&& O_EXCL ≠ 0
    · rw [decide_eq_false (not_not.mpr hexcl), if_neg Bool.false_ne_true]
      refine ⟨_, _, rfl, openEnd_untouched ht (fun _ => hhold) ?_⟩
      exact .of_current (hhold.current ht.unique dev numb) (.of_eq hhold.imap rfl rfl) rfl
    · obtain ⟨hperm, hdata⟩ := @Holding.forbidden st.names s s' rip ht fp.caller
        (modeMap (oflags &&& O_ACCMODE)) hend hhold hdev hnum
      obtain ⟨r', st', hopen, hhold', hun⟩ := @openExisting_untouched st fp oflags
        (modeMap (oflags &&& O_ACCMODE)) driver s' rip dev numb filp ht hhold (fun hok hreg htrunc => by
          by_contra hfull
          rw [hdev, hnum, hdata] at hfull
          rw [hperm] at hok
          rw [hdata] at hreg
          exact hno ⟨hu, hleft, htrunc, hexcl, hok, hreg, not_and_or.mp hfull⟩)
      rw [decide_eq_true hexcl, if_pos rfl]
      have hopen' : openExisting (FileSys.withNames { st with filp := filp } s') fp.caller rip
          (modeMap (oflags &&& O_ACCMODE)) oflags driver = some (r', st') := hopen
      rw [hopen']
      exact ⟨_, _, rfl, openEnd_untouched ht hhold' hun⟩

/-- A file that is truncated does not stay as it was, unless it was empty. -/
theorem commonOpen_truncating (ht : Tidy st.names) (hfp : fp.Held st.names)
    (h : TruncatesUnwritable st fp path oflags rip s) :
    ¬∃ r st', commonOpen st fp path oflags omode driver = some (r, st') ∧
      LeftAlone st st' (s.inode rip).i_dev (s.inode rip).i_num := by
  rintro ⟨r, st', hrun, hun⟩
  have hend := Holding.eatPath ht hfp h.unwritable.found
  rcases getFd_cases st (modeMap (oflags &&& O_ACCMODE)) with ⟨r, -, hleft⟩ | ⟨fd, f, filp, hfd, -⟩
  · exact hleft h.fdLeft
  · obtain ⟨s', r', hloc, -, hhold, hdev, hnum⟩ := @locate_exists { st with filp := filp } fp path
      oflags omode s rip ht hfp h.unwritable.found
    obtain ⟨hperm, hdata⟩ := @Holding.forbidden st.names s s' rip ht fp.caller
      (modeMap (oflags &&& O_ACCMODE)) hend hhold hdev hnum
    rw [commonOpen_located hfd hloc] at hrun
    obtain ⟨⟨r₁, st₁⟩, hopen, hrun⟩ := Option.bind_eq_some_iff.mp hrun
    dsimp only at hopen
    rw [decide_eq_true h.notExcl, if_pos rfl] at hopen
    unfold openExisting at hopen
    have hok : (FileSys.withNames { st with filp := filp } s').names.forbidden fp.caller rip
        (modeMap (oflags &&& O_ACCMODE)) = OK := hperm.trans h.granted
    dsimp only at hopen
    rw [if_pos hok] at hopen
    unfold openType at hopen
    have hreg : ((FileSys.withNames { st with filp := filp } s').names.inode rip).i_mode &&& I_TYPE =
        I_REGULAR := by
      have hmode : (s'.inode rip).i_mode = (s.inode rip).i_mode := congrArg DInode.i_mode hdata
      exact (congrArg (· &&& I_TYPE) hmode).trans h.regular
    dsimp only at hopen
    rw [if_pos hreg, if_pos h.trunc] at hopen
    obtain ⟨st₂, htrunc, hopen⟩ := Option.map_eq_some_iff.mp hopen
    obtain ⟨rfl, rfl⟩ := Prod.mk.inj hopen
    have hspec := truncateFile_spec htrunc
    obtain ⟨rfl, rfl⟩ := Prod.mk.inj (Option.some.inj hrun)
    have hsize : (st₂.names.current (s.inode rip).i_dev (s.inode rip).i_num).i_size =
        (st.names.current (s.inode rip).i_dev (s.inode rip).i_num).i_size := hun.size
    have hzones : st₂.i_zone (s.inode rip).i_dev (s.inode rip).i_num =
        st.i_zone (s.inode rip).i_dev (s.inode rip).i_num := hun.zones
    have hnow : st₂.names.current (s.inode rip).i_dev (s.inode rip).i_num =
        { (s'.inode rip).toDInode with i_size := 0 } := by
      rw [hspec.names, ← hdev, ← hnum]
      have hslot : SameInode (s'.inode rip) { s'.inode rip with
          i_size := 0
          i_dirt := true } := ⟨rfl, rfl, rfl⟩
      have hcur := @Names.Unique.current _ rip (hhold.unique.setInode hslot)
      rw [Names.setInode_self] at hcur
      exact hcur (hhold.pos List.mem_cons_self)
    have hbefore : st.names.current (s.inode rip).i_dev (s.inode rip).i_num =
        (s.inode rip).toDInode := (hend.data ht (hend.pos List.mem_cons_self)).symm
    rcases h.notEmpty with hsome | hsome
    · refine hsome ?_
      calc (s.inode rip).i_size
          = (st.names.current (s.inode rip).i_dev (s.inode rip).i_num).i_size := by rw [hbefore]
        _ = (st₂.names.current (s.inode rip).i_dev (s.inode rip).i_num).i_size := hsize.symm
        _ = 0 := by rw [hnow]
    · refine hsome ?_
      calc st.i_zone (s.inode rip).i_dev (s.inode rip).i_num
          = st₂.i_zone (s.inode rip).i_dev (s.inode rip).i_num := hzones.symm
        _ = st₂.i_zone (s'.inode rip).i_dev (s'.inode rip).i_num := by rw [hdev, hnum]
        _ = fun _ => NO_ZONE := hspec.zones

end Existing

/-! ## A name that does not exist -/

/-- An error code that a search of a path fails with. -/
def Refusal (r : ℤ) : Prop := r ≠ OK ∧ r ≠ EEXIST

/-- The errors of a search are codes of their own. -/
theorem refusal_of_search {r : ℤ} (h : r ∈ searchErrors) : Refusal r := by
  refine ⟨?_, ?_⟩
  · rintro rfl
    exact absurd h (by decide)
  · rintro rfl
    exact absurd h (by decide)

/-- An entry is not made on a device that is mounted read only. -/
theorem searchSlots_rdOnly {caller : Caller} {string : Name} {numb : ℕ}
    (hrd : rdOnly s (s.inode rip).i_dev = true) :
    Refusal (searchSlots s caller rip string numb .ENTER).r ∧
      (searchSlots s caller rip string numb .ENTER).names = s := by
  have hcodes := forbidden_codes caller (rdOnly s (s.inode rip).i_dev) (s.inode rip).owned
    DirFlag.ENTER.bits false
  have hperm : s.forbidden caller rip DirFlag.ENTER.bits ≠ OK := by
    obtain ⟨r, hr⟩ : ∃ r, s.forbidden caller rip DirFlag.ENTER.bits =
        if r = OK ∧ DirFlag.ENTER.bits &&& W_BIT ≠ 0 then readOnly (rdOnly s (s.inode rip).i_dev)
        else r := ⟨_, rfl⟩
    rw [hr, hrd]
    by_cases hok : r = OK
    · rw [if_pos ⟨hok, by decide⟩]
      decide
    · rw [if_neg fun h => hok h.1]
      exact hok
  unfold searchSlots
  dsimp only
  by_cases htype : (s.inode rip).i_mode &&& I_TYPE = I_DIRECTORY
  · rw [if_neg (not_not.mpr htype), if_pos hperm]
    refine ⟨⟨hperm, fun he => ?_⟩, rfl⟩
    have hmem : EEXIST ∈ [OK, EACCES, EROFS] := he ▸ hcodes
    exact absurd hmem (by decide)
  · rw [if_pos htype]
    exact ⟨⟨(by decide : ENOTDIR ≠ OK), (by decide : ENOTDIR ≠ EEXIST)⟩, rfl⟩

/-- Putting an inode does not change another one. -/
theorem putInode_ne {rip' : InodePtr} (hne : rip' ≠ rip) :
    (putInode s (some rip)).inode rip' = s.inode rip' := by
  have hset : ∀ (s : Names) slot, (s.setInode rip slot).inode rip' = s.inode rip' := fun s slot =>
    Names.setInode_ne slot hne
  unfold putInode releaseInode freeInode writeInode
  dsimp only
  split_ifs <;> simp only [hset]

/-- Putting an inode that is not freed does not change a map. -/
theorem putInode_imap (h : (s.inode rip).i_nlinks ≠ 0 ∨ (s.inode rip).i_count ≠ 1) :
    (putInode s (some rip)).imap = s.imap := by
  unfold putInode
  dsimp only
  by_cases hlast : (s.inode rip).i_count = 1
  · rw [if_pos hlast]
    have hlinks := h.resolve_right (not_not.mpr hlast)
    unfold releaseInode writeInode
    rw [Names.setInode_self]
    dsimp only
    rw [if_neg hlinks]
    split_ifs <;> rfl
  · rw [if_neg hlast]
    rfl

/-- The last user of an inode without links frees it. -/
theorem putInode_freed (hlinks : (s.inode rip).i_nlinks = 0) (hlast : (s.inode rip).i_count = 1) :
    (putInode s (some rip)).imap = Function.update s.imap (s.inode rip).i_dev
      (Function.update (s.imap (s.inode rip).i_dev) (s.inode rip).i_num false) := by
  unfold putInode
  dsimp only
  rw [if_pos hlast]
  unfold releaseInode writeInode freeInode
  rw [Names.setInode_self]
  dsimp only
  rw [if_pos hlinks]
  split_ifs <;> rfl

/-- A slot for no device is a free one. -/
theorem getInode_noDev (h : ∀ rip, 0 < (s.inode rip).i_count → (s.inode rip).i_dev ≠ NO_DEV) :
    getInode s NO_DEV numb = (none, s.setErr ENFILE) ∨
      ∃ xp, (s.inode xp).i_count = 0 ∧ getInode s NO_DEV numb = (some xp, loadInode s xp NO_DEV numb) := by
  unfold getInode
  dsimp only
  have hnone : ((List.finRange NR_INODES).find? fun rip => (s.inode rip).i_count > 0 ∧
      (s.inode rip).i_dev = NO_DEV ∧ (s.inode rip).i_num = numb) = none := by
    rw [List.find?_eq_none]
    intro rip _ hmatch
    obtain ⟨hpos, hdev, -⟩ := of_decide_eq_true hmatch
    exact h rip hpos hdev
  rw [hnone]
  dsimp only
  cases hfree : (List.finRange NR_INODES).reverse.find? fun rip => (s.inode rip).i_count = 0 with
  | none => exact .inl rfl
  | some xp =>
    have hzero := List.find?_some hfree
    exact .inr ⟨xp, of_decide_eq_true hzero, rfl⟩

/-- A bit that is set and cleared again is as it was. -/
theorem bit_restored {imap : ℕ → ℕ → Bool} (h : imap dev numb = false) :
    Function.update (Function.update imap dev (Function.update (imap dev) numb true)) dev
      (Function.update (Function.update imap dev (Function.update (imap dev) numb true) dev) numb
        false) = imap := by
  rw [Function.update_self, Function.update_idem, Function.update_idem, ← h,
    Function.update_eq_self, Function.update_eq_self]

/-- An inode for which no entry can be made is freed. -/
theorem enterNode_rdOnly {caller : Caller} {ldip : InodePtr} {string : Name} (hne : rip ≠ ldip)
    (hrd : rdOnly st.names (st.names.inode ldip).i_dev = true)
    (hput : (st.names.inode ldip).i_nlinks ≠ 0 ∨ (st.names.inode ldip).i_count ≠ 1)
    (hlinks : (st.names.inode rip).i_nlinks = 1) (hlast : (st.names.inode rip).i_count = 1) :
    ∃ s', enterNode st caller ldip rip string = (none, st.withNames s') ∧ Refusal s'.err_code ∧
      s'.imap = Function.update st.names.imap (st.names.inode rip).i_dev
        (Function.update (st.names.imap (st.names.inode rip).i_dev) (st.names.inode rip).i_num
          false) := by
  obtain ⟨hrefused, hnames⟩ := @searchSlots_rdOnly st.names ldip caller string
    (st.names.inode rip).i_num hrd
  unfold enterNode
  dsimp only
  rw [if_pos hrefused.1, hnames]
  refine ⟨_, rfl, hrefused, ?_⟩
  have hsame := @putInode_ne st.names ldip rip hne
  show (putInode _ _).imap = _
  unfold Names.addLinks
  rw [putInode_freed]
  · rw [Names.setInode_self, hsame]
    unfold Names.setInode
    dsimp only
    rw [putInode_imap hput]
  · rw [Names.setInode_self, hsame]
    dsimp only
    rw [hlinks]
    decide
  · rw [Names.setInode_self, hsame]
    exact hlast

/-- What `alloc_inode` leaves when it has allocated an inode. -/
structure Allocated (st st' : FileSys) (dev : ℕ) (rip : InodePtr) (numb : ℕ) : Prop where
  wasFree : (st.names.inode rip).i_count = 0
  bit : st.names.imap dev numb = false
  imap : st'.names.imap =
    Function.update st.names.imap dev (Function.update (st.names.imap dev) numb true)
  super_block : st'.names.super_block = st.names.super_block
  other : ∀ a ≠ rip, st'.names.inode a = st.names.inode a
  i_dev : (st'.names.inode rip).i_dev = dev
  i_num : (st'.names.inode rip).i_num = numb
  i_count : (st'.names.inode rip).i_count = 1
  i_nlinks : (st'.names.inode rip).i_nlinks = 0
  cache : st'.cache = st.cache
  sb : st'.sb = st.sb

/-- `alloc_inode` fails and changes nothing, or it allocates an inode. -/
theorem allocInode_cases {caller : Caller} (hsuper : (getSuper st.names dev).isSome)
    (hdevs : ∀ rip, 0 < (st.names.inode rip).i_count → (st.names.inode rip).i_dev ≠ NO_DEV) :
    (∃ s', allocInode st caller dev bits = some (none, st.withNames s') ∧
      s'.inode = st.names.inode ∧ s'.imap = st.names.imap ∧ s'.err_code = ENFILE) ∨
    ∃ rip numb st', allocInode st caller dev bits = some (some rip, st') ∧
      Allocated st st' dev rip numb := by
  obtain ⟨sp, hsp⟩ := Option.isSome_iff_exists.mp hsuper
  unfold allocInode
  rw [hsp, Option.bind_eq_bind, Option.bind_some]
  cases hbit : (List.range (st.s_ninodes sp + 1)).find? fun b => st.names.imap dev b = false with
  | none => exact .inl ⟨_, rfl, rfl, rfl, rfl⟩
  | some numb =>
    have hfree : st.names.imap dev numb = false := by
      have hfound := List.find?_some hbit
      exact of_decide_eq_true hfound
    dsimp only
    rcases @getInode_noDev (st.names.setImap dev numb true) numb hdevs with
      hnone | ⟨xp, hzero, hload⟩
    · rw [hnone]
      exact .inl ⟨_, rfl, rfl, bit_restored hfree, rfl⟩
    · rw [hload]
      refine .inr ⟨xp, numb, _, rfl, hzero, hfree, rfl, rfl, fun a ha => ?_, ?_, ?_, ?_, ?_, rfl, rfl⟩
      · exact (Names.setInode_ne _ ha).trans (Names.setInode_ne _ ha)
      all_goals
        show _ = _
        unfold FileSys.setZones FileSys.withNames
        dsimp only
        rw [Names.setInode_self]
      · unfold loadInode
        rw [Names.setInode_self]
      · unfold loadInode
        rw [Names.setInode_self]

/-- On a device that is mounted read only no file is made, and the bit of its inode is free again.
-/
theorem makeNode_rdOnly {caller : Caller} {ldip : InodePtr} {string : Name} (ht : Tidy s)
    (h : Holding s st.names [ldip])
    (hrd : rdOnly st.names (st.names.inode ldip).i_dev = true) :
    ∃ st', makeNode st caller ldip string bits z0 lsize = some (none, st') ∧
      Refusal st'.names.err_code ∧ SameMaps st st' := by
  have hused := h.pos (List.mem_singleton_self ldip)
  obtain ⟨-, hsuper⟩ := h.onDevice ht hused
  rw [← h.getSuper] at hsuper
  have hput : (st.names.inode ldip).i_nlinks ≠ 0 ∨ (st.names.inode ldip).i_count ≠ 1 := by
    rcases h.used hused with hpos | ⟨hzero, hmem⟩
    · refine .inr ?_
      have hcount := h.count ldip
      rw [List.count_singleton_self] at hcount
      omega
    · exact .inl (h.loaded ldip hmem hzero).linked
  unfold makeNode
  dsimp only
  rcases @allocInode_cases st bits (st.names.inode ldip).i_dev caller hsuper
    (fun rip hpos => (h.onDevice ht hpos).1) with
    ⟨s', halloc, hinode, himap, herr⟩ | ⟨xp, numb, st', halloc, ha⟩
  · rw [halloc, Option.bind_eq_bind, Option.bind_some]
    refine ⟨_, rfl, ?_, .of_eq ?_ rfl rfl⟩
    · show Refusal (putInode _ _).err_code
      rw [putInode_err]
      show Refusal s'.err_code
      rw [herr]
      exact ⟨by decide, by decide⟩
    · exact (putInode_imap (hinode ▸ hput)).trans himap
  · rw [halloc, Option.bind_eq_bind, Option.bind_some]
    have hne : xp ≠ ldip := fun e => by
      have hzero := ha.wasFree
      rw [e] at hzero
      omega
    dsimp only
    set st₂ := st'.setZones (st.names.inode ldip).i_dev (st'.names.inode xp).i_num
      (Function.update (st'.i_zone (st.names.inode ldip).i_dev (st'.names.inode xp).i_num) 0 z0)
      with hst₂
    set t := writeInode (st'.names.setInode xp { st'.names.inode xp with
      i_nlinks := (st'.names.inode xp).i_nlinks + 1
      i_size := lsize }) xp with ht
    have hdir : t.inode ldip = st.names.inode ldip := by
      rw [← ha.other ldip hne.symm]
      exact (Names.setInode_ne _ hne.symm).trans (Names.setInode_ne _ hne.symm)
    have hslot : t.inode xp = { st'.names.inode xp with
        i_nlinks := (st'.names.inode xp).i_nlinks + 1
        i_size := lsize
        i_dirt := false } := by
      rw [ht]
      unfold writeInode
      dsimp only
      rw [Names.setInode_self, Names.setInode_self]
    have htable : t.super_block = st.names.super_block := ha.super_block
    have hrd' : rdOnly t (t.inode ldip).i_dev = true := by
      rw [← hrd, hdir]
      unfold rdOnly getSuper
      rw [htable]
    obtain ⟨s', henter, hrefused, himap⟩ := @enterNode_rdOnly (st₂.withNames t) xp caller ldip string
      hne hrd' (hdir ▸ hput) (by
        show (t.inode xp).i_nlinks = 1
        rw [hslot]
        dsimp only
        rw [ha.i_nlinks]
        decide) (by
        show (t.inode xp).i_count = 1
        rw [hslot]
        exact ha.i_count)
    refine ⟨_, congrArg some henter, hrefused, .of_eq ?_ ha.cache ha.sb⟩
    show s'.imap = _
    have hdev : ((st₂.withNames t).names.inode xp).i_dev = (st.names.inode ldip).i_dev := by
      show (t.inode xp).i_dev = _
      rw [hslot]
      exact ha.i_dev
    have hnum : ((st₂.withNames t).names.inode xp).i_num = numb := by
      show (t.inode xp).i_num = _
      rw [hslot]
      exact ha.i_num
    have hbits : (st₂.withNames t).names.imap = st'.names.imap := rfl
    rw [himap, hdev, hnum, hbits, ha.imap]
    exact bit_restored ha.bit

/-- Nothing is done about a name that a directory on a device mounted read only does not have. -/
theorem commonOpen_missing (ht : Tidy st.names) (hfp : fp.Held st.names) {ld : LastDir}
    {ldip : InodePtr} (h : Missing st fp path ld ldip s) :
    ∃ r st', commonOpen st fp path oflags omode driver = some (r, st') ∧ SameMaps st st' := by
  have hld := Holding.lastDir ht hfp h.last
  rw [h.dir] at hld
  have hldpos := hld.pos (List.mem_singleton_self ldip)
  have hadv := ht.walk.advance hld (fun a ha => Option.some.inj ha ▸ hldpos) h.missing
  have hrefused := refusal_of_search
    (advance_code h.missing fun hn => absurd hn (Option.some_ne_none ldip))
  -- The directory has not moved in the table.
  have htidy := hld.tidy ht
  have hstays := htidy.walk.advance htidy.holding (fun a ha => Option.some.inj ha ▸ hldpos) h.missing
  obtain ⟨hdev, -, -⟩ := hstays.sameSlot hldpos
  have hrd : rdOnly s (s.inode ldip).i_dev = true := by
    rw [hdev, ← h.rdOnly]
    unfold rdOnly
    rw [hstays.getSuper, hstays.super_block]
  have hname : ld.string 0 ≠ 0 := by
    intro hempty
    have hrun := h.missing
    unfold mountFuel advance at hrun
    rw [if_pos hempty] at hrun
    have hgot := Option.some.inj hrun
    rw [hld.unique.get hldpos] at hgot
    exact absurd (Prod.mk.inj hgot).1 (Option.some_ne_none ldip)
  rcases getFd_cases st (modeMap (oflags &&& O_ACCMODE)) with ⟨r, hfd, -⟩ | ⟨fd, f, filp, hfd, -⟩
  · refine ⟨r, st, ?_, .of_eq rfl rfl rfl⟩
    unfold commonOpen
    dsimp only
    rw [hfd]
  · unfold commonOpen
    dsimp only
    rw [hfd]
    dsimp only
    unfold locate
    by_cases hcreat : oflags &&& O_CREAT ≠ 0
    · rw [if_pos hcreat]
      dsimp only
      have hnew : ∃ st', newNode { st with filp := filp } fp path
          (I_REGULAR ||| (omode &&& ALL_MODES &&& st.fp_umask)) NO_ZONE 0 = some (none, st') ∧
          Refusal st'.names.err_code ∧ SameMaps st st' := by
        unfold newNode
        dsimp only
        rw [h.last, Option.bind_eq_bind, Option.bind_some, h.dir]
        dsimp only
        rw [h.missing, Option.bind_eq_bind, Option.bind_some]
        dsimp only
        by_cases hnoent : s.err_code = ENOENT
        · rw [if_pos hnoent]
          obtain ⟨st', hmake, hcode, hmaps⟩ := @makeNode_rdOnly
            (FileSys.withNames { st with filp := filp } s)
            (I_REGULAR ||| (omode &&& ALL_MODES &&& st.fp_umask)) NO_ZONE 0 st.names fp.caller ldip
            ld.string ht hadv hrd
          exact ⟨st', hmake, hcode, hmaps.imap.trans hadv.imap, hmaps.zmap⟩
        · rw [if_neg hnoent]
          refine ⟨_, rfl, ?_, .of_eq hadv.put.imap rfl rfl⟩
          show Refusal (putInode _ _).err_code
          rw [putInode_err]
          exact hrefused
      obtain ⟨st', hnew, hcode, hmaps⟩ := hnew
      rw [hnew, Option.bind_eq_bind, Option.bind_eq_bind, Option.bind_some]
      have hfail : st'.names.err_code ≠ OK ∧ st'.names.err_code ≠ EEXIST := hcode
      dsimp only
      rw [if_pos hfail]
      exact ⟨_, _, rfl, hmaps⟩
    · rw [if_neg hcreat]
      have heat : eatPath st.names fp .other path = some (none, putInode s (some ldip)) := by
        have hlast : lastDir st.names fp .other path (fun _ => 0) = some ld := h.last
        unfold eatPath
        rw [hlast, Option.bind_eq_bind, Option.bind_some, h.dir]
        dsimp only
        rw [if_neg hname, h.missing]
        rfl
      dsimp only
      rw [heat]
      refine ⟨_, _, rfl, .of_eq ?_ rfl rfl⟩
      exact hadv.put.imap

/-! ## The result -/

/-- The root directory has a file that only the superuser may write. -/
def publicFile : Names where
  inode rip :=
    if rip.val = 0 then ⟨⟨I_DIRECTORY ||| 0o755, 0, 0, 16, 2⟩, 1, 1, 2, false, false, false⟩
    else ⟨⟨0, 0, 0, 0, 0⟩, 0, 0, 0, false, false, false⟩
  super_block sp := if sp.val = 0 then ⟨1, false, some ⟨0, NR_INODES_pos⟩⟩ else ⟨0, false, none⟩
  fproc _ := ⟨⟨SU_UID, SU_UID, 0, 0⟩, none, none⟩
  err_code := OK
  disk _ _ := ⟨I_REGULAR ||| 0o644, 0, 0, 5, 1⟩
  imap _ _ := true
  dirs _ _ _ := ⟨2, padded [102]⟩
  room _ := true

/-- The file has a zone of its own. -/
def publicFs : FileSys where
  names := publicFile
  i_zone _ _ i := if i.val = 0 then 3 else NO_ZONE
  cache := bufPool staticCache
  sb _ := ⟨20, 1, 2, 0, 1024, [⟨0, by decide⟩], 1⟩
  s_ninodes _ := 16
  filp _ := ⟨⟨0, 0, 0⟩, 0, none⟩
  fp_filp _ := none
  fp_umask := 0

/-- A process of a user who is not the superuser. -/
def userProc : Fproc := ⟨⟨1, 1, 1, 1⟩, some ⟨0, NR_INODES_pos⟩, some ⟨0, NR_INODES_pos⟩⟩

theorem publicFile_linked (dev numb : ℕ) : publicFile.Linked dev numb :=
  fun _ => (by decide : (1 : UInt8) ≠ 0)

theorem publicFile_tidy : Tidy publicFile where
  unique := by
    unfold Names.Unique
    decide
  idle := by decide
  dev := by decide
  super := by decide
  entry _ _ _ _ _ _ _ := publicFile_linked _ _
  imount := by
    have hused : ∀ sp ip, (publicFile.super_block sp).s_imount = some ip →
        0 < (publicFile.inode ip).i_count := by decide
    exact fun sp ip himount _ => hused sp ip himount
  root := by decide

theorem userProc_held : userProc.Held publicFile where
  rootdir := by decide
  workdir := by decide

/-- The file is truncated when a user opens it for reading with `O_TRUNC`, which gives the file
descriptor 0. -/
theorem readOnly_truncated :
    (commonOpen publicFs userProc [102] O_TRUNC 0 fun _ => OK).map (fun p =>
      (p.1, (p.2.names.current 1 2).i_size, p.2.i_zone 1 2 0)) = some (0, 0, NO_ZONE) ∧
      ¬OpenHarmless publicFs userProc [102] O_TRUNC 0 fun _ => OK := by
  refine ⟨by decide +kernel, ?_⟩
  have hrun : (eatPath publicFs.names userProc .other [102]).map (fun p => (p.1,
      p.1.map fun rip => (p.2.forbidden userProc.caller rip W_BIT,
        p.2.forbidden userProc.caller rip R_BIT, (p.2.inode rip).i_mode, (p.2.inode rip).i_size))) =
      some (some ⟨31, by decide⟩, some (EACCES, OK, I_REGULAR ||| 0o644, 5)) := by
    decide +kernel
  obtain ⟨⟨rip, s⟩, hfound, heq⟩ := Option.map_eq_some_iff.mp hrun
  obtain ⟨hrip, hfields⟩ := Prod.mk.inj heq
  obtain rfl : rip = some ⟨31, by decide⟩ := hrip
  obtain ⟨hrefused, hrest⟩ := Prod.mk.inj (Option.some.inj hfields)
  obtain ⟨hgranted, hrest⟩ := Prod.mk.inj hrest
  obtain ⟨hmode, hsize⟩ := Prod.mk.inj hrest
  dsimp only at hrefused hgranted hmode hsize
  have htrunc : TruncatesUnwritable publicFs userProc [102] O_TRUNC ⟨31, by decide⟩ s := by
    refine ⟨⟨hfound, .inl ?_⟩, ⟨⟨0, rfl⟩, 0, rfl⟩, by decide, by decide, hgranted, ?_, .inl ?_⟩
    · rw [hrefused]
      decide
    · rw [hmode]
      decide
    · rw [hsize]
      decide
  intro h
  exact commonOpen_truncating publicFile_tidy userProc_held htrunc (h.existing _ s htrunc.unwritable)

/-- Opening a path changes nothing that the caller may not write if and only if it does not truncate
such a file. -/
theorem open_harmless (st : FileSys) (fp : Fproc) (path : List UInt8) (oflags omode : ℕ)
    (driver : ℕ → ℤ) (ht : Tidy st.names) (hfp : fp.Held st.names) :
    OpenHarmless st fp path oflags omode driver ↔
      ∀ rip s, ¬TruncatesUnwritable st fp path oflags rip s := by
  constructor
  · intro h rip s htrunc
    exact commonOpen_truncating ht hfp htrunc (h.existing rip s htrunc.unwritable)
  · intro hno
    constructor
    case existing => exact fun rip s hu => commonOpen_existing ht hfp hu (hno rip s)
    case missing => exact fun ld ldip s hm => commonOpen_missing ht hfp hm

/-- The file is not changed when the user opens it for reading. -/
theorem open_harmless_reading : OpenHarmless publicFs userProc [102] 0 0 fun _ => OK :=
  (open_harmless publicFs userProc [102] 0 0 (fun _ => OK) publicFile_tidy userProc_held).mpr
    fun _ _ h => absurd h.trunc (by decide)

end Minix.Fs
