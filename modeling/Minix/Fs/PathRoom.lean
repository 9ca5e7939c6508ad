import Minix.Fs.NextInode
import Minix.Fs.OpenRights
import Minix.Fs.PathNames
import Minix.Fs.SearchErrors
import Minix.Lib.Counts

/-!
# The room that a path takes

`last_dir` holds two directories of a path at a time. It finds the last one if and only if the path
leads there and there is a slot for each directory on the way that is not in use, beside the one
before it (`Tidy.lastDir_at`). So `eat_path` gets the inode that a path leads to, and no other
(`eatPath_exact`).
-/

namespace Minix.Fs

open Lib

/-- How many slots of the table are free. -/
def Names.free (s : Names) : ℕ := howMany fun rip => decide ((s.inode rip).i_count = 0)

/-- Beside a directory that is held there is room for the next one, when `spare` slots are free. -/
def Names.Fits (s : Names) (spare : ℕ) (d d' : InodeKey) : Prop :=
  s.inUse d'.1 d'.2 ∨ d' = d ∨ (if s.inUse d.1 d.2 then 0 else 1) < spare

/-- Names that are looked up in order lead on from a directory, with room for each step. -/
def Names.Rooms (s : Names) (fp : Caller) (spare : ℕ) : InodeKey → List Name → Prop
  | _, [] => True
  | d, string :: names =>
    ∃ d', s.next fp d string = some d' ∧ s.Fits spare d d' ∧ s.Rooms fp spare d' names

/-- The inode that names lead to when they are looked up in order. -/
def Names.follow (s : Names) (fp : Caller) : InodeKey → List Name → Option InodeKey
  | d, [] => some d
  | d, string :: names => (s.next fp d string).bind fun d' => s.follow fp d' names

/-- A path starts at a directory that has not been removed. -/
def Names.Starts (s : Names) (fp : Fproc) (path : List UInt8) (rip : InodePtr) : Prop :=
  startDir fp path = some rip ∧ path ≠ [] ∧ (s.inode rip).i_nlinks ≠ 0

/-- A path can be walked to its end, when `spare` slots are free. -/
def Names.Walkable (s : Names) (fp : Fproc) (spare : ℕ) (path : List UInt8) : Prop :=
  ∃ rip, s.Starts fp path rip ∧ s.Rooms fp.caller spare (s.inode rip).key (pathNames path)

/-- A path leads to an inode. -/
def Names.Leads (s : Names) (fp : Fproc) (path : List UInt8) (d : InodeKey) : Prop :=
  ∃ rip, s.Starts fp path rip ∧ s.follow fp.caller (s.inode rip).key (pathNames path) = some d

variable {s s' : Names} {l : List InodePtr} {rip : InodePtr} {spare : ℕ} {fp : Caller}
  {d d' : InodeKey} {string : Name}

/-! ## The room for a path -/

/-- An inode that is held was in use, or it was loaded into a free slot. -/
theorem Holding.inUse_key (h : Holding s s' l) (hmem : rip ∈ l) :
    s.inUse (s'.inode rip).key.1 (s'.inode rip).key.2 ↔ 0 < (s.inode rip).i_count := by
  constructor
  · intro hu
    by_contra hzero
    exact (h.loaded rip hmem (by omega)).notUsed hu
  · intro hcount
    have hsame := h.sameSlot hcount
    exact ⟨rip, hcount, hsame.1.symm, hsame.2.1.symm⟩

/-- One slot fewer is free while an inode is held that was not in use. -/
theorem Holding.free (h : Holding s s' [rip]) : s'.free + (if s.inUse (s'.inode rip).key.1
    (s'.inode rip).key.2 then 0 else 1) = s.free := by
  have hpos := h.pos (List.mem_singleton_self rip)
  have hchange := howMany_change (p := rip) (fun a => decide ((s.inode a).i_count = 0))
    (fun a => decide ((s'.inode a).i_count = 0)) (fun a ha => by
      have hcount := h.count a
      rw [List.count_singleton, if_neg (by simpa using Ne.symm ha), Nat.add_zero] at hcount
      exact decide_eq_decide.mpr (by rw [hcount]))
  have hnow : decide ((s'.inode rip).i_count = 0) = false := decide_eq_false (by omega)
  have hbefore : (decide ((s.inode rip).i_count = 0)).toNat =
      if s.inUse (s'.inode rip).key.1 (s'.inode rip).key.2 then 0 else 1 := by
    by_cases hcount : 0 < (s.inode rip).i_count
    · rw [if_pos ((h.inUse_key (List.mem_singleton_self rip)).mpr hcount), decide_eq_false (by omega)]
      rfl
    · rw [if_neg fun hu => hcount ((h.inUse_key (List.mem_singleton_self rip)).mp hu),
        decide_eq_true (by omega)]
      rfl
  rw [hnow, hbefore] at hchange
  exact hchange

theorem free_pos : (∃ rip, (s.inode rip).i_count = 0) ↔ 0 < s.free := by
  constructor
  · rintro ⟨rip, hzero⟩
    exact howMany_pos (P := fun rip => decide ((s.inode rip).i_count = 0)) (decide_eq_true hzero)
  · intro hpos
    by_contra hnone
    have hall : s.free = 0 := howMany_eq_zero.mpr fun rip =>
      decide_eq_false fun hzero => hnone ⟨rip, hzero⟩
    omega

/-- While a directory is held the next one can be got, if it fits. -/
theorem Holding.gettable_fits (h : Holding s s' [rip]) :
    s'.Gettable d' ↔ s.Fits s.free (s'.inode rip).key d' := by
  have hused : s'.inUse d'.1 d'.2 ↔ s.inUse d'.1 d'.2 ∨ d' = (s'.inode rip).key := by
    constructor
    · rintro ⟨a, hcount, hdev, hnum⟩
      rcases h.used hcount with hbefore | ⟨-, hmem⟩
      · have hsame := h.sameSlot hbefore
        exact .inl ⟨a, hbefore, hsame.1.symm.trans hdev, hsame.2.1.symm.trans hnum⟩
      · obtain rfl := List.mem_singleton.mp hmem
        exact .inr (Prod.ext hdev.symm hnum.symm)
    · rintro (hu | rfl)
      · exact h.inUse hu
      · exact Fs.inUse_key (h.pos (List.mem_singleton_self rip))
  have hfree := h.free
  unfold Names.Gettable Names.Fits
  rw [hused, free_pos, or_assoc]
  refine or_congr_right (or_congr_right ?_)
  omega

/-- The walk of `last_dir` ends, and it finds the last directory if there is room for it. -/
theorem Tidy.descend_at (fp : Caller) (ht : Tidy s) (hm : MountsOk s) {names : List Name}
    (h : Holding s s' [rip]) (hnames : ∀ n ∈ names, n 0 ≠ 0) :
    ∃ r string s'', descend fp s' rip names = some (r, string, s'') ∧
      (r.isSome ↔ s.Rooms fp s.free (s'.inode rip).key names.dropLast) ∧
      (string 0 = 0 ↔ names = []) ∧ (r = none → s''.err_code ∈ searchErrors ∧
        (s.follow fp (s'.inode rip).key names.dropLast ≠ none → s''.err_code = ENFILE)) ∧
      ∀ a, r = some a → string = names.getLastD emptyName ∧
        s.follow fp (s'.inode rip).key names.dropLast = some (s''.inode a).key := by
  induction names generalizing s' rip with
  | nil =>
    refine ⟨some rip, emptyName, s', rfl, iff_of_true rfl trivial, iff_of_true rfl rfl,
      fun h => absurd h (Option.some_ne_none rip), ?_⟩
    intro a ha
    rw [← Option.some.inj ha]
    exact ⟨rfl, rfl⟩
  | cons name names ih =>
    have hname := hnames name List.mem_cons_self
    cases names with
    | nil =>
      refine ⟨some rip, name, s', rfl, iff_of_true rfl trivial, ?_,
        fun h => absurd h (Option.some_ne_none rip), ?_⟩
      · exact iff_of_false hname (List.cons_ne_nil _ _)
      · intro a ha
        rw [← Option.some.inj ha]
        exact ⟨rfl, rfl⟩
    | cons name' names =>
      have hused := h.pos (List.mem_singleton_self rip)
      obtain ⟨res, he, hres⟩ := (h.tidy ht).advance_at fp (h.mountsOk ht hm) hused hname
      rw [h.next ht hm (h.live hused)] at hres
      have hgot := hres.got
      have hall := @WalkRule.advance _ _ _ fp ht.walk _ _ _ _ h
        (fun a ha => Option.some.inj ha ▸ hused) he
      have hput := (hall.perm List.perm_append_comm).put
      have hstep : descend fp s' rip (name :: name' :: names) =
          res.1.elim (some (none, name, putInode res.2 (some rip))) fun new_ip =>
            descend fp (putInode res.2 (some rip)) new_ip (name' :: names) := by
        conv_lhs => unfold descend
        rw [he]
        obtain ⟨got, s₁⟩ := res
        cases got <;> rfl
      have hrooms : s.Rooms fp s.free (s'.inode rip).key (name :: (name' :: names).dropLast) ↔
          ∃ d', GotAt res d' ∧ s.Rooms fp s.free d' (name' :: names).dropLast := by
        show (∃ d', _ ∧ _ ∧ _) ↔ _
        simp only [hgot, h.gettable_fits, and_assoc]
      rw [hstep, List.dropLast_cons_of_ne_nil (List.cons_ne_nil _ _), hrooms]
      cases hres₁ : res.1 with
      | none =>
        refine ⟨none, name, putInode res.2 (some rip), rfl, ?_, ?_, fun _ => ?_,
          fun a ha => absurd ha.symm (Option.some_ne_none a)⟩
        · refine iff_of_false Bool.false_ne_true ?_
          rintro ⟨d', ⟨a, ha, -⟩, -⟩
          exact Option.some_ne_none a (ha.symm.trans hres₁)
        · exact iff_of_false hname (List.cons_ne_nil _ _)
        · rw [putInode_err]
          have hrun : advance fp mountFuel s' (some rip) name = some (none, res.2) :=
            he.trans (congrArg (fun r => some (r, res.2)) hres₁)
          refine ⟨advance_code hrun fun hnone => absurd hnone (Option.some_ne_none rip),
            fun hfollow => hres.full (fun hnone => hfollow ?_) hres₁⟩
          show (s.next fp _ name).bind _ = none
          rw [hnone, Option.bind_none]
      | some new_ip =>
        rw [hres₁] at hput
        obtain ⟨r, string, s'', hrun, hsome, hstring, herr, hlead⟩ := ih hput fun n hn =>
          hnames n (List.mem_cons_of_mem _ hn)
        obtain ⟨hnext, -⟩ := (hgot _).mp ⟨new_ip, hres₁, rfl⟩
        have hfollow : s.follow fp (s'.inode rip).key (name :: (name' :: names).dropLast) =
            s.follow fp ((putInode res.2 (some rip)).inode new_ip).key (name' :: names).dropLast := by
          show (s.next fp _ name).bind _ = _
          rw [hnext, Option.bind_some, putInode_key]
        rw [hfollow]
        refine ⟨r, string, s'', hrun, ?_, ?_, herr, hlead⟩
        · rw [hsome, putInode_key]
          constructor
          · exact fun hrest => ⟨_, ⟨new_ip, hres₁, rfl⟩, hrest⟩
          · rintro ⟨d', ⟨a, ha, rfl⟩, hrest⟩
            obtain rfl := Option.some.inj (hres₁.symm.trans ha)
            exact hrest
        · exact iff_of_false (fun hzero => List.cons_ne_nil _ _ (hstring.mp hzero))
            (List.cons_ne_nil _ _)

/-! ## The last directory -/

/-- The path that is walked: `unlink` and `rmdir` remove `/.` from its end. -/
def walked (fs_call : FsCall) (path : List UInt8) : List UInt8 :=
  if fs_call = .other then path else stripDots path

variable {path : List UInt8} {fs_call : FsCall}

theorem stripFront_suffix (path : List UInt8) : stripFront path <:+ path := by
  induction path using stripFront.induct with
  | case1 c₂ c₁ c rest hdot ih =>
    unfold stripFront
    rw [if_pos hdot]
    exact ih.trans ((List.suffix_cons _ _).trans (List.suffix_cons _ _))
  | case2 c₂ c₁ c rest hdot =>
    unfold stripFront
    rw [if_neg hdot]
  | case3 path hshort =>
    unfold stripFront
    split
    · exact absurd rfl (hshort _ _ _ _)
    · exact List.suffix_rfl

theorem walked_prefix (fs_call : FsCall) (path : List UInt8) : walked fs_call path <+: path := by
  unfold walked
  by_cases hcall : fs_call = .other
  · rw [if_pos hcall]
  · rw [if_neg hcall]
    have hsuffix := List.reverse_prefix.mpr (stripFront_suffix path.reverse)
    rwa [List.reverse_reverse] at hsuffix

/-- The components of a path consist of its characters. -/
theorem mem_components {c : List UInt8} {ch : UInt8} (hc : c ∈ components path) (hch : ch ∈ c) :
    ch ∈ path := by
  induction hn : path.length using Nat.strong_induction_on generalizing path with
  | _ n ih =>
    by_cases h : path.dropWhile (· = slash) = []
    · rw [components_of_slashes h] at hc
      exact absurd hc List.not_mem_nil
    · rw [components_cons h] at hc
      have hstart : ∀ ch ∈ path.dropWhile (· = slash), ch ∈ path := fun ch hmem =>
        (List.dropWhile_sublist _).subset hmem
      rcases List.mem_cons.mp hc with rfl | hc
      · exact hstart ch ((List.takeWhile_sublist _).subset hch)
      · refine hstart ch ((List.dropWhile_sublist _).subset (ih _ ?_ hc rfl))
        have hle := (List.dropWhile_sublist (l := path) (· = slash)).length_le
        have hpos := List.length_pos_iff.mpr (firstComponent_ne_nil h)
        have hsum := congrArg List.length (@List.takeWhile_append_dropWhile _ (· ≠ slash)
          (path.dropWhile (· = slash)))
        rw [List.length_append] at hsum
        omega

/-- A name in a path is not empty. -/
theorem pathNames_ne (hzero : 0 ∉ path) : ∀ n ∈ pathNames path, n 0 ≠ 0 := by
  intro n hn
  obtain ⟨c, hc, rfl⟩ := List.mem_map.mp hn
  rw [padded_take]
  have hne : c ≠ [] := by
    have hmem := (List.mem_filter.mp hc).2
    simpa using hmem
  obtain ⟨ch, rest, rfl⟩ := List.exists_cons_of_ne_nil hne
  have hch : ch ∈ path := mem_components hc List.mem_cons_self
  show ch ≠ 0
  rintro rfl
  exact hzero hch

/-- Where `last_dir` starts. -/
theorem lastDir_starts {fp : Fproc} (hstart : startDir fp path = some rip) :
    lastDir s fp fs_call path string =
      if (s.inode rip).i_nlinks = 0 ∨ path = [] then
        some ⟨none, string, path, { s with err_code := ENOENT }⟩
      else scanPath fp.caller (walked fs_call path) ((walked fs_call path).length + 1)
        (dupInode s rip) rip (walked fs_call path) := by
  unfold startDir at hstart
  unfold lastDir
  by_cases hhead : path.head? = some slash
  · rw [if_pos hhead] at hstart
    simp only [if_pos hhead, hstart]
    rfl
  · rw [if_neg hhead] at hstart
    simp only [if_neg hhead, hstart]
    rfl

/-- What `last_dir` leaves: without a directory to start at, the string is not set; else the last
directory is found if there is room for it, and the string is a component if there is one. -/
structure LastFound (s : Names) (fp : Fproc) (fs_call : FsCall) (path : List UInt8) (rip : InodePtr)
    (string : Name) (ld : LastDir) : Prop where
  fails : ¬s.Starts fp path rip → ld.rip = none ∧ ld.string = string
  finds : s.Starts fp path rip → (ld.rip.isSome ↔ s.Rooms fp.caller s.free (s.inode rip).key
    (pathNames (walked fs_call path)).dropLast)
  names : s.Starts fp path rip → (ld.string 0 = 0 ↔ components (walked fs_call path) = [])
  err : ld.rip = none → ld.names.err_code ∈ searchErrors
  user_path : fs_call = .other → ld.user_path = path
  full : s.Starts fp path rip → ld.rip = none →
    s.follow fp.caller (s.inode rip).key (pathNames (walked fs_call path)).dropLast ≠ none →
      ld.names.err_code = ENFILE
  lead : ∀ a, ld.rip = some a → ld.string = (pathNames (walked fs_call path)).getLastD emptyName ∧
    s.follow fp.caller (s.inode rip).key (pathNames (walked fs_call path)).dropLast =
      some (ld.names.inode a).key

/-- `last_dir` returns, and finds the last directory of a path if there is room for it. -/
theorem Tidy.lastDir_at {fp : Fproc} (ht : Tidy s) (hm : MountsOk s) (hfp : fp.Held s)
    (hstart : startDir fp path = some rip) (hlen : path.length < PATH_MAX) (hzero : 0 ∉ path) :
    ∃ ld, lastDir s fp fs_call path string = some ld ∧ LastFound s fp fs_call path rip string ld := by
  rw [lastDir_starts hstart]
  by_cases hbad : (s.inode rip).i_nlinks = 0 ∨ path = []
  · rw [if_pos hbad]
    have hno : ¬s.Starts fp path rip := fun h => hbad.elim h.2.2 h.2.1
    exact ⟨_, rfl, fun _ => ⟨rfl, rfl⟩, fun h => absurd h hno, fun h => absurd h hno,
      fun _ => (show ENOENT ∈ searchErrors by decide), fun _ => rfl, fun h => absurd h hno,
      fun _ ha => absurd ha.symm (Option.some_ne_none _)⟩
  · rw [if_neg hbad]
    have hyes : s.Starts fp path rip := ⟨hstart, fun h => hbad (.inr h), fun h => hbad (.inl h)⟩
    have hwalked := walked_prefix fs_call path
    have hlen' := hwalked.length_le.trans_lt hlen
    have hzero' : 0 ∉ walked fs_call path := fun h => hzero (hwalked.subset h)
    have hused : 0 < (s.inode rip).i_count := by
      unfold startDir at hstart
      split_ifs at hstart
      · exact hfp.rootdir rip hstart
      · exact hfp.workdir rip hstart
    have hheld := ht.holding.dup hused
    obtain ⟨r, string', s', hrun, hsome, hname, herr, hlead⟩ :=
      ht.descend_at fp.caller hm hheld (pathNames_ne hzero')
    have hkey : ((dupInode s rip).inode rip).key = (s.inode rip).key := setInode_key rfl
    rw [hkey] at hsome herr hlead
    rw [scanPath_eq hlen' (Nat.lt_succ_of_le length_components_le), hrun]
    refine ⟨_, rfl, fun h => absurd hyes h, fun _ => hsome, fun _ => hname.trans ?_,
      fun hnone => (herr hnone).1, fun hcall => if_pos hcall, fun _ hnone => (herr hnone).2, hlead⟩
    exact List.map_eq_nil_iff

/-! ## The calls of a process -/

/-- The tables are in order for a call of a process, which has its directories. -/
structure CallReady (s : Names) (fp : Fproc) : Prop where
  tidy : Tidy s
  mounts : MountsOk s
  held : fp.Held s
  rootdir : fp.fp_rootdir.isSome
  workdir : fp.fp_workdir.isSome

/-- A path that a user passes: it fits in the buffer, and ends at its first zero. -/
structure UserPath (path : List UInt8) : Prop where
  short : path.length < PATH_MAX
  ended : 0 ∉ path

/-- A path starts at one of the directories of the process. -/
theorem CallReady.start {fp : Fproc} (h : CallReady s fp) (path : List UInt8) :
    ∃ rip, startDir fp path = some rip ∧ 0 < (s.inode rip).i_count := by
  unfold startDir
  split_ifs
  · obtain ⟨rip, hrip⟩ := Option.isSome_iff_exists.mp h.rootdir
    exact ⟨rip, hrip, h.held.rootdir rip hrip⟩
  · obtain ⟨rip, hrip⟩ := Option.isSome_iff_exists.mp h.workdir
    exact ⟨rip, hrip, h.held.workdir rip hrip⟩

/-- While inodes are held the tables are in order. -/
theorem Holding.callReady {fp : Fproc} (h : Holding s s' l) (hr : CallReady s fp) :
    CallReady s' fp where
  tidy := h.tidy hr.tidy
  mounts := h.mountsOk hr.tidy hr.mounts
  held := by
    constructor
    · intro rip hrip
      have hused := hr.held.rootdir rip hrip
      rw [h.count]
      omega
    · intro rip hrip
      have hused := hr.held.workdir rip hrip
      rw [h.count]
      omega
  rootdir := hr.rootdir
  workdir := hr.workdir

/-- While inodes are held a path starts where it did. -/
theorem Holding.starts {fp : Fproc} (h : Holding s s' l) (hr : CallReady s fp) :
    s'.Starts fp path rip ↔ s.Starts fp path rip := by
  refine and_congr_right fun hstart => and_congr_right fun _ => ?_
  obtain ⟨rip', hstart', hused⟩ := hr.start path
  obtain rfl := Option.some.inj (hstart.symm.trans hstart')
  rw [show (s'.inode rip).i_nlinks = (s.inode rip).i_nlinks from
    congrArg DInode.i_nlinks (h.sameSlot hused).2.2]

/-- `last_dir` returns, and what it leaves is known. -/
theorem CallReady.lastDir {fp : Fproc} (h : CallReady s fp) (hpath : UserPath path) (fs_call : FsCall)
    (string : Name) : ∃ rip ld, startDir fp path = some rip ∧
      Fs.lastDir s fp fs_call path string = some ld ∧ LastFound s fp fs_call path rip string ld ∧
      Holding s ld.names ld.rip.toList := by
  obtain ⟨rip, hstart, -⟩ := h.start path
  obtain ⟨ld, hlast, hfound⟩ := @Tidy.lastDir_at _ _ string _ fs_call fp h.tidy h.mounts h.held hstart
    hpath.short hpath.ended
  exact ⟨rip, ld, hstart, hlast, hfound, Holding.lastDir h.tidy h.held hlast⟩

/-- In the last directory of a path the final component is looked up. -/
theorem Tidy.advance_last (ht : Tidy s) (hm : MountsOk s) {caller : Caller}
    (hused : 0 < (s.inode rip).i_count) : ∃ res,
      advance caller mountFuel s (some rip) string = some res ∧
      (res.1 = none → res.2.err_code ∈ searchErrors) := by
  by_cases hempty : string 0 = 0
  · refine ⟨(some rip, dupInode s rip), ?_, fun hnone => absurd hnone (Option.some_ne_none rip)⟩
    show advance caller (NR_SUPERS + 1) s (some rip) string = _
    unfold advance
    rw [if_pos hempty]
    exact congrArg some (ht.unique.get hused)
  · obtain ⟨res, hrun, -⟩ := ht.advance_at caller hm hused hempty
    refine ⟨res, hrun, fun hnone => ?_⟩
    have hrun' : advance caller mountFuel s (some rip) string = some (none, res.2) :=
      hrun.trans (congrArg (fun r => some (r, res.2)) hnone)
    exact advance_code hrun' fun h => absurd h (Option.some_ne_none rip)

/-! ## The inode of a path -/

section EatPath

variable {caller : Caller} {names : List Name}

theorem follow_concat : s.follow caller d (names ++ [string]) =
    (s.follow caller d names).bind fun d' => s.next caller d' string := by
  induction names generalizing d with
  | nil => exact Option.bind_fun_some _
  | cons name names ih =>
    show (s.next caller d name).bind _ = ((s.next caller d name).bind _).bind _
    rw [Option.bind_assoc]
    exact congrArg _ (funext fun d' => ih)

/-- There is room for one more step. -/
theorem rooms_concat (hfollow : s.follow caller d names = some d') :
    s.Rooms caller spare d (names ++ [string]) ↔ s.Rooms caller spare d names ∧
      ∃ d₁, s.next caller d' string = some d₁ ∧ s.Fits spare d' d₁ := by
  induction names generalizing d with
  | nil =>
    obtain rfl := Option.some.inj hfollow
    exact ⟨fun ⟨d₁, hnext, hfits, _⟩ => ⟨trivial, d₁, hnext, hfits⟩,
      fun ⟨_, d₁, hnext, hfits⟩ => ⟨d₁, hnext, hfits, trivial⟩⟩
  | cons name names ih =>
    obtain ⟨d₂, hnext, hrest⟩ := Option.bind_eq_some_iff.mp hfollow
    have hone : ∀ P : InodeKey → Prop,
        (∃ d₁, s.next caller d name = some d₁ ∧ s.Fits spare d d₁ ∧ P d₁) ↔
        s.Fits spare d d₂ ∧ P d₂ := fun P => by
      rw [hnext]
      simp only [Option.some_inj, exists_eq_left']
    show (∃ d₁, _ ∧ _ ∧ _) ↔ (∃ d₁, _ ∧ _ ∧ _) ∧ _
    rw [hone, hone, and_assoc]
    exact and_congr_right fun _ => ih hrest

/-- With room for all names there is room for all but the last. -/
theorem Names.Rooms.dropLast (h : s.Rooms caller spare d names) :
    s.Rooms caller spare d names.dropLast := by
  induction names generalizing d with
  | nil => exact h
  | cons name names ih =>
    cases names with
    | nil => trivial
    | cons name' names =>
      obtain ⟨d₁, hnext, hfits, hrest⟩ := h
      exact ⟨d₁, hnext, hfits, ih hrest⟩

/-- When all names lead somewhere, so do all but the last. -/
theorem follow_dropLast (h : s.follow caller d names = some d') :
    s.follow caller d names.dropLast ≠ none := by
  rcases List.eq_nil_or_concat names with rfl | ⟨init, last, rfl⟩
  · exact Option.some_ne_none d
  · rw [List.concat_eq_append, follow_concat] at h
    rw [List.concat_eq_append, List.dropLast_concat]
    obtain ⟨d₁, hd₁, -⟩ := Option.bind_eq_some_iff.mp h
    rw [hd₁]
    exact Option.some_ne_none d₁

end EatPath

/-- There is one directory that a path starts at. -/
theorem starts_iff {fp : Fproc} {P : InodePtr → Prop} (hstart : startDir fp path = some rip) :
    (∃ a, s.Starts fp path a ∧ P a) ↔ s.Starts fp path rip ∧ P rip := by
  refine ⟨?_, fun hs => ⟨rip, hs⟩⟩
  rintro ⟨a, hs⟩
  obtain rfl := Option.some.inj (hs.1.1.symm.trans hstart)
  exact hs

/-- The last step of a path, after which its last directory is put. -/
theorem Holding.lastStep (caller : Caller) (ht : Tidy s) (hm : MountsOk s) (h : Holding s s' [rip])
    (hname : string 0 ≠ 0) : ∃ res, advance caller mountFuel s' (some rip) string = some res ∧
      Holding s (putInode res.2 (some rip)) res.1.toList ∧
      (∀ d, GotAt (res.1, putInode res.2 (some rip)) d ↔
        s.next caller (s'.inode rip).key string = some d ∧ s.Fits s.free (s'.inode rip).key d) ∧
      (res.1 = none → (putInode res.2 (some rip)).err_code ∈ searchErrors) ∧
      (res.1 = none → s.next caller (s'.inode rip).key string ≠ none →
        (putInode res.2 (some rip)).err_code = ENFILE) := by
  have hused := h.pos (List.mem_singleton_self rip)
  obtain ⟨res, hrun, harrives⟩ := (h.tidy ht).advance_at caller (h.mountsOk ht hm) hused hname
  rw [h.next ht hm (h.live hused)] at harrives
  have hall := (@WalkRule.advance _ _ _ caller ht.walk _ _ _ _ h
    (fun a ha => Option.some.inj ha ▸ hused) hrun).perm List.perm_append_comm
  refine ⟨res, hrun, hall.put, fun d => ?_, fun hnot => ?_, fun hnot hnext => ?_⟩
  · have hkey : GotAt (res.1, putInode res.2 (some rip)) d ↔ GotAt res d := by
      unfold GotAt
      simp only [putInode_key]
    rw [hkey, harrives.got, h.gettable_fits]
  · have hrun' : advance caller mountFuel s' (some rip) string = some (none, res.2) :=
      hrun.trans (congrArg (fun r => some (r, res.2)) hnot)
    rw [putInode_err]
    exact advance_code hrun' fun h => absurd h (Option.some_ne_none rip)
  · rw [putInode_err]
    exact harrives.full hnext hnot

/-- `eat_path` returns. It holds the inode that the path leads to, if there is room for each step, and
nothing else. If there is no room, the error is `ENFILE`. -/
theorem eatPath_exact {fp : Fproc} (h : CallReady s fp) (hpath : UserPath path) :
    ∃ res, eatPath s fp .other path = some res ∧ Holding s res.2 res.1.toList ∧
      (∀ d, GotAt res d ↔ s.Leads fp path d ∧ s.Walkable fp s.free path) ∧
      (res.1 = none → res.2.err_code ∈ searchErrors) ∧
      (res.1 = none → (∃ d, s.Leads fp path d) → res.2.err_code = ENFILE) := by
  obtain ⟨rip, ld, hstart, hlast, hfound, hheld⟩ := h.lastDir hpath .other fun _ => 0
  have hleads : ∀ d, s.Leads fp path d ↔ _ := fun d => starts_iff hstart
  have hwalkable : s.Walkable fp s.free path ↔ _ := starts_iff hstart
  have hwalked : walked .other path = path := if_pos rfl
  have hfinds := hfound.finds
  have hfull := hfound.full
  have hlead := hfound.lead
  have hempty := hfound.names
  rw [hwalked] at hfinds hfull hlead hempty
  have hyes : ∀ {a}, ld.rip = some a → s.Starts fp path rip := fun ha => by
    by_contra hno
    exact Option.some_ne_none _ (ha.symm.trans (hfound.fails hno).1)
  unfold eatPath
  rw [hlast, Option.bind_eq_bind, Option.bind_some]
  cases hld : ld.rip with
  | none =>
    rw [hld] at hheld
    refine ⟨(none, ld.names), rfl, hheld, fun d => iff_of_false not_gotAt_none ?_, fun _ =>
      hfound.err hld, ?_⟩
    · rintro ⟨-, hwalk⟩
      obtain ⟨hs, hrooms⟩ := hwalkable.mp hwalk
      have hsome := (hfinds hs).mpr hrooms.dropLast
      rw [hld] at hsome
      exact Bool.false_ne_true hsome
    · rintro - ⟨d, hd⟩
      obtain ⟨hs, hfollow⟩ := (hleads d).mp hd
      exact hfull hs hld (follow_dropLast hfollow)
  | some ldip =>
    have hs := hyes hld
    obtain ⟨hstring, hdir⟩ := hlead ldip hld
    have hrooms : s.Rooms fp.caller s.free (s.inode rip).key (pathNames path).dropLast :=
      (hfinds hs).mp (by rw [hld]; rfl)
    rw [hld] at hheld
    have hheld : Holding s ld.names [ldip] := hheld
    dsimp only
    by_cases hnone : ld.string 0 = 0
    · -- The path has no component: the directory itself is got.
      have hnil : pathNames path = [] := List.map_eq_nil_iff.mpr ((hempty hs).mp hnone)
      rw [hnil] at hdir hrooms
      rw [if_pos hnone]
      refine ⟨_, rfl, hheld, fun d => ?_, fun h => absurd h (Option.some_ne_none ldip),
        fun h => absurd h (Option.some_ne_none ldip)⟩
      rw [hleads, hwalkable, hnil]
      constructor
      · rintro ⟨a, ha, rfl⟩
        obtain rfl := Option.some.inj ha
        exact ⟨⟨hs, hdir⟩, hs, trivial⟩
      · rintro ⟨⟨-, hd⟩, -⟩
        exact ⟨ldip, rfl, Option.some.inj (hdir.symm.trans hd)⟩
    · -- The last component is looked up in the directory.
      rw [if_neg hnone]
      have hne : pathNames path ≠ [] := fun hnil =>
        hnone ((hempty hs).mpr (List.map_eq_nil_iff.mp hnil))
      have hsplit : pathNames path = (pathNames path).dropLast ++ [ld.string] := by
        rw [hstring, List.getLastD_eq_getLast?, List.getLast?_eq_some_getLast hne]
        exact (List.dropLast_append_getLast hne).symm
      obtain ⟨res, hrun, hput, hgot, herr, hnoslot⟩ :=
        hheld.lastStep fp.caller h.tidy h.mounts hnone
      have hnext : ∀ d, s.next fp.caller (ld.names.inode ldip).key ld.string = some d ↔
          s.Leads fp path d := fun d => by
        rw [hleads, hsplit, follow_concat, hdir, Option.bind_some]
        exact (and_iff_right hs).symm
      have hroom : s.Walkable fp s.free path ↔ ∃ d₁,
          s.next fp.caller (ld.names.inode ldip).key ld.string = some d₁ ∧
            s.Fits s.free (ld.names.inode ldip).key d₁ := by
        rw [hwalkable, hsplit, rooms_concat hdir]
        exact (and_iff_right hs).trans (and_iff_right hrooms)
      rw [hrun]
      refine ⟨_, rfl, hput, fun d => ?_, herr, fun hnot hd => ?_⟩
      · rw [hgot, hroom, hnext]
        refine and_congr_right fun hd => ?_
        rw [(hnext d).mpr hd]
        simp only [Option.some_inj, exists_eq_left']
      · obtain ⟨d, hd⟩ := hd
        refine hnoslot hnot ?_
        rw [(hnext d).mpr hd]
        exact Option.some_ne_none d

/-- The tables of a file system with one file are in order. -/
theorem publicFile_callReady : CallReady publicFile userProc where
  tidy := publicFile_tidy
  mounts := by
    constructor
    · intro rip hmount
      exact absurd hmount ((by decide : ∀ rip, ¬(publicFile.inode rip).i_mount = true) rip)
    · intro sp hsp hlive
      have hdev := (by decide : ∀ sp : Fin NR_SUPERS, sp.val ≠ 0 →
        ¬∃ rip, 0 < (publicFile.inode rip).i_count ∧
          (publicFile.inode rip).i_dev = (publicFile.super_block sp).s_dev) sp hsp
      exact absurd hlive hdev
  held := userProc_held
  rootdir := rfl
  workdir := rfl

/-- The path `/f` leads to the file, and the file is got. -/
theorem publicFile_eaten : ∃ res, eatPath publicFile userProc .other [slash, 102] = some res ∧
    GotAt res (1, 2) := by
  obtain ⟨res, hrun, -, hgot, -⟩ := @eatPath_exact publicFile [slash, 102] userProc
    publicFile_callReady ⟨by decide, by decide⟩
  have hstart : publicFile.Starts userProc [slash, 102] ⟨0, NR_INODES_pos⟩ :=
    ⟨rfl, List.cons_ne_nil _ _, by decide⟩
  have hnames : pathNames [slash, 102] = [padded [102]] := by decide
  have hnext : publicFile.next userProc.caller (1, 1) (padded [102]) = some (1, 2) := by
    decide +kernel
  have hfree : 0 < publicFile.free := free_pos.mp ⟨⟨1, by decide⟩, rfl⟩
  have hkey : (publicFile.inode ⟨0, NR_INODES_pos⟩).key = (1, 1) := rfl
  refine ⟨res, hrun, (hgot _).mpr ⟨⟨_, hstart, ?_⟩, _, hstart, ?_⟩⟩
  · rw [hkey, hnames]
    show (publicFile.next userProc.caller (1, 1) (padded [102])).bind _ = _
    rw [hnext]
    rfl
  · rw [hkey, hnames]
    refine ⟨(1, 2), hnext, .inr (.inr ?_), trivial⟩
    rwa [if_pos (show publicFile.inUse 1 1 by decide)]

end Minix.Fs
