import Minix.Fs.Link
import Minix.Fs.PathRoom

/-!
# When a call uses `NIL_INODE`

The calls of `fs/link.c` test what `last_dir` and `advance` return, with one exception: `rename` goes
on with the directory of the new name, and if the old path has no components, `advance` follows it
(`nameCall_returns`).
-/

namespace Minix.Fs

/-- A call that makes or removes an entry. -/
inductive NameCall
  | link (name1 name2 : Except Errno (List UInt8))
  | unlink (fs_call : FsCall) (name : Except Errno (List UInt8))
  | rename (name1 name2 : Except Errno (List UInt8))

/-- What a call does. It does not return when it follows `NIL_INODE`. -/
def NameCall.run (s : Names) (fp : Fproc) : NameCall → Option (ℤ × Names)
  | link name1 name2 => doLink s fp name1 name2
  | unlink fs_call name => doUnlink s fp fs_call name
  | rename name1 name2 => doRename s fp name1 name2

/-- A name that is passed: a path of the user, or an error. -/
def UserName (name : Except Errno (List UInt8)) : Prop := ∀ path, name = .ok path → UserPath path

/-- The names of a call are passed by a user. -/
def NameCall.Passed : NameCall → Prop
  | link name1 name2 => UserName name1 ∧ UserName name2
  | unlink _ name => UserName name
  | rename name1 name2 => UserName name1 ∧ UserName name2

/-- A path starts at a directory of the process. -/
def Names.Begins (s : Names) (fp : Fproc) (path : List UInt8) : Prop := ∃ rip, s.Starts fp path rip

/-- `rename` is passed an old path that has no components, and a new one that starts nowhere. -/
def RenameNil (s : Names) (fp : Fproc) (name1 name2 : Except Errno (List UInt8)) : Prop :=
  ∃ path1 path2, name1 = .ok path1 ∧ name2 = .ok path2 ∧ s.Begins fp path1 ∧
    components path1 = [] ∧ ¬s.Begins fp path2

/-- A call follows `NIL_INODE`. -/
def NameCall.Nil (s : Names) (fp : Fproc) : NameCall → Prop
  | rename name1 name2 => RenameNil s fp name1 name2
  | _ => False

variable {s s' : Names} {l : List InodePtr} {rip : InodePtr} {fp : Fproc} {path : List UInt8}
  {string : Name}

/-! ## Calls that return -/

/-- What a call relies on is kept, and paths start where they did. -/
def Same (s s' : Names) (fp : Fproc) : Prop :=
  CallReady s' fp ∧ ∀ path rip, s'.Starts fp path rip ↔ s.Starts fp path rip

theorem Holding.same (h : Holding s s' l) (hr : CallReady s fp) : Same s s' fp :=
  ⟨h.callReady hr, fun _ _ => h.starts hr⟩

/-- `last_dir` returns. -/
theorem CallReady.last (h : CallReady s fp) (hpath : UserPath path) (fs_call : FsCall)
    (string : Name) :
    ∃ rip ld, startDir fp path = some rip ∧ Fs.lastDir s fp fs_call path string = some ld ∧
      LastFound s fp fs_call path rip string ld ∧ Same s ld.names fp ∧
      ∀ a, ld.rip = some a → 0 < (ld.names.inode a).i_count := by
  obtain ⟨rip, ld, hstart, hlast, hfound, hheld⟩ := h.lastDir hpath fs_call string
  refine ⟨rip, ld, hstart, hlast, hfound, hheld.same h, fun a ha => ?_⟩
  rw [ha] at hheld
  exact hheld.pos (List.mem_singleton_self a)

/-- `advance` returns. -/
theorem CallReady.step (h : CallReady s fp) (hused : 0 < (s.inode rip).i_count) :
    ∃ res, advance fp.caller mountFuel s (some rip) string = some res ∧ Same s res.2 fp ∧
      (res.1 = none → res.2.err_code ∈ searchErrors) := by
  obtain ⟨res, hrun, hnot⟩ := @Tidy.advance_last _ _ string h.tidy h.mounts fp.caller hused
  have hheld := @WalkRule.advance _ _ _ fp.caller h.tidy.walk _ _ _ _ h.tidy.holding
    (fun a ha => Option.some.inj ha ▸ hused) hrun
  exact ⟨res, hrun, hheld.same h, hnot⟩

/-- `eat_path` returns. -/
theorem CallReady.eat (h : CallReady s fp) (hpath : UserPath path) (fs_call : FsCall) :
    ∃ res, eatPath s fp fs_call path = some res ∧ Same s res.2 fp := by
  obtain ⟨rip, ld, -, hlast, -, hsame, hused⟩ := h.last hpath fs_call fun _ => 0
  have hres : ∃ res, eatPath s fp fs_call path = some res := by
    unfold eatPath
    rw [hlast, Option.bind_eq_bind, Option.bind_some]
    cases hld : ld.rip with
    | none => exact ⟨_, rfl⟩
    | some ldip =>
      obtain ⟨res, hrun, -⟩ := @CallReady.step _ _ fp ld.string hsame.1 (hused ldip hld)
      dsimp only
      split_ifs
      · exact ⟨_, rfl⟩
      · rw [hrun]
        exact ⟨_, rfl⟩
  obtain ⟨res, hrun⟩ := hres
  exact ⟨res, hrun, (Holding.eatPath h.tidy h.held hrun).same h⟩

/-! ## Linking and removing -/

/-- `link` returns. -/
theorem doLink_returns (h : CallReady s fp) {name1 name2 : Except Errno (List UInt8)}
    (h1 : UserName name1) (h2 : UserName name2) : (doLink s fp name1 name2).isSome := by
  unfold doLink
  cases name1 with
  | error e => rfl
  | ok path1 =>
    obtain ⟨⟨got, s₁⟩, heat, hsame⟩ := h.eat (h1 path1 rfl) .other
    dsimp only
    rw [heat, Option.bind_eq_bind, Option.bind_some]
    cases got with
    | none => rfl
    | some rip =>
      dsimp only
      split_ifs
      all_goals try rfl
      all_goals
        cases name2 with
        | error e => rfl
        | ok path2 =>
          obtain ⟨-, ld, -, hlast, -, hsame', hused⟩ := hsame.1.last (h2 path2 rfl) .other noName
          dsimp only
          rw [hlast, Option.bind_eq_bind, Option.bind_some]
          cases hld : ld.rip with
          | none => rfl
          | some ip =>
            obtain ⟨res, hrun, -⟩ := @CallReady.step _ _ fp ld.string hsame'.1 (hused ip hld)
            dsimp only
            rw [hrun]
            rfl

/-- `unlink` and `rmdir` return. -/
theorem doUnlink_returns (h : CallReady s fp) {fs_call : FsCall} {name : Except Errno (List UInt8)}
    (hname : UserName name) : (doUnlink s fp fs_call name).isSome := by
  have hfind : (findToRemove s fp fs_call name).isSome := by
    unfold findToRemove
    cases name with
    | error e => rfl
    | ok path =>
      obtain ⟨-, ld, -, hlast, -, hsame, hused⟩ := h.last (hname path rfl) fs_call noName
      dsimp only
      rw [hlast, Option.bind_eq_bind, Option.bind_some]
      cases hld : ld.rip with
      | none => rfl
      | some rldirp =>
        obtain ⟨⟨got, s₁⟩, hrun, -⟩ := @CallReady.step _ _ fp ld.string hsame.1 (hused rldirp hld)
        dsimp only
        rw [hrun, Option.bind_eq_bind, Option.bind_some]
        cases got <;> rfl
  obtain ⟨found, hfound⟩ := Option.isSome_iff_exists.mp hfind
  unfold doUnlink
  rw [hfound, Option.bind_eq_bind, Option.bind_some]
  cases found <;> rfl

/-! ## Renaming -/

/-- What `do_rename` has found: a code other than `OK`, or both inodes that it follows. -/
def ToRename.Ready (t : ToRename) : Prop := t.r = OK → t.old_ip.isSome ∧ t.new_dirp.isSome

theorem renameFound_returns {caller : Caller} {t : ToRename} (h : t.Ready) :
    (renameFound caller t).isSome := by
  unfold renameFound
  by_cases hr : t.r = OK
  · obtain ⟨hold, hnew⟩ := h hr
    obtain ⟨old_ip, hold⟩ := Option.isSome_iff_exists.mp hold
    obtain ⟨new_dirp, hnew⟩ := Option.isSome_iff_exists.mp hnew
    rw [if_pos hr, hold, hnew]
    dsimp only [Option.bind_eq_bind, Option.bind_some]
    split_ifs <;> rfl
  · rw [if_neg hr]
    rfl

/-- When the old name has been found, the walk for the new one returns if and only if it does not go on
from `NIL_INODE` under an empty name. -/
theorem findToRename_new (h : CallReady s fp) (hpath : UserPath path) :
    (∃ ld, Fs.lastDir s fp .other path string = some ld ∧
      ((advance fp.caller mountFuel ld.names ld.rip ld.string).isSome ↔
        ¬(string 0 = 0 ∧ ¬s.Begins fp path)) ∧
      (ld.rip = none → ld.names.err_code ≠ OK)) := by
  obtain ⟨rip, ld, hstart, hlast, hfound, hsame, hused⟩ := h.last hpath .other string
  refine ⟨ld, hlast, ?_, fun hnone hok => ?_⟩
  swap
  · have hneg := searchErrors_neg (hfound.err hnone)
    rw [hok] at hneg
    exact absurd hneg (by decide)
  have hbegins : s.Begins fp path ↔ s.Starts fp path rip := by
    refine ⟨?_, fun hs => ⟨rip, hs⟩⟩
    rintro ⟨rip', hs⟩
    obtain rfl := Option.some.inj (hstart.symm.trans hs.1)
    exact hs
  rw [hbegins]
  cases hld : ld.rip with
  | some a =>
    obtain ⟨res, hrun, -⟩ := @CallReady.step _ _ fp ld.string hsame.1 (hused a hld)
    rw [hrun]
    refine iff_of_true rfl fun hbad => ?_
    exact absurd ((hfound.fails hbad.2).1.symm.trans hld) (Option.some_ne_none a).symm
  | none =>
    have hrun : (advance fp.caller mountFuel ld.names none ld.string).isSome ↔ ld.string 0 ≠ 0 := by
      show (advance fp.caller (NR_SUPERS + 1) ld.names none ld.string).isSome ↔ _
      unfold advance
      by_cases hempty : ld.string 0 = 0
      · rw [if_pos hempty]
        exact iff_of_false Bool.false_ne_true (not_not.mpr hempty)
      · rw [if_neg hempty]
        exact iff_of_true rfl hempty
    rw [hrun]
    by_cases hs : s.Starts fp path rip
    · refine iff_of_true (fun hempty => ?_) fun hbad => hbad.2 hs
      -- A path without components does not fail once it has started.
      have hnil := (hfound.names hs).mp hempty
      have hsome := (hfound.finds hs).mpr (by
        unfold pathNames
        rw [hnil]
        trivial)
      rw [hld] at hsome
      exact Bool.false_ne_true hsome
    · rw [(hfound.fails hs).2]
      exact ⟨fun hne hbad => hne hbad.1, fun hbad hempty => hbad ⟨hempty, hs⟩⟩

/-- The old name has been found, and the new one is looked for. -/
def findNew (s : Names) (fp : Fproc) (old : LastDir) (old_dirp : InodePtr) (old_ip : Option InodePtr)
    (r : ℤ) (path2 : List UInt8) : Option (Except (ℤ × Names) ToRename) := do
  let new ← Fs.lastDir s fp .other path2 old.string
  let r := if new.rip = none then new.names.err_code else r
  let (new_ip, s) ← advance fp.caller mountFuel new.names new.rip new.string
  some (.ok ⟨r, old_dirp, old_ip, old.user_path, old.string, new.rip, new_ip, new.user_path,
    new.string, s⟩)

theorem findNew_returns (h : CallReady s fp) (hpath : UserPath path) {old : LastDir}
    {old_dirp : InodePtr} {old_ip : Option InodePtr} {r : ℤ} (hr : r = OK → old_ip.isSome) :
    ((findNew s fp old old_dirp old_ip r path).isSome ↔
      ¬(old.string 0 = 0 ∧ ¬s.Begins fp path)) ∧
    ∀ found, findNew s fp old old_dirp old_ip r path = some found → ∃ t, found = .ok t ∧ t.Ready := by
  obtain ⟨new, hlast, hadv, herr⟩ := @findToRename_new _ _ _ old.string h hpath
  unfold findNew
  rw [hlast, Option.bind_eq_bind, Option.bind_some]
  refine ⟨?_, fun found hfound => ?_⟩
  · rw [← hadv]
    cases advance fp.caller mountFuel new.names new.rip new.string <;> rfl
  · obtain ⟨⟨new_ip, s₂⟩, -, hfound⟩ := Option.bind_eq_some_iff.mp hfound
    obtain rfl := Option.some.inj hfound
    refine ⟨_, rfl, fun hok => ?_⟩
    dsimp only at hok ⊢
    by_cases hnone : new.rip = none
    · rw [if_pos hnone] at hok
      exact absurd hok (herr hnone)
    · rw [if_neg hnone] at hok
      exact ⟨hr hok, Option.isSome_iff_ne_none.mpr hnone⟩

/-- The walk for both names returns, unless `rename` is passed such names. -/
theorem findToRename_returns (h : CallReady s fp) {name1 name2 : Except Errno (List UInt8)}
    (h1 : UserName name1) (h2 : UserName name2) :
    ((findToRename s fp name1 name2).isSome ↔ ¬RenameNil s fp name1 name2) ∧
      ∀ t, findToRename s fp name1 name2 = some (.ok t) → t.Ready := by
  unfold findToRename
  cases name1 with
  | error e =>
    dsimp only
    refine ⟨iff_of_true rfl ?_, fun t ht => ?_⟩
    · rintro ⟨path1, -, hname, -⟩
      cases hname
    · cases Option.some.inj ht
  | ok path1 =>
    obtain ⟨rip, old, hstart, hlast, hfound, hsame, hused⟩ := h.last (h1 path1 rfl) .other noName
    have hbegins : ∀ {rip'}, s.Starts fp path1 rip' → s.Starts fp path1 rip := fun hs => by
      rwa [Option.some.inj (hstart.symm.trans hs.1)]
    dsimp only
    rw [hlast, Option.bind_eq_bind, Option.bind_some]
    cases hold : old.rip with
    | none =>
      dsimp only
      refine ⟨iff_of_true rfl ?_, fun t ht => ?_⟩
      · rintro ⟨path, -, hname, -, ⟨rip', hs⟩, hnil, -⟩
        obtain rfl := Except.ok.inj hname
        have hsome := (hfound.finds (hbegins hs)).mpr (by
          unfold pathNames walked
          rw [if_pos rfl, hnil]
          trivial)
        rw [hold] at hsome
        exact Bool.false_ne_true hsome
      · cases Option.some.inj ht
    | some old_dirp =>
      obtain ⟨⟨old_ip, s₁⟩, hrun, hsame₁, hcode⟩ := @CallReady.step _ _ fp old.string hsame.1
        (hused old_dirp hold)
      have hs : s.Starts fp path1 rip := by
        by_contra hno
        exact Option.some_ne_none _ (hold.symm.trans (hfound.fails hno).1)
      have hempty : old.string 0 = 0 ↔ components path1 = [] := by
        have hnames := hfound.names hs
        unfold walked at hnames
        rwa [if_pos rfl] at hnames
      have hsame₂ : ∀ path, s₁.Begins fp path ↔ s.Begins fp path := fun path =>
        exists_congr fun rip => (hsame₁.2 path rip).trans (hsame.2 path rip)
      dsimp only
      rw [hrun, Option.bind_eq_bind, Option.bind_some]
      cases name2 with
      | error e =>
        -- The old path is walked again. It starts where it did.
        have hnew := @findNew_returns s₁ fp old.user_path hsame₁.1 (by
          rw [hfound.user_path rfl]
          exact h1 path1 rfl) old old_dirp old_ip e.code fun hok => absurd hok e.neg.ne
        refine ⟨Iff.trans hnew.1 (iff_of_true ?_ ?_), fun t ht => ?_⟩
        · rintro ⟨-, hno⟩
          rw [hsame₂, hfound.user_path rfl] at hno
          exact hno ⟨rip, hs⟩
        · rintro ⟨-, path2, -, hname, -⟩
          cases hname
        · obtain ⟨t', ht', hready⟩ := hnew.2 _ ht
          rwa [Except.ok.inj ht']
      | ok path2 =>
        have hr : (if old_ip = none then s₁.err_code else OK) = OK → old_ip.isSome := fun hok => by
          by_contra hnone
          have hnone := Option.not_isSome_iff_eq_none.mp hnone
          rw [if_pos hnone] at hok
          have hneg := searchErrors_neg (hcode hnone)
          rw [hok] at hneg
          exact absurd hneg (by decide)
        have hnew := @findNew_returns s₁ fp path2 hsame₁.1 (h2 path2 rfl) old old_dirp old_ip _ hr
        refine ⟨Iff.trans hnew.1 (not_congr ?_), fun t ht => ?_⟩
        · rw [hempty, hsame₂]
          constructor
          · exact fun hbad => ⟨path1, path2, rfl, rfl, ⟨rip, hs⟩, hbad.1, hbad.2⟩
          · rintro ⟨path, path', hname, hname', -, hnil, hno⟩
            obtain rfl := Except.ok.inj hname
            obtain rfl := Except.ok.inj hname'
            exact ⟨hnil, hno⟩
        · obtain ⟨t', ht', hready⟩ := hnew.2 _ ht
          rwa [Except.ok.inj ht']

/-- `rename` returns, unless it is passed such names. -/
theorem doRename_returns (h : CallReady s fp) {name1 name2 : Except Errno (List UInt8)}
    (h1 : UserName name1) (h2 : UserName name2) :
    (doRename s fp name1 name2).isSome ↔ ¬RenameNil s fp name1 name2 := by
  obtain ⟨hsome, hready⟩ := findToRename_returns h h1 h2
  rw [← hsome]
  unfold doRename
  cases hfind : findToRename s fp name1 name2 with
  | none => rfl
  | some found =>
    cases found with
    | error res => exact iff_of_true rfl rfl
    | ok t => exact iff_of_true (renameFound_returns (hready t hfind)) rfl

/-- A call returns, unless it follows `NIL_INODE`: this is known before it. -/
theorem nameCall_returns (h : CallReady s fp) {call : NameCall} (hcall : call.Passed) :
    (call.run s fp).isSome ↔ ¬call.Nil s fp := by
  cases call with
  | link name1 name2 => exact iff_of_true (doLink_returns h hcall.1 hcall.2) not_false
  | unlink fs_call name => exact iff_of_true (doUnlink_returns h hcall) not_false
  | rename name1 name2 => exact doRename_returns h hcall.1 hcall.2

/-- `rename` of the root directory to the empty path goes on from `NIL_INODE`. -/
theorem rename_root_nil :
    ((NameCall.rename (.ok [slash]) (.ok [])).run publicFile userProc).isSome = false := by
  have hpath : ∀ path : List UInt8, path ∈ [[slash], []] → UserPath path := fun path hmem => by
    rcases List.mem_pair.mp hmem with rfl | rfl
    · exact ⟨by decide, by decide⟩
    · exact ⟨by decide, by decide⟩
  have hreturns := @nameCall_returns _ _ publicFile_callReady
    (.rename (.ok [slash]) (.ok [])) ⟨fun path h => hpath path (by cases h; decide),
      fun path h => hpath path (by cases h; decide)⟩
  refine Bool.eq_false_iff.mpr fun hsome => hreturns.mp hsome ?_
  refine ⟨[slash], [], rfl, rfl, ⟨⟨0, NR_INODES_pos⟩, rfl, by decide, by decide⟩, by decide, ?_⟩
  rintro ⟨rip, -, hne, -⟩
  exact hne rfl

end Minix.Fs
