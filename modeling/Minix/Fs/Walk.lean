import Minix.Fs.Path

/-!
# A rule for searches of paths

What `eat_path` and the functions below it do to the inode table is a sequence of `get_inode` and
`put_inode`. A relation between the state and the inodes that are held is kept by all of them, when
it is kept by each inode that they get or put (`WalkRule`).
-/

namespace Minix.Fs

/-- What is got from the inode table is held in addition. -/
def GetKeeps (R : Names → List InodePtr → Prop) (s : Names) (l : List InodePtr) (dev numb : ℕ) : Prop :=
  R (getInode s dev numb).2 ((getInode s dev numb).1.toList ++ l)

/-- A relation between the state and the inodes held, which each step of a search keeps. -/
structure WalkRule (fp : Caller) (R : Names → List InodePtr → Prop) : Prop where
  perm : ∀ {s l l'}, R s l → l.Perm l' → R s l'
  setErr : ∀ {s l}, R s l → ∀ err_code, R { s with err_code := err_code } l
  pos : ∀ {s l rip}, R s l → rip ∈ l → 0 < (s.inode rip).i_count
  dup : ∀ {s l rip}, R s l → 0 < (s.inode rip).i_count → R (dupInode s rip) (rip :: l)
  put : ∀ {s l rip}, R s (rip :: l) → R (putInode s (some rip)) l
  /-- The directory itself is got, for no name. -/
  again : ∀ {s l d}, R s l → 0 < (s.inode d).i_count → GetKeeps R s l (s.inode d).i_dev (s.inode d).i_num
  /-- What a directory has under a name is got. -/
  found : ∀ {s l d string}, R s l → 0 < (s.inode d).i_count →
    (searchSlots s fp d string 0 .LOOK_UP).r = OK →
    GetKeeps R s l (s.inode d).i_dev (searchSlots s fp d string 0 .LOOK_UP).numb
  /-- The root directory of a device is got for the inode that it is mounted on. -/
  root : ∀ {s l rip sp}, R s (rip :: l) → (s.inode rip).i_mount = true →
    (s.super_block sp).s_imount = some rip →
    GetKeeps R (putInode s (some rip)) l ((putInode s (some rip)).super_block sp).s_dev ROOT_INODE
  /-- The inode that a device is mounted on is got for `..` in its root directory. -/
  imount : ∀ {s l rip sp ip}, R s (rip :: l) → (s.super_block sp).s_dev = (s.inode rip).i_dev →
    ((putInode s (some rip)).super_block sp).s_imount = some ip →
    GetKeeps R (putInode s (some rip)) l ((putInode s (some rip)).inode ip).i_dev
      ((putInode s (some rip)).inode ip).i_num

variable {R : Names → List InodePtr → Prop} {s : Names} {l : List InodePtr} {fp : Caller}
  {rip rip' : InodePtr}

@[simp] theorem Names.setInode_self (slot : InodeSlot) : (s.setInode rip slot).inode rip = slot :=
  Function.update_self ..

theorem Names.setInode_ne (slot : InodeSlot) (hne : rip' ≠ rip) :
    (s.setInode rip slot).inode rip' = s.inode rip' :=
  Function.update_of_ne hne ..

theorem WalkRule.putOption (h : WalkRule fp R) {rip : Option InodePtr} (hr : R s (rip.toList ++ l)) :
    R (putInode s rip) l := by
  cases rip with
  | none => exact hr
  | some rip => exact h.put hr

/-- The root directory of a mounted device takes the place of the inode that it is mounted on. -/
theorem WalkRule.enterMounted (h : WalkRule fp R) {fuel : ℕ} {rip : Option InodePtr}
    {res : Option InodePtr × Names} (hr : R s (rip.toList ++ l))
    (hrun : enterMounted fuel s rip = some res) : R res.2 (res.1.toList ++ l) := by
  induction fuel generalizing s rip with
  | zero =>
    cases rip with
    | none =>
      obtain rfl := Option.some.inj hrun
      exact hr
    | some rip =>
      unfold Fs.enterMounted at hrun
      split_ifs at hrun
      obtain rfl := Option.some.inj hrun
      exact hr
  | succ fuel ih =>
    cases rip with
    | none =>
      obtain rfl := Option.some.inj hrun
      exact hr
    | some rip =>
      unfold Fs.enterMounted at hrun
      split_ifs at hrun with hmount
      · obtain ⟨sp, hfind, hrun⟩ := Option.bind_eq_some_iff.mp hrun
        have himount := List.find?_some hfind
        exact ih (h.root hr hmount (of_decide_eq_true himount)) hrun
      · obtain rfl := Option.some.inj hrun
        exact hr

/-- The super block that is found for `..` is that of the device of the root directory. -/
theorem mountedRoot_dev {dirp rip : InodePtr} {string : Name} {sp : Fin NR_SUPERS}
    (h : mountedRoot s dirp rip string = some sp) :
    (s.super_block sp).s_dev = (s.inode rip).i_dev := by
  unfold mountedRoot at h
  split_ifs at h
  have hsp := List.find?_some h
  exact (of_decide_eq_true hsp).2

/-- A step of a path gets an inode, if it finds one. -/
theorem WalkRule.advance (h : WalkRule fp R) {fuel : ℕ} {dirp : Option InodePtr} {string : Name}
    {res : Option InodePtr × Names} (hr : R s l)
    (hdirp : ∀ d, dirp = some d → 0 < (s.inode d).i_count)
    (hrun : advance fp fuel s dirp string = some res) : R res.2 (res.1.toList ++ l) := by
  induction fuel generalizing s l dirp res with
  | zero => exact nomatch hrun
  | succ fuel ih =>
    unfold Fs.advance at hrun
    by_cases hempty : string 0 = 0
    · rw [if_pos hempty] at hrun
      obtain ⟨d, hd, hrun⟩ := Option.bind_eq_some_iff.mp hrun
      obtain rfl := Option.some.inj hrun
      exact h.again hr (hdirp d hd)
    · rw [if_neg hempty] at hrun
      cases dirp with
      | none =>
        obtain rfl := Option.some.inj hrun
        exact hr
      | some d =>
        dsimp only at hrun
        by_cases hok : (searchSlots s fp d string 0 .LOOK_UP).r = OK
        · rw [if_neg (not_not.mpr hok)] at hrun
          have hget := h.found hr (hdirp d rfl) hok
          unfold GetKeeps at hget
          cases hgot : getInode s (s.inode d).i_dev (searchSlots s fp d string 0 .LOOK_UP).numb with
          | mk rip s₁ =>
            rw [hgot] at hrun hget
            cases rip with
            | none =>
              obtain rfl := Option.some.inj hrun
              exact hget
            | some rip =>
              dsimp only at hrun
              cases hroot : mountedRoot s₁ d rip string with
              | none =>
                rw [hroot] at hrun
                have hone : R s₁ ((some rip).toList ++ l) := hget
                exact h.enterMounted hone hrun
              | some sp =>
                rw [hroot] at hrun
                -- `..` leads from the root directory of a device to where it is mounted.
                obtain ⟨ip, himount, hrun⟩ := Option.bind_eq_some_iff.mp hrun
                obtain ⟨⟨rip', s₂⟩, hrec, hrun⟩ := Option.bind_eq_some_iff.mp hrun
                dsimp only at hrun
                have hget' := h.imount hget (mountedRoot_dev hroot) himount
                have hstep := ih hget'
                  (fun a ha => h.pos hget' (by rw [ha]; exact List.mem_cons_self)) hrec
                have hswap := h.perm hstep (List.perm_append_comm_assoc ..)
                exact h.enterMounted (h.putOption hswap) hrun
        · rw [if_pos hok] at hrun
          obtain rfl := Option.some.inj hrun
          exact h.setErr hr _

/-- A scan of a path holds the last directory instead of the first one. -/
theorem WalkRule.scanPath (h : WalkRule fp R) {fuel : ℕ} {user_path path : List UInt8} {rip : InodePtr}
    {ld : LastDir} (hr : R s (rip :: l)) (hrun : scanPath fp user_path fuel s rip path = some ld) :
    R ld.names (ld.rip.toList ++ l) := by
  induction fuel generalizing s rip path with
  | zero => exact nomatch hrun
  | succ fuel ih =>
    unfold Fs.scanPath at hrun
    cases hname : getName path with
    | mk new_name string =>
      rw [hname] at hrun
      cases new_name with
      | none =>
        obtain rfl := Option.some.inj hrun
        exact h.put (h.setErr hr ENAMETOOLONG)
      | some new_name =>
        dsimp only at hrun
        by_cases hlast : new_name = []
        · rw [if_pos hlast] at hrun
          obtain rfl := Option.some.inj hrun
          exact hr
        · rw [if_neg hlast] at hrun
          obtain ⟨⟨new_ip, s₁⟩, hstep, hrun⟩ := Option.bind_eq_some_iff.mp hrun
          dsimp only at hrun
          have hadv := h.advance hr
            (fun a ha => Option.some.inj ha ▸ h.pos hr List.mem_cons_self) hstep
          have hput := h.put (h.perm hadv List.perm_middle)
          cases new_ip with
          | none =>
            obtain rfl := Option.some.inj hrun
            exact hput
          | some new_ip => exact ih hput hrun

/-- The last directory of a path is held, if it is found. The directories of the process are in use.
-/
theorem WalkRule.lastDir {fp : Fproc} (h : WalkRule fp.caller R) (hr : R s [])
    (hroot : ∀ rip, fp.fp_rootdir = some rip → 0 < (s.inode rip).i_count)
    (hwork : ∀ rip, fp.fp_workdir = some rip → 0 < (s.inode rip).i_count) {fs_call : FsCall}
    {path : List UInt8} {string : Name} {ld : LastDir}
    (hrun : lastDir s fp fs_call path string = some ld) : R ld.names ld.rip.toList := by
  obtain ⟨rip, hused, path', fuel, hrun⟩ : ∃ rip, 0 < (s.inode rip).i_count ∧ ∃ path' fuel,
      (if (s.inode rip).i_nlinks = 0 ∨ path = [] then
        some ⟨none, string, path, { s with err_code := ENOENT }⟩
      else Fs.scanPath fp.caller path' fuel (dupInode s rip) rip path') = some ld := by
    unfold Fs.lastDir at hrun
    by_cases hhead : path.head? = some slash
    · simp only [if_pos hhead] at hrun
      obtain ⟨rip, hstart, hrun⟩ := Option.bind_eq_some_iff.mp hrun
      exact ⟨rip, hroot rip hstart, _, _, hrun⟩
    · simp only [if_neg hhead] at hrun
      obtain ⟨rip, hstart, hrun⟩ := Option.bind_eq_some_iff.mp hrun
      exact ⟨rip, hwork rip hstart, _, _, hrun⟩
  split_ifs at hrun with hbad
  · obtain rfl := Option.some.inj hrun
    exact h.setErr hr ENOENT
  · have hscan := h.scanPath (h.dup hr hused) hrun
    rwa [List.append_nil] at hscan

/-- The inode of a path is held, if it is found. -/
theorem WalkRule.eatPath {fp : Fproc} (h : WalkRule fp.caller R) (hr : R s [])
    (hroot : ∀ rip, fp.fp_rootdir = some rip → 0 < (s.inode rip).i_count)
    (hwork : ∀ rip, fp.fp_workdir = some rip → 0 < (s.inode rip).i_count) {fs_call : FsCall}
    {path : List UInt8} {res : Option InodePtr × Names}
    (hrun : eatPath s fp fs_call path = some res) : R res.2 res.1.toList := by
  unfold Fs.eatPath at hrun
  obtain ⟨ld, hlast, hrun⟩ := Option.bind_eq_some_iff.mp hrun
  have hld := h.lastDir hr hroot hwork hlast
  cases hrip : ld.rip with
  | none =>
    rw [hrip] at hrun hld
    obtain rfl := Option.some.inj hrun
    exact hld
  | some ldip =>
    rw [hrip] at hrun hld
    dsimp only at hrun
    by_cases hempty : ld.string 0 = 0
    · rw [if_pos hempty] at hrun
      obtain rfl := Option.some.inj hrun
      exact hld
    · rw [if_neg hempty] at hrun
      obtain ⟨⟨rip, s₁⟩, hstep, hrun⟩ := Option.bind_eq_some_iff.mp hrun
      obtain rfl := Option.some.inj hrun
      have hadv := h.advance hld
        (fun a ha => Option.some.inj ha ▸ h.pos hld List.mem_cons_self) hstep
      exact h.put (h.perm hadv List.perm_append_comm)

end Minix.Fs
