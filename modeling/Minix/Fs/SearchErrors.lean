import Minix.Fs.Walk

/-!
# The errors of a search

A search of a directory or of a path that finds nothing leaves one of few error codes
(`searchErrors`): none of them is `OK` or `EEXIST`, and all are negative.
-/

namespace Minix.Fs

/-- The error codes of a search of a directory, of a path, or of a place for a new name. -/
def searchErrors : List ℤ :=
  [ENOENT, ENOTDIR, EACCES, EROFS, ENFILE, ENAMETOOLONG, EFBIG, ENOSPC]

variable {s s' : Names} {rip : InodePtr} {dev numb : ℕ} {caller : Caller} {string : Name}
  {flag : DirFlag} {r : ℤ}

theorem searchErrors_neg (h : r ∈ searchErrors) : r < 0 :=
  (by decide : ∀ r ∈ searchErrors, r < 0) r h

/-- Putting an inode does not set `err_code`. -/
theorem putInode_err {rip : Option InodePtr} : (putInode s rip).err_code = s.err_code := by
  unfold putInode releaseInode freeInode writeInode
  cases rip with
  | none => rfl
  | some rip =>
    dsimp only
    split_ifs <;> rfl

/-- When no inode is got, no slot is free. -/
theorem getInode_err (h : (getInode s dev numb).1 = none) :
    (getInode s dev numb).2.err_code = ENFILE := by
  unfold getInode at h ⊢
  dsimp only at h ⊢
  split at h
  · exact nomatch h
  · split at h
    · exact nomatch h
    · rfl

/-- What `forbidden` returns. -/
theorem forbidden_codes (caller : Caller) (rd : Bool) (dir : OwnedInode) (access : ℕ) (real : Bool) :
    forbidden caller rd dir access real ∈ [OK, EACCES, EROFS] := by
  unfold forbidden readOnly
  dsimp only
  split_ifs <;> simp

/-- A name is entered, or there is no room for it. -/
theorem enterString_code (s : Names) (rip : InodePtr) (string : Name) (numb : ℕ) :
    (enterString s rip string numb).1 = OK ∨ (enterString s rip string numb).1 ∈ searchErrors := by
  have hextend : (extendDir s rip string numb).1 = OK ∨
      (extendDir s rip string numb).1 ∈ searchErrors := by
    unfold extendDir
    dsimp only
    split_ifs
    · exact .inr (show EFBIG ∈ searchErrors by decide)
    · exact .inl rfl
    · exact .inr (show ENOSPC ∈ searchErrors by decide)
  unfold enterString
  dsimp only
  cases hunt (s.entries rip) .ENTER string (s.slots rip) with
  | some k => exact .inl rfl
  | none =>
    dsimp only
    split_ifs
    · exact .inl rfl
    · exact hextend

/-- A search of a directory fails with one of the error codes. -/
theorem searchSlots_code (h : (searchSlots s caller rip string numb flag).r ≠ OK) :
    (searchSlots s caller rip string numb flag).r ∈ searchErrors := by
  have hcodes := forbidden_codes caller (rdOnly s (s.inode rip).i_dev) (s.inode rip).owned
    flag.bits false
  have hfound : (searchEntries s rip string numb flag).r = OK ∨
      (searchEntries s rip string numb flag).r ∈ searchErrors := by
    unfold searchEntries
    cases flag with
    | ENTER => exact enterString_code s rip string numb
    | LOOK_UP =>
      dsimp only
      cases hunt (s.entries rip) .LOOK_UP string (s.slots rip) with
      | none => exact .inr (show ENOENT ∈ searchErrors by decide)
      | some k => exact .inl rfl
    | DELETE =>
      dsimp only
      cases hunt (s.entries rip) .DELETE string (s.slots rip) with
      | none => exact .inr (show ENOENT ∈ searchErrors by decide)
      | some k => exact .inl rfl
  unfold searchSlots at h ⊢
  dsimp only at h ⊢
  split_ifs at h ⊢ with htype hperm
  · exact (by decide : ENOTDIR ∈ searchErrors)
  · have hmem : s.forbidden caller rip flag.bits ∈ [OK, EACCES, EROFS] := hcodes
    rcases List.mem_cons.mp hmem with hok | hmem
    · exact absurd hok hperm
    · exact (by decide : ∀ r ∈ [EACCES, EROFS], r ∈ searchErrors) _ hmem
  · exact hfound.resolve_left h

/-- When no root directory is got, there is an error code. -/
theorem enterMounted_code {fuel : ℕ} {rip : Option InodePtr}
    (hrun : enterMounted fuel s rip = some (none, s')) (h : rip = none → s.err_code ∈ searchErrors) :
    s'.err_code ∈ searchErrors := by
  induction fuel generalizing s rip with
  | zero =>
    cases rip with
    | none =>
      obtain ⟨-, rfl⟩ := Prod.mk.inj (Option.some.inj hrun)
      exact h rfl
    | some rip =>
      unfold enterMounted at hrun
      split_ifs at hrun
      exact absurd (Prod.mk.inj (Option.some.inj hrun)).1 (Option.some_ne_none rip)
  | succ fuel ih =>
    cases rip with
    | none =>
      obtain ⟨-, rfl⟩ := Prod.mk.inj (Option.some.inj hrun)
      exact h rfl
    | some rip =>
      unfold enterMounted at hrun
      split_ifs at hrun
      · obtain ⟨sp, -, hrun⟩ := Option.bind_eq_some_iff.mp hrun
        dsimp only at hrun
        refine ih hrun fun hnone => ?_
        rw [getInode_err hnone]
        decide
      · exact absurd (Prod.mk.inj (Option.some.inj hrun)).1 (Option.some_ne_none rip)

/-- When a step of a path finds nothing, there is an error code. -/
theorem advance_code {fuel : ℕ} {dirp : Option InodePtr}
    (hrun : advance caller fuel s dirp string = some (none, s'))
    (h : dirp = none → s.err_code ∈ searchErrors) : s'.err_code ∈ searchErrors := by
  have hfull : ∀ {s : Names} {dev numb : ℕ}, (getInode s dev numb).1 = none →
      (getInode s dev numb).2.err_code ∈ searchErrors := fun hnone => by
    rw [getInode_err hnone]
    decide
  induction fuel generalizing s dirp s' with
  | zero => exact nomatch hrun
  | succ fuel ih =>
    unfold advance at hrun
    by_cases hempty : string 0 = 0
    · rw [if_pos hempty] at hrun
      obtain ⟨d, -, hrun⟩ := Option.bind_eq_some_iff.mp hrun
      have hgot := Option.some.inj hrun
      have hnone : (getInode s (s.inode d).i_dev (s.inode d).i_num).1 = none := by rw [hgot]
      have herr := hfull hnone
      rwa [hgot] at herr
    · rw [if_neg hempty] at hrun
      cases dirp with
      | none =>
        obtain ⟨-, rfl⟩ := Prod.mk.inj (Option.some.inj hrun)
        exact h rfl
      | some d =>
        dsimp only at hrun
        by_cases hr : (searchSlots s caller d string 0 .LOOK_UP).r = OK
        · rw [if_neg (not_not.mpr hr)] at hrun
          cases hgot : getInode s (s.inode d).i_dev (searchSlots s caller d string 0 .LOOK_UP).numb with
          | mk rip s₁ =>
            rw [hgot] at hrun
            cases rip with
            | none =>
              obtain ⟨-, rfl⟩ := Prod.mk.inj (Option.some.inj hrun)
              have herr := @hfull s (s.inode d).i_dev
                (searchSlots s caller d string 0 .LOOK_UP).numb (by rw [hgot])
              rwa [hgot] at herr
            | some rip =>
              dsimp only at hrun
              cases hroot : mountedRoot s₁ d rip string with
              | none =>
                rw [hroot] at hrun
                exact enterMounted_code hrun fun h => absurd h (Option.some_ne_none rip)
              | some sp =>
                rw [hroot] at hrun
                obtain ⟨ip, -, hrun⟩ := Option.bind_eq_some_iff.mp hrun
                obtain ⟨⟨rip', s₂⟩, hrec, hrun⟩ := Option.bind_eq_some_iff.mp hrun
                refine enterMounted_code hrun fun hnone => ?_
                dsimp only at hnone hrec
                rw [hnone] at hrec
                rw [putInode_err]
                exact ih hrec hfull
        · rw [if_pos hr] at hrun
          obtain ⟨-, rfl⟩ := Prod.mk.inj (Option.some.inj hrun)
          exact searchSlots_code hr

end Minix.Fs
