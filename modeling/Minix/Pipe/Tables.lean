import Minix.Pipe.Hangs

/-!
# Opening and closing keep the books

A descriptor that is claimed or released is one more or one less of its open file, and an open file
that is claimed or released is one more or one less of its inode. A process that waits for a task
closes nothing, so that its descriptor stays.
-/

namespace Minix.Pipe

open Lib
open Kernel (NR_PROCS)

variable {s s' s'' : FsState} {p q who fp : ProcNr} {f f' fil : FilpNr} {rip ip : Ino} {k : Outside}
  {fd fd' : Fin OPEN_MAX} {o : Option FilpNr} {g : Filp → Filp}

/-- Neither processes and counters nor tables are changed in what is kept count of. -/
structure Inert (s s' : FsState) : Prop where
  hang : SameHang s s'
  tables : SameTables s s'

theorem Inert.refl (s : FsState) : Inert s s := ⟨.refl s, .refl s⟩

theorem Inert.trans (h : Inert s s') (h' : Inert s' s'') : Inert s s'' :=
  ⟨h.hang.trans h'.hang, h.tables.trans h'.tables⟩

theorem Books.inert (h : Books s) (hi : Inert s s') : Books s' := h.same hi.hang hi.tables

theorem Inert.setFilp (hc : (g (s.filp f)).filp_count = (s.filp f).filp_count)
    (hi : (g (s.filp f)).filp_ino = (s.filp f).filp_ino) : Inert s (s.setFilp f g) :=
  ⟨⟨fun _ => ⟨rfl, rfl, rfl, rfl⟩, rfl, rfl⟩, .setFilp hc hi⟩

theorem Inert.setInode {g : Inode → Inode} (ht : (g (s.inode rip)).i_type = (s.inode rip).i_type)
    (hc : (g (s.inode rip)).i_count = (s.inode rip).i_count)
    (hp : (g (s.inode rip)).i_pipe = (s.inode rip).i_pipe) : Inert s (s.setInode rip g) :=
  ⟨⟨fun _ => ⟨rfl, rfl, rfl, rfl⟩, rfl, rfl⟩, .setInode ht hc hp⟩

theorem Inert.record (e : PipeEvent) : Inert s (s.record e) :=
  ⟨⟨fun _ => ⟨rfl, rfl, rfl, rfl⟩, rfl, rfl⟩,
    ⟨fun _ => rfl, fun _ => ⟨rfl, rfl⟩, fun _ => ⟨rfl, rfl, rfl⟩⟩⟩

/-! ## How many descriptors and open files there are -/

/-- A descriptor after one has been assigned. -/
theorem setFd_fp_filp (s : FsState) (p q : ProcNr) (fd d : Fin OPEN_MAX) (o : Option FilpNr) :
    ((s.setFd p fd o).fproc q).fp_filp d = if q = p ∧ d = fd then o else (s.fproc q).fp_filp d := by
  unfold FsState.setFd
  rw [setProc_fproc]
  by_cases hq : q = p
  · by_cases hd : d = fd
    · subst hq hd
      simp
    · simp [hq, hd]
  · simp [hq]

theorem SameHang.setFd : SameHang s (s.setFd p fd o) := by
  refine ⟨fun q => ?_, rfl, rfl⟩
  unfold FsState.setFd
  rw [setProc_fproc]
  split_ifs with hq
  · exact ⟨rfl, rfl, rfl, rfl⟩
  · exact ⟨rfl, rfl, rfl, rfl⟩

/-- How many descriptors an open file has when one has been assigned. -/
theorem refs_setFd : refs (s.setFd p fd o) f + (if (s.fproc p).fp_filp fd = some f then 1 else 0) =
    refs s f + (if o = some f then 1 else 0) := by
  have hchange : refs (s.setFd p fd o) f + ((s.fproc p).fp_filp fd == some f).toNat =
      refs s f + (((s.setFd p fd o).fproc p).fp_filp fd == some f).toNat := by
    refine howMany_change (p := (p, fd))
      (fun x : ProcNr × Fin OPEN_MAX => (s.fproc x.1).fp_filp x.2 == some f)
      (fun x => ((s.setFd p fd o).fproc x.1).fp_filp x.2 == some f) fun x hx => ?_
    have hne : ¬(x.1 = p ∧ x.2 = fd) := fun e => hx (Prod.ext e.1 e.2)
    rw [setFd_fp_filp, if_neg hne]
  rw [setFd_fp_filp, if_pos ⟨rfl, rfl⟩, toNat_eq_ite, toNat_eq_ite] at hchange
  simp only [beq_iff_eq] at hchange
  exact hchange

/-- How many open files an inode has when one of them has changed. -/
theorem opens_setFilp : opens (s.setFilp f g) rip +
    (if (s.filp f).filp_count ≠ 0 ∧ (s.filp f).filp_ino = rip then 1 else 0) =
      opens s rip +
        (if (g (s.filp f)).filp_count ≠ 0 ∧ (g (s.filp f)).filp_ino = rip then 1 else 0) := by
  have hchange : opens (s.setFilp f g) rip +
      ((s.filp f).filp_count != 0 && (s.filp f).filp_ino == rip).toNat = opens s rip +
        (((s.setFilp f g).filp f).filp_count != 0 && ((s.setFilp f g).filp f).filp_ino == rip).toNat :=
    howMany_change (p := f) (fun x => (s.filp x).filp_count != 0 && (s.filp x).filp_ino == rip)
      (fun x => ((s.setFilp f g).filp x).filp_count != 0 && ((s.setFilp f g).filp x).filp_ino == rip)
      fun x hx => by rw [setFilp_filp, if_neg hx]
  rw [setFilp_filp, if_pos rfl, toNat_eq_ite, toNat_eq_ite] at hchange
  simp only [Bool.and_eq_true, bne_iff_ne, beq_iff_eq] at hchange
  exact hchange

/-- Open files have as many descriptors as they count, and inodes at least as many users as open
files. Nothing is asked of processes that wait. -/
structure Seated (s : FsState) : Prop where
  refs : ∀ f, (s.filp f).filp_count = refs s f
  opens : ∀ rip, opens s rip ≤ (s.inode rip).i_count

theorem Books.seated (h : Books s) : Seated s := ⟨h.refs, h.opens⟩

theorem Seated.tables (h : Seated s) (ht : SameTables s s') : Seated s' := by
  refine ⟨fun f => ?_, fun rip => ?_⟩
  · rw [(ht.filp f).1, ht.refs, h.refs]
  · rw [ht.opens, (ht.inode rip).2.1]
    exact h.opens rip

/-- A file that a descriptor refers to is open. -/
theorem Seated.open (h : Seated s) (hf : (s.fproc p).fp_filp fd = some f) :
    0 < (s.filp f).filp_count := by
  rw [h.refs]
  exact howMany_pos (p := (p, fd)) (by simp [hf])

/-- The inode of an open file is in use. -/
theorem opens_pos (hf : (s.filp f).filp_count ≠ 0) : 0 < opens s (s.filp f).filp_ino :=
  howMany_pos (p := f) (by simp [hf])

theorem Seated.in_use (h : Seated s) (hf : (s.fproc p).fp_filp fd = some f) :
    0 < (s.inode (s.filp f).filp_ino).i_count :=
  lt_of_lt_of_le (opens_pos (h.open hf).ne') (h.opens _)

/-- The descriptor with which a process waits for a task, after a change of the tables. -/
theorem Books.tasks_kept (h : Books s) (hh : SameHang s s')
    (hkeep : ∀ q, OnTask s q → ∀ fd f, (s.fproc q).fp_filp fd = some f →
      (s'.fproc q).fp_filp fd = some f ∧ (s'.filp f).filp_ino = (s.filp f).filp_ino ∧
        (s'.inode (s.filp f).filp_ino).i_type = (s.inode (s.filp f).filp_ino).i_type)
    (p : ProcNr) (hp : OnTask s' p) : ∃ f, (s'.fproc p).fp_filp (s'.fproc p).fp_fd.1 = some f ∧
      (s'.inode (s'.filp f).filp_ino).i_type = .I_CHAR_SPECIAL := by
  have hold := hh.onTask.mp hp
  obtain ⟨f, hf, htype⟩ := h.tasks p hold
  obtain ⟨hrow, hino, hsame⟩ := hkeep p hold _ f hf
  refine ⟨f, ?_, ?_⟩
  · rw [(hh.procs p).2.2.2]
    exact hrow
  · rw [hino, hsame]
    exact htype

/-! ## Opening -/

/-- The mode word that `get_fd` fills in. -/
def Filp.slot (bits : Mode) (f : Filp) : Filp :=
  { f with filp_mode := bits, filp_pos := 0, filp_flags := OFlags.zero }

/-- What `get_fd` finds is free. -/
theorem getFd_eq {start : ℕ} {bits : Mode} (h : getFd s fp start bits = .ok (fd, f, s')) :
    (s.fproc fp).fp_filp fd = none ∧ (s.filp f).filp_count = 0 ∧
      s' = s.setFilp f (Filp.slot bits) := by
  unfold getFd at h
  cases hfd : fds.find? fun i => decide (start ≤ i.val) && ((s.fproc fp).fp_filp i).isNone with
  | none => rw [hfd] at h; simp at h
  | some d =>
    rw [hfd] at h
    cases hf : filps.find? fun f => (s.filp f).filp_count == 0 with
    | none => rw [hf] at h; simp at h
    | some x =>
      rw [hf] at h
      simp only [Except.ok.injEq, Prod.mk.injEq] at h
      obtain ⟨rfl, rfl, rfl⟩ := h
      have hfree := List.find?_some hfd
      have hzero := List.find?_some hf
      simp only [Bool.and_eq_true, Option.isNone_iff_eq_none] at hfree
      exact ⟨hfree.2, by simpa using hzero, rfl⟩

/-- What it returns else is an error. -/
theorem getFd_error {start : ℕ} {bits : Mode} {r : ℤ} (h : getFd s fp start bits = .error r) :
    r ≠ OK := by
  unfold getFd at h
  split at h
  · rw [← Except.error.inj h]
    decide
  · split at h
    · rw [← Except.error.inj h]
      decide
    · simp at h

/-- It claims nothing. -/
theorem getFd_spec {start : ℕ} {bits : Mode} (h : getFd s fp start bits = .ok (fd, f, s')) :
    Inert s s' ∧ (s.fproc fp).fp_filp fd = none ∧ (s.filp f).filp_count = 0 ∧ s'.fproc = s.fproc ∧
      s'.inode = s.inode := by
  obtain ⟨hfd, hfree, rfl⟩ := getFd_eq h
  exact ⟨.setFilp rfl rfl, hfd, hfree, rfl, rfl⟩

/-- A descriptor and a filp slot are claimed for an inode that has a user more than files. -/
theorem Seated.claim (h : Seated s) (hfd : (s.fproc fp).fp_filp fd = none)
    (hfree : (s.filp f).filp_count = 0) (hroom : Pipe.opens s rip + 1 ≤ (s.inode rip).i_count)
    (hcount : (g (s.filp f)).filp_count = 1) (hino : (g (s.filp f)).filp_ino = rip) :
    Seated ((s.setFd fp fd (some f)).setFilp f g) := by
  refine ⟨fun x => ?_, fun ip => ?_⟩
  · have hrefs : Pipe.refs (s.setFd fp fd (some f)) x + _ = _ := refs_setFd (s := s)
    rw [hfd] at hrefs
    rw [setFilp_filp]
    change _ = Pipe.refs (s.setFd fp fd (some f)) x
    by_cases hxf : x = f
    · subst hxf
      have hzero := h.refs x
      change (if x = x then g (s.filp x) else _).filp_count = _
      rw [if_pos rfl, hcount]
      rw [if_neg (by simp), if_pos rfl] at hrefs
      omega
    · have hsame := h.refs x
      rw [if_neg hxf]
      change (s.filp x).filp_count = _
      rw [if_neg (by simp), if_neg (by simpa using fun e => hxf e.symm)] at hrefs
      omega
  · have hopens : Pipe.opens (s.setFilp f g) ip + _ = _ := opens_setFilp (s := s)
    rw [hfree, hcount, hino] at hopens
    change Pipe.opens (s.setFilp f g) ip ≤ (s.inode ip).i_count
    by_cases hip : ip = rip
    · subst hip
      simp at hopens
      omega
    · have hle := h.opens ip
      have hne : ¬rip = ip := fun e => hip e.symm
      simp [hne] at hopens
      omega

theorem Books.claim (h : Books s) (hfd : (s.fproc fp).fp_filp fd = none)
    (hfree : (s.filp f).filp_count = 0) (hroom : Pipe.opens s rip + 1 ≤ (s.inode rip).i_count)
    (hcount : (g (s.filp f)).filp_count = 1) (hino : (g (s.filp f)).filp_ino = rip) :
    Books ((s.setFd fp fd (some f)).setFilp f g) := by
  have hh : SameHang s ((s.setFd fp fd (some f)).setFilp f g) := .trans .setFd
    ⟨fun _ => ⟨rfl, rfl, rfl, rfl⟩, rfl, rfl⟩
  have hseated := h.seated.claim hfd hfree hroom hcount hino
  refine ⟨h.exact.same hh, hseated.refs, hseated.opens, h.pipes,
    h.tasks_kept hh fun q _ d x hx => ?_⟩
  have hne : x ≠ f := fun e => by
    have := h.seated.open hx
    rw [e, hfree] at this
    exact absurd this (lt_irrefl 0)
  refine ⟨?_, ?_, rfl⟩
  · change ((s.setFd fp fd (some f)).fproc q).fp_filp d = some x
    rw [setFd_fp_filp, if_neg]
    · exact hx
    · rintro ⟨rfl, rfl⟩
      rw [hfd] at hx
      exact absurd hx (by simp)
  · rw [setFilp_filp, if_neg hne]
    rfl

/-- An open file when one has a descriptor more. -/
def FsState.bumped (s : FsState) (f x : FilpNr) : Filp :=
  (s.setFilp f fun f => { f with filp_count := f.filp_count + 1 }).filp x

theorem bumped_eq (s : FsState) (f x : FilpNr) : s.bumped f x =
    if x = f then { s.filp x with filp_count := (s.filp x).filp_count + 1 } else s.filp x :=
  setFilp_filp s f x _

/-- A descriptor more of an open file. -/
theorem Seated.dup (h : Seated s) (hfd : (s.fproc fp).fp_filp fd = none)
    (hopen : 0 < (s.filp f).filp_count) :
    Seated ((s.setFilp f fun f => { f with filp_count := f.filp_count + 1 }).setFd fp fd (some f)) := by
  refine ⟨fun x => ?_, fun ip => ?_⟩
  · have hrefs : Pipe.refs (s.setFd fp fd (some f)) x + _ = _ := refs_setFd (s := s)
    have hsame := h.refs x
    rw [hfd] at hrefs
    change (s.bumped f x).filp_count = Pipe.refs (s.setFd fp fd (some f)) x
    rw [bumped_eq]
    by_cases hxf : x = f
    · subst hxf
      simp at hrefs ⊢
      omega
    · have hne : ¬f = x := fun e => hxf e.symm
      simp [hne] at hrefs
      rw [if_neg hxf]
      omega
  · have hopens : Pipe.opens (s.setFilp f fun f => { f with filp_count := f.filp_count + 1 }) ip + _ = _ :=
      opens_setFilp (s := s)
    have hle := h.opens ip
    change Pipe.opens (s.setFilp f fun f => { f with filp_count := f.filp_count + 1 }) ip ≤
      (s.inode ip).i_count
    dsimp only at hopens
    by_cases hip : (s.filp f).filp_ino = ip
    · rw [if_pos ⟨hopen.ne', hip⟩, if_pos ⟨Nat.succ_ne_zero _, hip⟩] at hopens
      omega
    · rw [if_neg fun e => hip e.2, if_neg fun e => hip e.2] at hopens
      omega

theorem Books.dup (h : Books s) (hfd : (s.fproc fp).fp_filp fd = none)
    (hopen : 0 < (s.filp f).filp_count) :
    Books ((s.setFilp f fun f => { f with filp_count := f.filp_count + 1 }).setFd fp fd (some f)) := by
  have hfilp : SameHang s (s.setFilp f fun f => { f with filp_count := f.filp_count + 1 }) :=
    ⟨fun _ => ⟨rfl, rfl, rfl, rfl⟩, rfl, rfl⟩
  have hh : SameHang s ((s.setFilp f fun f => { f with filp_count := f.filp_count + 1 }).setFd fp fd
      (some f)) := hfilp.trans .setFd
  have hseated := h.seated.dup hfd hopen
  refine ⟨h.exact.same hh, hseated.refs, hseated.opens, h.pipes,
    h.tasks_kept hh fun q _ d x hx => ⟨?_, ?_, rfl⟩⟩
  · rw [setFd_fp_filp, if_neg]
    · exact hx
    · rintro ⟨rfl, rfl⟩
      rw [hfd] at hx
      exact absurd hx (by simp)
  · change (s.bumped f x).filp_ino = _
    rw [bumped_eq]
    split_ifs <;> rfl

/-! ## Closing -/

/-- What `put_inode` does to what is kept count of. -/
theorem putInode_inode (s : FsState) (rip ip : Ino) :
    ((putInode s rip).inode ip).i_type = (s.inode ip).i_type ∧
      ((putInode s rip).inode ip).i_count = (s.inode ip).i_count - (if ip = rip then 1 else 0) ∧
      (((putInode s rip).inode ip).i_pipe = true → (s.inode ip).i_pipe = true) := by
  unfold putInode
  rw [setInode_inode]
  by_cases hip : ip = rip
  · rw [if_pos hip, if_pos hip]
    dsimp only
    split_ifs with hlast
    · refine ⟨?_, ?_, fun hno => absurd hno (by simp)⟩
      · unfold truncate wipeInode
        split_ifs <;> rfl
      · unfold truncate wipeInode
        split_ifs <;> rfl
    · exact ⟨rfl, rfl, id⟩
  · rw [if_neg hip, if_neg hip]
    exact ⟨rfl, rfl, id⟩

/-- A user of an inode that is not a file. -/
theorem Seated.putInode (h : Seated s) (hroom : Pipe.opens s rip + 1 ≤ (s.inode rip).i_count) :
    Seated (putInode s rip) := by
  refine ⟨h.refs, fun ip => ?_⟩
  rw [(putInode_inode s rip ip).2.1]
  change Pipe.opens s ip ≤ _
  have hle := h.opens ip
  split_ifs with hip
  · subst hip
    omega
  · exact hle

theorem Books.putInode (h : Books s) (hroom : Pipe.opens s rip + 1 ≤ (s.inode rip).i_count) :
    Books (putInode s rip) := by
  have hh : SameHang s (Pipe.putInode s rip) := ⟨fun _ => ⟨rfl, rfl, rfl, rfl⟩, rfl, rfl⟩
  refine ⟨h.exact.same hh, h.refs, (h.seated.putInode hroom).opens, fun ip hp => ?_,
    h.tasks_kept hh fun q _ d x hx => ⟨hx, rfl, (putInode_inode s rip _).1⟩⟩
  rw [(putInode_inode s rip ip).1]
  exact h.pipes ip ((putInode_inode s rip ip).2.2 hp)

/-- The part of `do_close` behind the release of those who hang on a pipe. -/
def closeFd (s : FsState) (fp : ProcNr) (fd : Fin OPEN_MAX) (rfilp : FilpNr) : FsState :=
  let s := s.setFilp rfilp fun f => { f with filp_count := f.filp_count - 1 }
  let s := if (s.filp rfilp).filp_count = 0 then Pipe.putInode s (s.filp rfilp).filp_ino else s
  s.setFd fp fd none

theorem closeFd_fproc (s : FsState) (fp : ProcNr) (fd : Fin OPEN_MAX) (rfilp : FilpNr) :
    (closeFd s fp fd rfilp).fproc = (s.setFd fp fd none).fproc := by
  unfold closeFd
  dsimp only
  split_ifs
  · rfl
  · rfl

theorem closeFd_filp (s : FsState) (fp : ProcNr) (fd : Fin OPEN_MAX) (rfilp : FilpNr) :
    (closeFd s fp fd rfilp).filp =
      (s.setFilp rfilp fun f => { f with filp_count := f.filp_count - 1 }).filp := by
  unfold closeFd
  dsimp only
  split_ifs
  · rfl
  · rfl

theorem SameHang.closeFd : SameHang s (closeFd s fp fd f) := by
  refine ⟨fun q => ?_, ?_, ?_⟩
  · rw [closeFd_fproc]
    exact SameHang.setFd.procs q
  · unfold Pipe.closeFd
    dsimp only
    split_ifs <;> rfl
  · unfold Pipe.closeFd
    dsimp only
    split_ifs <;> rfl

/-- The inodes after a descriptor has been closed. -/
theorem closeFd_inode (s : FsState) (fp : ProcNr) (fd : Fin OPEN_MAX) (f : FilpNr) (ip : Ino) :
    ((closeFd s fp fd f).inode ip).i_type = (s.inode ip).i_type ∧
      ((closeFd s fp fd f).inode ip).i_count = (s.inode ip).i_count -
        (if (s.filp f).filp_count - 1 = 0 ∧ ip = (s.filp f).filp_ino then 1 else 0) ∧
      (((closeFd s fp fd f).inode ip).i_pipe = true → (s.inode ip).i_pipe = true) := by
  unfold closeFd
  dsimp only
  rw [setFilp_filp, if_pos rfl]
  by_cases hlast : (s.filp f).filp_count - 1 = 0
  · rw [if_pos hlast]
    simp only [hlast, true_and]
    exact putInode_inode (s.setFilp f fun f => { f with filp_count := f.filp_count - 1 }) _ ip
  · rw [if_neg hlast, if_neg fun e => hlast e.1]
    exact ⟨rfl, rfl, id⟩

/-- How many open files an inode has when a descriptor has been closed. -/
theorem opens_closeFd (hopen : 0 < (s.filp f).filp_count) : opens (closeFd s fp fd f) ip +
    (if (s.filp f).filp_count - 1 = 0 ∧ ip = (s.filp f).filp_ino then 1 else 0) = opens s ip := by
  have hopens : opens (s.setFilp f fun f => { f with filp_count := f.filp_count - 1 }) ip + _ = _ :=
    opens_setFilp (s := s)
  have hsame : opens (closeFd s fp fd f) ip =
      opens (s.setFilp f fun f => { f with filp_count := f.filp_count - 1 }) ip :=
    howMany_congr fun y => by rw [closeFd_filp]
  rw [hsame]
  dsimp only at hopens
  by_cases hip : ip = (s.filp f).filp_ino
  · subst hip
    rw [if_pos ⟨hopen.ne', rfl⟩] at hopens
    by_cases hlast : (s.filp f).filp_count - 1 = 0
    · rw [if_neg fun e => e.1 hlast] at hopens
      rw [if_pos ⟨hlast, rfl⟩]
      omega
    · rw [if_pos ⟨hlast, rfl⟩] at hopens
      rw [if_neg fun e => hlast e.1]
      omega
  · rw [if_neg fun e => hip e.2.symm, if_neg fun e => hip e.2.symm] at hopens
    rw [if_neg fun e => hip e.2]
    omega

/-- A descriptor is closed. -/
theorem Seated.closeFd (h : Seated s) (hfd : (s.fproc fp).fp_filp fd = some f) :
    Seated (closeFd s fp fd f) := by
  have hopen := h.open hfd
  refine ⟨fun x => ?_, fun ip => ?_⟩
  · have hrefs : Pipe.refs (s.setFd fp fd none) x + _ = _ := refs_setFd (s := s)
    have hsame := h.refs x
    have hrow : Pipe.refs (Pipe.closeFd s fp fd f) x = Pipe.refs (s.setFd fp fd none) x :=
      howMany_congr fun y => by rw [closeFd_fproc]
    rw [closeFd_filp, setFilp_filp, hrow]
    rw [hfd] at hrefs
    by_cases hxf : x = f
    · subst hxf
      rw [if_pos rfl, if_neg (by simp)] at hrefs
      rw [if_pos rfl]
      change (s.filp x).filp_count - 1 = _
      omega
    · rw [if_neg (by simpa using fun e => hxf e.symm), if_neg (by simp)] at hrefs
      rw [if_neg hxf]
      omega
  · have hopens : Pipe.opens (Pipe.closeFd s fp fd f) ip + _ = Pipe.opens s ip := opens_closeFd hopen
    have hle := h.opens ip
    rw [(closeFd_inode s fp fd f ip).2.1]
    omega

/-- The process does not wait for a task. -/
theorem Books.closeFd (h : Books s) (hfd : (s.fproc fp).fp_filp fd = some f) (hno : ¬OnTask s fp) :
    Books (closeFd s fp fd f) := by
  have hseated := h.seated.closeFd hfd
  refine ⟨h.exact.same .closeFd, hseated.refs, hseated.opens, fun ip hp => ?_,
    h.tasks_kept .closeFd fun q hq d x hx => ⟨?_, ?_, (closeFd_inode s fp fd f _).1⟩⟩
  · rw [(closeFd_inode s fp fd f ip).1]
    exact h.pipes ip ((closeFd_inode s fp fd f ip).2.2 hp)
  · rw [closeFd_fproc, setFd_fp_filp, if_neg]
    · exact hx
    · rintro ⟨rfl, -⟩
      exact hno hq
  · rw [closeFd_filp, setFilp_filp]
    split_ifs <;> rfl

end Minix.Pipe
