import Minix.Pipe.Books

/-!
# Suspension and revival keep the books

`suspend` adds a waiting process to `susp_count`; a process that is released is taken from it, and
added to `reviving` if its call is to be done again. A process that a task revives is in neither
number.
-/

namespace Minix.Pipe

open Lib
open Kernel (NR_PROCS)

variable {s s' : FsState} {p q who fp : ProcNr} {f : FilpNr} {rip ip : Ino} {k : Outside}
  {fd : Fin OPEN_MAX} {fs_call call_nr : CallNr} {buffer : ℕ → UInt8} {nbytes bytes : ℤ} {task : Task}

/-- The process is neither suspended nor being revived. -/
structure Running (s : FsState) (p : ProcNr) : Prop where
  suspended : (s.fproc p).fp_suspended = false
  revived : (s.fproc p).fp_revived = false

theorem Running.not_waits (h : Running s p) : waits s p = false := by
  unfold waits Fproc.waits
  rw [h.suspended]
  rfl

theorem Running.congr (h : Running s p) (he : s'.fproc p = s.fproc p) : Running s' p :=
  ⟨by rw [he]; exact h.suspended, by rw [he]; exact h.revived⟩

theorem SameHang.running (h : SameHang s s') : Running s' p ↔ Running s p := by
  constructor
  · intro hr
    exact ⟨(h.procs p).1.symm.trans hr.suspended, (h.procs p).2.1.symm.trans hr.revived⟩
  · intro hr
    exact ⟨(h.procs p).1.trans hr.suspended, (h.procs p).2.1.trans hr.revived⟩

/-- Nobody is being revived. -/
theorem Exact.quiet (h : Exact s) (hidle : s.reviving = 0) (p : ProcNr) :
    (s.fproc p).fp_revived = false := by
  have hzero : (howMany fun p => (s.fproc p).fp_revived) = 0 := by
    have hcount := h.reviving
    omega
  exact howMany_eq_zero.mp hzero p

/-! ## suspend -/

theorem SameFiles.suspend : SameFiles s (suspend s fp fd fs_call buffer nbytes task) := by
  unfold Pipe.suspend
  cases htask : task.onPipe
  · exact .proc (p := fp) rfl rfl rfl rfl rfl
  · exact .proc (p := fp) rfl rfl rfl rfl rfl

/-- A process that waits for a task does so at a character special file. -/
theorem Books.suspend (h : Books s) (hr : Running s fp)
    (htask : task.onPipe = false → ∃ f, (s.fproc fp).fp_filp fd = some f ∧
      (s.inode (s.filp f).filp_ino).i_type = .I_CHAR_SPECIAL) :
    Books (suspend s fp fd fs_call buffer nbytes task) := by
  have hold := hr.not_waits
  unfold Pipe.suspend
  cases hpipe : task.onPipe
  · refine h.proc (p := fp) rfl rfl rfl rfl ?_ rfl fun _ _ => Or.inr (htask hpipe)
    simp [hold, Fproc.waits, hpipe, FsState.setProc]
  · refine h.proc (p := fp) rfl rfl rfl rfl ?_ rfl fun _ hno => absurd (hno.symm.trans hpipe) (by simp)
    simp [hold, Fproc.waits, hpipe, hr.revived, FsState.setProc]

/-! ## revive -/

/-- Nothing happens to a process that is not suspended, or is being revived. -/
theorem revive_of_not (hno : (s.fproc p).fp_suspended = false ∨ (s.fproc p).fp_revived = true) :
    revive s p bytes = s := by
  unfold revive
  exact if_pos hno

section Reviving

variable (hsusp : (s.fproc p).fp_suspended = true) (hrev : (s.fproc p).fp_revived = false)
include hsusp hrev

/-- A process that waits at a pipe will do its call again. -/
theorem revive_pipe (htask : (s.fproc p).fp_task = .XPIPE) : revive s p bytes =
    { s.setProc p fun rfp => { rfp with fp_revived := true } with reviving := s.reviving + 1 } := by
  unfold revive
  simp [hsusp, hrev, htask, FsState.setProc]

/-- One that waits in `open` or `creat` is answered. -/
theorem revive_open (htask : (s.fproc p).fp_task = .XOPEN) : revive s p bytes =
    (s.setProc p fun rfp => { rfp with fp_suspended := false }).reply p (s.fproc p).fp_fd.1.val := by
  unfold revive
  simp [hsusp, hrev, htask]

/-- One that waits for a task is answered with what the task did. -/
theorem revive_task {n : ℤ} (htask : (s.fproc p).fp_task = .task n) : revive s p bytes =
    (s.setProc p fun rfp => { rfp with fp_suspended := false, fp_nbytes := bytes }).reply p bytes := by
  unfold revive
  simp [hsusp, hrev, htask]

end Reviving

/-- What `revive` can do. -/
theorem revive_cases (s : FsState) (p : ProcNr) (bytes : ℤ) :
    ((s.fproc p).fp_suspended = false ∨ (s.fproc p).fp_revived = true) ∧ revive s p bytes = s ∨
    (s.fproc p).fp_suspended = true ∧ (s.fproc p).fp_revived = false ∧
      ((s.fproc p).fp_task = .XPIPE ∨ (s.fproc p).fp_task = .XOPEN ∨
        ∃ n, (s.fproc p).fp_task = .task n) := by
  by_cases hno : (s.fproc p).fp_suspended = false ∨ (s.fproc p).fp_revived = true
  · exact Or.inl ⟨hno, revive_of_not hno⟩
  · refine Or.inr ⟨by simpa using (not_or.mp hno).1, by simpa using (not_or.mp hno).2, ?_⟩
    cases (s.fproc p).fp_task with
    | XPIPE => exact Or.inl rfl
    | XOPEN => exact Or.inr (Or.inl rfl)
    | task n => exact Or.inr (Or.inr ⟨n, rfl⟩)

theorem SameFiles.revive : SameFiles s (revive s p bytes) := by
  rcases revive_cases s p bytes with ⟨-, hsame⟩ | ⟨hsusp, hrev, htask | htask | ⟨n, htask⟩⟩
  · rw [hsame]
    exact .refl s
  · rw [revive_pipe hsusp hrev htask]
    exact .proc (p := p) rfl rfl rfl rfl rfl
  · rw [revive_open hsusp hrev htask]
    exact .proc (p := p) rfl rfl rfl rfl rfl
  · rw [revive_task hsusp hrev htask]
    exact .proc (p := p) rfl rfl rfl rfl rfl

/-- Other processes are not concerned. -/
theorem revive_fproc (hq : q ≠ p) : (revive s p bytes).fproc q = s.fproc q := by
  rcases revive_cases s p bytes with ⟨-, hsame⟩ | ⟨hsusp, hrev, htask | htask | ⟨n, htask⟩⟩
  · rw [hsame]
  · rw [revive_pipe hsusp hrev htask]
    exact Function.update_of_ne hq _ _
  · rw [revive_open hsusp hrev htask]
    exact Function.update_of_ne hq _ _
  · rw [revive_task hsusp hrev htask]
    exact Function.update_of_ne hq _ _

/-- A process that is not suspended is not concerned. -/
theorem revive_of_awake (h : (s.fproc p).fp_suspended = false) :
    (revive s q bytes).fproc p = s.fproc p := by
  by_cases hq : p = q
  · subst hq
    rw [revive_of_not (Or.inl h)]
  · exact revive_fproc hq

/-- Revived by a task: the process was in no number. -/
theorem Books.revive (h : Books s) (hk : ¬OnPipe s p) : Books (revive s p bytes) := by
  rcases revive_cases s p bytes with ⟨-, hsame⟩ | ⟨hsusp, hrev, htask | htask | ⟨n, htask⟩⟩
  · rw [hsame]
    exact h
  · exact absurd ⟨hsusp, by rw [htask]; rfl⟩ hk
  · exact absurd ⟨hsusp, by rw [htask]; rfl⟩ hk
  · have hold : waits s p = false := by
      unfold waits Fproc.waits
      rw [htask]
      exact Bool.and_false _
    rw [revive_task hsusp hrev htask]
    refine h.proc (p := p) rfl rfl rfl rfl ?_ rfl fun hno => absurd hno (by simp)
    rw [hold]
    rfl

/-- Such a process does not do its call again. -/
theorem revive_reviving (hk : ¬OnPipe s p) : (revive s p bytes).reviving = s.reviving := by
  rcases revive_cases s p bytes with ⟨-, hsame⟩ | ⟨hsusp, hrev, htask | htask | ⟨n, htask⟩⟩
  · rw [hsame]
  · exact absurd ⟨hsusp, by rw [htask]; rfl⟩ hk
  · exact absurd ⟨hsusp, by rw [htask]; rfl⟩ hk
  · rw [revive_task hsusp hrev htask]
    rfl

/-- No other process is kept waiting on a pipe. -/
theorem onPipe_revive (h : OnPipe (revive s q bytes) p) : OnPipe s p := by
  by_cases hpq : p = q
  · subst hpq
    rcases revive_cases s p bytes with ⟨-, hsame⟩ | ⟨hsusp, hrev, htask | htask | ⟨n, htask⟩⟩
    · rwa [hsame] at h
    · exact ⟨hsusp, by rw [htask]; rfl⟩
    · exact ⟨hsusp, by rw [htask]; rfl⟩
    · have hsusp' := h.1
      rw [revive_task hsusp hrev htask] at hsusp'
      simp [FsState.setProc, FsState.reply] at hsusp'
  · unfold OnPipe at h
    rwa [revive_fproc hpq] at h

/-! ## rw_dev -/

section Device

variable {cancel : Option ProcNr} {msgs : List (ProcNr × ℤ)}

theorem SameFiles.rwDev : SameFiles s (rwDev cancel msgs s) := by
  induction msgs generalizing s with
  | nil => exact .refl s
  | cons m rest ih =>
    unfold Pipe.rwDev
    split_ifs with hc
    · exact .refl s
    · exact .trans .revive ih

theorem rwDev_of_awake (h : (s.fproc p).fp_suspended = false) :
    (rwDev cancel msgs s).fproc p = s.fproc p := by
  induction msgs generalizing s with
  | nil => rfl
  | cons m rest ih =>
    unfold rwDev
    split_ifs with hc
    · rfl
    · have he : (revive s m.1 m.2).fproc p = s.fproc p := revive_of_awake h
      exact (ih (by rw [he]; exact h)).trans he

/-- Only processes that wait for tasks are revived by messages from them. -/
theorem Books.rwDev (h : Books s) (hk : ∀ m ∈ msgs, ¬OnPipe s m.1) : Books (rwDev cancel msgs s) := by
  induction msgs generalizing s with
  | nil => exact h
  | cons m rest ih =>
    unfold Pipe.rwDev
    split_ifs with hc
    · exact h
    · refine ih (h.revive (hk m List.mem_cons_self)) fun x hx hpipe => ?_
      exact hk x (List.mem_cons_of_mem _ hx) (onPipe_revive hpipe)

theorem rwDev_reviving (hk : ∀ m ∈ msgs, ¬OnPipe s m.1) :
    (rwDev cancel msgs s).reviving = s.reviving := by
  induction msgs generalizing s with
  | nil => rfl
  | cons m rest ih =>
    unfold rwDev
    split_ifs with hc
    · rfl
    · exact (ih fun x hx hpipe => hk x (List.mem_cons_of_mem _ hx) (onPipe_revive hpipe)).trans
        (revive_reviving (hk m List.mem_cons_self))

theorem onPipe_rwDev (h : OnPipe (rwDev cancel msgs s) p) : OnPipe s p := by
  induction msgs generalizing s with
  | nil => exact h
  | cons m rest ih =>
    unfold rwDev at h
    split_ifs at h with hc
    · exact h
    · exact onPipe_revive (ih h)

end Device

/-! ## release -/

/-- A process that hangs on something that is no device waits for another process. -/
theorem Books.hangs (h : Books s) (htype : (s.inode ip).i_type ≠ .I_CHAR_SPECIAL)
    (hhang : hangs s ip call_nr p = true) : waits s p = true := by
  unfold Pipe.hangs at hhang
  simp only [Bool.and_eq_true] at hhang
  obtain ⟨⟨⟨hsusp, hrev⟩, -⟩, hfilp⟩ := hhang
  unfold waits Fproc.waits
  rw [hsusp, hrev, Bool.true_and, Bool.true_and]
  by_contra htask
  obtain ⟨f, hf, hchar⟩ := h.tasks p ⟨hsusp, by simpa using htask⟩
  rw [hf, Option.any_some, beq_iff_eq] at hfilp
  rw [hfilp] at hchar
  exact htype hchar

/-- The body of the loop of `release`. -/
def releaseOne (s : FsState) (rp : ProcNr) : FsState :=
  { Pipe.revive s rp 0 with susp_count := (Pipe.revive s rp 0).susp_count - 1 }

theorem SameFiles.releaseOne : SameFiles s (releaseOne s p) :=
  SameFiles.revive.trans ⟨fun _ => rfl, rfl, rfl, fun _ => rfl⟩

theorem releaseOne_of_awake (h : (s.fproc p).fp_suspended = false) :
    (releaseOne s q).fproc p = s.fproc p :=
  revive_of_awake h

/-- One process is released: it leaves those that wait. -/
theorem Books.releaseOne (h : Books s) (hw : waits s p = true) : Books (releaseOne s p) := by
  obtain ⟨⟨hsusp, hrev⟩, hpipe⟩ : ((s.fproc p).fp_suspended = true ∧
      (s.fproc p).fp_revived = false) ∧ (s.fproc p).fp_task.onPipe = true := by
    simpa [waits, Fproc.waits] using hw
  rcases revive_cases s p 0 with ⟨hno, -⟩ | ⟨-, -, htask | htask | ⟨n, htask⟩⟩
  · simp [hsusp, hrev] at hno
  · unfold Pipe.releaseOne
    rw [revive_pipe hsusp hrev htask]
    refine h.proc (p := p) rfl rfl rfl rfl ?_ ?_ fun _ hno => ?_
    · simp [hw, Fproc.waits, FsState.setProc]
    · simp [hrev]
    · simp [htask, Task.onPipe] at hno
  · unfold Pipe.releaseOne
    rw [revive_open hsusp hrev htask]
    refine h.proc (p := p) rfl rfl rfl rfl ?_ rfl fun hno => absurd hno (by simp)
    simp [hw, Fproc.waits, FsState.setProc, FsState.reply]
  · simp [htask, Task.onPipe] at hpipe

section Releasing

variable {procs : List ProcNr} {count : ℤ}

/-- The loop of `release`, a process at a time. -/
theorem releaseFrom_cons (rp : ProcNr) (rest : List ProcNr) :
    releaseFrom ip call_nr (rp :: rest) count s =
      if Pipe.hangs s ip call_nr rp then
        if count - 1 = 0 then releaseOne s rp
        else releaseFrom ip call_nr rest (count - 1) (releaseOne s rp)
      else releaseFrom ip call_nr rest count s := rfl

theorem SameFiles.releaseFrom : SameFiles s (releaseFrom ip call_nr procs count s) := by
  induction procs generalizing s count with
  | nil => exact .refl s
  | cons rp rest ih =>
    rw [releaseFrom_cons]
    split_ifs
    · exact .releaseOne
    · exact .trans .releaseOne ih
    · exact ih

theorem releaseFrom_of_awake (h : (s.fproc p).fp_suspended = false) :
    (releaseFrom ip call_nr procs count s).fproc p = s.fproc p := by
  induction procs generalizing s count with
  | nil => rfl
  | cons rp rest ih =>
    have he := releaseOne_of_awake (q := rp) h
    rw [releaseFrom_cons]
    split_ifs
    · exact he
    · exact (ih (by rw [he]; exact h)).trans he
    · exact ih h

theorem Books.releaseFrom (h : Books s) (htype : (s.inode ip).i_type ≠ .I_CHAR_SPECIAL) :
    Books (releaseFrom ip call_nr procs count s) := by
  induction procs generalizing s count with
  | nil => exact h
  | cons rp rest ih =>
    rw [releaseFrom_cons]
    split_ifs with hhang hlast
    · exact h.releaseOne (h.hangs htype hhang)
    · refine ih (h.releaseOne (h.hangs htype hhang)) ?_
      rwa [SameFiles.releaseOne.inode]
    · exact ih h htype

theorem SameFiles.release : SameFiles s (release s ip call_nr count) := .releaseFrom

theorem release_of_awake (h : (s.fproc p).fp_suspended = false) :
    (release s ip call_nr count).fproc p = s.fproc p :=
  releaseFrom_of_awake h

theorem Books.release (h : Books s) (htype : (s.inode ip).i_type ≠ .I_CHAR_SPECIAL) :
    Books (release s ip call_nr count) := h.releaseFrom htype

end Releasing

/-! ## pipe_check -/

section Check

variable {rw_flag : RwFlag} {oflags : OFlags} {n position : ℕ}

theorem SameFiles.pipeCheck :
    SameFiles s (pipeCheck s fp fd buffer rip rw_flag oflags n position).2 := by
  unfold Pipe.pipeCheck
  cases rw_flag with
  | READING =>
    dsimp only
    split_ifs
    · exact .release
    · exact .refl s
    · exact .trans .suspend .release
    · exact .suspend
    · exact .refl s
    · exact .refl s
  | WRITING =>
    dsimp only
    split_ifs
    · exact .refl s
    · exact ⟨fun _ => rfl, rfl, rfl, fun _ => rfl⟩
    · exact .refl s
    · exact .suspend
    · exact .release
    · exact .refl s

/-- The caller is suspended, or others are released, or both. -/
theorem Books.pipeCheck (h : Books s) (hr : Running s fp)
    (htype : (s.inode rip).i_type ≠ .I_CHAR_SPECIAL) :
    Books (pipeCheck s fp fd buffer rip rw_flag oflags n position).2 := by
  have hsuspend : ∀ fs_call nbytes, Books (Pipe.suspend s fp fd fs_call buffer nbytes .XPIPE) :=
    fun _ _ => h.suspend hr fun hno => absurd hno (by decide)
  unfold Pipe.pipeCheck
  cases rw_flag with
  | READING =>
    dsimp only
    split_ifs
    · exact h.release htype
    · exact h
    · refine (hsuspend _ _).release ?_
      rwa [SameFiles.suspend.inode]
    · exact hsuspend _ _
    · exact h
    · exact h
  | WRITING =>
    dsimp only
    split_ifs
    · exact h
    · exact h.same ⟨fun _ => ⟨rfl, rfl, rfl, rfl⟩, rfl, rfl⟩
        ⟨fun _ => rfl, fun _ => ⟨rfl, rfl⟩, fun _ => ⟨rfl, rfl, rfl⟩⟩
    · exact h
    · exact hsuspend _ _
    · exact h.release htype
    · exact h

end Check

/-! ## do_unpause -/

/-- A process that is told that its call is interrupted. -/
def awaken (s : FsState) (p : ProcNr) : FsState :=
  (s.setProc p fun rfp => { rfp with fp_suspended := false }).reply p EINTR

theorem SameFiles.awaken : SameFiles s (awaken s p) := .proc (p := p) rfl rfl rfl rfl rfl

theorem not_waits_of_not_onPipe (hk : ¬OnPipe s p) : waits s p = false := by
  by_contra hw
  simp only [waits, Fproc.waits, Bool.not_eq_false, Bool.and_eq_true] at hw
  exact hk ⟨hw.1.1, hw.2⟩

/-- A process that waits for a task is not in the counters. -/
theorem Books.awaken (h : Books s) (hk : ¬OnPipe s p) : Books (awaken s p) := by
  refine h.proc (p := p) rfl rfl rfl rfl ?_ rfl fun hno => absurd hno (by simp)
  rw [not_waits_of_not_onPipe hk]
  rfl

/-- What `do_unpause` can do. -/
theorem doUnpause_cases (k : Outside) (s : FsState) (who pro : ProcNr) :
    (doUnpause k s who pro).2 = s ∧ (¬MM_PROC_NR < who →
        (s.fproc pro).fp_suspended = false ∨ (s.fproc pro).fp_task = .XPIPE) ∨
    (doUnpause k s who pro).2 = Pipe.awaken s pro ∧ ¬MM_PROC_NR < who ∧
      (s.fproc pro).fp_suspended = true ∧ (s.fproc pro).fp_task = .XOPEN ∨
    (doUnpause k s who pro).2 = Pipe.awaken (Pipe.rwDev (some pro) k.locked s) pro ∧
      ¬MM_PROC_NR < who ∧ OnTask s pro := by
  unfold doUnpause
  split_ifs with hwho
  · exact Or.inl ⟨rfl, fun hno => absurd hwho hno⟩
  · cases hsusp : (s.fproc pro).fp_suspended with
    | false => exact Or.inl ⟨rfl, fun _ => Or.inl rfl⟩
    | true =>
      cases htask : (s.fproc pro).fp_task with
      | XPIPE => exact Or.inl ⟨rfl, fun _ => Or.inr rfl⟩
      | XOPEN => exact Or.inr (Or.inl ⟨rfl, hwho, rfl, rfl⟩)
      | task n => exact Or.inr (Or.inr ⟨rfl, hwho, hsusp, by rw [htask]; rfl⟩)

theorem OnTask.not_onPipe (h : OnTask s p) : ¬OnPipe s p := by
  intro hp
  have := h.2.symm.trans hp.2
  exact absurd this (by decide)

theorem SameFiles.doUnpause : SameFiles s (doUnpause k s who p).2 := by
  rcases doUnpause_cases k s who p with ⟨he, -⟩ | ⟨he, -⟩ | ⟨he, -⟩
  · rw [he]
    exact .refl s
  · rw [he]
    exact .awaken
  · rw [he]
    exact .trans .rwDev .awaken

/-- Only of a process that waits in `open` the counter is not told. -/
theorem Books.doUnpause (h : Books s) (hk : ∀ m ∈ k.locked, ¬OnPipe s m.1)
    (hopen : ¬MM_PROC_NR < who → (s.fproc p).fp_suspended = true → (s.fproc p).fp_task ≠ .XOPEN) :
    Books (doUnpause k s who p).2 := by
  rcases doUnpause_cases k s who p with ⟨he, -⟩ | ⟨-, hwho, hsusp, htask⟩ | ⟨he, -, htask⟩
  · rw [he]
    exact h
  · exact absurd htask (hopen hwho hsusp)
  · rw [he]
    exact (h.rwDev hk).awaken fun hp => htask.not_onPipe (onPipe_rwDev hp)

/-- The first part of `do_exit` tells the counter for both. -/
theorem Books.exitUnpause (h : Books s) (hk : ∀ m ∈ k.locked, ¬OnPipe s m.1) (hidle : s.reviving = 0) :
    Books (exitUnpause k s p) := by
  unfold Pipe.exitUnpause
  split_ifs with hsusp hpipe
  · have hrev := h.exact.quiet hidle p
    have hw : waits s p = true := by simp [waits, Fproc.waits, hsusp, hrev, hpipe]
    -- Both kinds end with the same process, after one reply or none.
    cases htask : (s.fproc p).fp_task with
    | XPIPE =>
      refine h.proc (p := p) (x := { s.fproc p with fp_suspended := false }) ?_ ?_ ?_ rfl ?_ ?_
        fun hno => absurd hno (by simp)
      all_goals simp [Pipe.doUnpause, hsusp, htask, FsState.setProc, hw, Fproc.waits]
    | XOPEN =>
      refine h.proc (p := p) (x := { s.fproc p with fp_suspended := false }) ?_ ?_ ?_ rfl ?_ ?_
        fun hno => absurd hno (by simp)
      all_goals simp [Pipe.doUnpause, hsusp, htask, FsState.setProc, FsState.reply, hw, Fproc.waits]
    | task n => simp [htask, Task.onPipe] at hpipe
  · have hno : ¬OnPipe s p := fun hp => hpipe hp.2
    have hbooks : Books (Pipe.doUnpause k s MM_PROC_NR p).2 := h.doUnpause hk fun _ _ htask =>
      hno ⟨hsusp, by rw [htask]; rfl⟩
    refine hbooks.proc (p := p) rfl rfl rfl rfl ?_ rfl fun hno => absurd hno (by simp)
    rw [not_waits_of_not_onPipe fun hp => hno ?_]
    · rfl
    · rcases doUnpause_cases k s MM_PROC_NR p with ⟨he, -⟩ | ⟨-, -, -, htask⟩ | ⟨he, -, -⟩
      · rwa [he] at hp
      · exact absurd ⟨hsusp, by rw [htask]; rfl⟩ hno
      · rw [he] at hp
        exact absurd hp.1 (by simp [Pipe.awaken, FsState.reply, FsState.setProc])
  · exact h

theorem exitUnpause_suspended : ((exitUnpause k s p).fproc p).fp_suspended = false := by
  unfold exitUnpause
  split_ifs with hsusp hpipe
  · simp [FsState.setProc]
  · simp [FsState.setProc]
  · simpa using hsusp

theorem SameFiles.exitUnpause : SameFiles s (exitUnpause k s p) := by
  unfold Pipe.exitUnpause
  split_ifs with hsusp hpipe
  · have hcount : SameFiles s { s with susp_count := s.susp_count - 1 } :=
      ⟨fun _ => rfl, rfl, rfl, fun _ => rfl⟩
    exact (hcount.trans .doUnpause).trans (.setProc rfl)
  · exact .trans .doUnpause (.setProc rfl)
  · exact .refl s

end Minix.Pipe
