import Minix.Pipe.Calls

/-!
# The books of the file system

`Books` is what the file system keeps count of: the processes that wait for others (`susp_count`),
those that are revived (`reviving`), the descriptors of an open file and the open files of an inode.
A process that waits for a task has a character special file open at the descriptor that it waits
with, so that `release`, which looks for processes at a pipe, does not find it.
-/

namespace Minix.Pipe

open Lib
open Kernel (NR_PROCS)

/-- The process waits for another one, and is not being revived. -/
def Fproc.waits (rfp : Fproc) : Bool :=
  rfp.fp_suspended && !rfp.fp_revived && rfp.fp_task.onPipe

/-- The process of that number. -/
def waits (s : FsState) (p : ProcNr) : Bool := (s.fproc p).waits

/-- How many descriptors the open file has. -/
def refs (s : FsState) (f : FilpNr) : ℕ :=
  howMany fun x : ProcNr × Fin OPEN_MAX => (s.fproc x.1).fp_filp x.2 == some f

/-- The process waits for a task. -/
def OnTask (s : FsState) (p : ProcNr) : Prop :=
  (s.fproc p).fp_suspended = true ∧ (s.fproc p).fp_task.onPipe = false

/-- The two counters are exact. -/
structure Exact (s : FsState) : Prop where
  susp_count : s.susp_count = howMany (waits s)
  reviving : s.reviving = howMany fun p => (s.fproc p).fp_revived

/-- What is kept count of. -/
structure Books (s : FsState) : Prop where
  exact : Exact s
  refs : ∀ f, (s.filp f).filp_count = refs s f
  opens : ∀ rip, opens s rip ≤ (s.inode rip).i_count
  pipes : ∀ rip, (s.inode rip).i_pipe = true → (s.inode rip).i_type ≠ .I_CHAR_SPECIAL
  tasks : ∀ p, OnTask s p → ∃ f, (s.fproc p).fp_filp (s.fproc p).fp_fd.1 = some f ∧
    (s.inode (s.filp f).filp_ino).i_type = .I_CHAR_SPECIAL

/-- Nobody is suspended or revived, and no counter changes. -/
structure SameHang (s s' : FsState) : Prop where
  procs : ∀ p, (s'.fproc p).fp_suspended = (s.fproc p).fp_suspended ∧
    (s'.fproc p).fp_revived = (s.fproc p).fp_revived ∧
    (s'.fproc p).fp_task = (s.fproc p).fp_task ∧ (s'.fproc p).fp_fd = (s.fproc p).fp_fd
  susp_count : s'.susp_count = s.susp_count
  reviving : s'.reviving = s.reviving

/-- No file is opened or closed. -/
structure SameTables (s s' : FsState) : Prop where
  fp_filp : ∀ p, (s'.fproc p).fp_filp = (s.fproc p).fp_filp
  filp : ∀ f, (s'.filp f).filp_count = (s.filp f).filp_count ∧
    (s'.filp f).filp_ino = (s.filp f).filp_ino
  inode : ∀ rip, (s'.inode rip).i_type = (s.inode rip).i_type ∧
    (s'.inode rip).i_count = (s.inode rip).i_count ∧ (s'.inode rip).i_pipe = (s.inode rip).i_pipe

/-- The event is one of the inode. -/
def PipeEvent.concerns (rip : Ino) : PipeEvent → Bool
  | .read _ ip _ => ip == rip
  | .wrote _ ip _ => ip == rip
  | .sigpipe _ => false

/-- What has happened to the inode, newest first. -/
def FsState.history (s : FsState) (rip : Ino) : List PipeEvent :=
  s.log.filter (PipeEvent.concerns rip)

/-- Processes may be suspended or revived, but nothing happens to files. -/
structure SameFiles (s s' : FsState) : Prop where
  fp_filp : ∀ p, (s'.fproc p).fp_filp = (s.fproc p).fp_filp
  filp : s'.filp = s.filp
  inode : s'.inode = s.inode
  history : ∀ rip, s'.history rip = s.history rip

variable {s s' s'' : FsState} {p q who fp : ProcNr} {f fil : FilpNr} {rip ip : Ino} {k : Outside}

theorem SameHang.refl (s : FsState) : SameHang s s := ⟨fun _ => ⟨rfl, rfl, rfl, rfl⟩, rfl, rfl⟩

theorem SameTables.refl (s : FsState) : SameTables s s :=
  ⟨fun _ => rfl, fun _ => ⟨rfl, rfl⟩, fun _ => ⟨rfl, rfl, rfl⟩⟩

theorem SameHang.trans (h : SameHang s s') (h' : SameHang s' s'') : SameHang s s'' := by
  refine ⟨fun p => ?_, h'.susp_count.trans h.susp_count, h'.reviving.trans h.reviving⟩
  obtain ⟨h₁, h₂, h₃, h₄⟩ := h.procs p
  obtain ⟨h₁', h₂', h₃', h₄'⟩ := h'.procs p
  exact ⟨h₁'.trans h₁, h₂'.trans h₂, h₃'.trans h₃, h₄'.trans h₄⟩

theorem SameFiles.refl (s : FsState) : SameFiles s s := ⟨fun _ => rfl, rfl, rfl, fun _ => rfl⟩

theorem SameFiles.trans (h : SameFiles s s') (h' : SameFiles s' s'') : SameFiles s s'' :=
  ⟨fun p => (h'.fp_filp p).trans (h.fp_filp p), h'.filp.trans h.filp, h'.inode.trans h.inode,
    fun rip => (h'.history rip).trans (h.history rip)⟩

theorem SameFiles.tables (h : SameFiles s s') : SameTables s s' :=
  ⟨h.fp_filp, fun f => by rw [h.filp]; exact ⟨rfl, rfl⟩,
    fun rip => by rw [h.inode]; exact ⟨rfl, rfl, rfl⟩⟩

theorem SameTables.trans (h : SameTables s s') (h' : SameTables s' s'') : SameTables s s'' := by
  refine ⟨fun p => (h'.fp_filp p).trans (h.fp_filp p), fun f => ?_, fun rip => ?_⟩
  · exact ⟨(h'.filp f).1.trans (h.filp f).1, (h'.filp f).2.trans (h.filp f).2⟩
  · obtain ⟨h₁, h₂, h₃⟩ := h.inode rip
    obtain ⟨h₁', h₂', h₃'⟩ := h'.inode rip
    exact ⟨h₁'.trans h₁, h₂'.trans h₂, h₃'.trans h₃⟩

theorem SameHang.waits (h : SameHang s s') (p : ProcNr) : waits s' p = waits s p := by
  obtain ⟨h₁, h₂, h₃, -⟩ := h.procs p
  unfold Pipe.waits Fproc.waits
  rw [h₁, h₂, h₃]

theorem SameHang.onTask (h : SameHang s s') : OnTask s' p ↔ OnTask s p := by
  obtain ⟨h₁, -, h₃, -⟩ := h.procs p
  unfold OnTask
  rw [h₁, h₃]

theorem SameHang.onPipe (h : SameHang s s') : OnPipe s' p ↔ OnPipe s p := by
  obtain ⟨h₁, -, h₃, -⟩ := h.procs p
  unfold OnPipe
  rw [h₁, h₃]

theorem Exact.same (h : Exact s) (hh : SameHang s s') : Exact s' := by
  refine ⟨?_, ?_⟩
  · rw [hh.susp_count, h.susp_count, howMany_congr hh.waits]
  · rw [hh.reviving, h.reviving, howMany_congr fun p => (hh.procs p).2.1]

theorem SameTables.refs (h : SameTables s s') (f : FilpNr) : refs s' f = refs s f :=
  howMany_congr fun x => by rw [h.fp_filp]

theorem SameTables.opens (h : SameTables s s') (rip : Ino) : opens s' rip = opens s rip :=
  howMany_congr fun f => by rw [(h.filp f).1, (h.filp f).2]

/-- What is not about processes is kept if the tables are. -/
theorem Books.tables (h : Books s) (ht : SameTables s s') (hexact : Exact s')
    (htasks : ∀ p, OnTask s' p → OnTask s p ∧ (s'.fproc p).fp_fd = (s.fproc p).fp_fd ∨
      ∃ f, (s.fproc p).fp_filp (s'.fproc p).fp_fd.1 = some f ∧
        (s.inode (s.filp f).filp_ino).i_type = .I_CHAR_SPECIAL) : Books s' := by
  refine ⟨hexact, fun f => ?_, fun rip => ?_, fun rip hp => ?_, fun p hp => ?_⟩
  · rw [(ht.filp f).1, ht.refs, h.refs]
  · rw [ht.opens, (ht.inode rip).2.1]
    exact h.opens rip
  · rw [(ht.inode rip).1]
    exact h.pipes rip ((ht.inode rip).2.2.symm.trans hp)
  · obtain ⟨f, hf, htype⟩ : ∃ f, (s.fproc p).fp_filp (s'.fproc p).fp_fd.1 = some f ∧
        (s.inode (s.filp f).filp_ino).i_type = .I_CHAR_SPECIAL := by
      rcases htasks p hp with ⟨hold, hfd⟩ | hnew
      · rw [hfd]
        exact h.tasks p hold
      · exact hnew
    refine ⟨f, ?_, ?_⟩
    · rw [ht.fp_filp]
      exact hf
    · rw [(ht.filp f).2, (ht.inode _).1]
      exact htype

/-- A function that changes nothing that is kept count of. -/
theorem Books.same (h : Books s) (hh : SameHang s s') (ht : SameTables s s') : Books s' :=
  h.tables ht (h.exact.same hh) fun p hp => Or.inl ⟨hh.onTask.mp hp, (hh.procs p).2.2.2⟩

/-- A row of descriptors when another field of a process has changed. -/
theorem fp_filp_of_update {x : Fproc} (hproc : s'.fproc = Function.update s.fproc p x)
    (hrow : x.fp_filp = (s.fproc p).fp_filp) (q : ProcNr) :
    (s'.fproc q).fp_filp = (s.fproc q).fp_filp := by
  by_cases hq : q = p
  · rw [hproc, hq, Function.update_self, hrow]
  · rw [hproc, Function.update_of_ne hq]

/-- A function that changes one process, but opens and closes nothing. -/
theorem SameTables.proc {x : Fproc} (hproc : s'.fproc = Function.update s.fproc p x)
    (hfilp : s'.filp = s.filp) (hinode : s'.inode = s.inode)
    (hrow : x.fp_filp = (s.fproc p).fp_filp) : SameTables s s' :=
  ⟨fp_filp_of_update hproc hrow, fun f => by rw [hfilp]; exact ⟨rfl, rfl⟩,
    fun rip => by rw [hinode]; exact ⟨rfl, rfl, rfl⟩⟩

/-- A function that changes one process, and does nothing to files. -/
theorem SameFiles.proc {x : Fproc} (hproc : s'.fproc = Function.update s.fproc p x)
    (hfilp : s'.filp = s.filp) (hinode : s'.inode = s.inode)
    (hrow : x.fp_filp = (s.fproc p).fp_filp) (hlog : s'.log = s.log) : SameFiles s s' :=
  ⟨fp_filp_of_update hproc hrow, hfilp, hinode,
    fun _ => congrArg (List.filter (PipeEvent.concerns _)) hlog⟩

/-- What is kept count of, when one process is changed. -/
theorem Books.proc (h : Books s) {x : Fproc} (hproc : s'.fproc = Function.update s.fproc p x)
    (hfilp : s'.filp = s.filp) (hinode : s'.inode = s.inode)
    (hrow : x.fp_filp = (s.fproc p).fp_filp)
    (hsusp : s'.susp_count + ((waits s p).toNat : ℤ) = s.susp_count + x.waits.toNat)
    (hrev : s'.reviving + ((s.fproc p).fp_revived.toNat : ℤ) = s.reviving + x.fp_revived.toNat)
    (htask : x.fp_suspended = true → x.fp_task.onPipe = false →
      OnTask s p ∧ x.fp_fd = (s.fproc p).fp_fd ∨ ∃ f, (s.fproc p).fp_filp x.fp_fd.1 = some f ∧
        (s.inode (s.filp f).filp_ino).i_type = .I_CHAR_SPECIAL) : Books s' := by
  have hself : s'.fproc p = x := by rw [hproc, Function.update_self]
  have hoff : ∀ q ≠ p, s'.fproc q = s.fproc q := fun q hq => by
    rw [hproc, Function.update_of_ne hq]
  refine h.tables (.proc hproc hfilp hinode hrow) ⟨?_, ?_⟩ fun q hq => ?_
  · have hcount : howMany (waits s') + (waits s p).toNat = howMany (waits s) + (waits s' p).toNat :=
      howMany_change _ _ fun q hq => congrArg Fproc.waits (hoff q hq)
    have hnew : waits s' p = x.waits := congrArg Fproc.waits hself
    have hold := h.exact.susp_count
    rw [hnew] at hcount
    omega
  · have hcount : (howMany fun p => (s'.fproc p).fp_revived) + (s.fproc p).fp_revived.toNat =
        (howMany fun p => (s.fproc p).fp_revived) + (s'.fproc p).fp_revived.toNat :=
      howMany_change _ _ fun q hq => congrArg Fproc.fp_revived (hoff q hq)
    have hold := h.exact.reviving
    rw [hself] at hcount
    omega
  · unfold OnTask at hq
    by_cases hqp : q = p
    · rw [hqp, hself] at hq ⊢
      exact htask hq.1 hq.2
    · rw [hoff q hqp] at hq ⊢
      exact Or.inl ⟨hq, rfl⟩

/-! ## Assignments -/

@[simp] theorem setProc_filp (s : FsState) (p : ProcNr) (g : Fproc → Fproc) :
    (s.setProc p g).filp = s.filp := rfl

@[simp] theorem setFd_filp (s : FsState) (p : ProcNr) (fd : Fin OPEN_MAX) (o : Option FilpNr) :
    (s.setFd p fd o).filp = s.filp := rfl

@[simp] theorem setFd_inode (s : FsState) (p : ProcNr) (fd : Fin OPEN_MAX) (o : Option FilpNr) :
    (s.setFd p fd o).inode = s.inode := rfl

@[simp] theorem setFilp_fproc (s : FsState) (f : FilpNr) (g : Filp → Filp) :
    (s.setFilp f g).fproc = s.fproc := rfl

@[simp] theorem setFilp_inode (s : FsState) (f : FilpNr) (g : Filp → Filp) :
    (s.setFilp f g).inode = s.inode := rfl

@[simp] theorem setInode_fproc (s : FsState) (rip : Ino) (g : Inode → Inode) :
    (s.setInode rip g).fproc = s.fproc := rfl

@[simp] theorem setInode_filp (s : FsState) (rip : Ino) (g : Inode → Inode) :
    (s.setInode rip g).filp = s.filp := rfl

/-- A process after an assignment to fields of one. -/
theorem setProc_fproc (s : FsState) (p q : ProcNr) (f : Fproc → Fproc) :
    (s.setProc p f).fproc q = if q = p then f (s.fproc q) else s.fproc q := by
  unfold FsState.setProc
  by_cases hq : q = p
  · subst hq
    simp
  · simp [hq]

/-- An open file after an assignment to fields of one. -/
theorem setFilp_filp (s : FsState) (fil f : FilpNr) (g : Filp → Filp) :
    (s.setFilp fil g).filp f = if f = fil then g (s.filp f) else s.filp f := by
  unfold FsState.setFilp
  by_cases hf : f = fil
  · subst hf
    simp
  · simp [hf]

/-- An inode after an assignment to fields of one. -/
theorem setInode_inode (s : FsState) (rip ip : Ino) (g : Inode → Inode) :
    (s.setInode rip g).inode ip = if ip = rip then g (s.inode ip) else s.inode ip := by
  unfold FsState.setInode
  by_cases hi : ip = rip
  · subst hi
    simp
  · simp [hi]

/-- An assignment to other fields of an open file. -/
theorem SameTables.setFilp {g : Filp → Filp} (hc : (g (s.filp f)).filp_count = (s.filp f).filp_count)
    (hi : (g (s.filp f)).filp_ino = (s.filp f).filp_ino) : SameTables s (s.setFilp f g) := by
  refine ⟨fun _ => rfl, fun x => ?_, fun _ => ⟨rfl, rfl, rfl⟩⟩
  rw [setFilp_filp]
  split_ifs with hx
  · exact hx ▸ ⟨hc, hi⟩
  · exact ⟨rfl, rfl⟩

/-- An assignment to other fields of an inode. -/
theorem SameTables.setInode {g : Inode → Inode} (ht : (g (s.inode rip)).i_type = (s.inode rip).i_type)
    (hc : (g (s.inode rip)).i_count = (s.inode rip).i_count)
    (hp : (g (s.inode rip)).i_pipe = (s.inode rip).i_pipe) : SameTables s (s.setInode rip g) := by
  refine ⟨fun _ => rfl, fun _ => ⟨rfl, rfl⟩, fun x => ?_⟩
  rw [setInode_inode]
  split_ifs with hx
  · exact hx ▸ ⟨ht, hc, hp⟩
  · exact ⟨rfl, rfl, rfl⟩

/-- An assignment to other fields of a process. -/
theorem SameFiles.setProc {g : Fproc → Fproc} (hf : (g (s.fproc p)).fp_filp = (s.fproc p).fp_filp) :
    SameFiles s (s.setProc p g) := .proc (p := p) rfl rfl rfl hf rfl

end Minix.Pipe
