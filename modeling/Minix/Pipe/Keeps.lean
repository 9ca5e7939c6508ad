import Minix.Pipe.CallBooks

/-!
# Calls that leave a pipe alone

What every call does to a pipe that it neither reads, writes nor opens (`Keeps`): descriptors of it
may be duplicated and closed, but its bytes and the positions of those who have it open stay, until
nobody has. That an inode has as many users as open files say is needed for it, which the calls keep
(`Seated`) whatever becomes of the counters of suspended processes.
-/

namespace Minix.Pipe

open Lib
open Kernel (NR_PROCS)

variable {s s' s'' : FsState} {p q who fp : ProcNr} {f f' fil : FilpNr} {rip ip : Ino} {k : Outside}
  {fd : Fin OPEN_MAX} {fild : ℤ} {buffer : ℕ → UInt8} {rw_flag : RwFlag} {fs_call : CallNr}

/-- The file is open with that entry of `filp[]`. -/
def OpenOn (s : FsState) (f : FilpNr) (rip : Ino) : Prop :=
  (s.filp f).filp_count ≠ 0 ∧ (s.filp f).filp_ino = rip

theorem opens_ne_zero : opens s rip ≠ 0 ↔ ∃ f, OpenOn s f rip := by
  constructor
  · intro hopens
    by_contra hno
    refine hopens (howMany_eq_zero.mpr fun f => ?_)
    by_contra hf
    exact hno ⟨f, by simpa [OpenOn] using hf⟩
  · rintro ⟨f, hcount, rfl⟩
    exact (opens_pos hcount).ne'

/-- What the file is and what it contains. -/
structure SameBytes (ip ip' : Inode) : Prop where
  i_type : ip'.i_type = ip.i_type
  i_pipe : ip'.i_pipe = ip.i_pipe
  i_size : ip'.i_size = ip.i_size
  bytes : ip'.bytes = ip.bytes

theorem SameBytes.refl (ip : Inode) : SameBytes ip ip := ⟨rfl, rfl, rfl, rfl⟩

theorem SameBytes.trans {x y z : Inode} (h : SameBytes x y) (h' : SameBytes y z) : SameBytes x z :=
  ⟨h'.i_type.trans h.i_type, h'.i_pipe.trans h.i_pipe, h'.i_size.trans h.i_size,
    h'.bytes.trans h.bytes⟩

/-- A named pipe. Its users are the open files, and so many more while one is opened; it holds
nothing if nobody has it open, and until somebody has opened it for writing it is no pipe and holds
nothing. -/
structure Fifo (rip : Ino) (more : ℕ) (s : FsState) : Prop where
  i_type : (s.inode rip).i_type = .I_NAMED_PIPE
  i_count : (s.inode rip).i_count = opens s rip + more
  unused : opens s rip = 0 → (s.inode rip).i_size = 0
  plain : (s.inode rip).i_pipe = false → (s.inode rip).i_size = 0
  writers : ∀ f, OpenOn s f rip → (s.filp f).filp_mode.W_BIT = true → (s.inode rip).i_pipe = true

/-- Nobody reads, writes or opens the pipe. -/
structure Keeps (rip : Ino) (s s' : FsState) : Prop where
  filp : ∀ f, OpenOn s' f rip → OpenOn s f rip ∧ (s'.filp f).filp_mode = (s.filp f).filp_mode ∧
    ((s.inode rip).i_pipe = true → (s'.filp f).filp_pos = (s.filp f).filp_pos)
  inode : opens s' rip ≠ 0 → SameBytes (s.inode rip) (s'.inode rip)
  i_size : (s'.inode rip).i_size ≤ (s.inode rip).i_size
  history : s'.history rip = s.history rip
  fifo : Fifo rip 0 s → Fifo rip 0 s'

theorem Keeps.refl (rip : Ino) (s : FsState) : Keeps rip s s :=
  ⟨fun _ h => ⟨h, rfl, fun _ => rfl⟩, fun _ => .refl _, le_rfl, rfl, id⟩

/-- Who has the pipe open in the end had it open before. -/
theorem Keeps.opens (h : Keeps rip s s') (hopen : opens s' rip ≠ 0) : opens s rip ≠ 0 := by
  obtain ⟨f, hf⟩ := opens_ne_zero.mp hopen
  exact opens_ne_zero.mpr ⟨f, (h.filp f hf).1⟩

theorem Keeps.trans (h : Keeps rip s s') (h' : Keeps rip s' s'') : Keeps rip s s'' := by
  refine ⟨fun f hf => ?_, fun hopen => (h.inode (h'.opens hopen)).trans (h'.inode hopen),
    h'.i_size.trans h.i_size, h'.history.trans h.history, h'.fifo ∘ h.fifo⟩
  obtain ⟨hf', hmode', hpos'⟩ := h'.filp f hf
  obtain ⟨hf, hmode, hpos⟩ := h.filp f hf'
  have hsame := h.inode (opens_ne_zero.mpr ⟨f, hf'⟩)
  exact ⟨hf, hmode'.trans hmode, fun hp => (hpos' (hsame.i_pipe.trans hp)).trans (hpos hp)⟩

/-- A change that no open file of the pipe is concerned by. -/
theorem Keeps.of_same (hinode : SameBytes (s.inode rip) (s'.inode rip))
    (hcount : (s'.inode rip).i_count = (s.inode rip).i_count)
    (hopen : ∀ f, OpenOn s' f rip ↔ OpenOn s f rip)
    (hfilp : ∀ f, OpenOn s f rip → (s'.filp f).filp_mode = (s.filp f).filp_mode ∧
      ((s.inode rip).i_pipe = true → (s'.filp f).filp_pos = (s.filp f).filp_pos))
    (hlog : s'.history rip = s.history rip) : Keeps rip s s' := by
  have hopens : Pipe.opens s' rip = Pipe.opens s rip := howMany_congr fun f => by
    rw [Bool.eq_iff_iff]
    simpa [OpenOn] using hopen f
  refine ⟨fun f hf => ⟨(hopen f).mp hf, hfilp f ((hopen f).mp hf)⟩, fun _ => hinode, hinode.i_size.le,
    hlog, fun h => ?_⟩
  refine ⟨hinode.i_type.trans h.i_type, ?_, fun hno => ?_, fun hno => ?_, fun f hf hw => ?_⟩
  · rw [hcount, hopens, h.i_count]
  · rw [hinode.i_size]
    exact h.unused (hopens.symm.trans hno)
  · rw [hinode.i_size]
    exact h.plain (hinode.i_pipe.symm.trans hno)
  · have hf' := (hopen f).mp hf
    rw [hinode.i_pipe]
    exact h.writers f hf' ((hfilp f hf').1 ▸ hw)

/-- The tables are kept as far as the counts go, and the pipe is left alone. -/
structure Quiet (rip : Ino) (s s' : FsState) : Prop where
  seated : Seated s'
  keeps : Keeps rip s s'

theorem Quiet.refl (h : Seated s) : Quiet rip s s := ⟨h, .refl rip s⟩

theorem Quiet.trans (h : Quiet rip s s') (h' : Quiet rip s' s'') : Quiet rip s s'' :=
  ⟨h'.seated, h.keeps.trans h'.keeps⟩

/-! ## What calls are made of -/

section Parts

variable (h : Seated s)
include h

theorem Quiet.files (hf : SameFiles s s') : Quiet rip s s' := by
  have hopen : ∀ f, OpenOn s' f rip ↔ OpenOn s f rip := fun f => by
    unfold OpenOn
    rw [hf.filp]
  refine ⟨h.tables hf.tables, .of_same ?_ ?_ hopen (fun f _ => ?_) (hf.history rip)⟩
  · rw [hf.inode]
    exact .refl _
  · rw [hf.inode]
  · rw [hf.filp]
    exact ⟨rfl, fun _ => rfl⟩

theorem Quiet.unclaimed (hu : Unclaimed s s') : Quiet rip s s' := by
  have hopen : ∀ f, OpenOn s' f rip ↔ OpenOn s f rip := fun f => by
    unfold OpenOn
    rw [(hu.inert.tables.filp f).1, (hu.inert.tables.filp f).2]
  refine ⟨h.tables hu.inert.tables, .of_same ?_ ?_ hopen (fun f hf => ?_) (hu.history rip)⟩
  · rw [hu.inode]
    exact .refl _
  · rw [hu.inode]
  · rcases hu.filp f with he | ⟨hno, -⟩
    · rw [he]
      exact ⟨rfl, fun _ => rfl⟩
    · exact absurd hno hf.1

/-- Fields of an open file of something else, or such that do not matter. -/
theorem Quiet.setFilp {g : Filp → Filp} (hcount : (g (s.filp f)).filp_count = (s.filp f).filp_count)
    (hino : (g (s.filp f)).filp_ino = (s.filp f).filp_ino)
    (hsame : (s.filp f).filp_ino ≠ rip ∨ (g (s.filp f)).filp_mode = (s.filp f).filp_mode ∧
      ((s.inode rip).i_pipe = true → (g (s.filp f)).filp_pos = (s.filp f).filp_pos)) :
    Quiet rip s (s.setFilp f g) := by
  have ht : SameTables s (s.setFilp f g) := .setFilp hcount hino
  have hopen : ∀ x, OpenOn (s.setFilp f g) x rip ↔ OpenOn s x rip := fun x => by
    unfold OpenOn
    rw [(ht.filp x).1, (ht.filp x).2]
  refine ⟨h.tables ht, .of_same (.refl _) rfl hopen (fun x hx => ?_) rfl⟩
  rw [setFilp_filp]
  split_ifs with hxf
  · subst hxf
    rcases hsame with hne | hsame
    · exact absurd hx.2 hne
    · exact hsame
  · exact ⟨rfl, fun _ => rfl⟩

/-- Another inode gets a user, or fields that are not kept count of. -/
theorem Quiet.setInode {g : Inode → Inode} (hne : ip ≠ rip)
    (hcount : (s.inode ip).i_count ≤ (g (s.inode ip)).i_count) : Quiet rip s (s.setInode ip g) := by
  have he : (s.setInode ip g).inode rip = s.inode rip := by
    rw [setInode_inode, if_neg hne.symm]
  refine ⟨h.user hcount, .of_same ?_ ?_ (fun _ => Iff.rfl) (fun _ _ => ⟨rfl, fun _ => rfl⟩) rfl⟩
  · rw [he]
    exact .refl _
  · rw [he]

theorem Quiet.record {e : PipeEvent} (he : e.concerns rip = false) : Quiet rip s (s.record e) := by
  refine ⟨h.tables ⟨fun _ => rfl, fun _ => ⟨rfl, rfl⟩, fun _ => ⟨rfl, rfl, rfl⟩⟩,
    .of_same (.refl _) rfl (fun _ => Iff.rfl) (fun _ _ => ⟨rfl, fun _ => rfl⟩) ?_⟩
  exact List.filter_cons_of_neg (by simp [he])

/-- A descriptor and a filp slot are claimed for another inode. -/
theorem Quiet.claim {g : Filp → Filp} (hne : ip ≠ rip) (hfd : (s.fproc fp).fp_filp fd = none)
    (hfree : (s.filp f).filp_count = 0) (hroom : Pipe.opens s ip + 1 ≤ (s.inode ip).i_count)
    (hcount : (g (s.filp f)).filp_count = 1) (hino : (g (s.filp f)).filp_ino = ip) :
    Quiet rip s ((s.setFd fp fd (some f)).setFilp f g) := by
  have hfilp : ∀ x, ((s.setFd fp fd (some f)).setFilp f g).filp x =
      if x = f then g (s.filp x) else s.filp x := fun x => setFilp_filp _ f x g
  refine ⟨h.claim hfd hfree hroom hcount hino, .of_same (.refl _) rfl (fun x => ?_) (fun x hx => ?_) rfl⟩
  · unfold OpenOn
    rw [hfilp]
    split_ifs with hxf
    · subst hxf
      rw [hino, hfree]
      simp [hne]
    · exact Iff.rfl
  · have hxf : x ≠ f := fun e => hx.1 (e ▸ hfree)
    rw [hfilp, if_neg hxf]
    exact ⟨rfl, fun _ => rfl⟩

/-- A descriptor more of an open file. -/
theorem Quiet.dup (hfd : (s.fproc fp).fp_filp fd = none) (hopen : 0 < (s.filp f).filp_count) :
    Quiet rip s
      ((s.setFilp f fun f => { f with filp_count := f.filp_count + 1 }).setFd fp fd (some f)) := by
  have hfilp : ∀ x, ((s.setFilp f fun f => { f with filp_count := f.filp_count + 1 }).setFd fp fd
      (some f)).filp x = s.bumped f x := fun x => rfl
  refine ⟨h.dup hfd hopen, .of_same (.refl _) rfl (fun x => ?_) (fun x _ => ?_) rfl⟩
  · unfold OpenOn
    rw [hfilp, bumped_eq]
    split_ifs with hxf
    · subst hxf
      simp [hopen.ne']
    · exact Iff.rfl
  · rw [hfilp, bumped_eq]
    split_ifs <;> exact ⟨rfl, fun _ => rfl⟩

/-- Another inode has a user less. -/
theorem Quiet.putInode (hne : ip ≠ rip) (hroom : Pipe.opens s ip + 1 ≤ (s.inode ip).i_count) :
    Quiet rip s (putInode s ip) := by
  have he : (Pipe.putInode s ip).inode rip = s.inode rip := by
    unfold Pipe.putInode
    rw [setInode_inode, if_neg hne.symm]
  refine ⟨h.putInode hroom, .of_same ?_ ?_ (fun _ => Iff.rfl) (fun _ _ => ⟨rfl, fun _ => rfl⟩) rfl⟩
  · rw [he]
    exact .refl _
  · rw [he]

/-- The files of a new process are those of its parent. -/
theorem Quiet.forked {parent child : ProcNr} (hempty : ∀ d, (s.fproc child).fp_filp d = none) :
    Quiet rip s (forked s parent child) := by
  refine ⟨h.forked hempty,
    .of_same (.refl _) rfl (fun f => ?_) (fun _ _ => ⟨rfl, fun _ => rfl⟩) rfl⟩
  unfold OpenOn
  change (s.filp f).filp_count + rowRefs (s.fproc parent) f ≠ 0 ∧ (s.filp f).filp_ino = rip ↔ _
  by_cases hno : (s.filp f).filp_count = 0
  · rw [hno, h.rowRefs hno]
  · simp [hno]

end Parts

/-! ## Closing -/

/-- The contents of the inode of a descriptor that is closed, and of all others. -/
theorem closeFd_contents (s : FsState) (fp : ProcNr) (fd : Fin OPEN_MAX) (f : FilpNr) (ip : Ino) :
    (closeFd s fp fd f).inode ip =
      if (s.filp f).filp_count - 1 = 0 ∧ ip = (s.filp f).filp_ino then
        (putInode s ip).inode ip else s.inode ip := by
  unfold closeFd
  dsimp only
  rw [setFilp_filp, if_pos rfl]
  by_cases hlast : (s.filp f).filp_count - 1 = 0
  · rw [if_pos hlast, setFd_inode]
    by_cases hip : ip = (s.filp f).filp_ino
    · subst hip
      rw [if_pos ⟨hlast, rfl⟩]
      rfl
    · rw [if_neg fun e => hip e.2]
      unfold putInode
      rw [setInode_inode, if_neg hip]
      rfl
  · rw [if_neg hlast, if_neg fun e => hlast e.1]
    rfl

/-- An inode that has a user left, or none. -/
theorem putInode_self (s : FsState) (rip : Ino) : (putInode s rip).inode rip =
    if (s.inode rip).i_count - 1 = 0 then
      { truncate { s.inode rip with i_count := (s.inode rip).i_count - 1 } with i_pipe := false }
    else { s.inode rip with i_count := (s.inode rip).i_count - 1 } := by
  unfold putInode
  rw [setInode_inode, if_pos rfl]

/-- Its size does not grow. -/
theorem putInode_size : ((putInode s rip).inode rip).i_size ≤ (s.inode rip).i_size := by
  rw [putInode_self]
  unfold truncate
  split_ifs
  · exact Nat.zero_le _
  · exact le_rfl
  · exact le_rfl

theorem closeFd_log (s : FsState) (fp : ProcNr) (fd : Fin OPEN_MAX) (f : FilpNr) :
    (closeFd s fp fd f).log = s.log := by
  unfold closeFd
  dsimp only
  split_ifs <;> rfl

/-- Nothing is left in a FIFO that nobody uses any more. -/
theorem Fifo.truncated {more : ℕ} (h : Fifo rip more s) (n : ℕ) :
    (truncate { s.inode rip with i_count := n }).i_size = 0 ∧
      (truncate { s.inode rip with i_count := n }).i_type = .I_NAMED_PIPE ∧
      (truncate { s.inode rip with i_count := n }).i_count = n := by
  unfold truncate
  split
  · exact ⟨rfl, h.i_type, rfl⟩
  · next hno => exact ⟨h.plain (by simpa using hno), h.i_type, rfl⟩

/-- A FIFO with a user less. -/
theorem Fifo.put (h : Fifo rip 0 s) (hinode : s'.inode rip = (putInode s rip).inode rip)
    (hopens : Pipe.opens s' rip + 1 = Pipe.opens s rip)
    (hfilp : ∀ f, OpenOn s' f rip → OpenOn s f rip ∧ (s'.filp f).filp_mode = (s.filp f).filp_mode) :
    Fifo rip 0 s' := by
  have hcount : (s.inode rip).i_count - 1 = Pipe.opens s' rip := by
    rw [h.i_count]
    omega
  rw [putInode_self, hcount] at hinode
  by_cases hlast : Pipe.opens s' rip = 0
  · obtain ⟨hsize, htype, hnone⟩ := h.truncated (Pipe.opens s' rip)
    rw [if_pos hlast] at hinode
    refine ⟨by rw [hinode]; exact htype, by rw [hinode]; exact hnone, fun _ => ?_, fun _ => ?_,
      fun f hf => ?_⟩
    · rw [hinode]
      exact hsize
    · rw [hinode]
      exact hsize
    · exact absurd hlast (opens_ne_zero.mpr ⟨f, hf⟩)
  · rw [if_neg hlast] at hinode
    refine ⟨by rw [hinode]; exact h.i_type, by rw [hinode]; rfl, fun hno => absurd hno hlast, fun hno => ?_,
      fun f hf hw => ?_⟩
    · rw [hinode] at hno ⊢
      exact h.plain hno
    · obtain ⟨hf, hmode⟩ := hfilp f hf
      rw [hinode]
      exact h.writers f hf (hmode ▸ hw)

theorem Quiet.closeFd (h : Seated s) (hfd : (s.fproc fp).fp_filp fd = some f) :
    Quiet rip s (closeFd s fp fd f) := by
  have hcount := h.open hfd
  have hopens : Pipe.opens (Pipe.closeFd s fp fd f) rip + _ = Pipe.opens s rip := opens_closeFd hcount
  have hfilp : ∀ x, OpenOn (Pipe.closeFd s fp fd f) x rip → OpenOn s x rip ∧
      ((Pipe.closeFd s fp fd f).filp x).filp_mode = (s.filp x).filp_mode ∧
      ((s.inode rip).i_pipe = true →
        ((Pipe.closeFd s fp fd f).filp x).filp_pos = (s.filp x).filp_pos) := by
    intro x hx
    unfold OpenOn at hx ⊢
    rw [closeFd_filp, setFilp_filp] at hx ⊢
    split_ifs at hx ⊢ with hxf
    · subst hxf
      exact ⟨⟨hcount.ne', hx.2⟩, rfl, fun _ => rfl⟩
    · exact ⟨hx, rfl, fun _ => rfl⟩
  have hkept : ¬((s.filp f).filp_count - 1 = 0 ∧ rip = (s.filp f).filp_ino) →
      (Pipe.closeFd s fp fd f).inode rip = s.inode rip ∧
        Pipe.opens (Pipe.closeFd s fp fd f) rip = Pipe.opens s rip := by
    intro hno
    rw [if_neg hno] at hopens
    exact ⟨by rw [closeFd_contents, if_neg hno], hopens⟩
  have hput : (s.filp f).filp_count - 1 = 0 ∧ rip = (s.filp f).filp_ino →
      (Pipe.closeFd s fp fd f).inode rip = (Pipe.putInode s rip).inode rip ∧
        Pipe.opens (Pipe.closeFd s fp fd f) rip + 1 = Pipe.opens s rip := by
    intro hlast
    rw [if_pos hlast] at hopens
    exact ⟨by rw [closeFd_contents, if_pos hlast], hopens⟩
  refine ⟨h.closeFd hfd, hfilp, fun hopen => ?_, ?_, ?_, fun hfifo => ?_⟩
  · by_cases hlast : (s.filp f).filp_count - 1 = 0 ∧ rip = (s.filp f).filp_ino
    · obtain ⟨hinode, hless⟩ := hput hlast
      have hle := h.opens rip
      have hmore : ¬(s.inode rip).i_count - 1 = 0 := by omega
      rw [hinode, putInode_self, if_neg hmore]
      exact ⟨rfl, rfl, rfl, rfl⟩
    · rw [(hkept hlast).1]
      exact .refl _
  · by_cases hlast : (s.filp f).filp_count - 1 = 0 ∧ rip = (s.filp f).filp_ino
    · rw [(hput hlast).1]
      exact putInode_size
    · rw [(hkept hlast).1]
  · unfold FsState.history
    rw [closeFd_log]
  · by_cases hlast : (s.filp f).filp_count - 1 = 0 ∧ rip = (s.filp f).filp_ino
    · exact hfifo.put (hput hlast).1 (hput hlast).2 fun x hx => ⟨(hfilp x hx).1, (hfilp x hx).2.1⟩
    · obtain ⟨hinode, hsame⟩ := hkept hlast
      refine ⟨by rw [hinode]; exact hfifo.i_type, by rw [hinode, hsame]; exact hfifo.i_count,
        fun hno => ?_, fun hno => ?_, fun x hx hw => ?_⟩
      · rw [hinode]
        exact hfifo.unused (hsame.symm.trans hno)
      · rw [hinode] at hno ⊢
        exact hfifo.plain hno
      · obtain ⟨hx', hmode, -⟩ := hfilp x hx
        rw [hinode]
        exact hfifo.writers x hx' (hmode ▸ hw)

end Minix.Pipe
