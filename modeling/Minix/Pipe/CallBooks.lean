import Minix.Pipe.Tables

/-!
# The calls keep the books

One lemma for each call, from what suspending, releasing, opening and closing do. The process that
makes the call is running, which is what the main loop sees to.
-/

namespace Minix.Pipe

open Lib
open Kernel (NR_PROCS)

variable {s s' s'' : FsState} {p q who fp : ProcNr} {f f' fil : FilpNr} {rip ip : Ino} {k : Outside}
  {fd : Fin OPEN_MAX} {fild : ℤ} {buffer : ℕ → UInt8} {rw_flag : RwFlag} {fs_call : CallNr}

/-! ## read and write -/

/-- A valid descriptor. -/
theorem getFilp_spec (h : getFilp s fp fild = some (fd, f)) :
    toFd fild = some fd ∧ (s.fproc fp).fp_filp fd = some f := by
  unfold getFilp at h
  cases hfd : toFd fild with
  | none => simp [hfd] at h
  | some d =>
    rw [hfd, Option.bind_some, Option.map_eq_some_iff] at h
    obtain ⟨x, hx, he⟩ := h
    obtain ⟨rfl, rfl⟩ : d = fd ∧ x = f := by simpa using he
    exact ⟨rfl, hx⟩

theorem Inert.pos (n : ℕ) : Inert s (s.setFilp f fun f => { f with filp_pos := n }) :=
  .setFilp rfl rfl

theorem Inert.size (rip : Ino) (n : ℕ) : Inert s (s.setInode rip fun ip => { ip with i_size := n }) :=
  .setInode rfl rfl rfl

theorem Inert.rwEnd {f_size position cum_io : ℕ} {r : ℤ} :
    Inert s (rwEnd s f rip rw_flag f_size position cum_io r).2 := by
  unfold Pipe.rwEnd
  generalize (if r = OK then (cum_io : ℤ) else r) = result
  cases rw_flag with
  | READING =>
    dsimp only
    split_ifs
    · have hsize := Inert.size (s := s) rip 0
      cases findFilp (s.setInode rip fun ip => { ip with i_size := 0 }) rip Mode.W with
      | none => exact hsize.trans (.pos 0)
      | some wf => exact (hsize.trans (.pos (f := wf) 0)).trans (.pos 0)
    · exact .pos position
  | WRITING =>
    dsimp only
    split_ifs
    · exact (Inert.size rip position).trans (.pos position)
    · exact .pos position

theorem Inert.transfer {f_size position n : ℕ} :
    Inert s (transfer k s who f rip rw_flag f_size position n buffer).2 := by
  unfold Pipe.transfer
  cases rw_flag with
  | READING => exact .trans (.record _) .rwEnd
  | WRITING =>
    have hbytes : ∀ m, Inert s (s.setInode rip fun ip =>
        { ip with bytes := writeBytes ip.bytes ip.i_size position m buffer }) :=
      fun _ => .setInode rfl rfl rfl
    exact ((hbytes _).trans (.record _)).trans .rwEnd

theorem Books.rwChar (h : Books s) (hr : Running s who) (hk : ∀ m ∈ k.locked, ¬OnPipe s m.1)
    (hfd : (s.fproc who).fp_filp fd = some f)
    (htype : (s.inode (s.filp f).filp_ino).i_type = .I_CHAR_SPECIAL) {n : ℕ} :
    Books (rwChar k s who fd f (s.filp f).filp_ino rw_flag n buffer).2 := by
  have hdev : Books (Pipe.rwDev none k.locked s) := h.rwDev hk
  have hawake : (Pipe.rwDev none k.locked s).fproc who = s.fproc who := rwDev_of_awake hr.suspended
  have htables : SameFiles s (Pipe.rwDev none k.locked s) := .rwDev
  have hsuspend : ∀ s', s' = (if k.rep_status = SUSPEND then
      Pipe.suspend (Pipe.rwDev none k.locked s) who fd rw_flag.call buffer n (.task k.task)
      else Pipe.rwDev none k.locked s) → Books s' := by
    rintro s' rfl
    split_ifs
    · refine hdev.suspend (hr.congr hawake) fun _ => ⟨f, ?_, ?_⟩
      · rw [hawake]
        exact hfd
      · rw [htables.filp, htables.inode]
        exact htype
    · exact hdev
  unfold Pipe.rwChar
  dsimp only
  split_ifs
  all_goals exact (hsuspend _ (by simp [*])).inert .rwEnd

theorem Books.rwFile (h : Books s) (hr : Running s who) {n : ℕ}
    (htype : (s.inode rip).i_type ≠ .I_CHAR_SPECIAL) :
    Books (rwFile k s who fd f rip rw_flag n buffer).2 := by
  have hcheck : ∀ (oflags : OFlags) (position : ℕ),
      Books (Pipe.pipeCheck s who fd buffer rip rw_flag oflags n position).2 :=
    fun _ _ => h.pipeCheck hr htype
  unfold Pipe.rwFile
  extract_lets oflags f_size writes position
  by_cases hbig : writes ∧ k.s_max_size < (s.filp f).filp_pos + n
  · rw [if_pos hbig]
    exact h
  · rw [if_neg hbig]
    by_cases hpipe : (s.inode rip).i_pipe = true
    · rw [if_pos hpipe]
      dsimp only
      by_cases hstop : (Pipe.pipeCheck s who fd buffer rip rw_flag oflags n position).1 ≤ 0
      · rw [if_pos hstop]
        exact hcheck oflags position
      · rw [if_neg hstop]
        exact (hcheck oflags position).inert .transfer
    · rw [if_neg hpipe]
      exact h.inert .transfer

theorem Books.readWrite (h : Books s) (hr : Running s who) (hk : ∀ m ∈ k.locked, ¬OnPipe s m.1)
    {nbytes : ℤ} : Books (readWrite k s who rw_flag fild nbytes buffer).2 := by
  unfold Pipe.readWrite
  split
  · exact h
  · cases hf : getFilp s who (userFd who fild) with
    | none => exact h
    | some x =>
      obtain ⟨fd, f⟩ := x
      dsimp only
      split
      · exact h
      · split
        · exact h
        · split
          · exact h
          · split
            · next htype => exact h.rwChar hr hk (getFilp_spec hf).2 htype
            · next htype => exact h.rwFile hr htype

theorem Inert.doLseek {offset : ℤ} {whence : ℕ} : Inert s (doLseek s who fild offset whence).2 := by
  unfold Pipe.doLseek
  cases getFilp s who fild with
  | none => exact .refl s
  | some x =>
    dsimp only
    split_ifs
    · exact .refl s
    · split
      · exact .refl s
      · split_ifs
        · exact .refl s
        · exact .pos _

theorem Books.doIoctl (h : Books s) (hr : Running s who) (hk : ∀ m ∈ k.locked, ¬OnPipe s m.1) :
    Books (doIoctl k s who fild).2 := by
  unfold Pipe.doIoctl
  cases hf : getFilp s who fild with
  | none => exact h
  | some x =>
    obtain ⟨fd, f⟩ := x
    have hawake : (Pipe.rwDev none k.locked s).fproc who = s.fproc who := rwDev_of_awake hr.suspended
    have htables : SameFiles s (Pipe.rwDev none k.locked s) := .rwDev
    dsimp only
    split_ifs with htype hsusp
    · exact h
    · refine (h.rwDev hk).suspend (hr.congr hawake) fun _ => ⟨f, ?_, ?_⟩
      · rw [hawake]
        exact (getFilp_spec hf).2
      · rw [htables.filp, htables.inode]
        exact not_not.mp htype
    · exact h.rwDev hk

/-! ## open and creat -/

/-- Descriptors, open files and the users of inodes are as they were. -/
structure Seats (s s' : FsState) : Prop where
  fp_filp : ∀ p, (s'.fproc p).fp_filp = (s.fproc p).fp_filp
  filp : ∀ f, (s'.filp f).filp_count = (s.filp f).filp_count ∧
    (s'.filp f).filp_ino = (s.filp f).filp_ino
  i_count : ∀ rip, (s'.inode rip).i_count = (s.inode rip).i_count

theorem SameTables.seats (h : SameTables s s') : Seats s s' :=
  ⟨h.fp_filp, h.filp, fun rip => (h.inode rip).2.1⟩

theorem Seats.trans (h : Seats s s') (h' : Seats s' s'') : Seats s s'' :=
  ⟨fun p => (h'.fp_filp p).trans (h.fp_filp p),
    fun f => ⟨(h'.filp f).1.trans (h.filp f).1, (h'.filp f).2.trans (h.filp f).2⟩,
    fun rip => (h'.i_count rip).trans (h.i_count rip)⟩

theorem Seats.opens (h : Seats s s') (rip : Ino) : opens s' rip = opens s rip :=
  howMany_congr fun f => by rw [(h.filp f).1, (h.filp f).2]

/-- An inode becomes a pipe. -/
theorem Seats.pipe (s : FsState) (rip : Ino) :
    Seats s (s.setInode rip fun ip => { ip with i_pipe := true }) := by
  refine ⟨fun _ => rfl, fun _ => ⟨rfl, rfl⟩, fun ip => ?_⟩
  rw [setInode_inode]
  split_ifs <;> rfl

theorem Books.pipe (h : Books s) (htype : (s.inode rip).i_type ≠ .I_CHAR_SPECIAL) :
    Books (s.setInode rip fun ip => { ip with i_pipe := true }) := by
  have hh : SameHang s (s.setInode rip fun ip => { ip with i_pipe := true }) :=
    ⟨fun _ => ⟨rfl, rfl, rfl, rfl⟩, rfl, rfl⟩
  have htypes : ∀ ip, ((s.setInode rip fun ip => { ip with i_pipe := true }).inode ip).i_type =
      (s.inode ip).i_type := by
    intro ip
    rw [setInode_inode]
    split_ifs <;> rfl
  refine ⟨h.exact.same hh, h.refs, fun ip => ?_, fun ip hp => ?_,
    h.tasks_kept hh fun _ _ _ _ hx => ⟨hx, rfl, htypes _⟩⟩
  · rw [(Seats.pipe s rip).i_count]
    exact h.opens ip
  · rw [htypes]
    rw [setInode_inode] at hp
    by_cases hip : ip = rip
    · rw [hip]
      exact htype
    · rw [if_neg hip] at hp
      exact h.pipes ip hp

section Opening

variable {oflags : OFlags}

/-- Either it becomes a pipe, and the caller waits for the other side or those who wait for him are
released; or nothing happens, which is an error for a writer. -/
theorem pipeOpen_cases (s : FsState) (fp : ProcNr) (fd : Fin OPEN_MAX) (fs_call : CallNr) (rip : Ino)
    (oflags : OFlags) :
    (pipeOpen s fp fd fs_call rip oflags).2 = s ∧
        (oflags.bits.W_BIT = true → (pipeOpen s fp fd fs_call rip oflags).1 ≠ OK) ∨
      ∃ s', SameFiles s s' ∧ (pipeOpen s fp fd fs_call rip oflags).2 =
        s'.setInode rip fun ip => { ip with i_pipe := true } := by
  unfold pipeOpen
  generalize (if oflags.bits.W_BIT then Mode.R else Mode.W) = other
  by_cases hnone : (findFilp s rip other).isNone = true
  · rw [if_pos hnone]
    by_cases hblock : oflags.O_NONBLOCK = true
    · rw [if_pos hblock]
      refine Or.inl ⟨rfl, fun hw => ?_⟩
      rw [if_pos hw]
      exact (by decide : ENXIO ≠ OK)
    · rw [if_neg hblock]
      exact Or.inr ⟨_, .suspend, rfl⟩
  · rw [if_neg hnone]
    by_cases hsusp : 0 < s.susp_count
    · simp only [if_pos hsusp]
      exact Or.inr ⟨_, .trans .release .release, rfl⟩
    · simp only [if_neg hsusp]
      exact Or.inr ⟨s, .refl s, rfl⟩

theorem Seats.pipeOpen : Seats s (pipeOpen s fp fd fs_call rip oflags).2 := by
  rcases pipeOpen_cases s fp fd fs_call rip oflags with ⟨he, -⟩ | ⟨s', hs, he⟩
  · rw [he]
    exact (SameTables.refl s).seats
  · rw [he]
    exact hs.tables.seats.trans (.pipe s' rip)

theorem Books.pipeOpen (h : Books s) (hr : Running s fp)
    (htype : (s.inode rip).i_type ≠ .I_CHAR_SPECIAL) :
    Books (pipeOpen s fp fd fs_call rip oflags).2 := by
  unfold Pipe.pipeOpen
  generalize (if oflags.bits.W_BIT then Mode.R else Mode.W) = other
  by_cases hnone : (findFilp s rip other).isNone = true
  · rw [if_pos hnone]
    split
    · exact h
    · refine (h.suspend hr fun hno => absurd hno (by decide)).pipe ?_
      rwa [SameFiles.suspend.inode]
  · rw [if_neg hnone]
    dsimp only
    split_ifs with hsusp
    · have hfirst : ∀ call_nr count, SameFiles s (Pipe.release s rip call_nr count) :=
        fun _ _ => .release
      refine ((h.release htype).release ?_).pipe ?_
      · rwa [(hfirst _ _).inode]
      · rwa [SameFiles.release.inode, (hfirst _ _).inode]
    · exact h.pipe htype

/-- The size and the bytes that `O_TRUNC` wipes. -/
theorem wiped_fields (ip : Inode) : (wipeInode (truncate ip)).i_type = ip.i_type ∧
    (wipeInode (truncate ip)).i_count = ip.i_count ∧ (wipeInode (truncate ip)).i_pipe = ip.i_pipe := by
  unfold truncate wipeInode
  split_ifs <;> exact ⟨rfl, rfl, rfl⟩

theorem Inert.wipe (s : FsState) (rip : Ino) :
    Inert s (s.setInode rip fun ip => wipeInode (truncate ip)) :=
  .setInode (wiped_fields _).1 (wiped_fields _).2.1 (wiped_fields _).2.2

theorem Seats.openType : Seats s (openType k s fp fd fs_call rip oflags).2 := by
  unfold Pipe.openType
  cases (s.inode rip).i_type with
  | I_REGULAR =>
    dsimp only
    split_ifs
    · exact (Inert.wipe s rip).tables.seats
    · exact (SameTables.refl s).seats
  | I_DIRECTORY => exact (SameTables.refl s).seats
  | I_CHAR_SPECIAL =>
    dsimp only
    split_ifs
    · exact (SameTables.refl s).seats
    · exact SameFiles.rwDev.tables.seats
  | I_BLOCK_SPECIAL => exact (SameTables.refl s).seats
  | I_NAMED_PIPE => exact .pipeOpen

theorem Books.openType (h : Books s) (hr : Running s fp) (hk : ∀ m ∈ k.tty, ¬OnPipe s m.1) :
    Books (openType k s fp fd fs_call rip oflags).2 := by
  unfold Pipe.openType
  cases htype : (s.inode rip).i_type with
  | I_REGULAR =>
    dsimp only
    split_ifs
    · exact h.inert (.wipe s rip)
    · exact h
  | I_DIRECTORY => exact h
  | I_CHAR_SPECIAL =>
    dsimp only
    split_ifs
    · exact h
    · exact h.rwDev hk
  | I_BLOCK_SPECIAL => exact h
  | I_NAMED_PIPE => exact h.pipeOpen hr (by rw [htype]; decide)

end Opening

/-- The inode has a user more than it has files, which is the one that becomes its file. -/
theorem Books.openFound (h : Books s) (hr : Running s fp) (hk : ∀ m ∈ k.tty, ¬OnPipe s m.1)
    (hfd : (s.fproc fp).fp_filp fd = none) (hfree : (s.filp f).filp_count = 0)
    (hroom : Pipe.opens s rip + 1 ≤ (s.inode rip).i_count) {oflags : OFlags} {exist : Bool} {r : ℤ} :
    Books (openFound k s fp fd f fs_call oflags rip exist r).2 := by
  have hfinish : ∀ (r : ℤ) (s' : FsState), Books s' → Seats s s' → Books
      (if r ≠ OK then (r, Pipe.putInode s' rip) else
        (fd.val, (s'.setFd fp fd (some f)).setFilp f fun f =>
          { f with filp_count := 1, filp_ino := rip, filp_flags := oflags })).2 := by
    intro r s' h' hs
    have hroom' : Pipe.opens s' rip + 1 ≤ (s'.inode rip).i_count := by
      rw [hs.opens, hs.i_count]
      exact hroom
    split
    · exact h'.putInode hroom'
    · dsimp only
      refine h'.claim ?_ ?_ hroom' ?_ ?_
      · rw [hs.fp_filp, hfd]
      · rw [(hs.filp f).1, hfree]
      · rfl
      · rfl
  unfold Pipe.openFound
  cases exist with
  | false => exact hfinish r s h (SameTables.refl s).seats
  | true =>
    by_cases hforbidden : k.forbidden = OK
    · simp only [if_true, hforbidden]
      exact hfinish _ _ (h.openType hr hk) .openType
    · simp only [if_true, hforbidden, if_false]
      exact hfinish _ s h (SameTables.refl s).seats

/-- An inode gets another user, or the first one. -/
theorem Seated.user (h : Seated s) {g : Inode → Inode}
    (hcount : (s.inode rip).i_count ≤ (g (s.inode rip)).i_count) : Seated (s.setInode rip g) := by
  refine ⟨h.refs, fun ip => ?_⟩
  rw [setInode_inode]
  change Pipe.opens s ip ≤ _
  have hle := h.opens ip
  split_ifs with hip
  · subst hip
    omega
  · exact hle

theorem Books.user (h : Books s) {g : Inode → Inode}
    (hold : (g (s.inode rip)).i_type = (s.inode rip).i_type ∧
        ((g (s.inode rip)).i_pipe = true → (s.inode rip).i_pipe = true) ∨
      (s.inode rip).i_count = 0 ∧ (g (s.inode rip)).i_type ≠ .I_CHAR_SPECIAL)
    (hcount : (s.inode rip).i_count ≤ (g (s.inode rip)).i_count) : Books (s.setInode rip g) := by
  have hh : SameHang s (s.setInode rip g) := ⟨fun _ => ⟨rfl, rfl, rfl, rfl⟩, rfl, rfl⟩
  refine ⟨h.exact.same hh, h.refs, (h.seated.user hcount).opens, fun ip hp => ?_,
    h.tasks_kept hh fun q _ d x hx => ⟨hx, rfl, ?_⟩⟩
  · rw [setInode_inode] at hp ⊢
    by_cases hip : ip = rip
    · subst hip
      rw [if_pos rfl] at hp ⊢
      rcases hold with ⟨ht, hpipe⟩ | ⟨-, ht⟩
      · rw [ht]
        exact h.pipes ip (hpipe hp)
      · exact ht
    · rw [if_neg hip] at hp ⊢
      exact h.pipes ip hp
  · rw [setInode_inode]
    split_ifs with hip
    · rcases hold with ⟨ht, -⟩ | ⟨hzero, -⟩
      · rw [hip]
        exact ht
      · have := h.seated.in_use hx
        rw [hip] at this
        omega
    · rfl

theorem Books.commonOpen (h : Books s) (hr : Running s fp) (hk : Honest s k) {oflags : OFlags} :
    Books (commonOpen k s fp fs_call oflags).2 := by
  unfold Pipe.commonOpen
  cases hget : getFd s fp 0 oflags.bits with
  | error r => exact h
  | ok x =>
    obtain ⟨fd, f, s'⟩ := x
    obtain ⟨hi, hfd, hfree, hproc, hinode⟩ := getFd_spec hget
    have hb := h.inert hi
    have hr' : Running s' fp := hi.hang.running.mpr hr
    have htty : ∀ m ∈ k.tty, ¬OnPipe s' m.1 := fun m hm hp => hk.tty m hm (hi.hang.onPipe.mp hp)
    have hfd' : (s'.fproc fp).fp_filp fd = none := by rw [hproc, hfd]
    have hfree' : (s'.filp f).filp_count = 0 := by rw [(hi.tables.filp f).1, hfree]
    dsimp only
    cases hpath : k.path with
    | failed err_code => exact hb
    | found rip =>
      refine Books.openFound (hb.user (Or.inl ⟨rfl, id⟩) (Nat.le_succ _)) (hr'.congr rfl) htty hfd'
        hfree' ?_
      rw [setInode_inode, if_pos rfl]
      exact Nat.succ_le_succ (hb.opens rip)
    | created rip =>
      have hzero : (s'.inode rip).i_count = 0 := by rw [hinode]; exact hk.created rip hpath
      refine Books.openFound (hb.user (Or.inr ⟨hzero, fun hno => ?_⟩) ?_) (hr'.congr rfl) htty hfd'
        hfree' ?_
      · exact absurd (show FileType.I_REGULAR = .I_CHAR_SPECIAL from hno) (by decide)
      · rw [hzero]
        exact Nat.zero_le _
      · rw [setInode_inode, if_pos rfl]
        have hle := hb.opens rip
        change Pipe.opens s' rip + 1 ≤ 1
        omega

/-! ## close, dup and fcntl -/

/-- Those who hang on a pipe are released when a file is closed. -/
def closeRelease (s : FsState) (rfilp : FilpNr) : FsState :=
  if (s.inode (s.filp rfilp).filp_ino).i_pipe then
    Pipe.release s (s.filp rfilp).filp_ino
      (if (s.filp rfilp).filp_mode.R_BIT then .WRITE else .READ) NR_PROCS else s

theorem SameFiles.closeRelease : SameFiles s (closeRelease s f) := by
  unfold Pipe.closeRelease
  split
  · exact .release
  · exact .refl s

theorem closeRelease_of_awake (h : (s.fproc p).fp_suspended = false) :
    (closeRelease s f).fproc p = s.fproc p := by
  unfold closeRelease
  split
  · exact release_of_awake h
  · rfl

/-- What `do_close` does with a valid descriptor. -/
theorem doClose_eq (h : getFilp s fp fild = some (fd, f)) :
    doClose s fp fild = (OK, Pipe.closeFd (closeRelease s f) fp fd f) := by
  have hfilp : (Pipe.closeRelease s f).filp = s.filp := SameFiles.closeRelease.filp
  unfold doClose
  rw [h]
  dsimp only
  change (OK, FsState.setFd (if (((Pipe.closeRelease s f).setFilp f _).filp f).filp_count = 0 then
    Pipe.putInode ((Pipe.closeRelease s f).setFilp f _) (s.filp f).filp_ino
    else (Pipe.closeRelease s f).setFilp f _) fp fd none) = _
  unfold Pipe.closeFd
  dsimp only
  have hsame : (((Pipe.closeRelease s f).setFilp f fun f =>
      { f with filp_count := f.filp_count - 1 }).filp f).filp_ino = (s.filp f).filp_ino := by
    rw [setFilp_filp, if_pos rfl, hfilp]
  rw [hsame]

theorem Books.doClose (h : Books s) (hawake : (s.fproc fp).fp_suspended = false) :
    Books (doClose s fp fild).2 := by
  cases hf : getFilp s fp fild with
  | none =>
    unfold Pipe.doClose
    rw [hf]
    exact h
  | some x =>
    obtain ⟨fd, f⟩ := x
    obtain ⟨-, hfd⟩ := getFilp_spec hf
    have he := closeRelease_of_awake (f := f) hawake
    have hb : Books (Pipe.closeRelease s f) := by
      unfold Pipe.closeRelease
      split
      · next hpipe => exact h.release (h.pipes _ hpipe)
      · exact h
    rw [doClose_eq hf]
    refine hb.closeFd (by rw [he, hfd]) fun hno => ?_
    have := hno.1
    rw [he, hawake] at this
    exact absurd this (by decide)

/-- Only the one descriptor changes. -/
theorem doClose_row (d : Fin OPEN_MAX) : ((doClose s fp fild).2.fproc fp).fp_filp d =
    if toFd fild = some d then none else (s.fproc fp).fp_filp d := by
  cases hf : getFilp s fp fild with
  | none =>
    have hsame : doClose s fp fild = (EBADF, s) := by
      unfold doClose
      rw [hf]
    rw [hsame]
    dsimp only
    split
    · next hd =>
      unfold getFilp at hf
      rw [hd, Option.bind_some, Option.map_eq_none_iff] at hf
      exact hf
    · rfl
  | some x =>
    obtain ⟨fd, f⟩ := x
    obtain ⟨hd, -⟩ := getFilp_spec hf
    have hreleased : SameFiles s (Pipe.closeRelease s f) := .closeRelease
    rw [doClose_eq hf]
    dsimp only
    rw [closeFd_fproc, setFd_fp_filp, hreleased.fp_filp, hd]
    by_cases hdd : d = fd
    · rw [if_pos ⟨rfl, hdd⟩, if_pos (by rw [hdd])]
    · rw [if_neg fun e => hdd e.2, if_neg fun e => hdd (Option.some.inj e).symm]

/-- The process does not wait. -/
theorem doClose_awake (hawake : (s.fproc fp).fp_suspended = false) :
    ((doClose s fp fild).2.fproc fp).fp_suspended = false := by
  cases hf : getFilp s fp fild with
  | none =>
    unfold doClose
    rw [hf]
    exact hawake
  | some x =>
    obtain ⟨fd, f⟩ := x
    have hh : SameHang (Pipe.closeRelease s f) ((Pipe.closeRelease s f).setFd fp fd none) := .setFd
    rw [doClose_eq hf]
    dsimp only
    rw [closeFd_fproc, (hh.procs fp).1, closeRelease_of_awake hawake]
    exact hawake

/-- A free descriptor becomes one more of an open file. -/
theorem Books.dupFree (h : Books s) {start : ℕ} {bits : Mode} {d : Fin OPEN_MAX}
    (hf : (s.fproc fp).fp_filp fd = some f) (hget : getFd s fp start bits = .ok (d, f', s')) :
    Books ((s'.setFilp f fun f => { f with filp_count := f.filp_count + 1 }).setFd fp d (some f)) := by
  obtain ⟨hi, hd, -, hproc, -⟩ := getFd_spec hget
  refine (h.inert hi).dup ?_ ?_
  · rw [hproc, hd]
  · rw [(hi.tables.filp f).1]
    exact h.seated.open hf

theorem Books.doDup (h : Books s) (hawake : (s.fproc fp).fp_suspended = false) {fd2 : Option ℤ} :
    Books (doDup s fp fild fd2).2 := by
  unfold Pipe.doDup
  cases hf : getFilp s fp fild with
  | none => exact h
  | some x =>
    obtain ⟨fd, f⟩ := x
    obtain ⟨-, hfd⟩ := getFilp_spec hf
    dsimp only
    cases fd2 with
    | none =>
      dsimp only
      cases hget : getFd s fp 0 Mode.none with
      | error r => exact h
      | ok y =>
        obtain ⟨new_fd, f', s'⟩ := y
        exact h.dupFree hfd hget
    | some fd2 =>
      dsimp only
      cases hnew : toFd fd2 with
      | none => exact h
      | some new_fd =>
        dsimp only
        split
        · exact h
        · next hne =>
          -- What is closed is not the file itself, which has the descriptor `fd`.
          have hrow : ∀ d, ((Pipe.doClose s fp fd2).2.fproc fp).fp_filp d =
              if toFd fd2 = some d then none else (s.fproc fp).fp_filp d := doClose_row
          have hb : Books (Pipe.doClose s fp fd2).2 := h.doClose hawake
          have hstays : ((Pipe.doClose s fp fd2).2.fproc fp).fp_filp fd = some f := by
            rw [hrow, if_neg, hfd]
            rw [hnew]
            exact fun e => hne (Option.some.inj e).symm
          refine hb.dup ?_ (hb.seated.open hstays)
          rw [hrow, if_pos hnew]

theorem Books.doFcntl (h : Books s) {request : Fcntl} : Books (doFcntl s fp fild request).2 := by
  unfold Pipe.doFcntl
  cases hf : getFilp s fp fild with
  | none => exact h
  | some x =>
    obtain ⟨fd, f⟩ := x
    obtain ⟨-, hfd⟩ := getFilp_spec hf
    dsimp only
    cases request with
    | F_DUPFD addr =>
      dsimp only
      split
      · exact h
      · cases hget : getFd s fp addr.toNat Mode.none with
        | error r => exact h
        | ok y =>
          obtain ⟨new_fd, f', s'⟩ := y
          exact h.dupFree hfd hget
    | F_GETFL => exact h
    | F_SETFL append nonblock =>
      have hi : Inert s (s.setFilp f fun f =>
          { f with filp_flags := { f.filp_flags with O_APPEND := append, O_NONBLOCK := nonblock } }) :=
        .setFilp rfl rfl
      exact h.inert hi
    | other => exact h

/-! ## exit -/

/-- Closing descriptors one after the other. -/
theorem Books.closeList (h : Books s) (hawake : (s.fproc fp).fp_suspended = false)
    (l : List (Fin OPEN_MAX)) :
    Books (l.foldl (fun s i => (Pipe.doClose s fp i.val).2) s) := by
  induction l generalizing s with
  | nil => exact h
  | cons i rest ih => exact ih (h.doClose hawake) (doClose_awake hawake)

theorem Books.doExit (h : Books s) (hk : Honest s k) (hidle : s.reviving = 0) {slot1 : ProcNr} :
    Books (doExit k s who slot1).2 := by
  unfold Pipe.doExit
  split
  · exact h
  · refine Books.closeList ?_ exitUnpause_suspended fds
    refine (h.rwDev hk.tty).exitUnpause (fun m hm hp => hk.locked m hm (onPipe_rwDev hp)) ?_
    rw [rwDev_reviving hk.tty, hidle]

/-! ## fork -/

/-- How many descriptors of a process refer to an open file. -/
def rowRefs (rfp : Fproc) (f : FilpNr) : ℕ := howMany fun d => rfp.fp_filp d == some f

theorem refs_eq_sum (s : FsState) (f : FilpNr) : refs s f = ∑ p, rowRefs (s.fproc p) f :=
  howMany_prod _

/-- The state after a `fork`. -/
def forked (s : FsState) (parent child : ProcNr) : FsState :=
  { s with
    fproc := Function.update s.fproc child (s.fproc parent)
    filp := fun f => { s.filp f with
      filp_count := (s.filp f).filp_count + rowRefs (s.fproc parent) f } }

theorem doFork_eq (s : FsState) {parent child : ProcNr} :
    (doFork s MM_PROC_NR parent child).2 = forked s parent child := by
  unfold doFork forked rowRefs
  rw [if_neg (not_not.mpr rfl)]
  dsimp only
  simp only [Function.update_self, howMany_fin]
  rfl

/-- The descriptors of the child are counted as often as the parent has them. -/
theorem refs_forked {parent child : ProcNr} (hempty : ∀ d, (s.fproc child).fp_filp d = none)
    (f : FilpNr) : refs (forked s parent child) f = refs s f + rowRefs (s.fproc parent) f := by
  have hzero : rowRefs (s.fproc child) f = 0 :=
    howMany_eq_zero.mpr fun d => by rw [hempty]; rfl
  have hchange := sum_change_one (p := child) (a := 0) (d := rowRefs (s.fproc parent) f)
    (f := fun q => rowRefs ((forked s parent child).fproc q) f) (g := fun q => rowRefs (s.fproc q) f)
    (fun q hq => by unfold forked; dsimp only; rw [Function.update_of_ne hq])
    (by unfold forked; dsimp only; rw [Function.update_self, hzero, Nat.add_zero, Nat.zero_add])
  rw [Nat.add_zero] at hchange
  rw [refs_eq_sum, refs_eq_sum]
  exact hchange

theorem forked_fproc {parent child : ProcNr} (q : ProcNr) : (forked s parent child).fproc q =
    if q = child then s.fproc parent else s.fproc q :=
  Function.update_apply _ _ _ q

/-- A file that is not open has no descriptor. -/
theorem Seated.rowRefs (h : Seated s) (hno : (s.filp f).filp_count = 0) (p : ProcNr) :
    rowRefs (s.fproc p) f = 0 := by
  refine howMany_eq_zero.mpr fun d => ?_
  by_contra hd
  have hd : (s.fproc p).fp_filp d = some f := by simpa using hd
  have := h.open hd
  omega

theorem Seated.forked (h : Seated s) {parent child : ProcNr}
    (hempty : ∀ d, (s.fproc child).fp_filp d = none) : Seated (forked s parent child) := by
  refine ⟨fun f => ?_, fun rip => le_trans (le_of_eq (howMany_congr fun f => ?_)) (h.opens rip)⟩
  · rw [refs_forked hempty, ← h.refs]
    rfl
  · have hiff : ((s.filp f).filp_count + Pipe.rowRefs (s.fproc parent) f != 0) =
        ((s.filp f).filp_count != 0) := by
      by_cases hno : (s.filp f).filp_count = 0
      · rw [hno, h.rowRefs hno]
      · have hsum : (s.filp f).filp_count + Pipe.rowRefs (s.fproc parent) f ≠ 0 := by omega
        rw [bne_iff_ne.mpr hsum, bne_iff_ne.mpr hno]
    exact congrArg (· && (s.filp f).filp_ino == rip) hiff

theorem Books.forked (h : Books s) {parent child : ProcNr}
    (hparent : (s.fproc parent).fp_suspended = false)
    (hchild : (s.fproc child).fp_suspended = false)
    (hempty : ∀ d, (s.fproc child).fp_filp d = none) (hidle : s.reviving = 0) :
    Books (forked s parent child) := by
  have hseated : Seated (Pipe.forked s parent child) := h.seated.forked hempty
  have hrevived := h.exact.quiet hidle
  refine ⟨⟨?_, ?_⟩, hseated.refs, hseated.opens, h.pipes, fun q hq => ?_⟩
  · refine h.exact.susp_count.trans (congrArg Nat.cast (howMany_congr fun q => ?_).symm)
    unfold waits Fproc.waits
    rw [forked_fproc]
    split
    · next hq => rw [hq, hparent, hchild]; rfl
    · rfl
  · refine h.exact.reviving.trans (congrArg Nat.cast (howMany_congr fun q => ?_).symm)
    rw [forked_fproc]
    split
    · next hq => rw [hrevived, hrevived]
    · rfl
  · have hne : q ≠ child := by
      rintro rfl
      have := hq.1
      rw [forked_fproc, if_pos rfl, hparent] at this
      exact absurd this (by decide)
    unfold OnTask at hq
    rw [forked_fproc, if_neg hne] at hq ⊢
    exact h.tasks q hq

/-! ## pipe -/

/-- What is open is as it was, and nothing else is: at most free entries of `filp[]` have changed.
-/
structure Unclaimed (s s' : FsState) : Prop where
  hang : SameHang s s'
  fp_filp : ∀ q, (s'.fproc q).fp_filp = (s.fproc q).fp_filp
  filp : ∀ f, s'.filp f = s.filp f ∨ (s.filp f).filp_count = 0 ∧ (s'.filp f).filp_count = 0 ∧
    (s'.filp f).filp_ino = (s.filp f).filp_ino
  inode : s'.inode = s.inode
  history : ∀ rip, s'.history rip = s.history rip

theorem Unclaimed.inert (h : Unclaimed s s') : Inert s s' := by
  refine ⟨h.hang, h.fp_filp, fun f => ?_, fun rip => by rw [h.inode]; exact ⟨rfl, rfl, rfl⟩⟩
  rcases h.filp f with he | ⟨hold, hnew, hino⟩
  · rw [he]
    exact ⟨rfl, rfl⟩
  · exact ⟨hnew.trans hold.symm, hino⟩

theorem Unclaimed.refl (s : FsState) : Unclaimed s s :=
  ⟨.refl s, fun _ => rfl, fun _ => Or.inl rfl, rfl, fun _ => rfl⟩

theorem SameHang.setFilp {g : Filp → Filp} : SameHang s (s.setFilp f g) :=
  ⟨fun _ => ⟨rfl, rfl, rfl, rfl⟩, rfl, rfl⟩

/-- What `get_fd` fills in is a free entry. -/
theorem Unclaimed.getFd {start : ℕ} {bits : Mode} (h : getFd s fp start bits = .ok (fd, f, s')) :
    Unclaimed s s' := by
  obtain ⟨-, hfree, rfl⟩ := getFd_eq h
  refine ⟨.setFilp, fun _ => rfl, fun x => ?_, rfl, fun _ => rfl⟩
  rw [setFilp_filp]
  split_ifs with hx
  · exact Or.inr ⟨hx ▸ hfree, hx ▸ hfree, rfl⟩
  · exact Or.inl rfl

/-- A filp slot that `get_fd` has filled in, opened for the inode. -/
def Filp.opened (bits : Mode) (rip : Ino) : Filp := ⟨bits, OFlags.zero, 1, rip, 0⟩

/-- The inode of a new pipe, in the end. -/
def Inode.newPipe (ip : Inode) : Inode :=
  { wipeInode ip with i_type := .I_REGULAR, i_nlinks := 0, i_count := 2, i_pipe := true }

/-- One descriptor of a new pipe. -/
def pipeEnd (s : FsState) (fp : ProcNr) (fd : Fin OPEN_MAX) (fil : FilpNr) (bits : Mode) (rip : Ino) :
    FsState :=
  (s.setFd fp fd (some fil)).setFilp fil fun _ => .opened bits rip

/-- A new pipe with two descriptors. -/
def piped (s : FsState) (fp : ProcNr) (rip : Ino) (fd₀ fd₁ : Fin OPEN_MAX) (fil₀ fil₁ : FilpNr) :
    FsState :=
  pipeEnd (pipeEnd (s.setInode rip Inode.newPipe) fp fd₀ fil₀ Mode.R rip) fp fd₁ fil₁ Mode.W rip

/-- The descriptors and filp slots are free, and there are two of each. -/
structure Vacant (s : FsState) (fp : ProcNr) (fd₀ fd₁ : Fin OPEN_MAX) (fil₀ fil₁ : FilpNr) : Prop where
  fds : fd₁ ≠ fd₀
  filps : fil₁ ≠ fil₀
  fd₀ : (s.fproc fp).fp_filp fd₀ = none
  fd₁ : (s.fproc fp).fp_filp fd₁ = none
  fil₀ : (s.filp fil₀).filp_count = 0
  fil₁ : (s.filp fil₁).filp_count = 0

/-- A descriptor with a filp slot of its own. -/
def claimed (s : FsState) (fp : ProcNr) (fd : Fin OPEN_MAX) (f : FilpNr) (bits : Mode) : FsState :=
  ((s.setFilp f (Filp.slot bits)).setFd fp fd (some f)).setFilp f fun f => { f with filp_count := 1 }

/-- They are given back. -/
def unclaimed (s : FsState) (fp : ProcNr) (fd : Fin OPEN_MAX) (f : FilpNr) : FsState :=
  (s.setFd fp fd none).setFilp f fun f => { f with filp_count := 0 }

theorem claimed_fp_filp {bits : Mode} (q : ProcNr) (d : Fin OPEN_MAX) :
    ((claimed s fp fd f bits).fproc q).fp_filp d =
      if q = fp ∧ d = fd then some f else (s.fproc q).fp_filp d :=
  setFd_fp_filp s fp q fd d (some f)

theorem unclaimed_fp_filp (q : ProcNr) (d : Fin OPEN_MAX) :
    ((unclaimed s fp fd f).fproc q).fp_filp d =
      if q = fp ∧ d = fd then none else (s.fproc q).fp_filp d :=
  setFd_fp_filp s fp q fd d none

theorem claimed_filp {bits : Mode} (x : FilpNr) : (claimed s fp fd f bits).filp x =
    if x = f then { (s.filp x).slot bits with filp_count := 1 } else s.filp x := by
  unfold claimed
  rw [setFilp_filp, setFd_filp, setFilp_filp]
  split_ifs <;> rfl

theorem unclaimed_filp (x : FilpNr) : (unclaimed s fp fd f).filp x =
    if x = f then { s.filp x with filp_count := 0 } else s.filp x :=
  setFilp_filp _ f x _

theorem SameHang.claimed {bits : Mode} : SameHang s (claimed s fp fd f bits) :=
  .trans .setFilp (.trans .setFd .setFilp)

theorem SameHang.unclaimed : SameHang s (unclaimed s fp fd f) := .trans .setFd .setFilp

/-- What has been claimed is given back: one descriptor. -/
theorem Unclaimed.one {bits : Mode} (hfd : (s.fproc fp).fp_filp fd = none)
    (hfree : (s.filp f).filp_count = 0) :
    Unclaimed s (unclaimed (claimed s fp fd f bits) fp fd f) := by
  refine ⟨.trans .claimed .unclaimed, fun q => funext fun d => ?_, fun x => ?_, rfl, fun _ => rfl⟩
  · rw [unclaimed_fp_filp, claimed_fp_filp]
    split
    · next hq => rw [hq.1, hq.2, hfd]
    · rfl
  · rw [unclaimed_filp, claimed_filp]
    split
    · next hx => exact Or.inr ⟨hx ▸ hfree, rfl, rfl⟩
    · exact Or.inl rfl

section Two

variable {fd₀ fd₁ : Fin OPEN_MAX} {fil₀ fil₁ : FilpNr} (hv : Vacant s fp fd₀ fd₁ fil₀ fil₁)
include hv

/-- Two descriptors, the first of them first. -/
theorem Unclaimed.two : Unclaimed s (unclaimed (unclaimed
    (claimed (claimed s fp fd₀ fil₀ Mode.R) fp fd₁ fil₁ Mode.W) fp fd₀ fil₀) fp fd₁ fil₁) := by
  refine ⟨.trans .claimed (.trans .claimed (.trans .unclaimed .unclaimed)),
    fun q => funext fun d => ?_, fun x => ?_, rfl, fun _ => rfl⟩
  · rw [unclaimed_fp_filp, unclaimed_fp_filp, claimed_fp_filp, claimed_fp_filp]
    by_cases h₁ : q = fp ∧ d = fd₁
    · rw [if_pos h₁, h₁.1, h₁.2, hv.fd₁]
    · by_cases h₀ : q = fp ∧ d = fd₀
      · rw [if_neg h₁, if_pos h₀, h₀.1, h₀.2, hv.fd₀]
      · rw [if_neg h₁, if_neg h₀, if_neg h₁, if_neg h₀]
  · rw [unclaimed_filp, unclaimed_filp, claimed_filp, claimed_filp]
    by_cases h₁ : x = fil₁
    · subst h₁
      rw [if_pos rfl, if_neg hv.filps, if_pos rfl, if_neg hv.filps]
      exact Or.inr ⟨hv.fil₁, rfl, rfl⟩
    · by_cases h₀ : x = fil₀
      · subst h₀
        rw [if_neg h₁, if_pos rfl, if_neg h₁, if_pos rfl]
        exact Or.inr ⟨hv.fil₀, rfl, rfl⟩
      · rw [if_neg h₁, if_neg h₀, if_neg h₁, if_neg h₀]
        exact Or.inl rfl

/-- Both become those of a new pipe. -/
theorem piped_eq (rip : Ino) :
    (dupInode (((claimed (claimed s fp fd₀ fil₀ Mode.R) fp fd₁ fil₁ Mode.W).setInode rip fun ip =>
      { wipeInode ip with i_type := .I_REGULAR, i_nlinks := 0, i_count := 1, i_pipe := true }).setFilp
        fil₀ fun f => { f with filp_ino := rip }) rip).setFilp fil₁ (fun f =>
          { f with filp_ino := rip }) = piped s fp rip fd₀ fd₁ fil₀ fil₁ := by
  refine FsState.ext rfl (funext fun x => ?_) (funext fun ip => ?_) rfl rfl rfl rfl rfl
  · unfold dupInode piped pipeEnd
    simp only [setFilp_filp, setInode_filp, setFd_filp, claimed_filp]
    by_cases h₁ : x = fil₁
    · subst h₁
      rw [if_pos rfl, if_neg hv.filps, if_pos rfl, if_neg hv.filps, if_pos rfl]
      rfl
    · by_cases h₀ : x = fil₀
      · subst h₀
        rw [if_neg h₁, if_pos rfl, if_neg h₁, if_pos rfl, if_neg h₁, if_pos rfl]
        rfl
      · rw [if_neg h₁, if_neg h₀, if_neg h₁, if_neg h₀, if_neg h₁, if_neg h₀]
  · unfold dupInode piped pipeEnd
    simp only [setFilp_inode, setFd_inode, setInode_inode]
    split_ifs
    · rfl
    · rfl

end Two

/-- Either there is a new pipe, or nothing is left of it; which is an error of `get_fd`, if an inode
could have been allocated. -/
theorem doPipe_cases (k : Outside) (s : FsState) (fp : ProcNr) :
    Unclaimed s (doPipe k s fp).2 ∧ (∀ rip, k.alloc = .ok rip → (doPipe k s fp).1 ≠ OK) ∨
      ∃ rip fd₀ fd₁ fil₀ fil₁, k.alloc = .ok rip ∧
      Vacant s fp fd₀ fd₁ fil₀ fil₁ ∧ doPipe k s fp = (OK, piped s fp rip fd₀ fd₁ fil₀ fil₁) := by
  unfold doPipe
  cases hget₀ : getFd s fp 0 Mode.R with
  | error r => exact Or.inl ⟨.refl s, fun _ _ => getFd_error hget₀⟩
  | ok x =>
    obtain ⟨fd₀, fil₀, s₀⟩ := x
    obtain ⟨hfd₀, hfree₀, rfl⟩ := getFd_eq hget₀
    dsimp only
    cases hget₁ : getFd (((s.setFilp fil₀ (Filp.slot Mode.R)).setFd fp fd₀ (some fil₀)).setFilp fil₀
        fun f => { f with filp_count := 1 }) fp 0 Mode.W with
    | error r => exact Or.inl ⟨.one hfd₀ hfree₀, fun _ _ => getFd_error hget₁⟩
    | ok y =>
      obtain ⟨fd₁, fil₁, s₁⟩ := y
      have hget : getFd (claimed s fp fd₀ fil₀ Mode.R) fp 0 Mode.W = .ok (fd₁, fil₁, s₁) := hget₁
      obtain ⟨hfd₁, hfree₁, rfl⟩ := getFd_eq hget
      have hne : fd₁ ≠ fd₀ := by
        rintro rfl
        rw [claimed_fp_filp, if_pos ⟨rfl, rfl⟩] at hfd₁
        exact absurd hfd₁ (by simp)
      have hnef : fil₁ ≠ fil₀ := by
        rintro rfl
        rw [claimed_filp, if_pos rfl] at hfree₁
        exact absurd hfree₁ one_ne_zero
      rw [claimed_fp_filp, if_neg fun e => hne e.2] at hfd₁
      rw [claimed_filp, if_neg hnef] at hfree₁
      have hv : Vacant s fp fd₀ fd₁ fil₀ fil₁ := ⟨hne, hnef, hfd₀, hfd₁, hfree₀, hfree₁⟩
      dsimp only
      cases halloc : k.alloc with
      | error err_code => exact Or.inl ⟨.two hv, fun _ hno => absurd hno (by simp)⟩
      | ok rip =>
        exact Or.inr ⟨rip, fd₀, fd₁, fil₀, fil₁, rfl, hv, congrArg (Prod.mk OK) (piped_eq hv rip)⟩

theorem piped_filp (s : FsState) (fp : ProcNr) (rip : Ino) (fd₀ fd₁ : Fin OPEN_MAX)
    (fil₀ fil₁ x : FilpNr) : (piped s fp rip fd₀ fd₁ fil₀ fil₁).filp x =
      if x = fil₁ then .opened Mode.W rip else
        if x = fil₀ then .opened Mode.R rip else s.filp x := by
  unfold piped pipeEnd
  simp only [setFilp_filp, setFd_filp, setInode_filp]

section Ends

variable {fd₀ fd₁ : Fin OPEN_MAX} {fil₀ fil₁ : FilpNr}

theorem newPipe_count : ((s.setInode rip Inode.newPipe).inode rip).i_count = 2 := by
  rw [setInode_inode, if_pos rfl]
  rfl

/-- There is room for the first end, and then for the second. -/
theorem room_first (hzero : Pipe.opens s rip = 0) :
    Pipe.opens (s.setInode rip Inode.newPipe) rip + 1 ≤
      ((s.setInode rip Inode.newPipe).inode rip).i_count := by
  rw [newPipe_count]
  change Pipe.opens s rip + 1 ≤ 2
  omega

theorem room_second (hv : Vacant s fp fd₀ fd₁ fil₀ fil₁) (hzero : Pipe.opens s rip = 0) :
    Pipe.opens (pipeEnd (s.setInode rip Inode.newPipe) fp fd₀ fil₀ Mode.R rip) rip + 1 ≤
      ((pipeEnd (s.setInode rip Inode.newPipe) fp fd₀ fil₀ Mode.R rip).inode rip).i_count := by
  have hone : Pipe.opens (s.setFilp fil₀ fun _ => .opened Mode.R rip) rip + _ = _ :=
    opens_setFilp (s := s)
  rw [if_neg fun e => e.1 hv.fil₀, if_pos ⟨one_ne_zero, rfl⟩, hzero] at hone
  change Pipe.opens (s.setFilp fil₀ fun _ => .opened Mode.R rip) rip + 1 ≤
    ((s.setInode rip Inode.newPipe).inode rip).i_count
  rw [newPipe_count]
  omega

theorem pipeEnd_free (hv : Vacant s fp fd₀ fd₁ fil₀ fil₁) :
    ((pipeEnd (s.setInode rip Inode.newPipe) fp fd₀ fil₀ Mode.R rip).fproc fp).fp_filp fd₁ = none ∧
      ((pipeEnd (s.setInode rip Inode.newPipe) fp fd₀ fil₀ Mode.R rip).filp fil₁).filp_count = 0 := by
  unfold pipeEnd
  rw [setFilp_fproc, setFd_fp_filp, if_neg fun e => hv.fds e.2, setFilp_filp, if_neg hv.filps]
  exact ⟨hv.fd₁, hv.fil₁⟩

theorem Seated.piped (h : Seated s) (hv : Vacant s fp fd₀ fd₁ fil₀ fil₁)
    (hzero : (s.inode rip).i_count = 0) : Seated (piped s fp rip fd₀ fd₁ fil₀ fil₁) := by
  have hopens : Pipe.opens s rip = 0 := Nat.le_zero.mp (hzero ▸ h.opens rip)
  have huser : Seated (s.setInode rip Inode.newPipe) := h.user (by rw [hzero]; exact Nat.zero_le _)
  have hfirst : Seated (pipeEnd (s.setInode rip Inode.newPipe) fp fd₀ fil₀ Mode.R rip) :=
    huser.claim (g := fun _ => .opened Mode.R rip) hv.fd₀ hv.fil₀ (room_first hopens) rfl rfl
  exact hfirst.claim (g := fun _ => .opened Mode.W rip) (pipeEnd_free hv).1 (pipeEnd_free hv).2
    (room_second hv hopens) rfl rfl

theorem Books.piped (h : Books s) (hv : Vacant s fp fd₀ fd₁ fil₀ fil₁)
    (hzero : (s.inode rip).i_count = 0) : Books (piped s fp rip fd₀ fd₁ fil₀ fil₁) := by
  have hopens : Pipe.opens s rip = 0 := Nat.le_zero.mp (hzero ▸ h.opens rip)
  have htype : (s.inode rip).newPipe.i_type ≠ .I_CHAR_SPECIAL := fun hno =>
    absurd (show FileType.I_REGULAR = .I_CHAR_SPECIAL from hno) (by decide)
  have huser : Books (s.setInode rip Inode.newPipe) :=
    h.user (Or.inr ⟨hzero, htype⟩) (by rw [hzero]; exact Nat.zero_le _)
  have hfirst : Books (pipeEnd (s.setInode rip Inode.newPipe) fp fd₀ fil₀ Mode.R rip) :=
    huser.claim (g := fun _ => .opened Mode.R rip) hv.fd₀ hv.fil₀ (room_first hopens) rfl rfl
  exact hfirst.claim (g := fun _ => .opened Mode.W rip) (pipeEnd_free hv).1 (pipeEnd_free hv).2
    (room_second hv hopens) rfl rfl

end Ends

theorem Books.doPipe (h : Books s) (hk : Honest s k) : Books (doPipe k s fp).2 := by
  rcases doPipe_cases k s fp with ⟨hno, -⟩ | ⟨rip, fd₀, fd₁, fil₀, fil₁, halloc, hv, he⟩
  · exact h.inert hno.inert
  · rw [he]
    exact h.piped hv (hk.alloc rip halloc)

/-! ## The start -/

theorem FsBoot.books (h : FsBoot s) : Books s := by
  have hwaits : ∀ p, waits s p = false := fun p => by simp [waits, Fproc.waits, h.suspended]
  refine ⟨⟨?_, ?_⟩, fun f => ?_, fun rip => ?_, fun rip hp => ?_, fun p hp => ?_⟩
  · rw [h.susp_count, howMany_eq_zero.mpr hwaits]
    rfl
  · rw [h.reviving, howMany_eq_zero.mpr h.revived]
    rfl
  · rw [h.filp_count]
    exact (howMany_eq_zero.mpr fun x => by rw [h.fp_filp]; rfl).symm
  · have hzero : opens s rip = 0 := howMany_eq_zero.mpr fun f => by rw [h.filp_count]; rfl
    rw [hzero]
    exact Nat.zero_le _
  · rw [h.i_pipe] at hp
    exact absurd hp (by decide)
  · have := hp.1
    rw [h.suspended] at this
    exact absurd this (by decide)

theorem FsBoot.seated (h : FsBoot s) : Seated s := h.books.seated

end Minix.Pipe
