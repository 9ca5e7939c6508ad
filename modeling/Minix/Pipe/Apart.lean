import Minix.Pipe.Keeps

/-!
# The calls that leave a pipe alone

One lemma for each call: unless it reads, writes or opens the pipe itself, it is one of those that
keep the pipe (`Quiet`). With that the tables are in order after every turn (`Seated.step`), also
when a call of `open` has been aborted and the counters are wrong.
-/

namespace Minix.Pipe

open Lib
open Kernel (NR_PROCS)

variable {s s' s'' : FsState} {p q who fp : ProcNr} {f f' fil : FilpNr} {rip ip : Ino} {k : Outside}
  {fd : Fin OPEN_MAX} {fild : ℤ} {buffer : ℕ → UInt8} {rw_flag : RwFlag} {fs_call : CallNr}

/-! ## read and write -/

/-- Fields of another inode, none of which says who uses it. -/
theorem Quiet.contents (h : Seated s) {g : Inode → Inode} (hne : ip ≠ rip)
    (hcount : (g (s.inode ip)).i_count = (s.inode ip).i_count) : Quiet rip s (s.setInode ip g) :=
  .setInode h hne hcount.ge

theorem Quiet.pos (h : Seated s) (hf : (s.filp f).filp_ino ≠ rip) (n : ℕ) :
    Quiet rip s (s.setFilp f fun f => { f with filp_pos := n }) :=
  .setFilp h rfl rfl (Or.inl hf)

/-- The file that has been read or written is another one. -/
theorem Quiet.rwEnd (h : Seated s) (hne : ip ≠ rip) (hf : (s.filp f).filp_ino = ip)
    {f_size position cum_io : ℕ} {r : ℤ} :
    Quiet rip s (rwEnd s f ip rw_flag f_size position cum_io r).2 := by
  have hfne : (s.filp f).filp_ino ≠ rip := hf ▸ hne
  have hsize : ∀ n, Quiet rip s (s.setInode ip fun ip => { ip with i_size := n }) :=
    fun n => .contents h hne rfl
  unfold Pipe.rwEnd
  generalize (if r = OK then (cum_io : ℤ) else r) = result
  cases rw_flag with
  | READING =>
    dsimp only
    split_ifs
    · have hempty := hsize 0
      cases hwf : findFilp (s.setInode ip fun ip => { ip with i_size := 0 }) ip Mode.W with
      | none => exact hempty.trans (.pos hempty.seated hfne 0)
      | some wf =>
        have hino : (s.filp wf).filp_ino = ip := by
          have hfound := List.find?_some hwf
          simp only [Bool.and_eq_true, beq_iff_eq] at hfound
          exact hfound.1.2
        have hwriter : Quiet rip (s.setInode ip fun ip => { ip with i_size := 0 }) _ :=
          .pos (f := wf) hempty.seated (by rw [setInode_filp, hino]; exact hne) 0
        refine (hempty.trans hwriter).trans (.pos hwriter.seated ?_ 0)
        rw [setFilp_filp]
        split_ifs
        · exact hfne
        · exact hfne
    · exact .pos h hfne position
  | WRITING =>
    dsimp only
    split_ifs
    · exact (hsize position).trans (.pos (hsize position).seated hfne position)
    · exact .pos h hfne position

theorem Quiet.transfer (h : Seated s) (hne : ip ≠ rip) (hf : (s.filp f).filp_ino = ip)
    {f_size position n : ℕ} :
    Quiet rip s (transfer k s who f ip rw_flag f_size position n buffer).2 := by
  unfold Pipe.transfer
  cases rw_flag with
  | READING =>
    have hread : ∀ bytes, Quiet rip s (s.record (.read who ip bytes)) :=
      fun _ => .record h (beq_false_of_ne hne)
    exact (hread _).trans (.rwEnd (hread _).seated hne hf)
  | WRITING =>
    have hbytes : ∀ m, Quiet rip s (s.setInode ip fun ip =>
        { ip with bytes := writeBytes ip.bytes ip.i_size position m buffer }) :=
      fun _ => .contents h hne rfl
    have hwrote : ∀ m bytes, Quiet rip s ((s.setInode ip fun ip =>
        { ip with bytes := writeBytes ip.bytes ip.i_size position m buffer }).record
          (.wrote who ip bytes)) :=
      fun m _ => (hbytes m).trans (.record (hbytes m).seated (beq_false_of_ne hne))
    exact (hwrote _ _).trans (.rwEnd (hwrote _ _).seated hne hf)

theorem Quiet.rwChar (h : Seated s) (hne : ip ≠ rip) (hf : (s.filp f).filp_ino = ip) {n : ℕ} :
    Quiet rip s (rwChar k s who fd f ip rw_flag n buffer).2 := by
  have hdev : SameFiles s (Pipe.rwDev none k.locked s) := .rwDev
  have hsuspend : ∀ s', s' = (if k.rep_status = SUSPEND then
      Pipe.suspend (Pipe.rwDev none k.locked s) who fd rw_flag.call buffer n (.task k.task)
      else Pipe.rwDev none k.locked s) → SameFiles s s' := by
    rintro s' rfl
    split_ifs
    · exact hdev.trans .suspend
    · exact hdev
  have hend : ∀ s' f_size position cum_io r, SameFiles s s' →
      Quiet rip s (Pipe.rwEnd s' f ip rw_flag f_size position cum_io r).2 := by
    intro s' f_size position cum_io r hs
    have hquiet : Quiet rip s s' := .files h hs
    exact hquiet.trans (.rwEnd hquiet.seated hne (by rw [hs.filp, hf]))
  unfold Pipe.rwChar
  dsimp only
  split_ifs
  all_goals exact hend _ _ _ _ _ (hsuspend _ (by simp [*]))

theorem Quiet.rwFile (h : Seated s) (hne : ip ≠ rip) (hf : (s.filp f).filp_ino = ip) {n : ℕ} :
    Quiet rip s (rwFile k s who fd f ip rw_flag n buffer).2 := by
  unfold Pipe.rwFile
  extract_lets oflags f_size writes position
  by_cases hbig : writes ∧ k.s_max_size < (s.filp f).filp_pos + n
  · rw [if_pos hbig]
    exact .refl h
  · rw [if_neg hbig]
    by_cases hpipe : (s.inode ip).i_pipe = true
    · have hcheck : SameFiles s (Pipe.pipeCheck s who fd buffer ip rw_flag oflags n position).2 :=
        .pipeCheck
      have hquiet : Quiet rip s (Pipe.pipeCheck s who fd buffer ip rw_flag oflags n position).2 :=
        .files h hcheck
      rw [if_pos hpipe]
      dsimp only
      by_cases hstop : (Pipe.pipeCheck s who fd buffer ip rw_flag oflags n position).1 ≤ 0
      · rw [if_pos hstop]
        exact hquiet
      · rw [if_neg hstop]
        exact hquiet.trans (.transfer hquiet.seated hne (by rw [hcheck.filp, hf]))
    · rw [if_neg hpipe]
      exact .transfer h hne hf

/-- A read or write of another file. -/
theorem Quiet.readWrite (h : Seated s)
    (hne : ∀ fd f, getFilp s who (userFd who fild) = some (fd, f) → (s.filp f).filp_ino ≠ rip)
    {nbytes : ℤ} : Quiet rip s (readWrite k s who rw_flag fild nbytes buffer).2 := by
  unfold Pipe.readWrite
  split
  · exact .refl h
  · cases hf : getFilp s who (userFd who fild) with
    | none => exact .refl h
    | some x =>
      obtain ⟨fd, f⟩ := x
      dsimp only
      split_ifs
      · exact .refl h
      · exact .refl h
      · exact .refl h
      · exact .rwChar h (hne fd f hf) rfl
      · exact .rwFile h (hne fd f hf) rfl

/-- Nobody seeks on a pipe. -/
theorem Quiet.doLseek (h : Seated s) {offset : ℤ} {whence : ℕ} :
    Quiet rip s (doLseek s who fild offset whence).2 := by
  unfold Pipe.doLseek
  cases getFilp s who fild with
  | none => exact .refl h
  | some x =>
    obtain ⟨-, f⟩ := x
    dsimp only
    split_ifs with hpipe
    · exact .refl h
    · have hpos : ∀ n, Quiet rip s (s.setFilp f fun f => { f with filp_pos := n }) := by
        intro n
        refine .setFilp h rfl rfl ?_
        by_cases hino : (s.filp f).filp_ino = rip
        · exact Or.inr ⟨rfl, fun hp => absurd (hino.symm ▸ hp) hpipe⟩
        · exact Or.inl hino
      split
      · exact .refl h
      · split_ifs
        · exact .refl h
        · exact hpos _

theorem Quiet.doIoctl (h : Seated s) : Quiet rip s (doIoctl k s who fild).2 := by
  have hdev : SameFiles s (Pipe.rwDev none k.locked s) := .rwDev
  unfold Pipe.doIoctl
  cases getFilp s who fild with
  | none => exact .refl h
  | some x =>
    dsimp only
    split_ifs
    · exact .refl h
    · exact .files h (hdev.trans .suspend)
    · exact .files h hdev

/-! ## open and creat -/

/-- Another inode is opened, as far as its type matters. -/
theorem Quiet.openType (h : Seated s) (hne : ip ≠ rip) {oflags : OFlags} :
    Quiet rip s (openType k s fp fd fs_call ip oflags).2 := by
  unfold Pipe.openType
  cases (s.inode ip).i_type with
  | I_REGULAR =>
    dsimp only
    split_ifs
    · exact .contents h hne (wiped_fields _).2.1
    · exact .refl h
  | I_DIRECTORY => exact .refl h
  | I_CHAR_SPECIAL =>
    dsimp only
    split_ifs
    · exact .refl h
    · exact .files h .rwDev
  | I_BLOCK_SPECIAL => exact .refl h
  | I_NAMED_PIPE =>
    dsimp only
    rcases pipeOpen_cases s fp fd fs_call ip oflags with ⟨he, -⟩ | ⟨s', hs, he⟩
    · rw [he]
      exact .refl h
    · have hquiet : Quiet rip s s' := .files h hs
      rw [he]
      exact hquiet.trans (.contents hquiet.seated hne rfl)

theorem Quiet.openFound (h : Seated s) (hne : ip ≠ rip) (hfd : (s.fproc fp).fp_filp fd = none)
    (hfree : (s.filp f).filp_count = 0) (hroom : Pipe.opens s ip + 1 ≤ (s.inode ip).i_count)
    {oflags : OFlags} {exist : Bool} {r : ℤ} :
    Quiet rip s (openFound k s fp fd f fs_call oflags ip exist r).2 := by
  have hfinish : ∀ (r : ℤ) (s' : FsState), Quiet rip s s' → Seats s s' → Quiet rip s
      (if r ≠ OK then (r, Pipe.putInode s' ip) else
        (fd.val, (s'.setFd fp fd (some f)).setFilp f fun f =>
          { f with filp_count := 1, filp_ino := ip, filp_flags := oflags })).2 := by
    intro r s' hq hs
    have hroom' : Pipe.opens s' ip + 1 ≤ (s'.inode ip).i_count := by
      rw [hs.opens, hs.i_count]
      exact hroom
    refine hq.trans ?_
    split
    · exact .putInode hq.seated hne hroom'
    · dsimp only
      refine .claim hq.seated hne ?_ ?_ hroom' ?_ ?_
      · rw [hs.fp_filp, hfd]
      · rw [(hs.filp f).1, hfree]
      · rfl
      · rfl
  unfold Pipe.openFound
  cases exist with
  | false => exact hfinish r s (.refl h) (SameTables.refl s).seats
  | true =>
    by_cases hforbidden : k.forbidden = OK
    · simp only [if_true, hforbidden]
      exact hfinish _ _ (.openType h hne) .openType
    · simp only [if_true, hforbidden, if_false]
      exact hfinish _ s (.refl h) (SameTables.refl s).seats

/-- Another inode is opened. -/
theorem Quiet.commonOpen (h : Seated s) (hk : Honest s k) (hfound : k.path ≠ .found rip)
    (hcreated : k.path ≠ .created rip) {oflags : OFlags} :
    Quiet rip s (commonOpen k s fp fs_call oflags).2 := by
  unfold Pipe.commonOpen
  cases hget : getFd s fp 0 oflags.bits with
  | error r => exact .refl h
  | ok x =>
    obtain ⟨fd, f, s'⟩ := x
    obtain ⟨hi, hfd, hfree, hproc, hinode⟩ := getFd_spec hget
    have hquiet : Quiet rip s s' := .unclaimed h (.getFd hget)
    have hs := hquiet.seated
    have hfd' : (s'.fproc fp).fp_filp fd = none := by rw [hproc, hfd]
    have hfree' : (s'.filp f).filp_count = 0 := by rw [(hi.tables.filp f).1, hfree]
    dsimp only
    cases hpath : k.path with
    | failed err_code => exact hquiet
    | found ip =>
      have hne : ip ≠ rip := fun e => hfound (e ▸ hpath)
      have huser : Quiet rip s' (dupInode s' ip) := .setInode hs hne (Nat.le_succ _)
      refine (hquiet.trans huser).trans (.openFound huser.seated hne hfd' hfree' ?_)
      unfold dupInode
      rw [setInode_inode, if_pos rfl]
      exact Nat.succ_le_succ (hs.opens ip)
    | created ip =>
      have hne : ip ≠ rip := fun e => hcreated (e ▸ hpath)
      have hzero : (s'.inode ip).i_count = 0 := by rw [hinode]; exact hk.created ip hpath
      have huser : Quiet rip s' (s'.setInode ip fun ip => { wipeInode ip with
          i_type := .I_REGULAR, i_nlinks := 1, i_count := 1, i_pipe := false }) :=
        .setInode hs hne (by rw [hzero]; exact Nat.zero_le _)
      refine (hquiet.trans huser).trans (.openFound huser.seated hne hfd' hfree' ?_)
      rw [setInode_inode, if_pos rfl]
      have hle := hs.opens ip
      change Pipe.opens s' ip + 1 ≤ 1
      omega

/-! ## close, dup and fcntl -/

theorem Quiet.doClose (h : Seated s) : Quiet rip s (doClose s fp fild).2 := by
  cases hf : getFilp s fp fild with
  | none =>
    unfold Pipe.doClose
    rw [hf]
    exact .refl h
  | some x =>
    obtain ⟨fd, f⟩ := x
    have hreleased : SameFiles s (closeRelease s f) := .closeRelease
    have hquiet : Quiet rip s (closeRelease s f) := .files h hreleased
    rw [doClose_eq hf]
    refine hquiet.trans (.closeFd hquiet.seated ?_)
    rw [hreleased.fp_filp]
    exact (getFilp_spec hf).2

/-- A free descriptor becomes one more of an open file. -/
theorem Quiet.dupFree (h : Seated s) {start : ℕ} {bits : Mode} {d : Fin OPEN_MAX}
    (hf : (s.fproc fp).fp_filp fd = some f) (hget : getFd s fp start bits = .ok (d, f', s')) :
    Quiet rip s
      ((s'.setFilp f fun f => { f with filp_count := f.filp_count + 1 }).setFd fp d (some f)) := by
  obtain ⟨hi, hd, -, hproc, -⟩ := getFd_spec hget
  have hquiet : Quiet rip s s' := .unclaimed h (.getFd hget)
  refine hquiet.trans (.dup hquiet.seated ?_ ?_)
  · rw [hproc, hd]
  · rw [(hi.tables.filp f).1]
    exact h.open hf

theorem Quiet.doDup (h : Seated s) {fd2 : Option ℤ} : Quiet rip s (doDup s fp fild fd2).2 := by
  unfold Pipe.doDup
  cases hf : getFilp s fp fild with
  | none => exact .refl h
  | some x =>
    obtain ⟨fd, f⟩ := x
    obtain ⟨-, hfd⟩ := getFilp_spec hf
    dsimp only
    cases fd2 with
    | none =>
      dsimp only
      cases hget : getFd s fp 0 Mode.none with
      | error r => exact .refl h
      | ok y => exact .dupFree h hfd hget
    | some fd2 =>
      dsimp only
      cases hnew : toFd fd2 with
      | none => exact .refl h
      | some new_fd =>
        dsimp only
        split
        · exact .refl h
        · next hne =>
          -- What is closed is not the file itself, which has the descriptor `fd`.
          have hrow : ∀ d, ((Pipe.doClose s fp fd2).2.fproc fp).fp_filp d =
              if toFd fd2 = some d then none else (s.fproc fp).fp_filp d := doClose_row
          have hquiet : Quiet rip s (Pipe.doClose s fp fd2).2 := .doClose h
          have hstays : ((Pipe.doClose s fp fd2).2.fproc fp).fp_filp fd = some f := by
            rw [hrow, if_neg, hfd]
            rw [hnew]
            exact fun e => hne (Option.some.inj e).symm
          refine hquiet.trans (.dup hquiet.seated ?_ (hquiet.seated.open hstays))
          rw [hrow, if_pos hnew]

theorem Quiet.doFcntl (h : Seated s) {request : Fcntl} :
    Quiet rip s (doFcntl s fp fild request).2 := by
  unfold Pipe.doFcntl
  cases hf : getFilp s fp fild with
  | none => exact .refl h
  | some x =>
    obtain ⟨fd, f⟩ := x
    obtain ⟨-, hfd⟩ := getFilp_spec hf
    dsimp only
    cases request with
    | F_DUPFD addr =>
      dsimp only
      split
      · exact .refl h
      · cases hget : getFd s fp addr.toNat Mode.none with
        | error r => exact .refl h
        | ok y => exact .dupFree h hfd hget
    | F_GETFL => exact .refl h
    | F_SETFL append nonblock =>
      dsimp only
      refine .setFilp h ?_ ?_ (Or.inr ⟨?_, fun _ => ?_⟩)
      all_goals rfl
    | other => exact .refl h

/-! ## exit, fork and pipe -/

theorem Quiet.closeList (h : Seated s) (l : List (Fin OPEN_MAX)) :
    Quiet rip s (l.foldl (fun s i => (Pipe.doClose s fp i.val).2) s) := by
  induction l generalizing s with
  | nil => exact .refl h
  | cons i rest ih =>
    have hfirst : Quiet rip s (Pipe.doClose s fp i.val).2 := .doClose h
    exact hfirst.trans (ih hfirst.seated)

theorem Quiet.doExit (h : Seated s) {slot1 : ProcNr} : Quiet rip s (doExit k s who slot1).2 := by
  unfold Pipe.doExit
  split
  · exact .refl h
  · have hunpaused : SameFiles s (exitUnpause k (rwDev none k.tty s) slot1) :=
      .trans .rwDev .exitUnpause
    have hquiet : Quiet rip s (exitUnpause k (rwDev none k.tty s) slot1) := .files h hunpaused
    exact hquiet.trans (.closeList hquiet.seated fds)

/-- The child has been no process. -/
theorem Quiet.doFork (h : Seated s) {parent child : ProcNr}
    (hempty : ∀ d, (s.fproc child).fp_filp d = none) :
    Quiet rip s (doFork s who parent child).2 := by
  by_cases hwho : who = MM_PROC_NR
  · subst hwho
    rw [doFork_eq]
    exact .forked h hempty
  · unfold Pipe.doFork
    rw [if_pos hwho]
    exact .refl h

theorem Seated.doPipe (h : Seated s) (hk : Honest s k) : Seated (doPipe k s fp).2 := by
  rcases doPipe_cases k s fp with ⟨hno, -⟩ | ⟨ip, fd₀, fd₁, fil₀, fil₁, halloc, hv, he⟩
  · exact h.tables hno.inert.tables
  · rw [he]
    exact h.piped hv (hk.alloc ip halloc)

/-- The new pipe is another one. -/
theorem Quiet.doPipe (h : Seated s) (hk : Honest s k) (hne : k.alloc ≠ .ok rip) :
    Quiet rip s (doPipe k s fp).2 := by
  refine ⟨h.doPipe hk, ?_⟩
  rcases doPipe_cases k s fp with ⟨hno, -⟩ | ⟨ip, fd₀, fd₁, fil₀, fil₁, halloc, hv, he⟩
  · exact (Quiet.unclaimed h hno).keeps
  · have hip : ip ≠ rip := fun e => hne (e ▸ halloc)
    have hinode : (piped s fp ip fd₀ fd₁ fil₀ fil₁).inode rip = s.inode rip := by
      unfold piped pipeEnd
      simp only [setFilp_inode, setFd_inode, setInode_inode, if_neg hip.symm]
    rw [he]
    refine .of_same ?_ ?_ (fun x => ?_) (fun x hx => ?_) rfl
    · rw [hinode]
      exact .refl _
    · rw [hinode]
    · unfold OpenOn
      rw [piped_filp]
      split_ifs with h₁ h₀
      · rw [h₁, hv.fil₁]
        simp [Filp.opened, hip]
      · rw [h₀, hv.fil₀]
        simp [Filp.opened, hip]
      · exact Iff.rfl
    · have h₁ : x ≠ fil₁ := fun e => hx.1 (e ▸ hv.fil₁)
      have h₀ : x ≠ fil₀ := fun e => hx.1 (e ▸ hv.fil₀)
      rw [piped_filp, if_neg h₁, if_neg h₀]
      exact ⟨rfl, fun _ => rfl⟩

/-! ## Turns -/

/-- A call that has nothing to do with descriptors, and leaves the pipe's inode as it is but for its
links. -/
def Leaves (rip : Ino) (s : FsState) (inode : Ino → Inode) : Prop :=
  SameBytes (s.inode rip) (inode rip) ∧ (inode rip).i_count = (s.inode rip).i_count

/-- The call neither reads, writes, opens nor makes the pipe. -/
def NotOf (rip : Ino) (s : FsState) (who : ProcNr) (k : Outside) : FsCall → Prop
  | .read fd _ => ∀ d f, getFilp s who (userFd who fd) = some (d, f) → (s.filp f).filp_ino ≠ rip
  | .write fd _ _ => ∀ d f, getFilp s who (userFd who fd) = some (d, f) → (s.filp f).filp_ino ≠ rip
  | .open _ => k.path ≠ .found rip ∧ k.path ≠ .created rip
  | .creat => k.path ≠ .found rip ∧ k.path ≠ .created rip
  | .pipe => k.alloc ≠ .ok rip
  | .other inode _ => Leaves rip s inode
  | _ => True

/-- Such a call leaves the pipe alone. -/
theorem Quiet.perform (h : Seated s) (hk : Honest s k) {c : FsCall} (hc : Proper s c)
    (hno : NotOf rip s who k c) : Quiet rip s (perform k s who c).2 := by
  cases c with
  | read fd nbytes => exact .readWrite h hno
  | write fd nbytes buffer => exact .readWrite h hno
  | «open» oflags => exact .commonOpen h hk hno.1 hno.2
  | creat => exact .commonOpen h hk hno.1 hno.2
  | close fd => exact .doClose h
  | lseek ls_fd offset whence => exact .doLseek h
  | dup rfd fd2 => exact .doDup h
  | fcntl fd request => exact .doFcntl h
  | ioctl ls_fd => exact .doIoctl h
  | pipe => exact .doPipe h hk hno
  | fork parent child => exact .doFork h hc.2.2
  | exit slot1 => exact .doExit h
  | unpause pro => exact .files h .doUnpause
  | other inode result =>
    refine ⟨⟨h.refs, fun ip => (hc ip).2.2⟩, ?_⟩
    exact .of_same hno.1 hno.2 (fun _ => Iff.rfl) (fun _ _ => ⟨rfl, fun _ => rfl⟩) rfl

/-- A call reads, writes, opens or makes at most one file. -/
theorem exists_notOf (s : FsState) (who : ProcNr) (k : Outside) {c : FsCall}
    (hc : ∀ inode result, c ≠ .other inode result) : ∃ other, NotOf other s who k c := by
  have haccess : ∀ fd, ∃ other, ∀ d f, getFilp s who fd = some (d, f) →
      (s.filp f).filp_ino ≠ other := by
    intro fd
    cases hf : getFilp s who fd with
    | none => exact ⟨0, fun d f hsome => absurd hsome (by simp)⟩
    | some x =>
      refine ⟨(s.filp x.2).filp_ino + 1, fun d f hsome => ?_⟩
      rw [Option.some.inj hsome]
      exact (Nat.lt_succ_self _).ne
  have hpath : ∃ other, k.path ≠ .found other ∧ k.path ≠ .created other := by
    cases k.path with
    | failed err_code => exact ⟨0, by simp, by simp⟩
    | found ip => exact ⟨ip + 1, by simp, by simp⟩
    | created ip => exact ⟨ip + 1, by simp, by simp⟩
  cases c with
  | read fd nbytes => exact haccess _
  | write fd nbytes buffer => exact haccess _
  | «open» oflags => exact hpath
  | creat => exact hpath
  | pipe =>
    cases halloc : k.alloc with
    | error err_code => exact ⟨0, by simp [NotOf, halloc]⟩
    | ok ip => exact ⟨ip + 1, by simp [NotOf, halloc]⟩
  | other inode result => exact absurd rfl (hc inode result)
  | _ => exact ⟨0, trivial⟩

/-- The tables are kept by every call. -/
theorem Seated.perform (h : Seated s) (hk : Honest s k) {c : FsCall} (hc : Proper s c) :
    Seated (perform k s who c).2 := by
  by_cases hother : ∃ inode result, c = .other inode result
  · obtain ⟨inode, result, rfl⟩ := hother
    exact ⟨h.refs, fun ip => (hc ip).2.2⟩
  · obtain ⟨other, hno⟩ := exists_notOf s who k fun inode result e => hother ⟨inode, result, e⟩
    exact (Quiet.perform h hk hc hno).seated

/-- What the main loop does before and after a call. -/
theorem SameFiles.dontReply (b : Bool) : SameFiles s { s with dont_reply := b } :=
  ⟨fun _ => rfl, rfl, rfl, fun _ => rfl⟩

theorem SameFiles.sendReply {r : ℤ × FsState} : SameFiles r.2 (sendReply who r) := by
  unfold Pipe.sendReply
  split
  · exact .refl _
  · exact ⟨fun _ => rfl, rfl, rfl, fun _ => rfl⟩

theorem SameFiles.getWork (hwork : getWork s = some (who, s')) : SameFiles s s' := by
  unfold Pipe.getWork at hwork
  rw [Option.map_eq_some_iff] at hwork
  obtain ⟨rp, -, he⟩ := hwork
  obtain ⟨rfl, rfl⟩ := Prod.mk.inj he
  have hproc : SameFiles s (s.setProc rp fun rfp =>
      { rfp with fp_suspended := false, fp_revived := false }) := .setProc rfl
  exact hproc.trans ⟨fun _ => rfl, rfl, rfl, fun _ => rfl⟩

/-- The call that is made in a turn, by whom, and what is answered; nothing if a task is done. -/
def turnOf (s : FsState) : FsAction → Option (ProcNr × FsCall × Outside)
  | .message who c k => some (who, c, k)
  | .restart k => (getWork s).map fun work => (work.1, savedCall (s.fproc work.1), k)
  | .revive _ _ => none

/-- What the call returns. -/
def returned (s : FsState) : FsAction → Option ℤ
  | .message who c k => some (perform k { s with dont_reply := false } who c).1
  | .restart k => (getWork s).map fun work =>
      (perform k { work.2 with dont_reply := false } work.1 (savedCall (s.fproc work.1))).1
  | .revive _ _ => none

theorem savedCall_proper (s : FsState) (rfp : Fproc) : Proper s (savedCall rfp) := by
  unfold savedCall
  cases rfp.fp_fd.2 <;> trivial

/-- A turn does a call, before and after which nothing happens to files, or nothing happens to them.
-/
theorem FsStep.turn {act : FsAction} (hst : FsStep s act s') :
    (turnOf s act = none ∧ SameFiles s s') ∨ ∃ who c k s₁, turnOf s act = some (who, c, k) ∧
      returned s act = some (perform k s₁ who c).1 ∧ SameFiles s s₁ ∧ Honest s₁ k ∧ Proper s₁ c ∧
        SameFiles (perform k s₁ who c).2 s' := by
  cases hst with
  | @message who c k hidle hrun hk hc =>
    refine Or.inr ⟨who, c, k, _, rfl, rfl, .dontReply false, ⟨hk.locked, hk.tty, hk.alloc, hk.created⟩,
      ?_, .sendReply⟩
    cases c <;> exact hc
  | @restart who k s₁ hbusy hwork hk =>
    refine Or.inr ⟨who, savedCall (s.fproc who), k, { s₁ with dont_reply := false }, ?_, ?_,
      (SameFiles.getWork hwork).trans (.dontReply false), ⟨hk.locked, hk.tty, hk.alloc, hk.created⟩,
      savedCall_proper _ _, .sendReply⟩
    · unfold turnOf
      rw [hwork]
      rfl
    · unfold returned
      rw [hwork]
      rfl
  | revive hidle hk =>
    exact Or.inl ⟨rfl, (SameFiles.dontReply false).trans (.trans .revive (.dontReply true))⟩

/-- The tables are kept by every turn. -/
theorem Seated.step {act : FsAction} (h : Seated s) (hst : FsStep s act s') : Seated s' := by
  rcases hst.turn with ⟨-, hs⟩ | ⟨who, c, k, s₁, -, -, hbefore, hk, hc, hafter⟩
  · exact h.tables hs.tables
  · exact ((h.tables hbefore.tables).perform hk hc).tables hafter.tables

end Minix.Pipe
