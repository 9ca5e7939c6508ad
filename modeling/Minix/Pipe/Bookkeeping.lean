import Minix.Lib.Run
import Minix.Pipe.CallBooks

/-!
# Suspension bookkeeping

Every turn of the main loop keeps the books, but for one: `do_unpause` of a process that waits in
`open` or `creat` does not take it from `susp_count`, as `do_exit` does when it calls `do_unpause`.
Without such calls the two counters are exact after each turn (`suspension_bookkeeping`). What is
asked of `do_unpause` itself it does for processes that wait for tasks, and for no others: nothing
happens to a process that waits at a pipe, and one that waits in `open` keeps the descriptor of a
call that has failed.
-/

namespace Minix.Pipe

open Lib
open Kernel (NR_PROCS)

variable {s s' : FsState} {p q who fp pro : ProcNr} {f : FilpNr} {rip : Ino} {k : Outside} {c : FsCall}
  {act : FsAction}

/-! ## One turn -/

/-- Calls that have nothing to do with descriptors. -/
theorem Books.other (h : Books s) {inode : Ino → Inode} {result : ℤ}
    (hc : Proper s (.other inode result)) : Books { s with inode := inode } := by
  have hh : SameHang s { s with inode := inode } := ⟨fun _ => ⟨rfl, rfl, rfl, rfl⟩, rfl, rfl⟩
  refine ⟨h.exact.same hh, h.refs, fun rip => (hc rip).2.2, fun rip hp => ?_,
    h.tasks_kept hh fun q _ d x hx => ⟨hx, rfl, ?_⟩⟩
  · obtain ⟨hpipe, htype, -⟩ := hc rip
    have hp : (s.inode rip).i_pipe = true := hpipe.symm.trans hp
    change (inode rip).i_type ≠ _
    rw [htype (Or.inr hp)]
    exact h.pipes rip hp
  · exact (hc _).2.1 (Or.inl (h.seated.in_use hx).ne')

/-- The process waits for a file to be opened at the other end. -/
structure Opening (s : FsState) (p : ProcNr) : Prop where
  suspended : (s.fproc p).fp_suspended = true
  fp_task : (s.fproc p).fp_task = .XOPEN

/-- The calls for which processes are suspended do not include those of the memory manager. -/
theorem savedCall_ne (rfp : Fproc) : (∀ parent child, .fork parent child ≠ savedCall rfp) ∧
    (∀ slot1, .exit slot1 ≠ savedCall rfp) ∧ ∀ pro, .unpause pro ≠ savedCall rfp := by
  unfold savedCall
  cases rfp.fp_fd.2 <;> simp

/-- The function that does the work, for a call that is new or was saved. -/
theorem Books.perform (h : Books s) (hr : Running s who) (hk : Honest s k) (hc : Proper s c)
    (hidle : s.reviving = 0 ∨ ∃ rfp, c = savedCall rfp)
    (hun : ∀ pro, c = .unpause pro → ¬MM_PROC_NR < who → ¬Opening s pro) :
    Books (perform k s who c).2 := by
  have hfresh : (∀ rfp, c ≠ savedCall rfp) → s.reviving = 0 := by
    intro hne
    rcases hidle with hz | ⟨rfp, he⟩
    · exact hz
    · exact absurd he (hne rfp)
  cases c with
  | read fd nbytes => exact h.readWrite hr hk.locked
  | write fd nbytes buffer => exact h.readWrite hr hk.locked
  | «open» oflags => exact h.commonOpen hr hk
  | creat => exact h.commonOpen hr hk
  | close fd => exact h.doClose hr.suspended
  | lseek ls_fd offset whence => exact h.inert .doLseek
  | dup rfd fd2 => exact h.doDup hr.suspended
  | fcntl fd request => exact h.doFcntl
  | ioctl ls_fd => exact h.doIoctl hr hk.locked
  | pipe => exact h.doPipe hk
  | fork parent child =>
    by_cases hwho : who = MM_PROC_NR
    · subst hwho
      obtain ⟨hparent, hchild, hempty⟩ := hc
      change Books (doFork s MM_PROC_NR parent child).2
      rw [doFork_eq]
      exact h.forked hparent hchild hempty (hfresh fun rfp => (savedCall_ne rfp).1 _ _)
    · change Books (doFork s who parent child).2
      unfold doFork
      rw [if_pos hwho]
      exact h
  | exit slot1 => exact h.doExit hk (hfresh fun rfp => (savedCall_ne rfp).2.1 _)
  | unpause pro => exact h.doUnpause hk.locked fun hwho hsusp htask => hun pro rfl hwho ⟨hsusp, htask⟩
  | other inode result => exact h.other hc

theorem Inert.sendReply {r : ℤ × FsState} : Inert r.2 (sendReply who r) := by
  unfold Pipe.sendReply
  split
  · exact .refl _
  · exact ⟨⟨fun _ => ⟨rfl, rfl, rfl, rfl⟩, rfl, rfl⟩,
      ⟨fun _ => rfl, fun _ => ⟨rfl, rfl⟩, fun _ => ⟨rfl, rfl, rfl⟩⟩⟩

/-- The flag that says whether to reply is not in the books. -/
theorem Inert.dontReply (b : Bool) : Inert s { s with dont_reply := b } :=
  ⟨⟨fun _ => ⟨rfl, rfl, rfl, rfl⟩, rfl, rfl⟩,
    ⟨fun _ => rfl, fun _ => ⟨rfl, rfl⟩, fun _ => ⟨rfl, rfl, rfl⟩⟩⟩

theorem Books.mainTurn (h : Books s) (hr : Running s who) (hk : Honest s k) (hc : Proper s c)
    (hidle : s.reviving = 0 ∨ ∃ rfp, c = savedCall rfp)
    (hun : ∀ pro, c = .unpause pro → ¬MM_PROC_NR < who → ¬Opening s pro) :
    Books (mainTurn k s who c) := by
  have hk' : Honest { s with dont_reply := false } k := ⟨hk.locked, hk.tty, hk.alloc, hk.created⟩
  have hc' : Proper { s with dont_reply := false } c := by
    cases c <;> exact hc
  have hun' : ∀ pro, c = .unpause pro → ¬MM_PROC_NR < who →
      ¬Opening { s with dont_reply := false } pro :=
    fun pro he hwho ho => hun pro he hwho ⟨ho.suspended, ho.fp_task⟩
  exact ((h.inert (.dontReply false)).perform (hr.congr rfl) hk' hc' hidle hun').inert .sendReply

/-- A process is awakened to do its call again. -/
theorem Books.getWork (h : Books s) (hwork : getWork s = some (who, s')) :
    Books s' ∧ Running s' who := by
  unfold Pipe.getWork at hwork
  cases hfind : fprocs.find? fun rp => (s.fproc rp).fp_revived with
  | none => simp [hfind] at hwork
  | some rp =>
    rw [hfind, Option.map_some, Option.some.injEq, Prod.mk.injEq] at hwork
    obtain ⟨rfl, rfl⟩ := hwork
    have hrev := List.find?_some hfind
    constructor
    · refine h.proc (p := rp) rfl rfl rfl rfl ?_ ?_ fun hno => absurd hno (by simp)
      · simp [waits, Fproc.waits, hrev, FsState.setProc]
      · simp [hrev]
    · constructor
      · simp [FsState.setProc]
      · simp [FsState.setProc]

/-- The memory manager asks to abort a call of `open` or `creat`. -/
def Interrupts (s : FsState) : FsAction → Prop
  | .message who (.unpause pro) _ => ¬MM_PROC_NR < who ∧ Opening s pro
  | _ => False

/-- Any other turn keeps the books. -/
theorem Books.step (h : Books s) (hst : FsStep s act s') (hno : ¬Interrupts s act) : Books s' := by
  cases hst with
  | @message who c k hidle hrun hk hc =>
    have hr : Running s who := ⟨hrun, h.exact.quiet hidle who⟩
    refine h.mainTurn hr hk hc (Or.inl hidle) fun pro he hwho ho => hno ?_
    subst he
    exact ⟨hwho, ho⟩
  | @restart who k s₁ hbusy hwork hk =>
    obtain ⟨hb, hr⟩ := h.getWork hwork
    have hc : Proper s₁ (savedCall (s.fproc who)) := by
      unfold savedCall
      cases (s.fproc who).fp_fd.2 <;> trivial
    exact hb.mainTurn hr hk hc (Or.inr ⟨_, rfl⟩) fun pro he =>
      absurd he.symm ((savedCall_ne _).2.2 pro)
  | revive hidle hk =>
    exact (Books.revive (h.inert (.dontReply false)) hk).inert (.dontReply true)

/-! ## do_unpause -/

/-- The call of a process is aborted as it should be: it goes on with one error reply, the counters
are exact, and a call that would have opened a file has opened none. -/
structure Aborted (s s' : FsState) (pro : ProcNr) : Prop where
  suspended : (s'.fproc pro).fp_suspended = false
  replied : ∃ new, s'.replies = new ++ s.replies ∧
    new.filter (fun r => r.1 = pro) = [(pro, EINTR)]
  exact : Exact s'
  closed : Opening s pro → (s'.fproc pro).fp_filp (s.fproc pro).fp_fd.1 = none ∧
    ∀ f, (s.fproc pro).fp_filp (s.fproc pro).fp_fd.1 = some f →
      (s'.filp f).filp_count + 1 = (s.filp f).filp_count

theorem awaken_fproc (s : FsState) (p : ProcNr) :
    (awaken s p).fproc p = { s.fproc p with fp_suspended := false } := by
  unfold awaken
  exact Function.update_self p _ s.fproc

/-- The counter has one process too many. -/
theorem Books.not_exact (h : Books s) (hidle : s.reviving = 0) (ho : Opening s p)
    (hh : SameHang (Pipe.awaken s p) s') : ¬Exact s' := by
  intro he
  have hchange : howMany (waits (Pipe.awaken s p)) + (waits s p).toNat =
      howMany (waits s) + (waits (Pipe.awaken s p) p).toNat := by
    refine howMany_change _ _ fun q hq => ?_
    unfold waits Pipe.awaken FsState.reply
    rw [setProc_fproc, if_neg hq]
  have hold : waits s p = true := by
    simp [waits, Fproc.waits, ho.suspended, ho.fp_task, h.exact.quiet hidle p, Task.onPipe]
  have hnew : waits (Pipe.awaken s p) p = false := by
    unfold waits
    rw [awaken_fproc]
    rfl
  rw [hold, hnew] at hchange
  have hcount := he.susp_count
  rw [howMany_congr hh.waits, hh.susp_count] at hcount
  have hcount' := h.exact.susp_count
  have hsame : (Pipe.awaken s p).susp_count = s.susp_count := rfl
  rw [Bool.toNat_true, Bool.toNat_false] at hchange
  omega

/-- The messages that are taken in are answered one by one, none of them to the process whose
request is cancelled. -/
theorem rwDev_replies (msgs : List (ProcNr × ℤ)) (hk : ∀ m ∈ msgs, ¬OnPipe s m.1) :
    ∃ new, (rwDev (some pro) msgs s).replies = new ++ s.replies ∧
      new.filter (fun r => r.1 = pro) = [] := by
  induction msgs generalizing s with
  | nil => exact ⟨[], rfl, rfl⟩
  | cons m rest ih =>
    obtain ⟨proc_nr, status⟩ := m
    unfold rwDev
    split
    · exact ⟨[], rfl, rfl⟩
    · next hne =>
      have hne : proc_nr ≠ pro := fun e => hne (by rw [e])
      obtain ⟨new, he, hno⟩ := ih (s := Pipe.revive s proc_nr status) fun x hx hpipe =>
        hk x (List.mem_cons_of_mem _ hx) (onPipe_revive hpipe)
      have hfirst : ∃ one, (Pipe.revive s proc_nr status).replies = one ++ s.replies ∧
          one.filter (fun r => r.1 = pro) = [] := by
        have hpipe := hk (proc_nr, status) List.mem_cons_self
        rcases revive_cases s proc_nr status with ⟨-, hsame⟩ | ⟨hsusp, hrev, htask | htask | ⟨n, htask⟩⟩
        · exact ⟨[], by rw [hsame]; rfl, rfl⟩
        · exact absurd ⟨hsusp, by rw [htask]; rfl⟩ hpipe
        · exact absurd ⟨hsusp, by rw [htask]; rfl⟩ hpipe
        · refine ⟨[(proc_nr, status)], by rw [revive_task hsusp hrev htask]; rfl, ?_⟩
          simp [hne]
      obtain ⟨one, hone, hno'⟩ := hfirst
      refine ⟨new ++ one, ?_, ?_⟩
      · rw [he, hone, List.append_assoc]
      · rw [List.filter_append, hno, hno', List.append_nil]

/-- `do_unpause` does what is asked of it for a process that waits for a task, and for no other. -/
theorem Books.aborted (h : Books s) (hidle : s.reviving = 0) (hk : Honest s k)
    (hsusp : (s.fproc pro).fp_suspended = true) :
    Aborted s (Pipe.doUnpause k s MM_PROC_NR pro).2 pro ↔ OnTask s pro := by
  rcases doUnpause_cases k s MM_PROC_NR pro with ⟨he, hwhy⟩ | ⟨he, -, -, htask⟩ | ⟨he, -, htask⟩
  · -- At a pipe: the process stays suspended.
    rw [he]
    constructor
    · intro ha
      rw [ha.suspended] at hsusp
      exact absurd hsusp (by decide)
    · intro hno
      rcases hwhy (by decide) with hf | hpipe
      · rw [hf] at hsusp
        exact absurd hsusp (by decide)
      · have := hno.2
        rw [hpipe] at this
        exact absurd this (by decide)
  · -- In `open`: the counter has one process too many.
    rw [he]
    constructor
    · intro ha
      exact absurd ha.exact (h.not_exact hidle ⟨hsusp, htask⟩ (.refl _))
    · intro hno
      have := hno.2
      rw [htask] at this
      exact absurd this (by decide)
  · rw [he]
    refine ⟨fun _ => htask, fun _ => ⟨?_, ?_, ?_, fun ho => ?_⟩⟩
    · rw [awaken_fproc]
    · obtain ⟨new, hnew, hno⟩ : ∃ new, (Pipe.rwDev (some pro) k.locked s).replies = new ++ s.replies ∧
          new.filter (fun r => r.1 = pro) = [] := rwDev_replies k.locked hk.locked
      refine ⟨(pro, EINTR) :: new, ?_, ?_⟩
      · rw [List.cons_append, ← hnew]
        rfl
      · rw [List.filter_cons_of_pos (by simp), hno]
    · exact ((h.rwDev hk.locked).awaken fun hp => htask.not_onPipe (onPipe_rwDev hp)).exact
    · have := htask.2
      rw [ho.fp_task] at this
      exact absurd this (by decide)

/-! ## Runs -/

/-- A turn in which no call of `open` or `creat` is aborted. -/
def BookedStep (s : FsState) (act : FsAction) (s' : FsState) : Prop :=
  FsStep s act s' ∧ ¬Interrupts s act

/-- A turn in which one is aborted leaves the counter wrong. -/
theorem Books.interrupted (h : Books s) (hst : FsStep s act s') (hint : Interrupts s act) :
    ¬Exact s' := by
  cases hst with
  | @message who c k hidle hrun hk hc =>
    cases c with
    | unpause pro =>
      obtain ⟨hwho, ho⟩ := hint
      have ho' : Opening { s with dont_reply := false } pro := ⟨ho.suspended, ho.fp_task⟩
      have hb := h.inert (.dontReply false)
      refine hb.not_exact hidle ho' (?_ : SameHang _ (Pipe.mainTurn k s who (.unpause pro)))
      have hcall : (Pipe.perform k { s with dont_reply := false } who (.unpause pro)).2 =
          Pipe.awaken { s with dont_reply := false } pro := by
        rcases doUnpause_cases k { s with dont_reply := false } who pro with
          ⟨-, hwhy⟩ | ⟨he, -⟩ | ⟨-, -, htask⟩
        · rcases hwhy hwho with hf | hpipe
          · exact absurd (hf.symm.trans ho'.suspended) (by decide)
          · exact absurd (hpipe.symm.trans ho'.fp_task) (by decide)
        · exact he
        · have := htask.2
          rw [ho'.fp_task] at this
          exact absurd this (by decide)
      rw [← hcall]
      exact (Inert.sendReply (r := Pipe.perform k { s with dont_reply := false } who (.unpause pro))).hang
    | _ => exact hint.elim
  | restart => exact hint.elim
  | revive => exact hint.elim

/-- In every run in which no call of `open` or `creat` is aborted, `susp_count` and `reviving` are
exact after each turn, and go on to be exact unless one is aborted; and `do_unpause` leaves a
suspended process not suspended, with one error reply, exact counters and no descriptor of an
`open`, if and only if it waits for a task. -/
theorem suspension_bookkeeping (h : Reachable FsBoot BookedStep s) :
    Exact s ∧ (∀ act s', FsStep s act s' → (Exact s' ↔ ¬Interrupts s act)) ∧
      ∀ pro k, s.reviving = 0 → Honest s k → (s.fproc pro).fp_suspended = true →
        (Aborted s (doUnpause k s MM_PROC_NR pro).2 pro ↔ OnTask s pro) := by
  have hb : Books s := h.invariant (fun _ => FsBoot.books) fun _ _ _ hb hst => hb.step hst.1 hst.2
  refine ⟨hb.exact, fun act s' hst => ⟨fun he hint => hb.interrupted hst hint he, fun hno => ?_⟩,
    fun pro k hidle hk hsusp => hb.aborted hidle hk hsusp⟩
  exact (hb.step hst hno).exact

/-! ## Two runs -/

/-- The tables at the start, with a FIFO and a terminal on the disk. -/
def fsStart : FsState where
  fproc _ := ⟨fun _ => none, (0, .READ), fun _ => 0, 0, false, false, .XPIPE⟩
  filp _ := ⟨Mode.none, OFlags.zero, 0, 0, 0⟩
  inode rip := ⟨if rip = 1 then .I_NAMED_PIPE else if rip = 2 then .I_CHAR_SPECIAL else .I_REGULAR,
    1, 0, false, 0, fun _ => 0⟩
  susp_count := 0
  reviving := 0
  dont_reply := false
  replies := []
  log := []

/-- A name that leads to an inode, and a task that replies at once. -/
def leadsTo (rip : Ino) (rep_status : ℤ) : Outside where
  path := .found rip
  forbidden := OK
  alloc := .error ENFILE
  s_max_size := 0
  io := none
  task := 0
  rep_status := rep_status
  locked := []
  tty := []

theorem leadsTo_honest (s : FsState) (rip : Ino) (rep_status : ℤ) :
    Honest s (leadsTo rip rep_status) := by
  constructor <;> simp [leadsTo]

theorem fsStart_boot : FsBoot fsStart := by
  constructor <;> simp [fsStart]

/-- The process opens the file to read. -/
def opensFile (s : FsState) (who : ProcNr) (rip : Ino) : FsState :=
  mainTurn (leadsTo rip OK) s who (.open { OFlags.zero with bits := Mode.R })

/-- A process reads from a terminal, and waits for it. -/
def ttyWaits : FsState := mainTurn (leadsTo 2 SUSPEND) (opensFile fsStart 3 2) 3 (.read 0 10)

theorem ttyWaits_reachable : Reachable FsBoot BookedStep ttyWaits := by
  have hopen : BookedStep fsStart (.message 3 (.open { OFlags.zero with bits := Mode.R })
      (leadsTo 2 OK)) (opensFile fsStart 3 2) :=
    ⟨.message (by decide +kernel) (by decide +kernel) (leadsTo_honest _ _ _) trivial, id⟩
  have hread : BookedStep (opensFile fsStart 3 2) (.message 3 (.read 0 10) (leadsTo 2 SUSPEND))
      ttyWaits :=
    ⟨.message (by decide +kernel) (by decide +kernel) (leadsTo_honest _ _ _) trivial, id⟩
  exact ((Reachable.of_init fsStart_boot).of_step hopen).of_step hread

/-- The read from the terminal is aborted as it should be. -/
theorem suspension_bookkeeping_tty : Exact ttyWaits ∧
    Aborted ttyWaits (doUnpause (leadsTo 2 OK) ttyWaits MM_PROC_NR 3).2 3 := by
  obtain ⟨hexact, -, hpause⟩ := suspension_bookkeeping ttyWaits_reachable
  have htask : OnTask ttyWaits 3 := ⟨by decide +kernel, by decide +kernel⟩
  exact ⟨hexact, (hpause 3 _ (by decide +kernel) (leadsTo_honest _ _ _) htask.1).mpr htask⟩

/-- A process opens a FIFO that has no writer, and a signal aborts the call. -/
def fifoAborted : FsState := mainTurn (leadsTo 1 OK) (opensFile fsStart 3 1) MM_PROC_NR (.unpause 3)

/-- It is not counted any more, but it is in the counter. -/
theorem suspension_miscounted : ¬∀ s, Reachable FsBoot FsStep s → Exact s ∧
    ∀ pro k, s.reviving = 0 → Honest s k → (s.fproc pro).fp_suspended = true →
      Aborted s (doUnpause k s MM_PROC_NR pro).2 pro := by
  intro hall
  have hopen : FsStep fsStart (.message 3 (.open { OFlags.zero with bits := Mode.R })
      (leadsTo 1 OK)) (opensFile fsStart 3 1) :=
    .message (by decide +kernel) (by decide +kernel) (leadsTo_honest _ _ _) trivial
  have hpause : FsStep (opensFile fsStart 3 1) (.message MM_PROC_NR (.unpause 3) (leadsTo 1 OK))
      fifoAborted :=
    .message (by decide +kernel) (by decide +kernel) (leadsTo_honest _ _ _) trivial
  obtain ⟨hexact, -⟩ := hall fifoAborted (((Reachable.of_init fsStart_boot).of_step hopen).of_step hpause)
  have hzero : howMany (waits fifoAborted) = 0 :=
    howMany_eq_zero.mpr (by decide +kernel : ∀ p, waits fifoAborted p = false)
  have hone : fifoAborted.susp_count = 1 := by decide +kernel
  have hcount := hexact.susp_count
  rw [hzero, hone] at hcount
  exact absurd hcount (by decide)

end Minix.Pipe
