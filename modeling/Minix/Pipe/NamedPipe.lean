import Minix.Lib.Run
import Minix.Pipe.ByteStream

/-!
# Named pipes as queues

Every `open` of a named pipe has a position of its own. `Watched` keeps, beside the state, the bytes
that a queue would hold: those that have been written and not read since nobody had the pipe open.
As long as each read that finds bytes begins at the first of these, and each write that is stored at
the end of the file (`InTurn`), the pipe is that queue (`fifo_queue`). With two open files for
writing it need not be (`fifo_overwritten`): only one of them is reset when the pipe has been
drained, and the positions of both are zero when they have been opened.
-/

namespace Minix.Pipe

open Lib
open Kernel (NR_PROCS)

variable {s s' : FsState} {who fp : ProcNr} {f : FilpNr} {rip : Ino} {k : Outside} {more : ℕ}
  {fd : Fin OPEN_MAX} {buffer : ℕ → UInt8} {unread : List UInt8} {act : FsAction} {c : FsCall}

/-! ## Opening a named pipe -/

/-- The inode, when one who is no open file gives it back. -/
theorem Fifo.put_one (h : Fifo rip 1 s) : (putInode s rip).inode rip = if opens s rip = 0 then
    { truncate { s.inode rip with i_count := opens s rip } with i_pipe := false }
    else { s.inode rip with i_count := opens s rip } := by
  have hcount : (s.inode rip).i_count - 1 = opens s rip := by
    rw [h.i_count]
    omega
  rw [putInode_self, hcount]

/-- Whoever has opened it for nothing is no user any more. -/
theorem Fifo.settle (h : Fifo rip 1 s) : Fifo rip 0 (putInode s rip) := by
  have hinode := h.put_one
  by_cases hlast : opens s rip = 0
  · obtain ⟨hsize, htype, hnone⟩ := h.truncated (opens s rip)
    rw [if_pos hlast] at hinode
    refine ⟨by rw [hinode]; exact htype, by rw [hinode]; exact hnone, fun _ => ?_, fun _ => ?_,
      fun f hf => absurd hlast (opens_ne_zero.mpr ⟨f, hf⟩)⟩
    · rw [hinode]
      exact hsize
    · rw [hinode]
      exact hsize
  · rw [if_neg hlast] at hinode
    refine ⟨by rw [hinode]; exact h.i_type, by rw [hinode]; rfl, fun hno => absurd hno hlast,
      fun hno => ?_, fun f hf hw => ?_⟩
    · rw [hinode] at hno ⊢
      exact h.plain hno
    · rw [hinode]
      exact h.writers f hf hw

/-- It is opened. -/
theorem Fifo.claim (h : Fifo rip 1 s) (hfree : (s.filp f).filp_count = 0) {g : Filp → Filp}
    (hcount : (g (s.filp f)).filp_count = 1) (hino : (g (s.filp f)).filp_ino = rip)
    (hwriter : (g (s.filp f)).filp_mode.W_BIT = true → (s.inode rip).i_pipe = true) :
    Fifo rip 0 ((s.setFd fp fd (some f)).setFilp f g) := by
  have hopens : opens (s.setFilp f g) rip + _ = _ := opens_setFilp (s := s)
  rw [hfree, hcount, hino, if_neg fun e => e.1 rfl, if_pos ⟨one_ne_zero, rfl⟩] at hopens
  have hmore : opens ((s.setFd fp fd (some f)).setFilp f g) rip = opens s rip + 1 := hopens
  refine ⟨h.i_type, ?_, fun hno => ?_, h.plain, fun x hx hw => ?_⟩
  · rw [hmore]
    exact h.i_count
  · omega
  · unfold OpenOn at hx
    rw [setFilp_filp] at hx hw
    split_ifs at hx hw with hxf
    · subst hxf
      exact hwriter hw
    · exact h.writers x hx hw

/-- What a call of `open` makes of the bytes of the pipe. -/
structure SameQueue (rip : Ino) (s s' : FsState) : Prop where
  i_size : (s'.inode rip).i_size = (s.inode rip).i_size
  bytes : (s.inode rip).i_size ≠ 0 → (s'.inode rip).bytes = (s.inode rip).bytes
  history : s'.history rip = s.history rip

theorem SameQueue.trans {s'' : FsState} (h : SameQueue rip s s') (h' : SameQueue rip s' s'') :
    SameQueue rip s s'' :=
  ⟨h'.i_size.trans h.i_size, fun hsize => (h'.bytes (h.i_size ▸ hsize)).trans (h.bytes hsize),
    h'.history.trans h.history⟩

theorem SameQueue.of_inode (h : SameBytes (s.inode rip) (s'.inode rip))
    (hlog : s'.history rip = s.history rip) : SameQueue rip s s' :=
  ⟨h.i_size, fun _ => h.bytes, hlog⟩

theorem SameQueue.files (h : SameFiles s s') : SameQueue rip s s' :=
  .of_inode (by rw [h.inode]; exact .refl _) (h.history rip)

theorem SameQueue.pipe : SameQueue rip s (s.setInode rip fun ip => { ip with i_pipe := true }) := by
  refine ⟨?_, fun _ => ?_, rfl⟩
  · rw [setInode_inode, if_pos rfl]
  · rw [setInode_inode, if_pos rfl]

theorem Holds.queue (h : Holds (s.inode rip) unread) (hq : SameQueue rip s s') :
    Holds (s'.inode rip) unread := by
  by_cases hsize : (s.inode rip).i_size = 0
  · rw [h.eq_nil hsize]
    exact .nil _
  · refine ⟨?_, ?_⟩
    · rw [hq.i_size]
      exact h.length
    · rw [hq.i_size, hq.bytes hsize]
      exact h.bytes

/-- Nothing is lost of the pipe with a user that is no open file. -/
theorem Fifo.settle_queue (h : Fifo rip 1 s) : SameQueue rip s (putInode s rip) := by
  have hinode := h.put_one
  by_cases hlast : opens s rip = 0
  · rw [if_pos hlast] at hinode
    refine ⟨?_, fun hno => absurd (h.unused hlast) hno, rfl⟩
    rw [hinode, h.unused hlast]
    exact (h.truncated (opens s rip)).1
  · rw [if_neg hlast] at hinode
    refine ⟨?_, fun _ => ?_, rfl⟩
    · rw [hinode]
    · rw [hinode]

/-- The end of `open`: the pipe is given back, or a filp slot is claimed for it. -/
theorem Fifo.finish (h : Fifo rip 1 s) (hfree : (s.filp f).filp_count = 0) {oflags : OFlags} {r : ℤ}
    (hwriter : r = OK → (s.filp f).filp_mode.W_BIT = true → (s.inode rip).i_pipe = true)
    {res : ℤ × FsState}
    (hres : (if r ≠ OK then (r, putInode s rip) else (fd.val, (s.setFd fp fd (some f)).setFilp f
      fun f => { f with filp_count := 1, filp_ino := rip, filp_flags := oflags })) = res) :
    Fifo rip 0 res.2 ∧ SameQueue rip s res.2 := by
  by_cases hok : r = OK
  · rw [if_neg (not_not.mpr hok)] at hres
    rw [← hres]
    dsimp only
    refine ⟨h.claim hfree ?_ ?_ (hwriter hok), .of_inode (.refl _) rfl⟩
    all_goals rfl
  · rw [if_pos hok] at hres
    rw [← hres]
    exact ⟨h.settle, h.settle_queue⟩

/-- Processes are suspended or revived. -/
theorem Fifo.files (h : Fifo rip more s) (hs : SameFiles s s') : Fifo rip more s' := by
  refine ⟨by rw [hs.inode]; exact h.i_type, by rw [hs.inode, hs.tables.opens]; exact h.i_count,
    fun hno => ?_, fun hno => ?_, fun f hf hw => ?_⟩
  · rw [hs.tables.opens] at hno
    rw [hs.inode]
    exact h.unused hno
  · rw [hs.inode] at hno ⊢
    exact h.plain hno
  · unfold OpenOn at hf
    rw [hs.filp] at hf hw
    rw [hs.inode]
    exact h.writers f hf hw

/-- It becomes a pipe. -/
theorem Fifo.pipe (h : Fifo rip more s) :
    Fifo rip more (s.setInode rip fun ip => { ip with i_pipe := true }) := by
  have hinode : (s.setInode rip fun ip => { ip with i_pipe := true }).inode rip =
      { s.inode rip with i_pipe := true } := by
    rw [setInode_inode, if_pos rfl]
  refine ⟨by rw [hinode]; exact h.i_type, by rw [hinode]; exact h.i_count, fun hno => ?_,
    fun hno => ?_, fun _ _ _ => by rw [hinode]⟩
  · rw [hinode]
    exact h.unused hno
  · rw [hinode] at hno
    exact absurd hno (by simp)

section Open

variable {oflags : OFlags} {fs_call : CallNr} {res : ℤ × FsState}

/-- The inode has a user more, who is the one that opens it. -/
theorem Fifo.openFound (h : Fifo rip 1 s) (hfree : (s.filp f).filp_count = 0)
    (hbits : (s.filp f).filp_mode = oflags.bits) {exist : Bool} {r : ℤ}
    (hr : exist = false → r ≠ OK)
    (hres : openFound k s fp fd f fs_call oflags rip exist r = res) :
    Fifo rip 0 res.2 ∧ SameQueue rip s res.2 := by
  unfold Pipe.openFound at hres
  cases exist with
  | false => exact h.finish hfree (fun hok => absurd hok (hr rfl)) hres
  | true =>
    by_cases hforbidden : k.forbidden = OK
    · simp only [if_true, hforbidden] at hres
      unfold openType at hres
      rw [h.i_type] at hres
      dsimp only at hres
      rcases pipeOpen_cases s fp fd fs_call rip oflags with ⟨he, hwriter⟩ | ⟨s', hs, he⟩
      · rw [he] at hres
        exact h.finish hfree (fun hok hw => absurd hok (hwriter (hbits ▸ hw))) hres
      · rw [he] at hres
        have hpipe := (h.files hs).pipe
        have hself : ((s'.setInode rip fun ip => { ip with i_pipe := true }).inode rip).i_pipe =
            true := by
          rw [setInode_inode, if_pos rfl]
        obtain ⟨hfifo, hqueue⟩ := hpipe.finish (by rw [setInode_filp, hs.filp]; exact hfree)
          (fun _ _ => hself) hres
        exact ⟨hfifo, ((SameQueue.files hs).trans .pipe).trans hqueue⟩
    · simp only [if_true, hforbidden, if_false] at hres
      exact h.finish hfree (fun hok => absurd hok hforbidden) hres

/-- Opening a named pipe. -/
theorem Fifo.commonOpen (h : Fifo rip 0 s) (hs : Seated s) (hpath : k.path = .found rip)
    (hres : commonOpen k s fp fs_call oflags = res) : Fifo rip 0 res.2 ∧ SameQueue rip s res.2 := by
  unfold Pipe.commonOpen at hres
  cases hget : getFd s fp 0 oflags.bits with
  | error r =>
    rw [hget] at hres
    rw [← hres]
    exact ⟨h, .files (.refl s)⟩
  | ok x =>
    obtain ⟨fd, f, s'⟩ := x
    rw [hget, hpath] at hres
    obtain ⟨-, hfree, rfl⟩ := getFd_eq hget
    have hquiet : Quiet rip s (s.setFilp f (Filp.slot oflags.bits)) := .unclaimed hs (.getFd hget)
    have hslot : ((s.setFilp f (Filp.slot oflags.bits)).filp f) = (s.filp f).slot oflags.bits := by
      rw [setFilp_filp, if_pos rfl]
    have hfifo := hquiet.keeps.fifo h
    have hinode : (dupInode (s.setFilp f (Filp.slot oflags.bits)) rip).inode rip =
        { s.inode rip with i_count := (s.inode rip).i_count + 1 } := by
      unfold dupInode
      rw [setInode_inode, if_pos rfl]
      rfl
    have hone : Fifo rip 1 (dupInode (s.setFilp f (Filp.slot oflags.bits)) rip) := by
      refine ⟨by rw [hinode]; exact h.i_type, ?_, fun hno => ?_, fun hno => ?_, fun x hx hw => ?_⟩
      · rw [hinode]
        exact congrArg (· + 1) hfifo.i_count
      · rw [hinode]
        exact hfifo.unused hno
      · rw [hinode] at hno ⊢
        exact h.plain hno
      · rw [hinode]
        exact hfifo.writers x hx hw
    dsimp only at hres
    have hexist : (!(oflags.O_CREAT && oflags.O_EXCL)) = false → EEXIST ≠ OK := fun _ => by decide
    have hopened : SameQueue rip s (dupInode (s.setFilp f (Filp.slot oflags.bits)) rip) := by
      refine ⟨?_, fun _ => ?_, rfl⟩
      · rw [hinode]
      · rw [hinode]
    obtain ⟨hend, hqueue⟩ := hone.openFound ((congrArg Filp.filp_count hslot).trans hfree)
      (congrArg Filp.filp_mode hslot) hexist hres
    exact ⟨hend, hopened.trans hqueue⟩

end Open

/-! ## The queue -/

/-- The state, and what a queue would hold in it. -/
structure Watched where
  fs : FsState
  unread : List UInt8

/-- What a queue holds after some events, newest first. -/
def queued (unread : List UInt8) : List PipeEvent → List UInt8
  | [] => unread
  | .read _ _ bytes :: rest => (queued unread rest).drop bytes.length
  | .wrote _ _ bytes :: rest => queued unread rest ++ bytes
  | .sigpipe _ :: rest => queued unread rest

/-- No copy and no access to the disk fails in the call, the inode of the named pipe is not given to
another file, and what has nothing to do with descriptors leaves it alone. -/
def OnDisk (rip : Ino) (s : FsState) (k : Outside) : FsCall → Prop
  | .read _ _ => k.io = none
  | .write _ _ _ => k.io = none
  | .open _ => k.path ≠ .created rip
  | .creat => k.path ≠ .created rip
  | .pipe => k.alloc ≠ .ok rip
  | .other inode _ => Leaves rip s inode
  | _ => True

/-- A turn of the main loop. What is left in the pipe is lost when nobody has it open any more. -/
structure FifoTurn (rip : Ino) (w : Watched) (act : FsAction) (w' : Watched) : Prop where
  step : FsStep w.fs act w'.fs
  onDisk : ∀ who c k, turnOf w.fs act = some (who, c, k) → OnDisk rip w.fs k c
  unread : ∃ new, w'.fs.history rip = new ++ w.fs.history rip ∧
    w'.unread = if opens w'.fs rip = 0 then [] else queued w.unread new

/-- The named pipe is not in use, and holds nothing. -/
structure FifoStart (rip : Ino) (w : Watched) : Prop where
  reachable : Reachable FsBoot FsStep w.fs
  i_type : (w.fs.inode rip).i_type = .I_NAMED_PIPE
  i_count : (w.fs.inode rip).i_count = 0
  i_size : (w.fs.inode rip).i_size = 0
  unread : w.unread = []

/-- What a turn reads is taken from the front of the queue, so that no byte is read twice. -/
def FromFront (rip : Ino) (w w' : Watched) : Prop :=
  ∀ who bytes, w'.fs.history rip = .read who rip bytes :: w.fs.history rip → bytes <+: w.unread

/-- A read of the named pipe that finds bytes begins at the first that has not been read, and a
write that is stored begins at the end of the file. -/
def InTurn (rip : Ino) (w : Watched) (who : ProcNr) (k : Outside) : FsCall → Prop
  | .read fd nbytes => ∀ d f, getFilp w.fs who (userFd who fd) = some (d, f) →
      (w.fs.filp f).filp_ino = rip → Moves k w.fs f rip .READING nbytes →
      (w.fs.filp f).filp_pos < (w.fs.inode rip).i_size →
      (w.fs.filp f).filp_pos + w.unread.length = (w.fs.inode rip).i_size
  | .write fd nbytes _ => ∀ d f, getFilp w.fs who (userFd who fd) = some (d, f) →
      (w.fs.filp f).filp_ino = rip → Moves k w.fs f rip .WRITING nbytes →
      startsAt w.fs f .WRITING = (w.fs.inode rip).i_size
  | _ => True

/-- A turn in which the pipe is accessed in turn, if it is. -/
structure OrderlyTurn (rip : Ino) (w : Watched) (act : FsAction) (w' : Watched) : Prop where
  turn : FifoTurn rip w act w'
  inTurn : ∀ who c k, turnOf w.fs act = some (who, c, k) → InTurn rip w who k c

/-- A named pipe that is that queue. -/
structure Queueing (rip : Ino) (s : FsState) (unread : List UInt8) : Prop where
  seated : Seated s
  fifo : Fifo rip 0 s
  holds : Holds (s.inode rip) unread

/-- What a call makes of it. -/
structure Queued (rip : Ino) (s s' : FsState) (unread : List UInt8) (new : List PipeEvent) : Prop where
  history : s'.history rip = new ++ s.history rip
  seated : Seated s'
  fifo : Fifo rip 0 s'
  holds : opens s' rip ≠ 0 → Holds (s'.inode rip) (queued unread new)
  front : ∀ who bytes, new = [.read who rip bytes] → bytes <+: unread

/-- Nobody reads, writes or opens it. -/
theorem Queueing.keep (h : Queueing rip s unread) (hq : Quiet rip s s') :
    Queued rip s s' unread [] :=
  ⟨hq.keeps.history, hq.seated, hq.keeps.fifo h.fifo, fun hopen => h.holds.same (hq.keeps.inode hopen),
    fun _ _ hno => absurd hno (by simp)⟩

/-- Nothing happens to files. -/
theorem Queueing.files (h : Queueing rip s unread) (hs : SameFiles s s') : Queueing rip s' unread :=
  ⟨h.seated.tables hs.tables, h.fifo.files hs, by rw [hs.inode]; exact h.holds⟩

theorem Queued.files {s'' : FsState} {new : List PipeEvent} (h : Queued rip s s' unread new)
    (hs : SameFiles s' s'') : Queued rip s s'' unread new := by
  refine ⟨(hs.history rip).trans h.history, h.seated.tables hs.tables, h.fifo.files hs, fun hopen => ?_,
    h.front⟩
  rw [hs.tables.opens] at hopen
  rw [hs.inode]
  exact h.holds hopen

/-- A file that is open has been read or written. -/
theorem Fifo.accessed (h : Fifo rip 0 s) (ht : SameTables s s') (hopen : opens s rip ≠ 0)
    (hmode : ∀ x, (s'.filp x).filp_mode = (s.filp x).filp_mode)
    (hplain : (s.inode rip).i_pipe = false → (s'.inode rip).i_size = 0) : Fifo rip 0 s' := by
  obtain ⟨htype, hcount, hpipe⟩ := ht.inode rip
  refine ⟨htype.trans h.i_type, ?_, fun hno => ?_, fun hno => hplain (hpipe.symm.trans hno),
    fun x hx hw => ?_⟩
  · rw [hcount, ht.opens]
    exact h.i_count
  · rw [ht.opens] at hno
    exact absurd hno hopen
  · rw [hpipe]
    rw [hmode] at hw
    exact h.writers x ((openOn_tables ht).mp hx) hw

theorem Fifo.not_device (h : Fifo rip more s) :
    (s.inode rip).i_type ≠ .I_CHAR_SPECIAL ∧ (s.inode rip).i_type ≠ .I_BLOCK_SPECIAL := by
  rw [h.i_type]
  exact ⟨by decide, by decide⟩

section Transfer

variable (h : Queueing rip s unread) (hf : OpenOn s f rip) (hio : k.io = none) {n : ℕ}
include h hf hio

/-- A read in turn. -/
theorem Queueing.transferRead {position : ℕ} (hpos : position < (s.inode rip).i_size →
      position + unread.length = (s.inode rip).i_size)
    (hpipe : (s.inode rip).i_pipe = true → position < (s.inode rip).i_size) {res : ℤ × FsState}
    (hres : transfer k s who f rip .READING (s.inode rip).i_size position n buffer = res) :
    ∃ bytes, Queued rip s res.2 unread [.read who rip bytes] := by
  have hopen : opens s rip ≠ 0 := opens_ne_zero.mpr ⟨f, hf⟩
  have hread : HasRead rip who f position (min n ((s.inode rip).i_size - position)) s res.2 := by
    rw [← hres]
    exact (hasRead hio).1
  have hplain : (s.inode rip).i_pipe = false → (res.2.inode rip).i_size = 0 := by
    intro hno
    have hdrained : ¬Drained (s.inode rip)
        (position + min n ((s.inode rip).i_size - position)) := fun hd => by
      rw [hd.1] at hno
      exact absurd hno (by decide)
    rw [(hread.left hdrained).1]
    exact h.fifo.plain hno
  refine ⟨_, hread.history, h.seated.tables hread.tables,
    h.fifo.accessed hread.tables hopen hread.mode hplain, fun _ => ?_, fun who' bytes hnew => ?_⟩
  · rw [queued, queued, length_bytesAt]
    exact h.holds.read hread hpos hpipe
  · obtain ⟨-, hbytes⟩ : who = who' ∧ bytesAt (s.inode rip).bytes position
        (min n ((s.inode rip).i_size - position)) = bytes := by simpa using hnew
    rw [← hbytes, h.holds.front hpos n]
    exact List.take_prefix _ _

/-- A write at the end of the file. -/
theorem Queueing.transferWrite (hmode : (s.filp f).filp_mode.W_BIT = true) {res : ℤ × FsState}
    (hres : transfer k s who f rip .WRITING (s.inode rip).i_size (s.inode rip).i_size n buffer = res) :
    ∃ bytes, Queued rip s res.2 unread [.wrote who rip bytes] := by
  have hopen : opens s rip ≠ 0 := opens_ne_zero.mpr ⟨f, hf⟩
  have hwritten : HasWritten rip who f (s.inode rip).i_size n buffer s res.2 := by
    rw [← hres]
    exact (hasWritten hio h.fifo.not_device).1
  have hpipe := h.fifo.writers f hf hmode
  refine ⟨_, hwritten.history, h.seated.tables hwritten.tables,
    h.fifo.accessed hwritten.tables hopen hwritten.mode fun hno => ?_, fun _ => ?_,
    fun _ _ hnew => absurd hnew (by simp)⟩
  · rw [hpipe] at hno
    exact absurd hno (by decide)
  · exact h.holds.write hwritten

end Transfer

/-- A call that reads or writes the named pipe in turn. -/
theorem Queueing.access (h : Queueing rip s unread) {fild nbytes : ℤ} {rw_flag : RwFlag}
    (hf : getFilp s who (userFd who fild) = some (fd, f)) (hino : (s.filp f).filp_ino = rip)
    (hio : k.io = none) (hin : Moves k s f rip rw_flag nbytes →
      (rw_flag = .READING → (s.filp f).filp_pos < (s.inode rip).i_size →
        (s.filp f).filp_pos + unread.length = (s.inode rip).i_size) ∧
      (rw_flag = .WRITING → startsAt s f .WRITING = (s.inode rip).i_size)) :
    ∃ new, Queued rip s (readWrite k s who rw_flag fild nbytes buffer).2 unread new := by
  have hopen : OpenOn s f rip := ⟨(h.seated.open (getFilp_spec hf).2).ne', hino⟩
  rcases readWrite_cases k rw_flag nbytes buffer hf hino h.fifo.not_device with
    ⟨hsame, -⟩ | ⟨hmoves, s₁, hsame, he⟩
  · exact ⟨[], h.keep (.files h.seated hsame)⟩
  have hs := h.files hsame
  have hopen₁ : OpenOn s₁ f rip := by
    unfold OpenOn
    rw [hsame.filp]
    exact hopen
  -- What has been done to processes before the transfer is no part of the history.
  have hback : ∀ {new}, Queued rip s₁ (readWrite k s who rw_flag fild nbytes buffer).2 unread new →
      Queued rip s (readWrite k s who rw_flag fild nbytes buffer).2 unread new := by
    intro new hq
    exact ⟨by rw [hq.history, hsame.history], hq.seated, hq.fifo, hq.holds, hq.front⟩
  obtain ⟨hread, hwrite⟩ := hin hmoves
  have hfeasible := hmoves.feasible
  have hmode := hmoves.mode
  cases rw_flag with
  | READING =>
    have hstart : startsAt s f .READING = (s.filp f).filp_pos := if_neg fun e => absurd e.1 (by decide)
    rw [hstart] at he hfeasible
    have hpos : (s.filp f).filp_pos < (s₁.inode rip).i_size →
        (s.filp f).filp_pos + unread.length = (s₁.inode rip).i_size := by
      rw [hsame.inode]
      exact hread rfl
    have hpipe : (s₁.inode rip).i_pipe = true → (s.filp f).filp_pos < (s₁.inode rip).i_size := by
      rw [hsame.inode]
      exact hfeasible
    obtain ⟨bytes, hq⟩ := hs.transferRead hopen₁ hio hpos hpipe he.symm
    exact ⟨_, hback hq⟩
  | WRITING =>
    rw [hwrite rfl, ← hsame.inode] at he
    have hw : (s₁.filp f).filp_mode.W_BIT = true := by
      rw [hsame.filp]
      simpa [Mode.meets, RwFlag.bit, Mode.W] using hmode
    obtain ⟨bytes, hq⟩ := hs.transferWrite hopen₁ hio hw he.symm
    exact ⟨_, hback hq⟩

/-- A call, made in turn. -/
theorem Queueing.perform (h : Queueing rip s unread) (who : ProcNr) (hk : Honest s k)
    (hc : Proper s c) (hon : OnDisk rip s k c) (hin : InTurn rip ⟨s, unread⟩ who k c) :
    ∃ new, Queued rip s (perform k s who c).2 unread new := by
  by_cases hacc : Accesses rip s who c
  · cases c with
    | read fd nbytes =>
      obtain ⟨d, f, hf, hino⟩ := hacc
      exact h.access hf hino hon fun hm => ⟨fun _ => hin d f hf hino hm, fun hno => absurd hno (by decide)⟩
    | write fd nbytes buffer =>
      obtain ⟨d, f, hf, hino⟩ := hacc
      exact h.access hf hino hon fun hm => ⟨fun hno => absurd hno (by decide), fun _ => hin d f hf hino hm⟩
    | _ => exact hacc.elim
  have hopened : ∀ fs_call oflags, k.path = .found rip → Seated (commonOpen k s who fs_call oflags).2 →
      Queued rip s (commonOpen k s who fs_call oflags).2 unread [] := by
    intro fs_call oflags hpath hseated
    obtain ⟨hfifo, hqueue⟩ := h.fifo.commonOpen h.seated hpath
      (rfl : commonOpen k s who fs_call oflags = _)
    exact ⟨hqueue.history, hseated, hfifo, fun _ => h.holds.queue hqueue,
      fun _ _ hno => absurd hno (by simp)⟩
  have hseated : Seated (Pipe.perform k s who c).2 := h.seated.perform hk hc
  have hquiet : NotOf rip s who k c → ∃ new, Queued rip s (Pipe.perform k s who c).2 unread new :=
    fun hno => ⟨[], h.keep (.perform h.seated hk hc hno)⟩
  cases c with
  | read fd nbytes => exact hquiet fun d f hf hino => hacc ⟨d, f, hf, hino⟩
  | write fd nbytes buffer => exact hquiet fun d f hf hino => hacc ⟨d, f, hf, hino⟩
  | «open» oflags =>
    by_cases hpath : k.path = .found rip
    · exact ⟨[], hopened _ _ hpath hseated⟩
    · exact hquiet ⟨hpath, hon⟩
  | creat =>
    by_cases hpath : k.path = .found rip
    · exact ⟨[], hopened _ _ hpath hseated⟩
    · exact hquiet ⟨hpath, hon⟩
  | pipe => exact hquiet hon
  | other inode result => exact hquiet hon
  | _ => exact hquiet trivial

theorem inTurn_congr (h : SameFiles s s') (hin : InTurn rip ⟨s, unread⟩ who k c) :
    InTurn rip ⟨s', unread⟩ who k c := by
  have hmoves : ∀ f rw_flag nbytes, Moves k s' f rip rw_flag nbytes →
      Moves k s f rip rw_flag nbytes := by
    intro f rw_flag nbytes hm
    have hstart : startsAt s' f rw_flag = startsAt s f rw_flag := by
      unfold startsAt
      rw [h.filp, h.inode]
    refine ⟨hm.positive, h.filp ▸ hm.mode, fun hpipe => ?_, fun hw => h.filp ▸ hm.fits hw⟩
    have hfeasible := hm.feasible (by rw [h.inode]; exact hpipe)
    unfold Feasible at hfeasible ⊢
    rwa [hstart, h.inode, findFilp_congr h.filp] at hfeasible
  have hfilp : ∀ fd d f, getFilp s' who fd = some (d, f) → (s'.filp f).filp_ino = rip →
      getFilp s who fd = some (d, f) ∧ (s.filp f).filp_ino = rip := by
    intro fd d f hf hino
    rw [getFilp_congr h] at hf
    rw [h.filp] at hino
    exact ⟨hf, hino⟩
  cases c with
  | read fd nbytes =>
    intro d f hf hino hm
    obtain ⟨hf', hino'⟩ := hfilp _ d f hf hino
    change (s'.filp f).filp_pos < (s'.inode rip).i_size →
      (s'.filp f).filp_pos + unread.length = (s'.inode rip).i_size
    rw [h.filp, h.inode]
    exact hin d f hf' hino' (hmoves _ _ _ hm)
  | write fd nbytes buffer =>
    intro d f hf hino hm
    obtain ⟨hf', hino'⟩ := hfilp _ d f hf hino
    change startsAt s' f .WRITING = (s'.inode rip).i_size
    unfold startsAt
    rw [h.filp, h.inode]
    exact hin d f hf' hino' (hmoves _ _ _ hm)
  | _ => trivial

theorem onDisk_congr (h : SameFiles s s') : OnDisk rip s' k c ↔ OnDisk rip s k c := by
  cases c <;> simp only [OnDisk, Leaves, h.inode]

/-- What a turn makes of it in which it is accessed in turn. -/
theorem Queueing.turn {w w' : Watched} (h : Queueing rip w.fs w.unread)
    (ht : OrderlyTurn rip w act w') : ∃ new, Queued rip w.fs w'.fs w.unread new := by
  rcases ht.turn.step.turn with
    ⟨-, hsame⟩ | ⟨who, c, k, s₁, hturn, -, hbefore, hk, hc, hafter⟩
  · exact ⟨[], h.keep (.files h.seated hsame)⟩
  · have hon := (onDisk_congr hbefore).mpr (ht.turn.onDisk who c k hturn)
    have hin := inTurn_congr hbefore (ht.inTurn who c k hturn)
    obtain ⟨new, hq⟩ := (h.files hbefore).perform who hk hc hon hin
    have hend := hq.files hafter
    exact ⟨new, by rw [hend.history, hbefore.history], hend.seated, hend.fifo, hend.holds, hend.front⟩

theorem Queueing.step {w w' : Watched} (h : Queueing rip w.fs w.unread)
    (ht : OrderlyTurn rip w act w') : Queueing rip w'.fs w'.unread ∧ FromFront rip w w' := by
  obtain ⟨new, hq⟩ := h.turn ht
  obtain ⟨new', hhistory, hunread⟩ := ht.turn.unread
  obtain rfl : new' = new := List.append_cancel_right (hhistory.symm.trans hq.history)
  refine ⟨⟨hq.seated, hq.fifo, ?_⟩, fun who bytes hread => ?_⟩
  · rw [hunread]
    split_ifs with hopen
    · exact .nil _
    · exact hq.holds hopen
  · have hnew : new' ++ w.fs.history rip = [.read who rip bytes] ++ w.fs.history rip :=
      hhistory.symm.trans hread
    exact hq.front who bytes (List.append_cancel_right hnew)

theorem FifoStart.queueing {w : Watched} (h : FifoStart rip w) : Queueing rip w.fs w.unread := by
  have hs : Seated w.fs :=
    h.reachable.invariant (fun _ => FsBoot.seated) fun _ _ _ hs hst => hs.step hst
  have hopens : opens w.fs rip = 0 := Nat.le_zero.mp (h.i_count ▸ hs.opens rip)
  rw [h.unread]
  exact ⟨hs, ⟨h.i_type, by rw [h.i_count, hopens], fun _ => h.i_size, fun _ => h.i_size,
    fun f hf => absurd hopens (opens_ne_zero.mpr ⟨f, hf⟩)⟩, .nil _⟩

/-- In every run in which a named pipe is accessed in turn, whoever opens and closes it: the bytes
that have been written and not read are those at the end of the file, in order, and every read takes
bytes from the front of them. -/
theorem fifo_queue {w : Watched} (h : Reachable (FifoStart rip) (OrderlyTurn rip) w) :
    Holds (w.fs.inode rip) w.unread ∧ ∀ act w', OrderlyTurn rip w act w' → FromFront rip w w' := by
  have hq : Queueing rip w.fs w.unread :=
    h.invariant (P := fun w => Queueing rip w.fs w.unread) (fun _ => FifoStart.queueing)
      fun _ _ _ hq ht => (hq.step ht).1
  exact ⟨hq.holds, fun act w' ht => (hq.step ht).2⟩

/-! ## Two runs -/

/-- What the rest of the system answers when a name leads to inode 1. -/
def fifoOutside : Outside := { leadsTo 1 OK with s_max_size := 8192 }

theorem fifoOutside_honest (s : FsState) : Honest s fifoOutside := by
  constructor <;> simp [fifoOutside, leadsTo]

/-- The process makes the call. -/
def fifoAct (who : ProcNr) (c : FsCall) : FsAction := .message who c fifoOutside
def fifoDone (s : FsState) (who : ProcNr) (c : FsCall) : FsState := mainTurn fifoOutside s who c

/-- A named pipe is opened for reading, without waiting for a writer, or for writing. -/
def openReader : FsCall := .open { OFlags.zero with bits := Mode.R, O_NONBLOCK := true }
def openWriter : FsCall := .open { OFlags.zero with bits := Mode.W }

/-- A process reads the named pipe and another one writes a byte to it. -/
def fifoReader : FsState := fifoDone fsStart 3 openReader
def fifoWriter : FsState := fifoDone fifoReader 4 openWriter
def fifoWritten : FsState := fifoDone fifoWriter 4 (.write 0 1 fun _ => 7)

theorem fifoStart_start : FifoStart 1 ⟨fsStart, []⟩ :=
  ⟨.of_init fsStart_boot, by decide +kernel, by decide +kernel, by decide +kernel, rfl⟩

/-- A call is a turn, if its process is not suspended. -/
theorem fifo_turn {c : FsCall} (unread' : List UInt8) (new : List PipeEvent)
    (hidle : s.reviving = 0) (hrun : (s.fproc who).fp_suspended = false) (hc : Proper s c)
    (hon : OnDisk 1 s fifoOutside c) (hnew : (fifoDone s who c).history 1 = new ++ s.history 1)
    (hunread : unread' = if opens (fifoDone s who c) 1 = 0 then [] else queued unread new) :
    FifoTurn 1 ⟨s, unread⟩ (fifoAct who c) ⟨fifoDone s who c, unread'⟩ := by
  refine ⟨.message hidle hrun (fifoOutside_honest s) hc, fun who' c' k hturn => ?_,
    new, hnew, hunread⟩
  obtain ⟨-, rfl, rfl⟩ : who = who' ∧ c = c' ∧ fifoOutside = k := by
    simpa [turnOf, fifoAct] using hturn
  exact hon

/-- The call is in turn, if this one is. -/
theorem fifo_orderly {w : Watched} {w' : Watched} {c : FsCall}
    (ht : FifoTurn 1 w (fifoAct who c) w') (hin : InTurn 1 w who fifoOutside c) :
    OrderlyTurn 1 w (fifoAct who c) w' := by
  refine ⟨ht, fun who' c' k hturn => ?_⟩
  obtain ⟨rfl, rfl, rfl⟩ : who = who' ∧ c = c' ∧ fifoOutside = k := by
    simpa [turnOf, fifoAct] using hturn
  exact hin

theorem fifo_openReader : FifoTurn 1 ⟨fsStart, []⟩ (fifoAct 3 openReader) ⟨fifoReader, []⟩ :=
  fifo_turn [] [] (by decide +kernel) (by decide +kernel) trivial
    (by simp [OnDisk, openReader, fifoOutside, leadsTo]) (by decide +kernel) (by decide +kernel)

theorem fifo_openWriter : FifoTurn 1 ⟨fifoReader, []⟩ (fifoAct 4 openWriter) ⟨fifoWriter, []⟩ :=
  fifo_turn [] [] (by decide +kernel) (by decide +kernel) trivial
    (by simp [OnDisk, openWriter, fifoOutside, leadsTo]) (by decide +kernel) (by decide +kernel)

theorem fifo_writes : FifoTurn 1 ⟨fifoWriter, []⟩ (fifoAct 4 (.write 0 1 fun _ => 7))
    ⟨fifoWritten, [7]⟩ :=
  fifo_turn [7] [.wrote 4 1 [7]] (by decide +kernel) (by decide +kernel) trivial rfl
    (by decide +kernel) (by decide +kernel)

/-- One writer writes in turn. -/
theorem fifo_queue_written : Holds (fifoWritten.inode 1) [7] := by
  have hwrite : InTurn 1 ⟨fifoWriter, []⟩ 4 fifoOutside (.write 0 1 fun _ => 7) := by
    intro d f hf _ _
    have hfound : getFilp fifoWriter 4 (userFd 4 0) = some (0, 1) := by decide +kernel
    have hboth : (0, 1) = (d, f) := Option.some.inj (hfound.symm.trans hf)
    rw [← (Prod.mk.inj hboth).2]
    decide +kernel
  have hreach : Reachable (FifoStart 1) (OrderlyTurn 1) ⟨fifoWritten, [7]⟩ :=
    (((Reachable.of_init fifoStart_start).of_step (fifo_orderly fifo_openReader trivial)).of_step
      (fifo_orderly fifo_openWriter trivial)).of_step (fifo_orderly fifo_writes hwrite)
  exact (fifo_queue hreach).1

/-- A second process opens the named pipe for writing while it holds a byte, and writes one. -/
def fifoSecond : FsState := fifoDone fifoWritten 5 openWriter
def fifoLost : FsState := fifoDone fifoSecond 5 (.write 0 1 fun _ => 8)

/-- It writes over the first byte, which has not been read. -/
theorem fifo_overwritten : ¬∀ rip w, Reachable (FifoStart rip) (FifoTurn rip) w →
    Holds (w.fs.inode rip) w.unread ∧ ∀ act w', FifoTurn rip w act w' → FromFront rip w w' := by
  intro hall
  have hopen : FifoTurn 1 ⟨fifoWritten, [7]⟩ (fifoAct 5 openWriter) ⟨fifoSecond, [7]⟩ :=
    fifo_turn [7] [] (by decide +kernel) (by decide +kernel) trivial
      (by simp [OnDisk, openWriter, fifoOutside, leadsTo]) (by decide +kernel) (by decide +kernel)
  have hwrite : FifoTurn 1 ⟨fifoSecond, [7]⟩ (fifoAct 5 (.write 0 1 fun _ => 8)) ⟨fifoLost, [7, 8]⟩ :=
    fifo_turn [7, 8] [.wrote 5 1 [8]] (by decide +kernel) (by decide +kernel) trivial rfl
      (by decide +kernel) (by decide +kernel)
  have hreach : Reachable (FifoStart 1) (FifoTurn 1) ⟨fifoLost, [7, 8]⟩ :=
    (((((Reachable.of_init fifoStart_start).of_step fifo_openReader).of_step
      fifo_openWriter).of_step fifo_writes).of_step hopen).of_step hwrite
  have hlength := (hall 1 _ hreach).1.length
  have hsize : (fifoLost.inode 1).i_size = 1 := by decide +kernel
  change 2 ≤ (fifoLost.inode 1).i_size at hlength
  rw [hsize] at hlength
  exact absurd hlength (by decide)

end Minix.Pipe
