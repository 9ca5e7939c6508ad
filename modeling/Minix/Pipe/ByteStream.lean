import Minix.Lib.Run
import Minix.Pipe.Bookkeeping
import Minix.Pipe.Streams

/-!
# Pipes are byte streams

A pipe that `pipe` has made is read with one open file and written with another, by whichever
processes have descriptors of them, and no name leads to it. The reader stands at the first byte
that has not been read, the writer at the end of the file, and both are reset together when the pipe
is drained (`Streaming`). So the bytes that reads return are those that writes have stored, in
order, whoever is suspended and revived in between (`pipe_stream`).
-/

namespace Minix.Pipe

open Lib
open Kernel (NR_PROCS)

variable {s s' s₁ : FsState} {who fp : ProcNr} {f r w : FilpNr} {rip : Ino} {k : Outside}
  {fd : Fin OPEN_MAX} {buffer : ℕ → UInt8} {unread : List UInt8} {act : FsAction} {c : FsCall}

/-- The bytes that reads have returned, oldest first. -/
def readBytes : List PipeEvent → List UInt8
  | [] => []
  | .read _ _ bytes :: rest => readBytes rest ++ bytes
  | _ :: rest => readBytes rest

/-- The bytes that writes have stored, oldest first. -/
def wroteBytes : List PipeEvent → List UInt8
  | [] => []
  | .wrote _ _ bytes :: rest => wroteBytes rest ++ bytes
  | _ :: rest => wroteBytes rest

theorem readBytes_append (new old : List PipeEvent) :
    readBytes (new ++ old) = readBytes old ++ readBytes new := by
  induction new with
  | nil => exact (List.append_nil _).symm
  | cons e rest ih =>
    cases e with
    | read who rip bytes => rw [List.cons_append, readBytes, ih, readBytes, List.append_assoc]
    | wrote who rip bytes => exact ih
    | sigpipe who => exact ih

theorem wroteBytes_append (new old : List PipeEvent) :
    wroteBytes (new ++ old) = wroteBytes old ++ wroteBytes new := by
  induction new with
  | nil => exact (List.append_nil _).symm
  | cons e rest ih =>
    cases e with
    | read who rip bytes => exact ih
    | wrote who rip bytes => rw [List.cons_append, wroteBytes, ih, wroteBytes, List.append_assoc]
    | sigpipe who => exact ih

/-- A call of `pipe` has just made the pipe. -/
def JustMade (rip : Ino) (s : FsState) : Prop :=
  ∃ s₀ who k, Reachable FsBoot FsStep s₀ ∧ FsStep s₀ (.message who .pipe k) s ∧ k.alloc = .ok rip ∧
    returned s₀ (.message who .pipe k) = some OK

/-- No copy and no access to the disk fails in the call, no name leads to the pipe, and what has
nothing to do with descriptors leaves it alone. -/
def Undisturbed (rip : Ino) (s : FsState) (k : Outside) : FsCall → Prop
  | .read _ _ => k.io = none
  | .write _ _ _ => k.io = none
  | .open _ => k.path ≠ .found rip
  | .creat => k.path ≠ .found rip
  | .other inode _ => Leaves rip s inode
  | _ => True

/-- A turn of the main loop while somebody has the pipe open. -/
structure PipeTurn (rip : Ino) (s : FsState) (act : FsAction) (s' : FsState) : Prop where
  step : FsStep s act s'
  opens : opens s rip ≠ 0
  undisturbed : ∀ who c k, turnOf s act = some (who, c, k) → Undisturbed rip s k c

/-- The call reads or writes the inode. -/
def Accesses (rip : Ino) (s : FsState) (who : ProcNr) : FsCall → Prop
  | .read fd _ => ∃ d f, getFilp s who (userFd who fd) = some (d, f) ∧ (s.filp f).filp_ino = rip
  | .write fd _ _ => ∃ d f, getFilp s who (userFd who fd) = some (d, f) ∧ (s.filp f).filp_ino = rip
  | _ => False

/-- What a turn does to the stream: nothing, which a call to read or write does not return as
success; or bytes are read, as many as the call returns; or all bytes of a call are written. -/
inductive Served (rip : Ino) (s : FsState) (act : FsAction) (s' : FsState) : Prop
  | idle (hhistory : s'.history rip = s.history rip)
      (hreturned : ∀ who c k n, turnOf s act = some (who, c, k) → Accesses rip s who c →
        returned s act = some n → n ≤ 0)
  | read {who : ProcNr} {fd nbytes : ℤ} {k : Outside} (bytes : List UInt8)
      (hturn : turnOf s act = some (who, .read fd nbytes, k)) (hlength : (bytes.length : ℤ) ≤ nbytes)
      (hhistory : s'.history rip = .read who rip bytes :: s.history rip)
      (hreturned : returned s act = some (bytes.length : ℤ))
  | wrote {who : ProcNr} {fd nbytes : ℤ} {buffer : ℕ → UInt8} {k : Outside}
      (hturn : turnOf s act = some (who, .write fd nbytes buffer, k))
      (hhistory : s'.history rip = .wrote who rip (bytesAt buffer 0 nbytes.toNat) :: s.history rip)
      (hreturned : returned s act = some nbytes)

/-- A pipe that somebody has open: the only open files are the two that it was made with. -/
structure Live (rip : Ino) (r w : FilpNr) (s : FsState) (unread : List UInt8) : Prop where
  i_type : (s.inode rip).i_type = .I_REGULAR
  i_pipe : (s.inode rip).i_pipe = true
  holds : Holds (s.inode rip) unread
  ends : ∀ f, OpenOn s f rip →
    f = r ∧ (s.filp f).filp_mode = Mode.R ∧ (s.filp f).filp_pos + unread.length = (s.inode rip).i_size ∨
    f = w ∧ (s.filp f).filp_mode = Mode.W ∧ (s.filp f).filp_pos = (s.inode rip).i_size

/-- A pipe at any time. -/
structure Streaming (rip : Ino) (r w : FilpNr) (s : FsState) (unread : List UInt8) : Prop where
  seated : Seated s
  i_size : (s.inode rip).i_size ≤ PIPE_SIZE
  live : opens s rip ≠ 0 → Live rip r w s unread

/-- Turns that leave the pipe alone. -/
theorem Streaming.keep (h : Streaming rip r w s unread) (hq : Quiet rip s s') :
    Streaming rip r w s' unread := by
  refine ⟨hq.seated, hq.keeps.i_size.trans h.i_size, fun hopen => ?_⟩
  have hlive := h.live (hq.keeps.opens hopen)
  have hsame := hq.keeps.inode hopen
  refine ⟨hsame.i_type.trans hlive.i_type, hsame.i_pipe.trans hlive.i_pipe, hlive.holds.same hsame,
    fun f hf => ?_⟩
  obtain ⟨hf, hmode, hpos⟩ := hq.keeps.filp f hf
  rw [hmode, hpos hlive.i_pipe, hsame.i_size]
  exact hlive.ends f hf

/-! ## Reading and writing -/

section Access

variable {position n : ℕ}

theorem Live.not_device (h : Live rip r w s unread) :
    (s.inode rip).i_type ≠ .I_CHAR_SPECIAL ∧ (s.inode rip).i_type ≠ .I_BLOCK_SPECIAL := by
  rw [h.i_type]
  exact ⟨by decide, by decide⟩

/-- The open files of the pipe when positions have changed. -/
theorem openOn_tables (ht : SameTables s s') : OpenOn s' f rip ↔ OpenOn s f rip := by
  unfold OpenOn
  rw [(ht.filp f).1, (ht.filp f).2]

/-- The writing end, if it is open, is the one that is found. -/
theorem Live.findFilp (h : Live rip r w s unread) (hf : OpenOn s f rip)
    (hm : (s.filp f).filp_mode = Mode.W) : findFilp s rip Mode.W = some f := by
  have hwriter : ∀ x, OpenOn s x rip → (s.filp x).filp_mode.meets Mode.W = true → x = w := by
    intro x hx hmeets
    rcases h.ends x hx with ⟨-, hm, -⟩ | ⟨rfl, -, -⟩
    · rw [hm] at hmeets
      exact absurd hmeets (by decide)
    · rfl
  cases hfind : Pipe.findFilp s rip Mode.W with
  | none =>
    have hno := List.find?_eq_none.mp hfind f (List.mem_finRange f)
    exact absurd (by simp [hf.1, hf.2, hm, Mode.meets, Mode.W]) hno
  | some x =>
    obtain ⟨hx, hmeets⟩ := findFilp_open hfind
    rw [hwriter x hx hmeets, hwriter f hf (by rw [hm]; decide)]

/-- Bytes are read with the reading end. -/
theorem Streaming.read (h : Streaming rip r w s unread) (hlive : Live rip r w s unread)
    (hpos : position + unread.length = (s.inode rip).i_size) (hin : position < (s.inode rip).i_size)
    (hmode : (s.filp r).filp_mode = Mode.R)
    (hr : HasRead rip who r position (min n ((s.inode rip).i_size - position)) s s') :
    Streaming rip r w s' (unread.drop (min n ((s.inode rip).i_size - position))) := by
  obtain ⟨htype, -, hpipe⟩ := hr.tables.inode rip
  have hholds := hlive.holds.read hr (fun _ => hpos) fun _ => hin
  have hsize : (s'.inode rip).i_size ≤ (s.inode rip).i_size := by
    by_cases hdrained : Drained (s.inode rip) (position + min n ((s.inode rip).i_size - position))
    · rw [(hr.drained hdrained).1]
      exact Nat.zero_le _
    · rw [(hr.left hdrained).1]
  refine ⟨h.seated.tables hr.tables, hsize.trans h.i_size, fun _ =>
    ⟨htype.trans hlive.i_type, hpipe.trans hlive.i_pipe, hholds, fun f hf => ?_⟩⟩
  have hf := (openOn_tables hr.tables).mp hf
  have hlen : (unread.drop (min n ((s.inode rip).i_size - position))).length =
      unread.length - min n ((s.inode rip).i_size - position) := List.length_drop
  rw [hr.mode, hlen]
  by_cases hdrained : Drained (s.inode rip) (position + min n ((s.inode rip).i_size - position))
  · -- Both ends are reset, the writing one because it is found.
    obtain ⟨hzero, hfilp⟩ := hr.drained hdrained
    have hend := hdrained.2
    rw [hzero, hfilp]
    rcases hlive.ends f hf with ⟨rfl, hm, -⟩ | ⟨rfl, hm, -⟩
    · rw [if_pos (Or.inl rfl)]
      refine Or.inl ⟨rfl, hm, ?_⟩
      change 0 + _ = 0
      omega
    · rw [if_pos (Or.inr (hlive.findFilp hf hm))]
      exact Or.inr ⟨rfl, hm, rfl⟩
  · obtain ⟨hkept, hfilp⟩ := hr.left hdrained
    rw [hkept, hfilp]
    rcases hlive.ends f hf with ⟨rfl, hm, -⟩ | ⟨rfl, hm, hstart⟩
    · rw [if_pos rfl]
      refine Or.inl ⟨rfl, hm, ?_⟩
      change position + min n ((s.inode rip).i_size - position) + _ = _
      omega
    · have hne : f ≠ r := by
        rintro rfl
        rw [hm] at hmode
        exact absurd hmode (by decide)
      rw [if_neg hne]
      exact Or.inr ⟨rfl, hm, hstart⟩

/-- Bytes are written with the writing end. -/
theorem Streaming.write (h : Streaming rip r w s unread) (hlive : Live rip r w s unread)
    (hmode : (s.filp w).filp_mode = Mode.W) (hfits : (s.inode rip).i_size + n ≤ PIPE_SIZE)
    (hw : HasWritten rip who w (s.inode rip).i_size n buffer s s') :
    Streaming rip r w s' (unread ++ bytesAt buffer 0 n) := by
  obtain ⟨htype, -, hpipe⟩ := hw.tables.inode rip
  have hsize : (s'.inode rip).i_size = (s.inode rip).i_size + n := by
    rw [hw.i_size]
    exact max_eq_right (Nat.le_add_right _ _)
  refine ⟨h.seated.tables hw.tables, hsize.le.trans hfits, fun _ =>
    ⟨htype.trans hlive.i_type, hpipe.trans hlive.i_pipe, hlive.holds.write hw, fun f hf => ?_⟩⟩
  have hf := (openOn_tables hw.tables).mp hf
  rw [hw.mode, hsize, hw.filp, List.length_append, length_bytesAt]
  rcases hlive.ends f hf with ⟨rfl, hm, hstart⟩ | ⟨rfl, hm, -⟩
  · have hne : f ≠ w := by
      rintro rfl
      rw [hm] at hmode
      exact absurd hmode (by decide)
    rw [if_neg hne]
    exact Or.inl ⟨rfl, hm, by omega⟩
  · rw [if_pos rfl]
    exact Or.inr ⟨rfl, hm, rfl⟩

/-- The reading end is the one that can be read with, and the writing end the one to be written
with. -/
theorem Live.reader (h : Live rip r w s unread) (hf : OpenOn s f rip)
    (hmode : (s.filp f).filp_mode.meets RwFlag.READING.bit = true) :
    f = r ∧ (s.filp f).filp_mode = Mode.R ∧
      (s.filp f).filp_pos + unread.length = (s.inode rip).i_size := by
  rcases h.ends f hf with hr | ⟨-, hm, -⟩
  · exact hr
  · rw [hm] at hmode
    exact absurd hmode (by decide)

theorem Live.writer (h : Live rip r w s unread) (hf : OpenOn s f rip)
    (hmode : (s.filp f).filp_mode.meets RwFlag.WRITING.bit = true) :
    f = w ∧ (s.filp f).filp_mode = Mode.W ∧ (s.filp f).filp_pos = (s.inode rip).i_size := by
  rcases h.ends f hf with ⟨-, hm, -⟩ | hw
  · rw [hm] at hmode
    exact absurd hmode (by decide)
  · exact hw

section Transfer

variable (h : Streaming rip r w s unread) (hf : OpenOn s f rip) (hio : k.io = none)
include h hf hio

theorem Streaming.transferRead (hmode : (s.filp f).filp_mode.meets RwFlag.READING.bit = true)
    (hfeasible : (s.filp f).filp_pos < (s.inode rip).i_size) {res : ℤ × FsState}
    (hres : transfer k s who f rip .READING (s.inode rip).i_size (s.filp f).filp_pos n buffer = res) :
    ∃ m ≤ n, m ≤ unread.length ∧ Streaming rip r w res.2 (unread.drop m) ∧ res.1 = m ∧
      res.2.history rip = .read who rip (unread.take m) :: s.history rip := by
  have hlive := h.live (opens_ne_zero.mpr ⟨f, hf⟩)
  obtain ⟨rfl, hm, hpos⟩ := hlive.reader hf hmode
  obtain ⟨hread, hcount⟩ : HasRead rip who f (s.filp f).filp_pos
      (min n ((s.inode rip).i_size - (s.filp f).filp_pos)) s res.2 ∧
      res.1 = min n ((s.inode rip).i_size - (s.filp f).filp_pos) := by
    rw [← hres]
    exact hasRead hio
  have hbytes := hread.history
  rw [hlive.holds.front (fun _ => hpos) n] at hbytes
  exact ⟨_, min_le_left _ _, by omega, h.read hlive hpos hfeasible hm hread, hcount, hbytes⟩

theorem Streaming.transferWrite (hmode : (s.filp f).filp_mode.meets RwFlag.WRITING.bit = true)
    (hfits : (s.inode rip).i_size + n ≤ PIPE_SIZE) {res : ℤ × FsState}
    (hres : transfer k s who f rip .WRITING (s.inode rip).i_size (s.inode rip).i_size n buffer = res) :
    Streaming rip r w res.2 (unread ++ bytesAt buffer 0 n) ∧ res.1 = n ∧
      res.2.history rip = .wrote who rip (bytesAt buffer 0 n) :: s.history rip := by
  have hlive := h.live (opens_ne_zero.mpr ⟨f, hf⟩)
  obtain ⟨rfl, hm, -⟩ := hlive.writer hf hmode
  obtain ⟨hwritten, hcount⟩ : HasWritten rip who f (s.inode rip).i_size n buffer s res.2 ∧
      res.1 = n := by
    rw [← hres]
    exact hasWritten hio hlive.not_device
  exact ⟨h.write hlive hm hfits hwritten, hcount, hwritten.history⟩

end Transfer

/-- A call that reads or writes the pipe: nothing happens, or it is done with the end that is for
it. -/
theorem Streaming.access (h : Streaming rip r w s unread) {fild nbytes : ℤ}
    (hf : getFilp s who (userFd who fild) = some (fd, f)) (hino : (s.filp f).filp_ino = rip)
    (hio : k.io = none) {rw_flag : RwFlag} {res : ℤ × FsState}
    (hres : readWrite k s who rw_flag fild nbytes buffer = res) :
    (SameFiles s res.2 ∧ res.1 ≤ 0) ∨
    (rw_flag = .READING ∧ ∃ m : ℕ, (m : ℤ) ≤ nbytes ∧ m ≤ unread.length ∧
      Streaming rip r w res.2 (unread.drop m) ∧ res.1 = m ∧
      res.2.history rip = .read who rip (unread.take m) :: s.history rip) ∨
    (rw_flag = .WRITING ∧ Streaming rip r w res.2 (unread ++ bytesAt buffer 0 nbytes.toNat) ∧
      res.1 = nbytes ∧
      res.2.history rip = .wrote who rip (bytesAt buffer 0 nbytes.toNat) :: s.history rip) := by
  have hopen : OpenOn s f rip := ⟨(h.seated.open (getFilp_spec hf).2).ne', hino⟩
  have hlive := h.live (opens_ne_zero.mpr ⟨f, hopen⟩)
  rcases readWrite_cases k rw_flag nbytes buffer hf hino hlive.not_device with
    ⟨hsame, hle⟩ | ⟨hmoves, s₁, hsame, he⟩
  · rw [hres] at hsame hle
    exact Or.inl ⟨hsame, hle⟩
  refine Or.inr ?_
  -- What `pipe_check` has done before is none of the pipe's business.
  have hs : Streaming rip r w s₁ unread := h.keep (.files h.seated hsame)
  have hopen₁ : OpenOn s₁ f rip := by
    unfold OpenOn
    rw [hsame.filp]
    exact hopen
  have hmode := hmoves.mode
  have hfeasible := hmoves.feasible hlive.i_pipe
  have hpositive := hmoves.positive
  have hhistory := hsame.history rip
  rw [hres] at he
  cases rw_flag with
  | READING =>
    have hstart : startsAt s f .READING = (s₁.filp f).filp_pos := by
      unfold startsAt
      rw [if_neg fun e => absurd e.1 (by decide), hsame.filp]
    have hin : (s₁.filp f).filp_pos < (s₁.inode rip).i_size := by
      rw [← hstart, hsame.inode]
      exact hfeasible
    rw [hstart] at he
    rw [← hsame.filp] at hmode
    obtain ⟨m, hn, hlen, hstream, hcount, hread⟩ := hs.transferRead hopen₁ hio hmode hin he.symm
    rw [hhistory] at hread
    exact Or.inl ⟨rfl, m, by omega, hlen, hstream, hcount, hread⟩
  | WRITING =>
    obtain ⟨-, -, hend⟩ := hlive.writer hopen hmode
    have hstart : startsAt s f .WRITING = (s₁.inode rip).i_size := by
      unfold startsAt
      rw [hino, hend, hsame.inode]
      exact ite_self _
    have hfits : (s₁.inode rip).i_size + nbytes.toNat ≤ PIPE_SIZE := by
      rw [← hstart]
      exact hfeasible.2.2
    rw [hstart] at he
    rw [← hsame.filp] at hmode
    obtain ⟨hstream, hcount, hwrote⟩ := hs.transferWrite hopen₁ hio hmode hfits he.symm
    rw [hhistory] at hwrote
    exact Or.inr ⟨rfl, hstream, by rw [hcount]; omega, hwrote⟩

end Access

/-! ## Turns -/

theorem getFilp_congr (h : SameFiles s s') (fild : ℤ) :
    getFilp s' who fild = getFilp s who fild := by
  unfold getFilp
  rw [h.fp_filp]

/-- A call that does not access the pipe leaves it alone. -/
theorem notOf_of_undisturbed (hs : Seated s) (hopen : opens s rip ≠ 0) (hk : Honest s k)
    (hc : Undisturbed rip s k c) (hno : ¬Accesses rip s who c) : NotOf rip s who k c := by
  have hused : (s.inode rip).i_count ≠ 0 := by
    have hle := hs.opens rip
    omega
  cases c with
  | read fd nbytes => exact fun d f hf hino => hno ⟨d, f, hf, hino⟩
  | write fd nbytes buffer => exact fun d f hf hino => hno ⟨d, f, hf, hino⟩
  | «open» oflags => exact ⟨hc, fun h => hused (hk.created rip h)⟩
  | creat => exact ⟨hc, fun h => hused (hk.created rip h)⟩
  | pipe => exact fun h => hused (hk.alloc rip h)
  | other inode result => exact hc
  | _ => trivial

theorem accesses_congr (h : SameFiles s s') : Accesses rip s' who c ↔ Accesses rip s who c := by
  cases c <;> simp only [Accesses, getFilp_congr h, h.filp]

theorem undisturbed_congr (h : SameFiles s s') :
    Undisturbed rip s' k c ↔ Undisturbed rip s k c := by
  cases c <;> simp only [Undisturbed, Leaves, h.inode]

/-- What a call does that has been made in a turn. -/
theorem Streaming.perform (h : Streaming rip r w s unread) (who : ProcNr) (hopen : opens s rip ≠ 0)
    (hk : Honest s k) (hc : Proper s c) (hund : Undisturbed rip s k c) :
    ∃ unread', Streaming rip r w (perform k s who c).2 unread' ∧
      (((perform k s who c).2.history rip = s.history rip ∧ unread' = unread ∧
          (Accesses rip s who c → (perform k s who c).1 ≤ 0)) ∨
        (∃ fd nbytes, ∃ m : ℕ, c = .read fd nbytes ∧ (m : ℤ) ≤ nbytes ∧ m ≤ unread.length ∧
          unread' = unread.drop m ∧ (perform k s who c).1 = m ∧
          (perform k s who c).2.history rip = .read who rip (unread.take m) :: s.history rip) ∨
        ∃ fd nbytes buffer, c = .write fd nbytes buffer ∧
          unread' = unread ++ bytesAt buffer 0 nbytes.toNat ∧ (perform k s who c).1 = nbytes ∧
          (perform k s who c).2.history rip =
            .wrote who rip (bytesAt buffer 0 nbytes.toNat) :: s.history rip) := by
  by_cases hacc : Accesses rip s who c
  · cases c with
    | read fd nbytes =>
      obtain ⟨d, f, hf, hino⟩ := hacc
      rcases h.access hf hino hund
        (rfl : readWrite k s who .READING fd nbytes (fun _ => 0) = _) with
        ⟨hsame, hle⟩ | ⟨-, m, hn, hlen, hstream, hcount, hread⟩ | ⟨hno, -⟩
      · exact ⟨unread, h.keep (.files h.seated hsame),
          Or.inl ⟨hsame.history rip, rfl, fun _ => hle⟩⟩
      · exact ⟨_, hstream, Or.inr (Or.inl ⟨fd, nbytes, m, rfl, hn, hlen, rfl, hcount, hread⟩)⟩
      · exact absurd hno (by decide)
    | write fd nbytes buffer =>
      obtain ⟨d, f, hf, hino⟩ := hacc
      rcases h.access hf hino hund (rfl : readWrite k s who .WRITING fd nbytes buffer = _) with
        ⟨hsame, hle⟩ | ⟨hno, -⟩ | ⟨-, hstream, hcount, hwrote⟩
      · exact ⟨unread, h.keep (.files h.seated hsame),
          Or.inl ⟨hsame.history rip, rfl, fun _ => hle⟩⟩
      · exact absurd hno (by decide)
      · exact ⟨_, hstream, Or.inr (Or.inr ⟨fd, nbytes, buffer, rfl, rfl, hcount, hwrote⟩)⟩
    | _ => exact hacc.elim
  · have hquiet : Quiet rip s (Pipe.perform k s who c).2 :=
      .perform h.seated hk hc (notOf_of_undisturbed h.seated hopen hk hund hacc)
    exact ⟨unread, h.keep hquiet, Or.inl ⟨hquiet.keeps.history, rfl, fun hno => absurd hno hacc⟩⟩

/-- One turn of the main loop. -/
theorem Streaming.step (h : Streaming rip r w s unread) (ht : PipeTurn rip s act s') :
    Served rip s act s' ∧ ∃ unread' new, Streaming rip r w s' unread' ∧
      s'.history rip = new ++ s.history rip ∧ Flow unread (wroteBytes new) (readBytes new) unread' := by
  rcases ht.step.turn with
    ⟨hnone, hsame⟩ | ⟨who, c, k, s₁, hturn, hreturned, hbefore, hk, hc, hafter⟩
  · refine ⟨.idle (hsame.history rip) fun who c k n hturn => ?_, unread, [],
      h.keep (.files h.seated hsame), hsame.history rip, .refl unread⟩
    rw [hnone] at hturn
    exact absurd hturn (by simp)
  have hs : Streaming rip r w s₁ unread := h.keep (.files h.seated hbefore)
  have hopen : opens s₁ rip ≠ 0 := by
    rw [hbefore.tables.opens]
    exact ht.opens
  have hund : Undisturbed rip s₁ k c :=
    (undisturbed_congr hbefore).mpr (ht.undisturbed who c k hturn)
  obtain ⟨unread', hstream, hdone⟩ := hs.perform who hopen hk hc hund
  have hend : Streaming rip r w s' unread' := hstream.keep (.files hstream.seated hafter)
  rw [← hafter.history rip, hbefore.history rip] at hdone
  rcases hdone with ⟨hhistory, rfl, hle⟩ |
    ⟨fd, nbytes, m, rfl, hn, hlen, rfl, hcount, hhistory⟩ |
    ⟨fd, nbytes, buffer, rfl, rfl, hcount, hhistory⟩
  · refine ⟨.idle hhistory fun who' c' k' n hturn' hacc hret => ?_, unread', [], hend, hhistory,
      .refl unread'⟩
    rw [hturn, Option.some.injEq, Prod.mk.injEq, Prod.mk.injEq] at hturn'
    obtain ⟨rfl, rfl, rfl⟩ := hturn'
    rw [hreturned, Option.some.injEq] at hret
    rw [← hret]
    exact hle ((accesses_congr hbefore).mpr hacc)
  · have htake : (unread.take m).length = m := by
      rw [List.length_take]
      exact min_eq_left hlen
    refine ⟨.read (unread.take m) hturn ?_ hhistory ?_, unread.drop m,
      [.read who rip (unread.take m)], hend, hhistory, ?_⟩
    · rw [htake]
      exact hn
    · rw [htake, hreturned, hcount]
    · simpa [readBytes, wroteBytes] using Flow.pop unread m
  · refine ⟨.wrote hturn hhistory ?_, _, [.wrote who rip (bytesAt buffer 0 nbytes.toNat)], hend,
      hhistory, ?_⟩
    · rw [hreturned, hcount]
    · simpa [readBytes, wroteBytes] using Flow.push unread (bytesAt buffer 0 nbytes.toNat)

/-! ## The start -/

/-- A pipe that has just been made has two ends, and holds nothing. -/
theorem Seated.streaming (h : Seated s) {fd₀ fd₁ : Fin OPEN_MAX} {fil₀ fil₁ : FilpNr}
    (hv : Vacant s fp fd₀ fd₁ fil₀ fil₁) (hzero : (s.inode rip).i_count = 0) :
    Streaming rip fil₀ fil₁ (Pipe.piped s fp rip fd₀ fd₁ fil₀ fil₁) [] := by
  have hinode : (Pipe.piped s fp rip fd₀ fd₁ fil₀ fil₁).inode rip = (s.inode rip).newPipe := by
    unfold Pipe.piped pipeEnd
    simp only [setFilp_inode, setFd_inode, setInode_inode, if_pos]
  have hsize : (s.inode rip).newPipe.i_size = 0 := rfl
  refine ⟨h.piped hv hzero, ?_, fun _ => ⟨?_, ?_, .nil _, fun f hf => ?_⟩⟩
  · rw [hinode, hsize]
    exact Nat.zero_le _
  · rw [hinode]
    rfl
  · rw [hinode]
    rfl
  · have hno : ¬OpenOn s f rip := fun hf => by
      have hle := h.opens rip
      rw [hzero] at hle
      exact opens_ne_zero.mpr ⟨f, hf⟩ (Nat.le_zero.mp hle)
    unfold OpenOn at hf
    rw [hinode, hsize]
    rw [piped_filp] at hf ⊢
    split_ifs at hf ⊢ with h₁ h₀
    · exact Or.inr ⟨h₁, rfl, rfl⟩
    · exact Or.inl ⟨h₀, rfl, rfl⟩
    · exact absurd hf hno

theorem JustMade.streaming (h : JustMade rip s) : ∃ r w, Streaming rip r w s [] := by
  obtain ⟨s₀, who, k, hreach, hst, halloc, hok⟩ := h
  have hs₀ : Seated s₀ := hreach.invariant (fun _ => FsBoot.seated) fun _ _ _ h hst => h.step hst
  rcases hst.turn with ⟨hnone, -⟩ | ⟨who', c, k', s₁, hturn, hreturned, hbefore, hk, -, hafter⟩
  · exact absurd hnone (by simp [turnOf])
  · obtain ⟨rfl, rfl, rfl⟩ : who = who' ∧ .pipe = c ∧ k = k' := by simpa [turnOf] using hturn
    have hs₁ := hs₀.tables hbefore.tables
    have hresult : (doPipe k s₁ who).1 = OK := by
      rw [hok, Option.some.injEq] at hreturned
      exact hreturned.symm
    rcases doPipe_cases k s₁ who with ⟨-, hno⟩ | ⟨ip, fd₀, fd₁, fil₀, fil₁, hip, hv, he⟩
    · exact absurd hresult (hno rip halloc)
    · obtain rfl : rip = ip := Except.ok.inj (halloc.symm.trans hip)
      have hmade := hs₁.streaming hv (hk.alloc rip halloc)
      refine ⟨fil₀, fil₁, hmade.keep (.files hmade.seated ?_)⟩
      have hpipe : (perform k s₁ who .pipe).2 = piped s₁ who rip fd₀ fd₁ fil₀ fil₁ :=
        congrArg Prod.snd he
      rw [← hpipe]
      exact hafter

/-- In every run in which somebody has the pipe open, from the call that has made it: the bytes that
reads have returned are the first of those that writes have stored, the others are in the file,
which never gets too long; and every turn returns as many bytes as it reads, writes all bytes of a
call, or does nothing to the stream. -/
theorem pipe_stream {acts : List FsAction} (hmade : JustMade rip s₁)
    (hrun : Run (PipeTurn rip) s₁ acts s) :
    (∃ new unread, s.history rip = new ++ s₁.history rip ∧ readBytes new <+: wroteBytes new ∧
      wroteBytes new = readBytes new ++ unread ∧ (opens s rip ≠ 0 → Holds (s.inode rip) unread)) ∧
    (s.inode rip).i_size ≤ PIPE_SIZE ∧ ∀ act s', PipeTurn rip s act s' → Served rip s act s' := by
  obtain ⟨r, w, hstart⟩ := hmade.streaming
  obtain ⟨new, unread, hs, hhistory, hflow⟩ : ∃ new unread, Streaming rip r w s unread ∧
      s.history rip = new ++ s₁.history rip ∧ Flow [] (wroteBytes new) (readBytes new) unread := by
    refine hrun.invariant (P := fun s => ∃ new unread, Streaming rip r w s unread ∧
      s.history rip = new ++ s₁.history rip ∧ Flow [] (wroteBytes new) (readBytes new) unread)
      ⟨[], [], hstart, rfl, .refl []⟩ ?_
    rintro s act s' ⟨new, unread, hs, hhistory, hflow⟩ hturn
    obtain ⟨-, unread', more, hs', hmore, hflow'⟩ := hs.step hturn
    refine ⟨more ++ new, unread', hs', ?_, ?_⟩
    · rw [hmore, hhistory, List.append_assoc]
    · rw [readBytes_append, wroteBytes_append]
      exact hflow.trans hflow'
  exact ⟨⟨new, unread, hhistory, hflow.isPrefix, hflow, fun hopen => (hs.live hopen).holds⟩, hs.i_size,
    fun act s' hturn => (hs.step hturn).1⟩

/-! ## A run -/

/-- What the rest of the system answers when no name is looked up. -/
def streamOutside (alloc : Except ℤ Ino) : Outside :=
  { leadsTo 0 OK with path := .failed EINVAL, alloc := alloc, s_max_size := 8192 }

/-- A process makes a pipe, writes two bytes to it and reads one. -/
def echoStart : FsState := mainTurn (streamOutside (.ok 5)) fsStart 3 .pipe
def echoWritten : FsState :=
  mainTurn (streamOutside (.error ENFILE)) echoStart 3 (.write 1 2 fun i => (7 + i).toUInt8)
def echoRead : FsState := mainTurn (streamOutside (.error ENFILE)) echoWritten 3 (.read 0 1)

theorem streamOutside_honest {alloc : Except ℤ Ino}
    (h : ∀ rip, alloc = .ok rip → (s.inode rip).i_count = 0) : Honest s (streamOutside alloc) :=
  ⟨by simp [streamOutside, leadsTo], by simp [streamOutside, leadsTo], h,
    fun rip hrip => absurd hrip (by simp [streamOutside])⟩

theorem echoStart_justMade : JustMade 5 echoStart := by
  have hfree : ∀ rip, Except.ok (ε := ℤ) 5 = .ok rip → (fsStart.inode rip).i_count = 0 := by
    rintro rip ⟨⟩
    decide +kernel
  exact ⟨fsStart, 3, streamOutside (.ok 5), .of_init fsStart_boot,
    .message (by decide +kernel) (by decide +kernel) (streamOutside_honest hfree) trivial, rfl,
    by decide +kernel⟩

/-- A call of the process is a turn. -/
theorem echo_turn {s : FsState} (c : FsCall) (hidle : s.reviving = 0)
    (hrun : (s.fproc 3).fp_suspended = false) (hopen : opens s 5 ≠ 0)
    (hc : Proper s c) (hund : Undisturbed 5 s (streamOutside (.error ENFILE)) c) :
    PipeTurn 5 s (.message 3 c (streamOutside (.error ENFILE)))
      (mainTurn (streamOutside (.error ENFILE)) s 3 c) := by
  refine ⟨.message hidle hrun (streamOutside_honest fun rip hrip => absurd hrip (by simp)) hc, hopen,
    fun who c' k hturn => ?_⟩
  obtain ⟨-, rfl, rfl⟩ : 3 = who ∧ c = c' ∧ streamOutside (.error ENFILE) = k := by
    simpa [turnOf] using hturn
  exact hund

theorem pipe_stream_echo :
    (∃ new unread, echoRead.history 5 = new ++ echoStart.history 5 ∧
      readBytes new <+: wroteBytes new ∧ wroteBytes new = readBytes new ++ unread ∧
      (opens echoRead 5 ≠ 0 → Holds (echoRead.inode 5) unread)) ∧
    (echoRead.inode 5).i_size ≤ PIPE_SIZE := by
  have hwrite : PipeTurn 5 echoStart _ echoWritten :=
    echo_turn (.write 1 2 fun i => (7 + i).toUInt8) (by decide +kernel) (by decide +kernel)
      (by decide +kernel) trivial rfl
  have hread : PipeTurn 5 echoWritten _ echoRead :=
    echo_turn (.read 0 1) (by decide +kernel) (by decide +kernel) (by decide +kernel) trivial rfl
  have hstream := pipe_stream echoStart_justMade ((Run.single hwrite).snoc hread)
  exact ⟨hstream.1, hstream.2.1⟩

end Minix.Pipe
