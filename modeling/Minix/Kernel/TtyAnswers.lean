import Minix.Kernel.TtyLines

/-!
# The answers of a terminal

What the terminal task sends to those who read from a line: `do_read` answers at once, `charint`
answers a read that hangs by `REVIVE`, and a cancel is the answer to the read that it finishes. The
reads of a line are numbered in the order in which they come. The field `reader` tells which of them
has put its data into the terminal structure. The source has no such numbers, they only tell the
answers apart.

`rd_chars` has two early returns in front of the statement that clears `tty_inleft`. The one for an
empty queue leaves the reader hanging, which is what `SUSPEND` says. The one for an address that is
not one of the process leaves it too, although the read has been answered (`TtyLine.Faults`).
`finished_reads` is about the runs: what has been answered is finished, and each read gets one final
answer at most, if and only if no read comes to that return with characters left to read.
-/

namespace Minix.Kernel

def EINTR : ℤ := -4

/-- The code of a reply. -/
inductive ReplyCode
  | TASK_REPLY
  | REVIVE
  deriving DecidableEq

/-- What `tty_reply` sends, with the number of the read that it is an answer to. -/
structure TtyReply where
  code : ReplyCode
  replyee : ℤ
  proc_nr : ℤ
  status : ℤ
  read : Option ℕ
  deriving DecidableEq

/-- A line, with who reads from it. -/
structure TtyLine where
  tty : Tty
  tty_incaller : ℤ
  tty_inproc : ℤ
  /-- The number of the read that has been put into the terminal structure. -/
  reader : ℕ
  /-- How many reads there have been. -/
  reads : ℕ

/-- What the task gets. -/
inductive TtyMessage
  /-- A character has been accumulated. -/
  | char (ch : UInt8) (mapped : Bool)
  | read (m_source proc_nr : ℤ) (count : ℕ) (mapped : Bool)
  | cancel (m_source proc_nr : ℤ) (mode : ℕ)
  /-- `TIOCSETP` -/
  | setp (erase kill : UInt8) (mode : ℕ)
  /-- `TIOCSETC` -/
  | setc (intr quit xoff eof : UInt8)
  /-- `SIGKILL` from the keyboard. -/
  | signal
  | output (outleft : ℕ)

/-- What a message does to the terminal. -/
def TtyMessage.act : TtyMessage → TtyAct
  | .char ch mapped => .char ch mapped
  | .read _ _ count mapped => .read count mapped
  | .cancel _ _ mode => .cancel mode
  | .setp erase kill mode => .setp erase kill mode
  | .setc intr quit xoff eof => .setc intr quit xoff eof
  | .signal => .signal
  | .output outleft => .output outleft

/-- A process wants to read from a terminal. -/
def TtyLine.doRead (l : TtyLine) (m_source proc_nr : ℤ) (count : ℕ) (mapped : Bool) :
    List TtyReply × TtyLine :=
  let n := l.reads
  let l := { l with reads := n + 1 }
  if l.tty.tty_inleft > 0 then ([⟨.TASK_REPLY, m_source, proc_nr, EIO, some n⟩], l)
  else
    let (code, _, tty) := rdChars { l.tty with tty_inleft := count } mapped
    ([⟨.TASK_REPLY, m_source, proc_nr, code, some n⟩], { l with
      tty := tty
      tty_incaller := m_source
      tty_inproc := proc_nr
      reader := n })

/-- See if a previously blocked reader can now be satisfied. -/
def TtyLine.charint (l : TtyLine) (ch : UInt8) (mapped : Bool) : List TtyReply × TtyLine :=
  let t := inChar l.tty ch
  if t.Wakes then
    let (m, _, tty) := rdChars t mapped
    ([⟨.REVIVE, l.tty_incaller, l.tty_inproc, m, some l.reader⟩], { l with tty := tty })
  else ([], { l with tty := t })

/-- The pending read or write must be finished off immediately. -/
def TtyLine.doCancel (l : TtyLine) (m_source proc_nr : ℤ) (mode : ℕ) : List TtyReply × TtyLine :=
  if l.tty.tty_inleft = 0 ∧ l.tty.tty_outleft = 0 then ([], l)
  else
    let read := if mode &&& R_BIT ≠ 0 ∧ l.tty.tty_inleft > 0 then some l.reader else none
    ([⟨.TASK_REPLY, m_source, proc_nr, EINTR, read⟩], { l with tty := Kernel.doCancel l.tty mode })

/-- What the task does with a message, with the replies that are about reads. -/
def TtyLine.handle (l : TtyLine) : TtyMessage → List TtyReply × TtyLine
  | .char ch mapped => l.charint ch mapped
  | .read m_source proc_nr count mapped => l.doRead m_source proc_nr count mapped
  | .cancel m_source proc_nr mode => l.doCancel m_source proc_nr mode
  | m => ([], { l with tty := (l.tty.act m.act).2 })

/-- Several messages. -/
def TtyLine.run : TtyLine → List TtyMessage → List TtyReply × TtyLine
  | l, [] => ([], l)
  | l, m :: ms =>
    let (replies, l) := l.handle m
    let (more, l) := TtyLine.run l ms
    (replies ++ more, l)

/-- The terminal of a line goes the way that it goes without its answers. -/
theorem TtyLine.handle_tty (l : TtyLine) (m : TtyMessage) :
    (l.handle m).2.tty = (l.tty.act m.act).2 := by
  cases m with
  | char ch mapped =>
    show (l.charint ch mapped).2.tty = (Kernel.charint l.tty ch mapped).2
    unfold TtyLine.charint Kernel.charint
    dsimp only
    by_cases hwakes : (inChar l.tty ch).Wakes
    · rw [if_pos hwakes, if_pos (by exact hwakes)]
    · rw [if_neg hwakes, if_neg (by exact hwakes)]
  | read m_source proc_nr count mapped =>
    show (l.doRead m_source proc_nr count mapped).2.tty = (Kernel.doRead l.tty count mapped).2.2
    unfold TtyLine.doRead Kernel.doRead
    dsimp only
    split <;> rfl
  | cancel m_source proc_nr mode =>
    show (l.doCancel m_source proc_nr mode).2.tty = Kernel.doCancel l.tty mode
    unfold TtyLine.doCancel Kernel.doCancel
    split <;> rfl
  | setp | setc | signal | output => rfl

/-! ## What has been answered -/

/-- An answer that the reader does not wait behind. -/
def TtyReply.Final (r : TtyReply) (n : ℕ) : Bool := r.read = some n && r.status ≠ SUSPEND

/-- A read that has been answered has left nothing on the line. One that has been refused because
another one hangs has not changed the line. -/
structure TtyLine.Finished (l : TtyLine) (r : TtyReply) (n : ℕ) : Prop where
  left : r.status ≠ EIO → l.tty.tty_inleft = 0
  gone : l.tty.tty_inleft = 0 ∨ l.reader ≠ n

/-- In all states of a run, what is answered is finished. -/
def TtyLine.Finishes : TtyLine → List TtyMessage → Prop
  | _, [] => True
  | l, m :: ms =>
    (∀ r ∈ (l.handle m).1, ∀ n, r.Final n → (l.handle m).2.Finished r n) ∧
      TtyLine.Finishes (l.handle m).2 ms

/-- How many final answers a read gets. -/
def finals (n : ℕ) (rs : List TtyReply) : ℕ := rs.countP (·.Final n)

/-- There is something to be read. -/
def Tty.Ready (t : Tty) : Prop := ¬ (t.tty_incount = 0 ∨ (t.inputMode = 0 ∧ t.tty_lfct = 0))

/-- A read comes to what can be read with an address that is not one of the process. -/
def TtyLine.Faults (l : TtyLine) : TtyMessage → Prop
  | .char ch mapped => (inChar l.tty ch).Wakes ∧ (inChar l.tty ch).Ready ∧ mapped = false
  | .read _ _ count mapped => l.tty.tty_inleft = 0 ∧ 0 < count ∧ l.tty.Ready ∧ mapped = false
  | _ => False

/-- No read of a run does so. -/
def TtyLine.Sound : TtyLine → List TtyMessage → Prop
  | _, [] => True
  | l, m :: ms => ¬ l.Faults m ∧ TtyLine.Sound (l.handle m).2 ms

section Answers

variable {l : TtyLine} {t : Tty} {m : TtyMessage} {ms : List TtyMessage} {mapped : Bool} {n : ℕ}

/-! ## Typing does not change what is left to read -/

theorem chuck_inleft {t' : Tty} (h : chuck t = some t') : t'.tty_inleft = t.tty_inleft := by
  unfold chuck at h
  dsimp only at h
  split at h
  · cases h
  split at h
  · cases h
  · injection h with h
    subst h
    rfl

theorem chuckAll_inleft (n : ℕ) (t : Tty) : (chuckAll n t).tty_inleft = t.tty_inleft := by
  induction n generalizing t with
  | zero => rfl
  | succ n ih =>
    unfold chuckAll
    split
    · rfl
    · next hc => rw [ih, chuck_inleft hc]

theorem cook_inleft (t : Tty) (ch : UInt8) : (t.cook ch).1.tty_inleft = t.tty_inleft := by
  unfold Tty.cook
  dsimp only
  split_ifs
  · cases hc : chuck t with
    | none => rfl
    | some t' => exact chuck_inleft hc
  · exact chuckAll_inleft _ t
  all_goals rfl

theorem control_inleft (t : Tty) (ch : UInt8) : (t.control ch).1.tty_inleft = t.tty_inleft := by
  unfold Tty.control
  split_ifs <;> rfl

theorem enter_inleft (t : Tty) (ch : UInt8) : (t.enter ch).tty_inleft = t.tty_inleft := by
  unfold Tty.enter
  split <;> rfl

theorem checked_inleft (t : Tty) (ch : UInt8) : (t.checked ch).tty_inleft = t.tty_inleft := by
  unfold Tty.checked
  have hcook : (if t.inputMode = COOKED then t.cook ch else (t, some ch)).1.tty_inleft =
      t.tty_inleft := by
    split
    · exact cook_inleft t ch
    · rfl
  generalize (if t.inputMode = COOKED then t.cook ch else (t, some ch)) = r at hcook ⊢
  obtain ⟨t', o⟩ := r
  cases o with
  | none => exact hcook
  | some c =>
    have hcontrol := control_inleft t' (t'.mapCr c)
    dsimp only at hcook ⊢
    generalize t'.control (t'.mapCr c) = r at hcontrol ⊢
    obtain ⟨t'', o⟩ := r
    cases o with
    | none => exact hcontrol.trans hcook
    | some c => exact (enter_inleft t'' c).trans (hcontrol.trans hcook)

theorem inChar_inleft (t : Tty) (ch : UInt8) : (inChar t ch).tty_inleft = t.tty_inleft := by
  unfold inChar
  dsimp only
  split_ifs
  · rfl
  · exact checked_inleft t _
  · exact checked_inleft t _
  · exact enter_inleft t _
  · exact enter_inleft t _

/-! ## The returns of `rd_chars` -/

theorem rdChars_wait (h : ¬ t.Ready) : rdChars t mapped = (SUSPEND, [], t) := by
  have hwait : t.tty_incount = 0 ∨ (decide (t.inputMode = 0) = true ∧ t.tty_lfct = 0) := by
    simpa using not_not.mp h
  unfold rdChars
  dsimp only
  rw [if_pos hwait]

theorem rdChars_fault (h : t.Ready) : rdChars t false = ( E_BAD_ADDR, [], t) := by
  have hgo : ¬ (t.tty_incount = 0 ∨ (decide (t.inputMode = 0) = true ∧ t.tty_lfct = 0)) := by
    simpa [Tty.Ready] using h
  unfold rdChars
  dsimp only
  rw [if_neg hgo, if_pos rfl]

/-- A read that is done clears what is left. -/
theorem rdChars_done (h : t.Ready) :
    0 ≤ (rdChars t true).1 ∧ (rdChars t true).2.2.tty_inleft = 0 := by
  have hgo : ¬ (t.tty_incount = 0 ∨ (decide (t.inputMode = 0) = true ∧ t.tty_lfct = 0)) := by
    simpa [Tty.Ready] using h
  unfold rdChars
  dsimp only
  rw [if_neg hgo, if_neg (by decide)]
  exact ⟨Int.natCast_nonneg _, rfl⟩

/-- An answer that is final leaves nothing to read, unless the address is bad. -/
theorem rdChars_final (hanswer : (rdChars t mapped).1 ≠ SUSPEND)
    (hfault : ¬ (0 < t.tty_inleft ∧ t.Ready ∧ mapped = false)) :
    (rdChars t mapped).2.2.tty_inleft = 0 := by
  by_cases hready : t.Ready
  · cases mapped with
    | true => exact (rdChars_done hready).2
    | false =>
      rw [rdChars_fault hready]
      by_contra hleft
      exact hfault ⟨Nat.pos_of_ne_zero hleft, hready, rfl⟩
  · rw [rdChars_wait hready] at hanswer
    exact absurd rfl hanswer

/-! ## One message -/

/-- What holds of a line and the answers that have been sent: a read gets one final answer, the one
that hangs has not got it yet, and those to come have not either. -/
structure Answered (l : TtyLine) (sent : List TtyReply) : Prop where
  once : ∀ n, finals n sent ≤ 1
  fresh : ∀ n, l.reads ≤ n → finals n sent = 0
  hangs : 0 < l.tty.tty_inleft → l.reader < l.reads ∧ finals l.reader sent = 0

theorem finals_append (sent rs : List TtyReply) :
    finals n (sent ++ rs) = finals n sent + finals n rs :=
  List.countP_append

theorem finals_nil : finals n [] = 0 := rfl

theorem finals_single (r : TtyReply) : finals n [r] = if r.Final n then 1 else 0 :=
  List.countP_singleton

theorem final_iff (r : TtyReply) : r.Final n ↔ r.read = some n ∧ r.status ≠ SUSPEND := by
  simp [TtyReply.Final]

/-- A line on which no read is put, and no answer is sent. -/
theorem Answered.keep {l' : TtyLine} {sent : List TtyReply} (h : Answered l sent)
    (hreads : l'.reads = l.reads) (hreader : l'.reader = l.reader)
    (hleft : 0 < l'.tty.tty_inleft → 0 < l.tty.tty_inleft) : Answered l' sent where
  once := h.once
  fresh := fun n hn => h.fresh n (hreads ▸ hn)
  hangs := fun hl => by
    rw [hreads, hreader]
    exact h.hangs (hleft hl)

/-- The read that hangs is answered, for good or not. -/
theorem Answered.reply {l' : TtyLine} {sent : List TtyReply} {r : TtyReply} (h : Answered l sent)
    (hreads : l'.reads = l.reads) (hreader : l'.reader = l.reader) (hleft : 0 < l.tty.tty_inleft)
    (hread : r.read = some l.reader ∨ r.read = none)
    (hfinal : r.Final l.reader → l'.tty.tty_inleft = 0) : Answered l' (sent ++ [r]) := by
  obtain ⟨hlt, hzero⟩ := h.hangs hleft
  have hother : ∀ n, n ≠ l.reader → r.Final n = false := by
    intro n hn
    rw [Bool.eq_false_iff, Ne, final_iff]
    rintro ⟨hr, -⟩
    obtain hread | hread := hread
    · exact hn (Option.some_inj.mp (hr.symm.trans hread))
    · cases hr.symm.trans hread
  constructor
  · intro n
    rw [finals_append, finals_single]
    by_cases hn : n = l.reader
    · subst hn
      rw [hzero]
      split <;> omega
    · rw [hother n hn]
      simpa using h.once n
  · intro n hn
    rw [hreads] at hn
    rw [finals_append, finals_single, hother n (by omega), h.fresh n hn]
    rfl
  · intro hl
    rw [hreads, hreader]
    refine ⟨hlt, ?_⟩
    rw [finals_append, finals_single, hzero]
    by_cases hr : r.Final l.reader
    · rw [hfinal hr] at hl
      exact absurd hl (lt_irrefl 0)
    · rw [if_neg hr]

/-- A read that comes is answered, for good or not. -/
theorem Answered.come {l' : TtyLine} {sent : List TtyReply} {r : TtyReply} (h : Answered l sent)
    (hreads : l'.reads = l.reads + 1) (hread : r.read = some l.reads)
    (hhangs : 0 < l'.tty.tty_inleft →
      (l'.reader = l.reads ∧ r.status = SUSPEND) ∨ (l'.reader = l.reader ∧ 0 < l.tty.tty_inleft)) :
    Answered l' (sent ++ [r]) := by
  have hnew : finals l.reads sent = 0 := h.fresh _ le_rfl
  have hother : ∀ n, n ≠ l.reads → r.Final n = false := by
    intro n hn
    rw [Bool.eq_false_iff, Ne, final_iff]
    rintro ⟨hr, -⟩
    exact hn (Option.some_inj.mp (hr.symm.trans hread))
  constructor
  · intro n
    rw [finals_append, finals_single]
    by_cases hn : n = l.reads
    · subst hn
      rw [hnew]
      split <;> omega
    · rw [hother n hn]
      simpa using h.once n
  · intro n hn
    rw [hreads] at hn
    rw [finals_append, finals_single, hother n (by omega), h.fresh n (by omega)]
    rfl
  · intro hl
    rw [hreads]
    obtain ⟨hreader, hstatus⟩ | ⟨hreader, hleft⟩ := hhangs hl
    · have hr : r.Final l.reads = false := by
        rw [Bool.eq_false_iff, Ne, final_iff]
        exact fun hf => hf.2 hstatus
      rw [hreader, finals_append, finals_single, hnew, hr]
      exact ⟨Nat.lt_succ_self _, rfl⟩
    · obtain ⟨hlt, hzero⟩ := h.hangs hleft
      rw [hreader, finals_append, finals_single, hother _ (by omega), hzero]
      exact ⟨by omega, rfl⟩

/-- What a line does to answer a read is right. -/
def Replies (sent : List TtyReply) (o : List TtyReply × TtyLine) : Prop :=
  Answered o.2 (sent ++ o.1) ∧ ∀ r ∈ o.1, ∀ n, r.Final n → o.2.Finished r n

theorem Answered.replies_nil {l' : TtyLine} {sent : List TtyReply} (h : Answered l' sent) :
    Replies sent ([], l') := by
  refine ⟨?_, fun r hr => absurd hr List.not_mem_nil⟩
  rw [List.append_nil]
  exact h

theorem replies_single {l' : TtyLine} {sent : List TtyReply} {r : TtyReply}
    (h : Answered l' (sent ++ [r])) (hfinal : ∀ n, r.Final n → l'.Finished r n) :
    Replies sent ([r], l') := by
  refine ⟨h, fun r' hr => ?_⟩
  rw [List.mem_singleton.mp hr]
  exact hfinal

theorem TtyLine.finished_of_left {r : TtyReply} (h : l.tty.tty_inleft = 0) : l.Finished r n :=
  ⟨fun _ => h, .inl h⟩

theorem Answered.charint {sent : List TtyReply} {ch : UInt8} (h : Answered l sent)
    (hfault : ¬ l.Faults (.char ch mapped)) : Replies sent (l.charint ch mapped) := by
  have hleft := inChar_inleft l.tty ch
  unfold TtyLine.charint
  dsimp only
  by_cases hwakes : (inChar l.tty ch).Wakes
  · rw [if_pos hwakes]
    have hcleared : (rdChars (inChar l.tty ch) mapped).1 ≠ SUSPEND →
        (rdChars (inChar l.tty ch) mapped).2.2.tty_inleft = 0 := by
      intro hanswer
      exact rdChars_final hanswer fun hf => hfault ⟨hwakes, hf.2⟩
    refine replies_single ?_ ?_
    · refine h.reply rfl rfl ?_ (.inl rfl) ?_
      · rw [← hleft]
        exact hwakes.1
      · intro hfinal
        exact hcleared ((final_iff _).mp hfinal).2
    · intro n hfinal
      exact TtyLine.finished_of_left (hcleared ((final_iff _).mp hfinal).2)
  · rw [if_neg hwakes]
    have hkeep : Answered { l with tty := inChar l.tty ch } sent := by
      refine h.keep rfl rfl fun hpos => ?_
      rw [← hleft]
      exact hpos
    exact hkeep.replies_nil

theorem Answered.read {sent : List TtyReply} {m_source proc_nr : ℤ} {count : ℕ}
    (h : Answered l sent) (hfault : ¬ l.Faults (.read m_source proc_nr count mapped)) :
    Replies sent (l.doRead m_source proc_nr count mapped) := by
  unfold TtyLine.doRead
  dsimp only
  by_cases hleft : l.tty.tty_inleft > 0
  · -- Someone else is hanging.
    rw [if_pos hleft]
    refine replies_single (h.come rfl rfl fun _ => .inr ⟨rfl, hleft⟩) ?_
    intro n hfinal
    obtain rfl : l.reads = n := Option.some_inj.mp ((final_iff _).mp hfinal).1
    exact ⟨fun hne => absurd rfl hne, .inr (h.hangs hleft).1.ne⟩
  · rw [if_neg hleft]
    generalize hread : rdChars { l.tty with tty_inleft := count } mapped = o
    obtain ⟨code, given, tty⟩ := o
    have hcleared : code ≠ SUSPEND → tty.tty_inleft = 0 := by
      intro hanswer
      have hgood : ¬ (0 < count ∧ { l.tty with tty_inleft := count }.Ready ∧ mapped = false) :=
        fun hbad => hfault ⟨Nat.eq_zero_of_not_pos hleft, hbad⟩
      have hcode : (rdChars { l.tty with tty_inleft := count } mapped).1 ≠ SUSPEND := by
        rw [hread]
        exact hanswer
      have hf := rdChars_final hcode hgood
      rw [hread] at hf
      exact hf
    refine replies_single (h.come rfl rfl fun hpos => .inl ⟨rfl, ?_⟩) ?_
    · by_contra hanswer
      exact absurd (hcleared hanswer) (Nat.pos_iff_ne_zero.mp hpos)
    · intro n hfinal
      exact TtyLine.finished_of_left (hcleared ((final_iff _).mp hfinal).2)

theorem Answered.cancel {sent : List TtyReply} {m_source proc_nr : ℤ} {mode : ℕ}
    (h : Answered l sent) : Replies sent (l.doCancel m_source proc_nr mode) := by
  unfold TtyLine.doCancel
  by_cases hidle : l.tty.tty_inleft = 0 ∧ l.tty.tty_outleft = 0
  · rw [if_pos hidle]
    exact h.replies_nil
  rw [if_neg hidle]
  dsimp only
  have hcancel : (doCancel l.tty mode).tty_inleft =
      if mode &&& R_BIT ≠ 0 then 0 else l.tty.tty_inleft := by
    unfold doCancel
    dsimp only
    rw [if_neg hidle]
    split_ifs <;> rfl
  by_cases hread : mode &&& R_BIT ≠ 0 ∧ l.tty.tty_inleft > 0
  · rw [if_pos hread]
    rw [if_pos hread.1] at hcancel
    refine replies_single (h.reply rfl rfl hread.2 (.inl rfl) fun _ => hcancel) ?_
    exact fun n _ => TtyLine.finished_of_left hcancel
  · rw [if_neg hread]
    have hnone : ∀ n, ¬ (TtyReply.mk .TASK_REPLY m_source proc_nr EINTR none).Final n := by
      intro n hfinal
      cases ((final_iff _).mp hfinal).1
    refine replies_single ?_ fun n hfinal => absurd hfinal (hnone n)
    have hkeep : Answered { l with tty := doCancel l.tty mode } sent := by
      refine h.keep rfl rfl fun hpos => ?_
      rw [hcancel] at hpos
      split at hpos
      · exact absurd hpos (lt_irrefl 0)
      · exact hpos
    refine ⟨fun n => ?_, fun n hn => ?_, fun hpos => ?_⟩
    · rw [finals_append, finals_single, if_neg (hnone n)]
      exact hkeep.once n
    · rw [finals_append, finals_single, if_neg (hnone n)]
      exact hkeep.fresh n hn
    · rw [finals_append, finals_single, if_neg (hnone _)]
      exact hkeep.hangs hpos

theorem Answered.handle {sent : List TtyReply} (h : Answered l sent) (hfault : ¬ l.Faults m) :
    Replies sent (l.handle m) := by
  cases m with
  | char ch mapped => exact h.charint hfault
  | read m_source proc_nr count mapped => exact h.read hfault
  | cancel m_source proc_nr mode => exact h.cancel
  | setp | setc | signal | output => exact Answered.replies_nil (h.keep rfl rfl id)

/-- A fault is answered, and the read still hangs. -/
theorem TtyLine.Faults.unfinished (h : l.Faults m) :
    ∃ r ∈ (l.handle m).1, ∃ n, r.Final n ∧ ¬ (l.handle m).2.Finished r n := by
  cases m with
  | char ch mapped =>
    obtain ⟨hwakes, hready, rfl⟩ := h
    have hhandle : l.handle (.char ch false) =
        ([⟨.REVIVE, l.tty_incaller, l.tty_inproc, E_BAD_ADDR, some l.reader⟩],
          { l with tty := inChar l.tty ch }) := by
      show l.charint ch false = _
      unfold TtyLine.charint
      dsimp only
      rw [if_pos hwakes, rdChars_fault hready]
    rw [hhandle]
    refine ⟨_, List.mem_singleton_self _, l.reader, by simp [TtyReply.Final, E_BAD_ADDR, SUSPEND],
      fun hf => ?_⟩
    have hne : E_BAD_ADDR ≠ EIO := by decide
    exact absurd (hf.left hne) (Nat.pos_iff_ne_zero.mp hwakes.1)
  | read m_source proc_nr count mapped =>
    obtain ⟨hfree, hcount, hready, rfl⟩ := h
    have hready' : { l.tty with tty_inleft := count }.Ready := hready
    have hhandle : l.handle (.read m_source proc_nr count false) =
        ([⟨.TASK_REPLY, m_source, proc_nr, E_BAD_ADDR, some l.reads⟩], { l with
          tty := { l.tty with tty_inleft := count }
          tty_incaller := m_source
          tty_inproc := proc_nr
          reader := l.reads
          reads := l.reads + 1 }) := by
      show l.doRead m_source proc_nr count false = _
      unfold TtyLine.doRead
      dsimp only
      rw [if_neg (by omega), rdChars_fault hready']
    rw [hhandle]
    refine ⟨_, List.mem_singleton_self _, l.reads, by simp [TtyReply.Final, E_BAD_ADDR, SUSPEND],
      fun hf => ?_⟩
    have hne : E_BAD_ADDR ≠ EIO := by decide
    exact absurd (hf.left hne) (Nat.pos_iff_ne_zero.mp hcount)
  | cancel | setp | setc | signal | output => exact h.elim

/-! ## Runs -/

theorem Answered.run {sent : List TtyReply} (h : Answered l sent) (hsound : l.Sound ms) :
    l.Finishes ms ∧ Answered (l.run ms).2 (sent ++ (l.run ms).1) := by
  induction ms generalizing l sent with
  | nil =>
    refine ⟨trivial, ?_⟩
    show Answered l (sent ++ [])
    rw [List.append_nil]
    exact h
  | cons m ms ih =>
    obtain ⟨hone, hrest⟩ := hsound
    obtain ⟨h', hfinished⟩ := h.handle hone
    obtain ⟨hmore, hlast⟩ := ih h' hrest
    rw [List.append_assoc] at hlast
    exact ⟨⟨hfinished, hmore⟩, hlast⟩

theorem TtyLine.Finishes.sound (h : l.Finishes ms) : l.Sound ms := by
  induction ms generalizing l with
  | nil => trivial
  | cons m ms ih =>
    refine ⟨fun hfault => ?_, ih h.2⟩
    obtain ⟨r, hr, n, hfinal, hnot⟩ := hfault.unfinished
    exact hnot (h.1 r hr n hfinal)

end Answers

/-- On a line on which no read hangs, what is answered in a run is finished, and no read gets two
final answers, if and only if no read comes to what can be read with a bad address. -/
theorem finished_reads {l : TtyLine} {ms : List TtyMessage} (hidle : l.tty.tty_inleft = 0) :
    (l.Finishes ms ∧ ∀ n, finals n (l.run ms).1 ≤ 1) ↔ l.Sound ms := by
  constructor
  · exact fun h => h.1.sound
  · intro hsound
    have h : Answered l [] :=
      ⟨fun _ => Nat.zero_le _, fun _ _ => rfl, fun hpos => absurd hidle (Nat.pos_iff_ne_zero.mp hpos)⟩
    obtain ⟨hfinishes, hanswered⟩ := h.run hsound
    exact ⟨hfinishes, hanswered.once⟩

/-- The console at boot. -/
def bootLine : TtyLine := ⟨bootTty, 0, 0, 0, 0⟩

/-- A process waits for a line, gets it, and the next one waits. -/
theorem finished_reads_line :
    let ms := [.read 1 5 4 true, .char 97 true, .char LF true, .read 1 6 4 false]
    (bootLine.Finishes ms ∧ ∀ n, finals n (bootLine.run ms).1 ≤ 1) ∧
      (bootLine.run ms).1.map (·.status) = [SUSPEND, 2, SUSPEND] := by
  refine ⟨(finished_reads rfl).mpr ?_, by decide +kernel⟩
  refine ⟨?_, ?_, ?_, ?_, trivial⟩
  · rintro ⟨-, -, -, h⟩
    cases h
  · rintro ⟨-, -, h⟩
    cases h
  · rintro ⟨-, -, h⟩
    cases h
  · rintro ⟨-, -, h, -⟩
    exact h (by decide +kernel)

/-- A process reads a line to a bad address. The next read is refused, and the first one is answered
once more. -/
theorem read_still_hangs :
    let ms := [.char 97 true, .char LF true, .read 1 5 4 false, .read 1 6 4 true, .char LF false]
    ¬ (bootLine.Finishes ms ∧ ∀ n, finals n (bootLine.run ms).1 ≤ 1) ∧
      (bootLine.run ms).1 = [⟨.TASK_REPLY, 1, 5, E_BAD_ADDR, some 0⟩,
        ⟨.TASK_REPLY, 1, 6, EIO, some 1⟩, ⟨.REVIVE, 1, 5, E_BAD_ADDR, some 0⟩] := by
  have hrun : (bootLine.run [.char 97 true, .char LF true, .read 1 5 4 false, .read 1 6 4 true,
      .char LF false]).1 = [⟨.TASK_REPLY, 1, 5, E_BAD_ADDR, some 0⟩,
        ⟨.TASK_REPLY, 1, 6, EIO, some 1⟩, ⟨.REVIVE, 1, 5, E_BAD_ADDR, some 0⟩] := by
    decide +kernel
  refine ⟨fun h => ?_, hrun⟩
  have htwo := h.2 0
  rw [hrun] at htwo
  exact absurd htwo (by decide)

end Minix.Kernel
