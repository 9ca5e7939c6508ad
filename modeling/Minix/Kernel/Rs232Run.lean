import Minix.Kernel.Rs232

/-!
# The output buffer of an RS232 line over a run

`rs_expand` deposits what a character comes to behind what waits (`RsInv.expand`), and `rs_feed`
takes from the front of it (`RsInv.feed`). `serial_out` leaves room for the longest expansion, which
has 15 characters, as the column can be negative. `rs_out_char` only looks whether there is room for
one character, and leaves the interrupts off when there is none, as `rs_flush` does when it has
nothing to do. `output_buffer` is about the runs: a line is in order in all states, and the
interrupt level is restored, if and only if all echoes and flushes are careful.
-/

namespace Minix.Kernel

open Lib

section Output

variable {l l' l'' : RsLine} {c : UInt8} {cs : List UInt8} {memory : ℕ → UInt8}

/-! ## What a character comes to -/

theorem tabCount_bounds (column : ℤ) : 1 ≤ tabCount column ∧ tabCount column ≤ 15 := by
  have hlt : column.tmod 8 < 8 := Int.tmod_lt_of_pos _ (by decide)
  have hgt : -8 < column.tmod 8 := Int.lt_tmod_of_pos _ (by decide)
  unfold tabCount
  omega

theorem length_expansion_le (mode : ℕ) (column : ℤ) (c : UInt8) :
    (expansion mode column c).1.length ≤ 15 := by
  obtain ⟨-, hle⟩ := tabCount_bounds column
  unfold expansion
  dsimp only
  split_ifs
  · rw [List.length_replicate]
    omega
  all_goals exact Nat.succ_le_of_lt (by decide)

theorem render_concat (column : ℤ) (cs : List (ℕ × UInt8)) (mode : ℕ) (c : UInt8) :
    render column (cs ++ [(mode, c)]) =
      ((render column cs).1 ++ (expansion mode (render column cs).2 c).1,
        (expansion mode (render column cs).2 c).2) := by
  induction cs generalizing column with
  | nil => simp [render]
  | cons x cs ih =>
    obtain ⟨m, x⟩ := x
    simp only [List.cons_append, render, ih, List.append_assoc]

/-! ## The buffer -/

/-- Characters that are stored one behind the other. -/
def storeAll (buf : ℕ → UInt8) : ℕ → List UInt8 → ℕ → UInt8
  | _, [] => buf
  | place, c :: cs => storeAll (Function.update buf place c) (place + 1) cs

/-- What is stored behind what waits, waits behind it. -/
theorem map_range_storeAll (buf : ℕ → UInt8) (next left : ℕ) (cs : List UInt8) :
    (List.range (left + cs.length)).map (storeAll buf (next + left) cs <| next + ·) =
      (List.range left).map (buf <| next + ·) ++ cs := by
  induction cs generalizing buf left with
  | nil => simp [storeAll]
  | cons c cs ih =>
    have hlen : left + (c :: cs).length = left + 1 + cs.length := by
      rw [List.length_cons]
      omega
    rw [hlen]
    refine (ih (Function.update buf (next + left) c) (left + 1)).trans ?_
    rw [List.range_succ, List.map_append, List.map_singleton, Function.update_self,
      List.append_assoc, List.singleton_append]
    congr 1
    refine List.map_congr_left fun i hi => ?_
    have hlt := List.mem_range.mp hi
    exact Function.update_of_ne (by omega) _ _

/-- Whether one of some characters is stored outside the buffer. -/
def Overruns (place : ℕ) (cs : List UInt8) : Bool :=
  cs ≠ [] && decide (RS_BUF_SIZE < place + cs.length)

theorem overruns_single (place : ℕ) (c : UInt8) :
    decide (RS_BUF_SIZE ≤ place) = Overruns place [c] := by
  simp [Overruns, Nat.lt_succ_iff]

theorem overruns_cons (place : ℕ) (c : UInt8) (cs : List UInt8) :
    (decide (RS_BUF_SIZE ≤ place) || Overruns (place + 1) cs) = Overruns place (c :: cs) := by
  cases cs with
  | nil => simp [Overruns, Nat.lt_succ_iff]
  | cons d cs =>
    simp only [Overruns, List.length_cons, ne_eq, reduceCtorEq, not_false_eq_true, decide_true,
      Bool.true_and]
    rw [← Bool.decide_or, decide_eq_decide]
    omega

theorem storeBlanks_eq (n place : ℕ) (l : RsLine) :
    RsLine.storeBlanks n place l =
      { l with
        rs_buf := storeAll l.rs_buf place (List.replicate n BLANK)
        overrun := l.overrun || Overruns place (List.replicate n BLANK) } := by
  induction n generalizing place l with
  | zero => simp [RsLine.storeBlanks, storeAll, Overruns]
  | succ n ih =>
    rw [List.replicate_succ, ← overruns_cons, ← Bool.or_assoc]
    exact ih (place + 1) (l.store place BLANK)

theorem putLast_eq (l : RsLine) (c : UInt8) :
    l.putLast l.deposit c =
      { l with
        rs_buf := storeAll l.rs_buf l.deposit [c]
        rs_left := l.rs_left + [c].length
        tty_column := int16 (l.tty_column + 1)
        overrun := l.overrun || Overruns l.deposit [c] } := by
  rw [← overruns_single]
  rfl

/-- What a character comes to is deposited behind what waits. -/
theorem rsExpand_eq (l : RsLine) (c : UInt8) {cs : List UInt8} {column : ℤ}
    (h : expansion l.tty_mode l.tty_column c = (cs, column)) :
    l.rsExpand c =
      { l with
        rs_buf := storeAll l.rs_buf l.deposit cs
        rs_left := l.rs_left + cs.length
        tty_column := column
        overrun := l.overrun || Overruns l.deposit cs
        queued := l.queued ++ [(l.tty_mode, c)] } := by
  have hput : ∀ x : ℤ, { l with
      queued := l.queued ++ [(l.tty_mode, c)]
      tty_column := x }.putLast l.deposit c =
      { l with
        rs_buf := storeAll l.rs_buf l.deposit [c]
        rs_left := l.rs_left + [c].length
        tty_column := int16 (x + 1)
        overrun := l.overrun || Overruns l.deposit [c]
        queued := l.queued ++ [(l.tty_mode, c)] } := fun x => putLast_eq { l with
      queued := l.queued ++ [(l.tty_mode, c)]
      tty_column := x } c
  unfold RsLine.rsExpand
  unfold expansion at h
  dsimp only at h ⊢
  by_cases hbs : c = BS
  · rw [if_neg (by rw [hbs]; decide), if_neg (fun hm => absurd (hbs.symm.trans hm.1) (by decide)),
      if_neg (by rw [hbs]; decide), if_pos hbs, Prod.mk.injEq] at h
    obtain ⟨rfl, rfl⟩ := h
    rw [if_pos hbs]
    have hcolumn : int16 (l.tty_column - 1) = int16 (int16 (l.tty_column - 2) + 1) := by
      rw [int16_int16_add]
      congr 1
      omega
    rw [hcolumn]
    exact hput _
  rw [if_neg hbs]
  by_cases hcr : c = CR
  · rw [if_neg (by rw [hcr]; decide), if_neg (fun hm => absurd (hcr.symm.trans hm.1) (by decide)),
      if_pos hcr, Prod.mk.injEq] at h
    obtain ⟨rfl, rfl⟩ := h
    rw [if_pos hcr]
    exact hput (-1)
  rw [if_neg hcr]
  by_cases hlf : c = LF
  · rw [if_neg (by rw [hlf]; decide)] at h
    rw [if_pos hlf]
    by_cases hmode : l.tty_mode &&& CRMOD ≠ 0
    · rw [if_pos ⟨hlf, hmode⟩, Prod.mk.injEq] at h
      obtain ⟨rfl, rfl⟩ := h
      rw [if_pos hmode, ← overruns_cons, ← overruns_single, hlf, ← Bool.or_assoc]
      rfl
    · rw [if_neg (fun hm => hmode hm.2), if_neg hcr, if_neg hbs, Prod.mk.injEq] at h
      obtain ⟨rfl, rfl⟩ := h
      rw [if_neg hmode]
      exact hput _
  rw [if_neg hlf]
  by_cases htab : c = TAB
  · rw [if_pos htab, Prod.mk.injEq] at h
    obtain ⟨hcs, rfl⟩ := h
    rw [if_pos htab]
    by_cases hmode : l.tty_mode &&& XTABS = XTABS
    · rw [if_pos hmode] at hcs ⊢
      rw [storeBlanks_eq, ← hcs, List.length_replicate]
      rfl
    · rw [if_neg hmode] at hcs ⊢
      subst hcs
      have hcolumn : int16 (l.tty_column + tabCount l.tty_column) =
          int16 (int16 (l.tty_column + (tabCount l.tty_column - 1)) + 1) := by
        rw [int16_int16_add]
        congr 1
        omega
      rw [hcolumn]
      exact hput _
  · rw [if_neg htab, if_neg (fun hm => hlf hm.1), if_neg hcr, if_neg hbs, Prod.mk.injEq] at h
    obtain ⟨rfl, rfl⟩ := h
    rw [if_neg htab]
    exact hput _

/-- A character that is not a control character comes to itself. -/
theorem expansion_plain (mode : ℕ) (column : ℤ) (h : ¬ c < BLANK) :
    expansion mode column c = ([c], int16 (column + 1)) := by
  have hne : ∀ d : UInt8, d < BLANK → c ≠ d := by
    rintro d hd rfl
    exact h hd
  unfold expansion
  rw [if_neg (hne TAB (by decide)), if_neg (fun hm => hne LF (by decide) hm.1),
    if_neg (hne CR (by decide)), if_neg (hne BS (by decide))]

/-! ## A line in order -/

/-- A line is in order, and its column is the one behind what has been queued. -/
structure RsInv (l : RsLine) : Prop extends l.Fine where
  column : l.tty_column = (render l.start l.queued).2

/-- What a character comes to is queued, if there is room for it. -/
theorem RsInv.expand (h : RsInv l) {cs : List UInt8} {column : ℤ}
    (hcs : expansion l.tty_mode l.tty_column c = (cs, column))
    (hroom : l.deposit + cs.length ≤ RS_BUF_SIZE) : RsInv (l.rsExpand c) := by
  have hrender : render l.start (l.queued ++ [(l.tty_mode, c)]) =
      ((render l.start l.queued).1 ++ cs, column) := by
    rw [render_concat, ← h.column, hcs]
  rw [rsExpand_eq l c hcs]
  refine ⟨⟨?_, ?_, ?_⟩, ?_⟩
  · show l.rs_next + (l.rs_left + cs.length) ≤ RS_BUF_SIZE
    rw [← Nat.add_assoc]
    exact hroom
  · show (l.overrun || Overruns l.deposit cs) = false
    rw [h.stores, Bool.false_or]
    unfold Overruns
    rw [decide_eq_false (not_lt.mpr hroom), Bool.and_false]
  · show l.sent ++ (List.range (l.rs_left + cs.length)).map _ = (render l.start _).1
    rw [hrender, ← h.order, List.append_assoc]
    congr 1
    exact map_range_storeAll ..
  · show column = (render l.start _).2
    rw [hrender]

/-- The first character that waits is sent. -/
theorem RsInv.feed (h : RsInv l) : RsInv l.rsFeed := by
  unfold RsLine.rsFeed
  split
  · next hleft =>
    refine ⟨⟨?_, h.stores, ?_⟩, h.column⟩
    · have := h.within
      show l.rs_next + 1 + (l.rs_left - 1) ≤ RS_BUF_SIZE
      omega
    · have hwaiting : l.waiting = l.rs_buf l.rs_next ::
          (List.range (l.rs_left - 1)).map (l.rs_buf <| l.rs_next + 1 + ·) := by
        unfold RsLine.waiting
        rw [← Nat.succ_pred_eq_of_pos hleft, List.range_succ_eq_map, List.map_cons, List.map_map]
        congr 1
        refine List.map_congr_left fun i _ => ?_
        show l.rs_buf (l.rs_next + (i + 1)) = l.rs_buf (l.rs_next + 1 + i)
        rw [Nat.add_assoc, Nat.add_comm 1]
      show (l.sent ++ [l.rs_buf l.rs_next]) ++ _ = (render l.start l.queued).1
      rw [← h.order, hwaiting, List.append_assoc]
      rfl
  · exact h

theorem rsFeed_deposit (l : RsLine) : l.rsFeed.deposit = l.deposit := by
  unfold RsLine.rsFeed RsLine.deposit
  split
  · dsimp only
    omega
  · rfl

/-- The fields that order is about. -/
def RsLine.output (l : RsLine) :
    ℕ × ℕ × (ℕ → UInt8) × ℤ × List (ℕ × UInt8) × ℤ × List UInt8 × Bool :=
  (l.rs_left, l.rs_next, l.rs_buf, l.tty_column, l.queued, l.start, l.sent, l.overrun)

/-- Other fields do not matter. -/
theorem RsInv.congr (h : RsInv l) (e : l'.output = l.output) : RsInv l' := by
  simp only [RsLine.output, Prod.mk.injEq] at e
  obtain ⟨hleft, hnext, hbuf, hcolumn, hqueued, hstart, hsent, hoverrun⟩ := e
  refine ⟨⟨?_, ?_, ?_⟩, ?_⟩
  · rw [hnext, hleft]
    exact h.within
  · rw [hoverrun, h.stores]
  · unfold RsLine.waiting
    rw [hsent, hleft, hbuf, hnext, hstart, hqueued]
    exact h.order
  · rw [hcolumn, hstart, hqueued, h.column]

theorem RsInv.startUp (h : RsInv l) : RsInv l.startUp := by
  unfold RsLine.startUp
  split
  · exact h
  · have h' : RsInv { l with rs_busy := true } := h.congr rfl
    exact h'.feed

/-- The spare room is enough for the longest expansion. -/
theorem RsInv.copyBytes (h : RsInv l) (memory : ℕ → UInt8) (n bytes : ℕ) :
    RsInv (RsLine.copyBytes memory n l bytes).1 := by
  induction n generalizing l bytes with
  | zero => exact h
  | succ n ih =>
    unfold RsLine.copyBytes
    split
    · next hroom =>
      refine ih ?_ _
      have h' : RsInv { l with tty_outleft := l.tty_outleft - 1 } := h.congr rfl
      have hlen := length_expansion_le l.tty_mode l.tty_column (memory (l.tty_phys + bytes))
      have hdeposit : l.deposit < 240 := hroom.2
      generalize hcs : expansion l.tty_mode l.tty_column (memory (l.tty_phys + bytes)) = e at hlen
      obtain ⟨cs, column⟩ := e
      have hfits : l.deposit + cs.length ≤ RS_BUF_SIZE := by
        unfold RS_BUF_SIZE
        dsimp only at hlen
        omega
      have hexpand := h'.expand hcs hfits
      dsimp only
      split
      · exact hexpand
      · next hplain =>
        rw [expansion_plain _ _ hplain, Prod.mk.injEq] at hcs
        obtain ⟨rfl, rfl⟩ := hcs
        rw [rsExpand_eq _ _ (expansion_plain _ _ hplain)] at hexpand
        rw [show RsLine.deposit { l with tty_outleft := l.tty_outleft - 1 } = RsLine.deposit
          { l with
            tty_outleft := l.tty_outleft - 1
            queued := l.queued ++ [(l.tty_mode, memory (l.tty_phys + bytes))] } from rfl, putLast_eq]
        exact hexpand
    · exact h

theorem RsInv.serialOut (h : RsInv l) (memory : ℕ → UInt8) : RsInv (l.serialOut memory) := by
  unfold RsLine.serialOut
  split
  · exact h
  · have hcopied := h.copyBytes memory l.tty_outleft 0
    dsimp only
    refine RsInv.startUp ?_
    exact hcopied.congr rfl

theorem RsInv.startRs232 (h : RsInv l) : RsInv (l.startRs232 memory) := by
  have h' : RsInv { l with level := LOCKED } := h.congr rfl
  exact RsInv.congr (h'.serialOut memory) rfl

/-- When nothing waits, the buffer is filled from its beginning. -/
theorem RsInv.rsWriteInt (h : RsInv l) (memory : ℕ → UInt8) : RsInv (l.rsWriteInt memory) := by
  unfold RsLine.rsWriteInt
  split
  · exact h.feed
  · next hleft =>
    have h' : RsInv { l with
        rs_busy := false
        rs_next := 0 } := by
      have hzero : l.rs_left = 0 := Nat.eq_zero_of_not_pos hleft
      refine ⟨⟨?_, h.stores, ?_⟩, h.column⟩
      · show 0 + l.rs_left ≤ RS_BUF_SIZE
        rw [hzero]
        exact Nat.zero_le _
      · have horder := h.order
        unfold RsLine.waiting at horder ⊢
        rw [hzero] at horder
        dsimp only
        rw [hzero]
        exact horder
    dsimp only
    split_ifs
    · exact h'.serialOut memory
    · exact h'.congr rfl
    · exact h'

theorem RsInv.siaint (h : RsInv l) : RsInv (l.siaint memory) := by
  have h' : RsInv { l with level := LOCKED } := h.congr rfl
  exact RsInv.congr (h'.rsWriteInt memory) rfl

theorem RsInv.doWrite (h : RsInv l) (count : ℕ) (phys : Option ℕ) :
    RsInv (l.doWrite memory count phys) := by
  unfold RsLine.doWrite
  split
  · exact h
  · cases phys with
    | none => exact RsInv.startRs232 (h.congr rfl)
    | some phys => exact RsInv.startRs232 (h.congr rfl)

/-! ## Echoes and flushes -/

/-- An echo into a buffer that is full. -/
theorem rsOutChar_full (h : l.deposit = RS_BUF_SIZE) : l.rsOutChar c = { l with level := LOCKED } :=
  if_pos h

theorem rsOutChar_room (h : l.deposit ≠ RS_BUF_SIZE) :
    l.rsOutChar c = { ({ l with level := LOCKED }.rsExpand c).startUp with level := l.level } :=
  if_neg h

theorem RsInv.echo (h : RsInv l) (hcareful : l.Careful (.echo c)) :
    RsInv (l.rsOutChar c) ∧ l.Restores (.echo c) := by
  unfold RsLine.Restores
  unfold RsLine.Careful at hcareful
  dsimp only at hcareful ⊢
  split at hcareful
  · next hfull =>
    rw [rsOutChar_full hfull]
    exact ⟨h.congr rfl, hcareful.symm⟩
  · next hroom =>
    rw [rsOutChar_room hroom]
    have h' : RsInv { l with level := LOCKED } := h.congr rfl
    have hexpand := h'.expand (c := c) rfl hcareful
    exact ⟨RsInv.congr hexpand.startUp rfl, rfl⟩

/-- An echo that is not careful leaves the interrupts off, or goes beyond the buffer. -/
theorem careful_echo (hrestores : l.Restores (.echo c)) (hfine : (l.rsOutChar c).Fine) :
    l.Careful (.echo c) := by
  unfold RsLine.Restores at hrestores
  unfold RsLine.Careful
  dsimp only at hrestores ⊢
  split
  · next hfull =>
    rw [rsOutChar_full hfull] at hrestores
    exact hrestores.symm
  · next hroom =>
    rw [rsOutChar_room hroom] at hfine
    have hwithin : ({ l with level := LOCKED }.rsExpand c).startUp.deposit ≤ RS_BUF_SIZE :=
      hfine.within
    have hstart : ∀ m : RsLine, m.startUp.deposit = m.deposit := by
      intro m
      unfold RsLine.startUp
      split
      · rfl
      · exact rsFeed_deposit { m with rs_busy := true }
    rw [hstart, rsExpand_eq _ _ rfl] at hwithin
    unfold RsLine.deposit at hwithin ⊢
    rw [Nat.add_assoc]
    exact hwithin

theorem RsLine.restores_flush_iff : l.Restores .flush ↔ l.Careful .flush := by
  unfold RsLine.Restores RsLine.Careful RsLine.rsFlush
  dsimp only
  split
  · next hidle =>
    constructor
    · exact fun h => .inl h.symm
    · rintro (h | h | h)
      · exact h.symm
      · exact absurd hidle.1 h
      · exact absurd hidle.2 h
  · next hbusy => exact iff_of_true rfl (.inr (not_and_or.mp hbusy))

theorem RsInv.flush (h : RsInv l) : RsInv l.rsFlush := by
  unfold RsLine.rsFlush
  dsimp only
  split
  · exact h.congr rfl
  · exact h.congr rfl

theorem RsInv.sigchar (h : RsInv l) : RsInv l.sigchar where
  within := Nat.zero_le _
  stores := by
    show l.overrun = false
    exact h.stores
  order := rfl
  column := rfl

/-! ## Runs -/

theorem RsInv.act (h : RsInv l) {a : RsAct} (hcareful : l.Careful a) :
    RsInv (l.act a) ∧ l.Restores a := by
  cases a with
  | echo c => exact h.echo hcareful
  | flush => exact ⟨h.flush, RsLine.restores_flush_iff.mpr hcareful⟩
  | write memory count phys => exact ⟨h.doWrite count phys, trivial⟩
  | transmitted memory => exact ⟨h.siaint, trivial⟩
  | resume memory => exact ⟨RsInv.startRs232 (h.congr rfl), trivial⟩
  | done =>
    refine ⟨?_, trivial⟩
    show RsInv l.ttyODone
    unfold RsLine.ttyODone
    split
    · exact h.congr rfl
    · exact h
  | signal => exact ⟨h.sigchar, trivial⟩
  | stop | received | setp | cancel => exact ⟨h.congr rfl, trivial⟩

theorem careful_of_fine {a : RsAct} (hrestores : l.Restores a) (hfine : (l.act a).Fine) :
    l.Careful a := by
  cases a with
  | echo c => exact careful_echo hrestores hfine
  | flush => exact RsLine.restores_flush_iff.mp hrestores
  | write | transmitted | resume | done | signal | stop | received | setp | cancel => trivial

theorem RsLine.Orderly.fine {as : List RsAct} (h : l.Orderly as) : l.Fine := by
  cases as with
  | nil => exact h
  | cons a as => exact h.1

theorem RsInv.orderly_iff (h : RsInv l) {as : List RsAct} : l.Orderly as ↔ l.CarefulRun as := by
  induction as generalizing l with
  | nil => exact iff_of_true h.toFine trivial
  | cons a as ih =>
    constructor
    · rintro ⟨-, hrestores, hrest⟩
      have hcareful := careful_of_fine hrestores hrest.fine
      exact ⟨hcareful, (ih (h.act hcareful).1).mp hrest⟩
    · rintro ⟨hcareful, hrest⟩
      obtain ⟨h', hrestores⟩ := h.act hcareful
      exact ⟨h.toFine, hrestores, (ih h').mpr hrest⟩

theorem RsLine.Init.inv (h : l.Init) : RsInv l := by
  refine ⟨⟨?_, h.overrun, ?_⟩, ?_⟩
  · rw [h.next, h.left]
    exact Nat.zero_le _
  · unfold RsLine.waiting
    rw [h.sent, h.left, h.queued]
    rfl
  · rw [h.column, h.queued]
    rfl

end Output

/-- The output buffer of a line is in order in all states of a run, and echoes and flushes restore
the interrupt level, if and only if each echo finds room for what it comes to and each flush has
something to do, or the interrupts are off already. -/
theorem output_buffer {l : RsLine} {as : List RsAct} (hinit : l.Init) :
    l.Orderly as ↔ l.CarefulRun as :=
  hinit.inv.orderly_iff

/-- A line that expands tabs and maps LF. -/
def bootRs : RsLine where
  rs_busy := false
  rs_left := 0
  rs_next := 0
  rs_buf := fun _ => 0
  tty_mode := CRMOD ||| XTABS
  tty_column := 0
  tty_inhibited := false
  tty_waiting := .NOT_WAITING
  tty_outleft := 0
  tty_phys := 0
  tty_cum := 0
  output_done := 0
  tty_buf_count := 0
  level := 2
  queued := []
  start := 0
  sent := []
  overrun := false

/-- Several steps. -/
def RsLine.run (l : RsLine) (as : List RsAct) : RsLine := as.foldl RsLine.act l

instance (l : RsLine) (a : RsAct) : Decidable (l.Careful a) := by
  cases a <;> unfold RsLine.Careful <;> infer_instance

/-- A tab is written behind a character, and an echo comes in between. -/
theorem output_buffer_tab :
    let memory : ℕ → UInt8 := fun i => if i = 0 then 97 else TAB
    let as := [.write memory 2 (some 0), .transmitted memory, .echo LF, .transmitted memory]
    bootRs.Orderly as ∧ (bootRs.run as).sent = [97, BLANK, BLANK] ∧
      (bootRs.run as).waiting = List.replicate 5 BLANK ++ [CR, LF] := by
  refine ⟨(output_buffer ⟨rfl, rfl, rfl, rfl, rfl, rfl⟩).mpr ?_, by decide +kernel,
    by decide +kernel⟩
  refine ⟨trivial, trivial, ?_, trivial, trivial⟩
  decide +kernel

theorem RsLine.Orderly.run_fine {l : RsLine} {as : List RsAct} (h : l.Orderly as) :
    (l.run as).Fine := by
  induction as generalizing l with
  | nil => exact h
  | cons a as ih => exact ih h.2.2

/-- Tabs that are echoed behind a line feed go beyond the buffer. -/
theorem echo_overruns :
    let tabs := .echo LF :: List.replicate 32 (.echo TAB)
    ¬ bootRs.Orderly tabs ∧ (bootRs.run tabs).overrun = true := by
  have hover : (bootRs.run (.echo LF :: List.replicate 32 (.echo TAB))).overrun = true := by
    decide +kernel
  refine ⟨fun h => ?_, hover⟩
  exact Bool.false_ne_true (h.run_fine.stores.symm.trans hover)

end Minix.Kernel
