import Mathlib.Tactic.Ring
import Minix.Kernel.Floppy
import Minix.Lib.Countdown
import Minix.Lib.Words

/-!
# What a floppy transfer comes to

While the task waits, the fields of the transfer have advanced by the same number of sectors, and
the last command is the restore, the seek or the transfer of an attempt at the current one
(`Waits`). Every event leaves less to do (`Fd.work`), so that the transfer comes to an end
(`step_waits`).
-/

namespace Minix.Kernel.Floppy

open Lib

/-! ## What the controller is told -/

/-- The place of a sector on a diskette with so many heads. -/
structure IsPlace (heads secnum cylinder head sector : ℤ) : Prop where
  hcylinder : 0 ≤ cylinder ∧ cylinder < NR_CYLINDERS
  hhead : 0 ≤ head ∧ head < heads
  hsector : 1 ≤ sector ∧ sector ≤ NR_SECTORS
  hsecnum : (cylinder * heads + head) * NR_SECTORS + (sector - 1) = secnum

/-- The head and the drive that are selected. -/
def headOf (selected : BitVec 16) : ℤ := selected.toNat % 2

def driveOf (selected : BitVec 16) : ℤ := if selected &&& PA_FLOP1 = 0 then 0 else 1

/-- A drive has been selected, and one of its heads. -/
theorem selected_bits {drive head : ℤ} (hd : 0 ≤ drive ∧ drive < 2) (hh : 0 ≤ head ∧ head < 2) :
    headOf ((if drive = 1 then PA_FLOP1 else PA_FLOP0) ||| BitVec.ofInt 16 head) = head ∧
      driveOf ((if drive = 1 then PA_FLOP1 else PA_FLOP0) ||| BitVec.ofInt 16 head) = drive := by
  have hcases : (drive = 0 ∨ drive = 1) ∧ (head = 0 ∨ head = 1) := by omega
  obtain ⟨rfl | rfl, rfl | rfl⟩ := hcases <;> decide

theorem place_of_secnum {heads secnum : ℤ} (hheads : heads = 1 ∨ heads = 2) (h0 : 0 ≤ secnum)
    (hlt : (secnum.tdiv NR_SECTORS).tdiv heads < NR_CYLINDERS) :
    IsPlace heads secnum ((secnum.tdiv NR_SECTORS).tdiv heads)
      ((secnum.tdiv NR_SECTORS).tmod heads) (secnum.tmod NR_SECTORS + 1) := by
  have hsec : secnum.tdiv NR_SECTORS = secnum / 9 := Int.tdiv_eq_ediv_of_nonneg h0
  have hrem : secnum.tmod NR_SECTORS = secnum % 9 := Int.tmod_eq_emod_of_nonneg h0
  have htrack : 0 ≤ secnum / 9 := by omega
  rw [hsec] at hlt ⊢
  rw [Int.tdiv_eq_ediv_of_nonneg htrack] at hlt ⊢
  rw [Int.tmod_eq_emod_of_nonneg htrack, hrem]
  have hcyls : NR_CYLINDERS = 80 := rfl
  have hsecs : NR_SECTORS = 9 := rfl
  rcases hheads with rfl | rfl
  · exact ⟨by omega, by omega, by omega, by rw [hsecs]; omega⟩
  · exact ⟨by omega, by omega, by omega, by rw [hsecs]; omega⟩

variable {s s' : Fd} {mp : RdwtMess VirBytes} {proc_addr : ℤ → ProcMap}

/-- The cylinder of the current sector. -/
def Fd.cylinder (s : Fd) : ℤ :=
  (s.xfer.x_secnum.tdiv NR_SECTORS).tdiv (nr_heads (DTYPE s.xfer.x_drive))

/-- Where the arm of the drive is believed to be. -/
def Fd.arm (s : Fd) : ℤ := s.curcyl (DRIVE s.xfer.x_drive)

/-- The command that transfers a sector. -/
def transferCmd (x_rw : ℤ) : Cmd := if x_rw = DISK_READ then .F_READ else .F_WRITE

/-- A command has been given. -/
structure Gave (s s' : Fd) (c : Command) : Prop where
  xfer : s'.xfer = { s.xfer with x_cmd := c.cmd }
  sent : c.xfer = s'.xfer
  selectic : s'.selectic = -30
  issued : s'.issued = s.issued ++ [c]
  attempts : s'.attempts = s.attempts
  waiting : s'.waiting = s.waiting

/-- The command transfers the current sector. -/
structure Transfers (s : Fd) (c : Command) : Prop where
  cmd : c.cmd = transferCmd s.xfer.x_rw
  track : c.regs.fdc_tr = s.cylinder
  sector : c.regs.fdc_sr = s.xfer.x_secnum.tmod NR_SECTORS + 1
  selected : c.selected = (if DRIVE s.xfer.x_drive = 1 then PA_FLOP1 else PA_FLOP0) |||
    BitVec.ofInt 16 ((s.xfer.x_secnum.tdiv NR_SECTORS).tmod (nr_heads (DTYPE s.xfer.x_drive)))
  dma_addr : c.regs.dma_addr = s.xfer.x_address
  dma_nsec : c.regs.dma_nsec = 1
  curcyl : c.curcyl = s.arm

/-- `do_xfer` restores the arm if it is lost, moves it if it is elsewhere, and else transfers a
sector. -/
theorem doXfer_spec (hfmt : FORMAT s.xfer.x_drive = false) (hcyl : s.cylinder < NR_CYLINDERS) :
    ∃ c, (doXfer s).1 = true ∧ Gave s (doXfer s).2 c ∧
      ((s.arm = -1 ∧ c.cmd = .RESTORE ∧ (doXfer s).2.curcyl = s.curcyl) ∨
        (s.arm ≠ -1 ∧ s.arm ≠ s.cylinder ∧ c.cmd = .SEEK ∧
          (doXfer s).2.curcyl = Function.update s.curcyl (DRIVE s.xfer.x_drive) s.cylinder) ∨
        (s.arm ≠ -1 ∧ s.arm = s.cylinder ∧ Transfers s c ∧ (doXfer s).2.curcyl = s.curcyl)) := by
  have hin : ¬(s.xfer.x_secnum.tdiv NR_SECTORS).tdiv (nr_heads (DTYPE s.xfer.x_drive)) ≥
      NR_CYLINDERS := not_le.mpr hcyl
  unfold doXfer
  simp only [hfmt, select, Bool.false_eq_true, if_false, if_neg hin]
  by_cases hlost : s.curcyl (DRIVE s.xfer.x_drive) = -1
  · rw [if_pos hlost]
    exact ⟨_, rfl, ⟨rfl, rfl, rfl, rfl, rfl, rfl⟩, .inl ⟨hlost, rfl, rfl⟩⟩
  rw [if_neg hlost]
  by_cases hseek : (s.xfer.x_secnum.tdiv NR_SECTORS).tdiv (nr_heads (DTYPE s.xfer.x_drive)) =
      s.curcyl (DRIVE s.xfer.x_drive)
  · rw [if_neg (not_not.mpr hseek)]
    by_cases hread : s.xfer.x_rw = DISK_READ
    · rw [if_pos hread]
      exact ⟨_, rfl, ⟨rfl, rfl, rfl, rfl, rfl, rfl⟩, .inr (.inr ⟨hlost, hseek.symm,
        ⟨(if_pos hread).symm, hseek.symm, rfl, rfl, rfl, rfl, rfl⟩, rfl⟩)⟩
    · rw [if_neg hread]
      exact ⟨_, rfl, ⟨rfl, rfl, rfl, rfl, rfl, rfl⟩, .inr (.inr ⟨hlost, hseek.symm,
        ⟨(if_neg hread).symm, hseek.symm, rfl, rfl, rfl, rfl, rfl⟩, rfl⟩)⟩
  · rw [if_pos hseek]
    exact ⟨_, rfl, ⟨rfl, rfl, rfl, rfl, rfl, rfl⟩, .inr (.inl ⟨hlost, fun h => hseek h.symm, rfl, rfl⟩)⟩

/-- Behind the last cylinder it does nothing. -/
theorem doXfer_behind (hfmt : FORMAT s.xfer.x_drive = false) (hcyl : NR_CYLINDERS ≤ s.cylinder) :
    doXfer s = (false, s) := by
  have hin : (s.xfer.x_secnum.tdiv NR_SECTORS).tdiv (nr_heads (DTYPE s.xfer.x_drive)) ≥
      NR_CYLINDERS := hcyl
  unfold doXfer
  dsimp only
  simp only [hfmt, Bool.false_eq_true, if_false]
  rw [if_pos hin]

/-! ## What a transfer should be -/

/-- The sector that a transfer starts with, as an `int`. -/
def startSector (mp : RdwtMess VirBytes) : ℤ := int16 (mp.POSITION.tdiv SECTOR_SIZE)

/-- A command transfers the sector that is so many sectors behind the first one, and the fields of
the transfer have advanced as far. -/
structure Command.Exact (proc_addr : ℤ → ProcMap) (mp : RdwtMess VirBytes) (c : Command) (k : ℕ) :
    Prop where
  left : SECTOR_SIZE * k < mp.COUNT
  secnum : c.xfer.x_secnum = startSector mp + k
  address : c.xfer.x_address = physical proc_addr mp + BitVec.ofInt 32 (SECTOR_SIZE * k)
  count : c.xfer.x_count = mp.COUNT - SECTOR_SIZE * k
  place : IsPlace (nr_heads (DTYPE mp.DEVICE)) c.xfer.x_secnum c.regs.fdc_tr (headOf c.selected)
    c.regs.fdc_sr
  drive : driveOf c.selected = DRIVE mp.DEVICE
  believed : c.curcyl = c.regs.fdc_tr
  dma_addr : c.regs.dma_addr = c.xfer.x_address
  dma_nsec : c.regs.dma_nsec = 1

/-- An attempt restores the arm at most once, moves it at most once and transfers its sector at most
once, before the controller may be interrupted. -/
structure Attempt.Good (proc_addr : ℤ → ProcMap) (mp : RdwtMess VirBytes) (a : Attempt) : Prop where
  once : (a.commands.map Command.cmd).Sublist [.RESTORE, .SEEK, transferCmd mp.m_type, .IRUPT]
  sector : ∀ c ∈ a.commands, c.xfer.x_secnum = a.secnum
  exact : ∀ c ∈ a.commands, c.cmd = .F_READ ∨ c.cmd = .F_WRITE → ∃ k : ℕ, c.Exact proc_addr mp k
  transfer : a.ok = true → transferCmd mp.m_type ∈ a.commands.map Command.cmd

/-- The attempts up to now, with the current one. -/
def Fd.history (s : Fd) : List Attempt := s.attempts ++ [⟨s.xfer.x_secnum, s.issued, false⟩]

/-- The sectors that have been transferred. -/
def transferred (as : List Attempt) : List ℤ := (as.filter (·.ok)).map (·.secnum)

/-- The number of attempts at a sector that have failed. -/
def failures (as : List Attempt) (secnum : ℤ) : ℕ :=
  as.countP fun a => !a.ok && a.secnum == secnum

/-- Each command is that of a sector, no sector fails too often, and the count is returned exactly
when each sector of the request has been transferred once. -/
structure TransferExact (proc_addr : ℤ → ProcMap) (mp : RdwtMess VirBytes) (r : Rdwt) : Prop where
  attempts : ∀ a ∈ r.state.history, a.Good proc_addr mp
  few : ∀ secnum, failures r.state.attempts secnum ≤ MAX_ERRORS
  status : ∀ status s, r = .returned status s → (status = mp.COUNT ↔ ∀ k : ℕ,
    SECTOR_SIZE * k < mp.COUNT →
      (transferred s.attempts).count (mp.POSITION / SECTOR_SIZE + k) = 1)

/-- Whatever happens, what is done is exact, and the request returns. -/
def FloppyExact (proc_addr : ℤ → ProcMap) (mp : RdwtMess VirBytes) (s : Fd) : Prop :=
  (∀ events, TransferExact proc_addr mp (doRdwt proc_addr mp s events)) ∧
    ∃ bound, ∀ events, bound ≤ events.length → (doRdwt proc_addr mp s events).isReturned = true

/-! ## While the task waits -/

/-- What has been done in the past. -/
structure Past (proc_addr : ℤ → ProcMap) (mp : RdwtMess VirBytes) (as : List Attempt) (k e : ℕ) :
    Prop where
  good : ∀ a ∈ as, a.Good proc_addr mp
  before : ∀ a ∈ as, a.secnum ≤ startSector mp + k
  moved : transferred as = (List.range k).map fun i : ℕ => startSector mp + i
  few : ∀ secnum, failures as secnum ≤ MAX_ERRORS
  now : failures as (startSector mp + k) = e

/-- Some sectors have been transferred, and there have been some errors on the current one. -/
structure Started (proc_addr : ℤ → ProcMap) (mp : RdwtMess VirBytes) (s : Fd) (k e : ℕ) : Prop where
  x_rw : s.xfer.x_rw = mp.m_type
  x_drive : s.xfer.x_drive = mp.DEVICE
  x_secnum : s.xfer.x_secnum = startSector mp + k
  x_address : s.xfer.x_address = physical proc_addr mp + BitVec.ofInt 32 (SECTOR_SIZE * k)
  x_count : s.xfer.x_count = mp.COUNT - SECTOR_SIZE * k
  left : SECTOR_SIZE * k < mp.COUNT
  x_errors : s.xfer.x_errors = e
  few : e < MAX_ERRORS
  past : Past proc_addr mp s.attempts k e

/-- The commands of the current attempt. -/
def Fd.cmds (s : Fd) : List Cmd := s.issued.map Command.cmd

/-- What the last command was. -/
inductive Phase (s : Fd) : Prop
  | restore (hcmd : s.xfer.x_cmd = .RESTORE) (hcmds : s.cmds.Sublist [.RESTORE])
  | seek (hcmd : s.xfer.x_cmd = .SEEK) (harm : s.arm = s.cylinder)
      (hcmds : s.cmds.Sublist [.RESTORE, .SEEK])
  | transfer (hcmd : s.xfer.x_cmd = transferCmd s.xfer.x_rw) (harm : s.arm = s.cylinder)
      (hcmds : s.cmds.Sublist [.RESTORE, .SEEK, transferCmd s.xfer.x_rw])
      (hin : transferCmd s.xfer.x_rw ∈ s.cmds)

/-- A command has been given. -/
structure Asked (proc_addr : ℤ → ProcMap) (mp : RdwtMess VirBytes) (s : Fd) (k e : ℕ) : Prop
    extends Started proc_addr mp s k e where
  inside : s.cylinder < NR_CYLINDERS
  phase : Phase s
  sector : ∀ c ∈ s.issued, c.xfer.x_secnum = s.xfer.x_secnum
  exact : ∀ c ∈ s.issued, c.cmd = .F_READ ∨ c.cmd = .F_WRITE → c.Exact proc_addr mp k

/-- The task waits for the answer. -/
structure Waits (proc_addr : ℤ → ProcMap) (mp : RdwtMess VirBytes) (s : Fd) (k e : ℕ) : Prop
    extends Asked proc_addr mp s k e where
  waiting : s.waiting = true
  timer : -30 ≤ s.selectic ∧ s.selectic < 0

/-- The transfer has come to an end. -/
structure Ended (proc_addr : ℤ → ProcMap) (mp : RdwtMess VirBytes) (s : Fd) (k : ℕ) : Prop where
  waiting : s.waiting = false
  issued : s.issued = []
  x_drive : s.xfer.x_drive = mp.DEVICE
  x_secnum : s.xfer.x_secnum = startSector mp + k
  x_count : s.xfer.x_count = mp.COUNT - SECTOR_SIZE * k
  left : SECTOR_SIZE * k ≤ mp.COUNT
  good : ∀ a ∈ s.attempts, a.Good proc_addr mp
  moved : transferred s.attempts = (List.range k).map fun i : ℕ => startSector mp + i
  few : ∀ secnum, failures s.attempts secnum ≤ MAX_ERRORS

/-- For how many commands an attempt can still go on. -/
def Cmd.turns : Cmd → ℕ
  | .RESTORE => 3
  | .SEEK => 2
  | .F_READ => 1
  | .F_WRITE => 1
  | .IRUPT => 1

/-- The commands that there may still be: three for each attempt. -/
def Fd.work (s : Fd) : ℤ :=
  30 * (s.xfer.x_count / SECTOR_SIZE) - 3 * s.xfer.x_errors - 3 + s.xfer.x_cmd.turns

/-- The events that there may still be: each command may wait for the timer. -/
def Fd.patience (s : Fd) : ℕ := (30 * s.work - s.selectic).toNat

variable {as : List Attempt} {a : Attempt} {k e : ℕ}

theorem transferCmd_cases (x_rw : ℤ) :
    transferCmd x_rw = .F_READ ∨ transferCmd x_rw = .F_WRITE := by
  rw [transferCmd]
  split_ifs
  · exact .inl rfl
  · exact .inr rfl

theorem failures_append (as : List Attempt) (a : Attempt) (secnum : ℤ) :
    failures (as ++ [a]) secnum =
      failures as secnum + if a.ok = false ∧ a.secnum = secnum then 1 else 0 := by
  rw [failures, List.countP_append, List.countP_singleton, failures]
  simp

theorem Past.failed (h : Past proc_addr mp as k e) (ha : a.Good proc_addr mp) (hok : a.ok = false)
    (hsec : a.secnum = startSector mp + k) (hfew : e < MAX_ERRORS) :
    Past proc_addr mp (as ++ [a]) k (e + 1) := by
  obtain ⟨hgood, hbefore, hmoved, hless, hnow⟩ := h
  refine ⟨?_, ?_, ?_, ?_, ?_⟩
  · intro b hb
    rcases List.mem_append.mp hb with hb | hb
    · exact hgood b hb
    · rwa [List.mem_singleton.mp hb]
  · intro b hb
    rcases List.mem_append.mp hb with hb | hb
    · exact hbefore b hb
    · rw [List.mem_singleton.mp hb, hsec]
  · rw [transferred, List.filter_append, List.map_append, ← transferred, hmoved]
    simp [hok]
  · intro secnum
    rw [failures_append]
    split_ifs with heq
    · rw [← heq.2, hsec, hnow]
      exact hfew
    · exact hless secnum
  · rw [failures_append, hnow, if_pos ⟨hok, hsec⟩]

theorem Past.succeeded (h : Past proc_addr mp as k e) (ha : a.Good proc_addr mp)
    (hok : a.ok = true) (hsec : a.secnum = startSector mp + k) :
    Past proc_addr mp (as ++ [a]) (k + 1) 0 := by
  obtain ⟨hgood, hbefore, hmoved, hless, hnow⟩ := h
  refine ⟨?_, ?_, ?_, ?_, ?_⟩
  · intro b hb
    rcases List.mem_append.mp hb with hb | hb
    · exact hgood b hb
    · rwa [List.mem_singleton.mp hb]
  · intro b hb
    rcases List.mem_append.mp hb with hb | hb
    · have := hbefore b hb
      push_cast
      omega
    · rw [List.mem_singleton.mp hb, hsec]
      push_cast
      omega
  · rw [transferred, List.filter_append, List.map_append, ← transferred, hmoved, List.range_succ,
      List.map_append]
    simp [hok, hsec]
  · intro secnum
    rw [failures_append, if_neg (by simp [hok])]
    exact hless secnum
  · rw [failures, List.countP_eq_zero]
    intro b hb
    have hle : b.secnum ≤ startSector mp + k := by
      rcases List.mem_append.mp hb with hb | hb
      · exact hbefore b hb
      · rw [List.mem_singleton.mp hb, hsec]
    have hne : (b.secnum == startSector mp + ((k + 1 : ℕ) : ℤ)) = false := by
      rw [beq_eq_false_iff_ne]
      push_cast
      omega
    rw [hne, Bool.and_false]
    decide

/-- A request to one of the drives, not to format a track, that starts with a sector. -/
structure Sensible (mp : RdwtMess VirBytes) : Prop where
  format : FORMAT mp.DEVICE = false
  drive : DRIVE mp.DEVICE < NR_FLOPDRIVES
  start : 0 ≤ startSector mp

/-- The command for the current sector is exact. -/
theorem Transfers.exact {c : Command} (ht : Transfers s c) (hm : Sensible mp)
    (h : Started proc_addr mp s k e) (hin : s.cylinder < NR_CYLINDERS)
    (hxfer : c.xfer = { s.xfer with x_cmd := c.cmd }) (harm : s.arm = s.cylinder) :
    c.Exact proc_addr mp k := by
  obtain ⟨-, htrack, hsector, hselected, hdma, hnsec, hcurcyl⟩ := ht
  obtain ⟨-, hdrive, hsecnum, haddress, hcount, hleft, -, -, -⟩ := h
  have hheads : nr_heads (DTYPE s.xfer.x_drive) = 1 ∨ nr_heads (DTYPE s.xfer.x_drive) = 2 := by
    rw [nr_heads]
    split_ifs
    · exact .inl rfl
    · exact .inr rfl
  have h0 : 0 ≤ s.xfer.x_secnum := by
    have := hm.start
    omega
  have hplace := place_of_secnum hheads h0 hin
  have hdrives : 0 ≤ DRIVE s.xfer.x_drive ∧ DRIVE s.xfer.x_drive < 2 := by
    have hlt := hm.drive
    rw [hdrive]
    exact ⟨Int.emod_nonneg _ (by decide), hlt⟩
  have hhead := hplace.hhead
  have hbits := selected_bits hdrives (show _ ∧ _ < 2 from ⟨hhead.1, by omega⟩)
  rw [← hselected] at hbits
  rw [hdrive] at hplace hbits
  refine ⟨hleft, ?_, ?_, ?_, ?_, hbits.2, ?_, ?_, hnsec⟩
  · rw [hxfer, hsecnum]
  · rw [hxfer, haddress]
  · rw [hxfer, hcount]
  · rw [hbits.1, htrack, hsector, hxfer]
    rw [Fd.cylinder, hdrive]
    exact hplace
  · rw [hcurcyl, htrack, harm]
  · rw [hdma, hxfer]

/-- In front of the last cylinder `do_xfer` gives the next command of an attempt. -/
theorem doXfer_asks (hm : Sensible mp) (h : Started proc_addr mp s k e)
    (hsector : ∀ c ∈ s.issued, c.xfer.x_secnum = s.xfer.x_secnum)
    (hexact : ∀ c ∈ s.issued, c.cmd = .F_READ ∨ c.cmd = .F_WRITE → c.Exact proc_addr mp k)
    (hrestore : s.arm = -1 → s.cmds = [])
    (hseek : s.arm ≠ s.cylinder → s.cmds.Sublist [.RESTORE])
    (htransfer : s.cmds.Sublist [.RESTORE, .SEEK]) (hin : s.cylinder < NR_CYLINDERS) :
    (doXfer s).1 = true ∧ Asked proc_addr mp (doXfer s).2 k e ∧ (doXfer s).2.selectic = -30 ∧
      (doXfer s).2.waiting = s.waiting ∧ (doXfer s).2.xfer.x_count = s.xfer.x_count ∧
      (doXfer s).2.xfer.x_cmd.turns = if s.arm = -1 then 3 else if s.arm ≠ s.cylinder then 2 else 1 := by
  have hfmt : FORMAT s.xfer.x_drive = false := by rw [h.x_drive, hm.format]
  obtain ⟨c, htrue, hgave, hcases⟩ := doXfer_spec hfmt hin
  obtain ⟨hxfer, hsent, htimer, hissued, hattempts, hwaiting⟩ := hgave
  generalize (doXfer s).2 = t at *
  have hcmds : t.cmds = s.cmds ++ [c.cmd] := by
    rw [Fd.cmds, hissued, List.map_append]
    rfl
  have hcyl : t.cylinder = s.cylinder := by
    rw [Fd.cylinder, hxfer]
    rfl
  have hstarted : Started proc_addr mp t k e := by
    obtain ⟨h1, h2, h3, h4, h5, h6, h7, h8, h9⟩ := h
    refine ⟨?_, ?_, ?_, ?_, ?_, h6, ?_, h8, ?_⟩
    · rwa [hxfer]
    · rwa [hxfer]
    · rwa [hxfer]
    · rwa [hxfer]
    · rwa [hxfer]
    · rwa [hxfer]
    · rwa [hattempts]
  have hrw : t.xfer.x_rw = s.xfer.x_rw := by rw [hxfer]
  have hdrive : DRIVE t.xfer.x_drive = DRIVE s.xfer.x_drive := by rw [hxfer]
  have hcmd : t.xfer.x_cmd = c.cmd := by rw [hxfer]
  have hasked : Phase t → c.xfer.x_secnum = s.xfer.x_secnum →
      (c.cmd = .F_READ ∨ c.cmd = .F_WRITE → c.Exact proc_addr mp k) → Asked proc_addr mp t k e := by
    intro hphase hsec hex
    refine ⟨hstarted, hcyl ▸ hin, hphase, ?_, ?_⟩
    · intro b hb
      rw [hissued] at hb
      rw [show t.xfer.x_secnum = s.xfer.x_secnum by rw [hxfer]]
      rcases List.mem_append.mp hb with hb | hb
      · exact hsector b hb
      · rwa [List.mem_singleton.mp hb]
    · intro b hb
      rw [hissued] at hb
      rcases List.mem_append.mp hb with hb | hb
      · exact hexact b hb
      · rwa [List.mem_singleton.mp hb]
  have hsec : c.xfer.x_secnum = s.xfer.x_secnum := by rw [hsent, hxfer]
  refine ⟨htrue, ?_, htimer, hwaiting, by rw [hxfer], ?_⟩
  · rcases hcases with ⟨harm, hc, -⟩ | ⟨-, harm, hc, hcurcyl⟩ | ⟨-, harm, htr, hcurcyl⟩
    · refine hasked (.restore (hcmd.trans hc) ?_) hsec (by simp [hc])
      rw [hcmds, hrestore harm, hc]
      exact .refl _
    · refine hasked (.seek (hcmd.trans hc) ?_ ?_) hsec (by simp [hc])
      · rw [Fd.arm, hcurcyl, hdrive, Function.update_self, hcyl]
      · rw [hcmds, hc]
        exact (hseek harm).append_right [.SEEK]
    · refine hasked (.transfer ?_ ?_ ?_ ?_) hsec fun _ =>
        htr.exact hm h hin (hsent.trans hxfer) harm
      · rw [hcmd, htr.cmd, hrw]
      · rw [Fd.arm, hcurcyl, hdrive, hcyl]
        exact harm
      · rw [hcmds, htr.cmd, hrw]
        exact htransfer.append_right [transferCmd s.xfer.x_rw]
      · rw [hcmds, htr.cmd, hrw]
        exact List.mem_append_right _ (List.mem_singleton_self _)
  · rw [hcmd]
    rcases hcases with ⟨harm, hc, -⟩ | ⟨hlost, harm, hc, -⟩ | ⟨hlost, harm, htr, -⟩
    · rw [hc, if_pos harm]
      rfl
    · rw [hc, if_neg hlost, if_pos harm]
      rfl
    · rw [if_neg hlost, if_neg (not_not.mpr harm), htr.cmd]
      rcases transferCmd_cases s.xfer.x_rw with h | h <;> rw [h] <;> rfl

/-! ## The answer -/

/-- The current attempt can come to an end. -/
structure Closes (proc_addr : ℤ → ProcMap) (mp : RdwtMess VirBytes) (s : Fd) (k e : ℕ) : Prop
    extends Started proc_addr mp s k e where
  inside : s.cylinder < NR_CYLINDERS
  once : s.cmds.Sublist [.RESTORE, .SEEK, transferCmd mp.m_type, .IRUPT]
  sector : ∀ c ∈ s.issued, c.xfer.x_secnum = s.xfer.x_secnum
  exact : ∀ c ∈ s.issued, c.cmd = .F_READ ∨ c.cmd = .F_WRITE → c.Exact proc_addr mp k

theorem Asked.once (h : Asked proc_addr mp s k e) :
    s.cmds.Sublist [.RESTORE, .SEEK, transferCmd mp.m_type] := by
  rw [← h.x_rw]
  cases h.phase with
  | restore hcmd hcmds => exact hcmds.trans (List.sublist_append_left [Cmd.RESTORE] _)
  | seek hcmd harm hcmds => exact hcmds.trans (List.sublist_append_left [Cmd.RESTORE, .SEEK] _)
  | transfer hcmd harm hcmds hin => exact hcmds

theorem Asked.closes (h : Asked proc_addr mp s k e) : Closes proc_addr mp s k e :=
  ⟨h.toStarted, h.inside,
    h.once.trans (List.sublist_append_left [Cmd.RESTORE, .SEEK, transferCmd mp.m_type] [.IRUPT]),
    h.sector, h.exact⟩

/-- The fields of the transfer but for `x_cmd`, and the records, are the same. -/
theorem Closes.congr (h : Closes proc_addr mp s k e)
    (hxfer : s'.xfer = { s.xfer with x_cmd := s'.xfer.x_cmd })
    (hissued : s'.issued = s.issued) (hattempts : s'.attempts = s.attempts) :
    Closes proc_addr mp s' k e := by
  obtain ⟨⟨h1, h2, h3, h4, h5, h6, h7, h8, h9⟩, hin, honce, hsector, hexact⟩ := h
  refine ⟨⟨by rwa [hxfer], by rwa [hxfer], by rwa [hxfer], by rwa [hxfer], by rwa [hxfer], h6,
    by rwa [hxfer], h8, by rwa [hattempts]⟩, ?_, ?_, ?_, ?_⟩
  · rw [Fd.cylinder, hxfer]
    exact hin
  · rwa [Fd.cmds, hissued]
  · rwa [hissued, hxfer]
  · rwa [hissued]

/-- The timer and the motor are not asked. -/
theorem Asked.congr (h : Asked proc_addr mp s k e) (hxfer : s'.xfer = s.xfer)
    (hcurcyl : s'.curcyl = s.curcyl) (hissued : s'.issued = s.issued)
    (hattempts : s'.attempts = s.attempts) : Asked proc_addr mp s' k e := by
  have hcloses : Closes proc_addr mp s' k e := h.closes.congr (by rw [hxfer]) hissued hattempts
  have harm : s'.arm = s.arm := by rw [Fd.arm, hxfer, hcurcyl, Fd.arm]
  have hcyl : s'.cylinder = s.cylinder := by rw [Fd.cylinder, hxfer, Fd.cylinder]
  have hcmds : s'.cmds = s.cmds := by rw [Fd.cmds, hissued, Fd.cmds]
  refine ⟨hcloses.toStarted, hcloses.inside, ?_, hcloses.sector, hcloses.exact⟩
  cases h.phase with
  | restore hcmd hc => exact .restore (by rw [hxfer, hcmd]) (by rwa [hcmds])
  | seek hcmd ha hc => exact .seek (by rw [hxfer, hcmd]) (by rw [harm, ha, hcyl]) (by rwa [hcmds])
  | transfer hcmd ha hc hin =>
    exact .transfer (by rw [hxfer, hcmd]) (by rw [harm, ha, hcyl]) (by rwa [hcmds, hxfer])
      (by rwa [hcmds, hxfer])

theorem Closes.attempt (h : Closes proc_addr mp s k e) {ok : Bool}
    (hok : ok = true → transferCmd mp.m_type ∈ s.cmds) :
    Attempt.Good proc_addr mp ⟨s.xfer.x_secnum, s.issued, ok⟩ :=
  ⟨h.once, h.sector, fun c hc hcmd => ⟨k, h.exact c hc hcmd⟩, hok⟩

/-- The controller was interrupted. -/
theorem Closes.interrupted (h : Closes proc_addr mp s k e)
    (hcmds : s.cmds.Sublist [.RESTORE, .SEEK, transferCmd mp.m_type]) (data : ℕ) :
    Closes proc_addr mp (s.send .IRUPT data) k e := by
  obtain ⟨⟨h1, h2, h3, h4, h5, h6, h7, h8, h9⟩, hin, -, hsector, hexact⟩ := h
  refine ⟨⟨h1, h2, h3, h4, h5, h6, h7, h8, h9⟩, hin, ?_, ?_, ?_⟩
  · have hmore : (s.send .IRUPT data).cmds = s.cmds ++ [.IRUPT] := List.map_append
    rw [hmore]
    exact hcmds.append_right [.IRUPT]
  · intro c hc
    rcases List.mem_append.mp hc with hc | hc
    · exact hsector c hc
    · rw [List.mem_singleton.mp hc]
      rfl
  · intro c hc hcmd
    rcases List.mem_append.mp hc with hc | hc
    · exact hexact c hc hcmd
    · rw [List.mem_singleton.mp hc] at hcmd
      exact absurd hcmd (by simp)

/-- A controller that has nothing to complain about. -/
def okStatus : Status := ⟨1, 0⟩

/-- What `xfer_ok` leads to. -/
inductive Answer (proc_addr : ℤ → ProcMap) (mp : RdwtMess VirBytes) (status : Status) (s : Fd)
    (k e : ℕ) (r : XferOk × Fd) : Prop
  | failed (hr : r.1 = .X_ERROR ∨ r.1 = .X_FAIL) (h : Closes proc_addr mp r.2 k e)
      (hbad : status ≠ okStatus ∨ s.xfer.x_cmd = .IRUPT)
  | again (hr : r.1 = .X_AGAIN) (h : Closes proc_addr mp r.2 k e) (harm : r.2.arm ≠ -1)
      (hseek : r.2.arm ≠ r.2.cylinder → r.2.cmds.Sublist [.RESTORE])
      (htransfer : r.2.cmds.Sublist [.RESTORE, .SEEK])
      (hturns : (if r.2.arm ≠ r.2.cylinder then 2 else 1) < s.xfer.x_cmd.turns)
  | transferred (hr : r.1 = .X_OK) (h : Closes proc_addr mp r.2 k e)
      (hin : transferCmd mp.m_type ∈ r.2.cmds)

theorem okStatus_bits : okStatus.dma_stat &&& DMAOK ≠ 0 ∧
    okStatus.fdc_stat &&& (RNF ||| CRCERR ||| LD_T00) = 0 ∧ okStatus.fdc_stat &&& WRI_PRO = 0 ∧
    okStatus.fdc_stat &&& (RNF ||| CRCERR) = 0 ∧ okStatus.fdc_stat &&& RNF = 0 := by
  decide

theorem cylinder_nonneg (hm : Sensible mp) (h : Started proc_addr mp s k e) : 0 ≤ s.cylinder := by
  have h0 : 0 ≤ s.xfer.x_secnum := by
    have := hm.start
    have := h.x_secnum
    omega
  have hheads : 0 ≤ nr_heads (DTYPE s.xfer.x_drive) := by
    rw [nr_heads]
    split_ifs <;> decide
  exact Int.tdiv_nonneg (Int.tdiv_nonneg h0 (by decide)) hheads

theorem xferOk_answers (hm : Sensible mp) (h : Asked proc_addr mp s k e) (status : Status) :
    Answer proc_addr mp status s k e (xferOk status s) := by
  have hcloses := h.closes
  have hlost : Closes proc_addr mp s.lost k e := hcloses.congr rfl rfl rfl
  have h0 := cylinder_nonneg hm h.toStarted
  obtain ⟨hdma, herr, hpro, hseekerr, hrnf⟩ := okStatus_bits
  unfold xferOk
  cases h.phase with
  | restore hcmd hcmds =>
    simp only [hcmd]
    by_cases hbad : status.fdc_stat &&& RNF ≠ 0
    · rw [if_pos hbad]
      refine .failed (.inl rfl) ?_ (.inl fun h => hbad (h ▸ hrnf))
      exact (hcloses.interrupted h.once IRUPT).congr rfl rfl rfl
    · rw [if_neg hbad]
      have hzero : ∀ t : Fd, t = { s with
          curcyl := Function.update s.curcyl (DRIVE s.xfer.x_drive) 0 } → t.arm = 0 := by
        rintro t rfl
        exact Function.update_self ..
      refine .again rfl (hcloses.congr rfl rfl rfl) ?_ (fun _ => hcmds) ?_ ?_
      · rw [hzero _ rfl]
        decide
      · exact hcmds.trans (List.sublist_append_left [Cmd.RESTORE] [.SEEK])
      · rw [hcmd]
        split_ifs <;> decide
  | seek hcmd harm hcmds =>
    simp only [hcmd]
    by_cases hbad : status.fdc_stat &&& (RNF ||| CRCERR) ≠ 0
    · rw [if_pos hbad]
      exact .failed (.inl rfl) hlost (.inl fun h => hbad (h ▸ hseekerr))
    · rw [if_neg hbad]
      refine .again rfl hcloses ?_ (fun hne => absurd harm hne) hcmds ?_
      · show s.arm ≠ -1
        omega
      · rw [if_neg (not_not.mpr harm), hcmd]
        decide
  | transfer hcmd harm hcmds hin =>
    rw [h.x_rw] at hcmd hin
    rcases transferCmd_cases mp.m_type with hread | hwrite
    · simp only [hcmd, hread]
      by_cases hbad : status.dma_stat &&& DMAOK = 0
      · rw [if_pos hbad]
        exact .failed (.inl rfl) hcloses (.inl fun h => hdma (h ▸ hbad))
      rw [if_neg hbad]
      by_cases hbad' : status.fdc_stat &&& (RNF ||| CRCERR ||| LD_T00) ≠ 0
      · rw [if_pos hbad']
        exact .failed (.inl rfl) hlost (.inl fun h => hbad' (h ▸ herr))
      · rw [if_neg hbad']
        exact .transferred rfl hcloses hin
    · simp only [hcmd, hwrite]
      by_cases hbad : status.fdc_stat &&& WRI_PRO ≠ 0
      · rw [if_pos hbad]
        exact .failed (.inr rfl) hcloses (.inl fun h => hbad (h ▸ hpro))
      rw [if_neg hbad]
      by_cases hbad' : status.fdc_stat &&& (RNF ||| CRCERR ||| LD_T00) ≠ 0
      · rw [if_pos hbad']
        exact .failed (.inl rfl) hlost (.inl fun h => hbad' (h ▸ herr))
      · rw [if_neg hbad']
        exact .transferred rfl hcloses hin

/-! ## One interrupt -/

/-- The next attempt begins, or there are no more sectors on the diskette. -/
theorem next_attempt (hm : Sensible mp) (h : Started proc_addr mp s k e) (hissued : s.issued = []) :
    (s.cylinder < NR_CYLINDERS ∧ (doXfer s).1 = true ∧ Asked proc_addr mp (doXfer s).2 k e ∧
      (doXfer s).2.selectic = -30 ∧ (doXfer s).2.waiting = s.waiting ∧
      (doXfer s).2.xfer.x_count = s.xfer.x_count ∧ (doXfer s).2.xfer.x_cmd.turns ≤ 3) ∨
    (NR_CYLINDERS ≤ s.cylinder ∧ doXfer s = (false, s)) := by
  have hcmds : s.cmds = [] := by rw [Fd.cmds, hissued, List.map_nil]
  by_cases hin : s.cylinder < NR_CYLINDERS
  · obtain ⟨htrue, hasked, htimer, hwaiting, hcount, hturns⟩ := doXfer_asks hm h
      (by simp [hissued]) (by simp [hissued]) (fun _ => hcmds)
      (fun _ => hcmds ▸ List.nil_sublist _) (hcmds ▸ List.nil_sublist _) hin
    refine .inl ⟨hin, htrue, hasked, htimer, hwaiting, hcount, ?_⟩
    rw [hturns]
    split_ifs <;> decide
  · have hfmt : FORMAT s.xfer.x_drive = false := by rw [h.x_drive, hm.format]
    exact .inr ⟨not_lt.mp hin, doXfer_behind hfmt (not_lt.mp hin)⟩

/-- The transfer goes on, with less to do, or it has come to an end. -/
inductive Outcome (proc_addr : ℤ → ProcMap) (mp : RdwtMess VirBytes) (s s' : Fd) (fine : Prop) : Prop
  | waits (k e : ℕ) (h : Waits proc_addr mp s' k e) (htimer : s'.selectic = -30)
      (hwork : s'.work < s.work)
  | ended (k : ℕ) (h : Ended proc_addr mp s' k)
      (hwhy : fine → s'.xfer.x_count = 0 ∨ NR_CYLINDERS ≤ s'.cylinder)

variable {status : Status}

theorem Started.work_eq (h : Started proc_addr mp s k e) (hmul : mp.COUNT % SECTOR_SIZE = 0) :
    s.work = 30 * (mp.COUNT / SECTOR_SIZE - k) - 3 * e - 3 + s.xfer.x_cmd.turns := by
  have hsize : SECTOR_SIZE = 512 := rfl
  rw [Fd.work, h.x_errors, h.x_count, hsize] at *
  omega

theorem Closes.fails (h : Closes proc_addr mp s k e) :
    Past proc_addr mp (s.ended false).attempts k (e + 1) :=
  h.past.failed (h.attempt (fun hok => absurd hok (by decide))) rfl h.x_secnum h.few

theorem Closes.succeeds (h : Closes proc_addr mp s k e) (hin : transferCmd mp.m_type ∈ s.cmds) :
    Past proc_addr mp (s.ended true).attempts (k + 1) 0 :=
  h.past.succeeded (h.attempt fun _ => hin) rfl h.x_secnum

/-- One error more, and the controller tries again. -/
theorem Closes.tries_again (h : Closes proc_addr mp s k e) (hfew : e + 1 < MAX_ERRORS) :
    Started proc_addr mp (s.ended false).error k (e + 1) :=
  ⟨h.x_rw, h.x_drive, h.x_secnum, h.x_address, h.x_count, h.left,
    congrArg (· + 1) h.x_errors, hfew, h.fails⟩

/-- In front of the last cylinder a sector number has a successor. -/
theorem Closes.advance (hm : Sensible mp) (h : Closes proc_addr mp s k e) :
    (s.ended true).advance.xfer.x_secnum = startSector mp + (k + 1 : ℕ) ∧
      (s.ended true).advance.xfer.x_count = mp.COUNT - SECTOR_SIZE * (k + 1 : ℕ) ∧
      (s.ended true).advance.xfer.x_address =
        physical proc_addr mp + BitVec.ofInt 32 (SECTOR_SIZE * (k + 1 : ℕ)) := by
  have hfmt : FORMAT s.xfer.x_drive = false := by rw [h.x_drive, hm.format]
  have hsize : SECTOR_SIZE = 512 := rfl
  have h0 : 0 ≤ s.xfer.x_secnum := by
    have := hm.start
    have := h.x_secnum
    omega
  have hlt : s.xfer.x_secnum < 32767 := by
    have hin := h.inside
    have hsec : s.xfer.x_secnum.tdiv NR_SECTORS = s.xfer.x_secnum / 9 :=
      Int.tdiv_eq_ediv_of_nonneg h0
    have htrack : 0 ≤ s.xfer.x_secnum / 9 := by omega
    have hcyls : NR_CYLINDERS = 80 := rfl
    rw [Fd.cylinder, hsec, Int.tdiv_eq_ediv_of_nonneg htrack, nr_heads] at hin
    split_ifs at hin <;> omega
  refine ⟨?_, ?_, ?_⟩
  · show int16 (s.xfer.x_secnum + 1) = _
    rw [int16_of_range (by omega) (by omega), h.x_secnum]
    push_cast
    ring
  · show s.xfer.x_count - (if FORMAT s.xfer.x_drive then TRACK_SIZE else SECTOR_SIZE) = _
    simp only [hfmt, h.x_count, Bool.false_eq_true, if_false]
    push_cast
    ring
  · show s.xfer.x_address +
      BitVec.ofInt 32 (if FORMAT s.xfer.x_drive then TRACK_SIZE else SECTOR_SIZE) = _
    have hsum : SECTOR_SIZE * k + SECTOR_SIZE = SECTOR_SIZE * (k + 1 : ℕ) := by
      push_cast
      ring
    simp only [hfmt, Bool.false_eq_true, if_false]
    rw [h.x_address, BitVec.add_assoc, ← BitVec.ofInt_add, hsum]

/-- A transfer that has failed. -/
theorem Closes.gives_up (h : Closes proc_addr mp s k e) :
    Ended proc_addr mp { s.ended false with waiting := false } k :=
  ⟨rfl, rfl, h.x_drive, h.x_secnum, h.x_count, h.left.le, h.fails.good, h.fails.moved, h.fails.few⟩

theorem Closes.gives_up_error (h : Closes proc_addr mp s k e) :
    Ended proc_addr mp { (s.ended false).error with waiting := false } k :=
  ⟨rfl, rfl, h.x_drive, h.x_secnum, h.x_count, h.left.le, h.fails.good, h.fails.moved, h.fails.few⟩

theorem xferDone_fail (h : (xferOk status s).1 = .X_FAIL) :
    xferDone status s = (true, (xferOk status s).2.ended false) := by
  simp only [xferDone, h]

theorem xferDone_error (h : (xferOk status s).1 = .X_ERROR) :
    xferDone status s =
      if ((xferOk status s).2.ended false).error.xfer.x_errors = MAX_ERRORS then
        (true, ((xferOk status s).2.ended false).error)
      else proceed ((xferOk status s).2.ended false).error := by
  simp only [xferDone, h]

theorem xferDone_again (h : (xferOk status s).1 = .X_AGAIN) :
    xferDone status s = proceed (xferOk status s).2 := by
  simp only [xferDone, h]

theorem xferDone_ok (h : (xferOk status s).1 = .X_OK) :
    xferDone status s =
      if ((xferOk status s).2.ended true).advance.xfer.x_count = 0 then
        (true, ((xferOk status s).2.ended true).advance)
      else proceed ((xferOk status s).2.ended true).advance := by
  simp only [xferDone, h]

/-- The interrupt leads to the next command or to the end. -/
theorem fdcint_spec (hm : Sensible mp) (hmul : mp.COUNT % SECTOR_SIZE = 0)
    (h : Started proc_addr mp s k e) (hanswer : Answer proc_addr mp status s k e (xferOk status s)) :
    Outcome proc_addr mp s (fdcint status s) (status = okStatus ∧ s.xfer.x_cmd ≠ .IRUPT) := by
  have hwork := h.work_eq hmul
  have hturns : 1 ≤ s.xfer.x_cmd.turns := by cases s.xfer.x_cmd <;> decide
  -- The next command is waited for.
  have hgoes : ∀ (t : Fd) (k' e' : ℕ), (doXfer t).1 = true →
      Asked proc_addr mp (doXfer t).2 k' e' → (doXfer t).2.selectic = -30 →
      30 * (mp.COUNT / SECTOR_SIZE - k') - 3 * e' - 3 + (doXfer t).2.xfer.x_cmd.turns < s.work →
      Outcome proc_addr mp s { (proceed t).2 with waiting := !(proceed t).1 }
        (status = okStatus ∧ s.xfer.x_cmd ≠ .IRUPT) := by
    intro t k' e' htrue hasked htimer hless
    have hgone : proceed t = (false, (doXfer t).2) := by
      rw [proceed, htrue]
      rfl
    rw [hgone]
    have hwaits : Waits proc_addr mp { (doXfer t).2 with waiting := true } k' e' := by
      refine ⟨hasked.congr rfl rfl rfl rfl, rfl, ?_⟩
      dsimp only
      rw [htimer]
      decide
    refine .waits k' e' hwaits htimer ?_
    exact (hwaits.work_eq hmul).trans_lt hless
  rw [fdcint]
  cases hanswer with
  | failed hr hcloses hbad =>
    have hnot : ¬(status = okStatus ∧ s.xfer.x_cmd ≠ .IRUPT) := fun h => hbad.elim (· h.1) h.2
    rcases hr with hr | hr
    · rw [xferDone_error hr]
      by_cases hmax : ((xferOk status s).2.ended false).error.xfer.x_errors = MAX_ERRORS
      · rw [if_pos hmax]
        exact .ended k hcloses.gives_up_error fun h => absurd h hnot
      · rw [if_neg hmax]
        have hfew : e + 1 < MAX_ERRORS := by
          have herrors : ((xferOk status s).2.ended false).error.xfer.x_errors = e + 1 :=
            congrArg (· + 1) hcloses.x_errors
          have := hcloses.few
          omega
        rcases next_attempt hm (hcloses.tries_again hfew) rfl with
          ⟨-, htrue, hasked, htimer, -, -, hless⟩ | ⟨hbehind, -⟩
        · refine hgoes _ k (e + 1) htrue hasked htimer ?_
          rw [hwork]
          push_cast
          omega
        · exact absurd hcloses.inside (not_lt.mpr hbehind)
    · rw [xferDone_fail hr]
      exact .ended k hcloses.gives_up fun h => absurd h hnot
  | again hr hcloses harm hseek htransfer hless =>
    rw [xferDone_again hr]
    obtain ⟨htrue, hasked, htimer, -, -, hturns'⟩ := doXfer_asks hm hcloses.toStarted hcloses.sector
      hcloses.exact (fun h => absurd h harm) hseek htransfer hcloses.inside
    refine hgoes _ k e htrue hasked htimer ?_
    rw [hturns', if_neg harm, hwork]
    omega
  | transferred hr hcloses hin =>
    rw [xferDone_ok hr]
    obtain ⟨hsecnum, hcount, haddress⟩ := hcloses.advance hm
    have hpast := hcloses.succeeds hin
    have hleft := hcloses.left
    have hsize : SECTOR_SIZE = 512 := rfl
    by_cases hzero : ((xferOk status s).2.ended true).advance.xfer.x_count = 0
    · rw [if_pos hzero]
      refine .ended (k + 1) ⟨rfl, rfl, hcloses.x_drive, hsecnum, hcount, ?_, hpast.good, hpast.moved,
        hpast.few⟩ fun _ => .inl hzero
      rw [hzero, hsize] at hcount
      rw [hsize]
      omega
    · rw [if_neg hzero]
      have hleft' : SECTOR_SIZE * (k + 1 : ℕ) < mp.COUNT := by
        rw [hcount, hsize] at hzero
        rw [hsize] at hmul hleft ⊢
        omega
      have hstarted : Started proc_addr mp ((xferOk status s).2.ended true).advance (k + 1) 0 :=
        ⟨hcloses.x_rw, hcloses.x_drive, hsecnum, haddress, hcount, hleft', rfl, by decide, hpast⟩
      rcases next_attempt hm hstarted rfl with
        ⟨-, htrue, hasked, htimer, -, -, hless⟩ | ⟨hbehind, hfalse⟩
      · refine hgoes _ (k + 1) 0 htrue hasked htimer ?_
        have := hcloses.few
        have hmax : MAX_ERRORS = 10 := rfl
        rw [hwork]
        push_cast
        omega
      · rw [proceed, hfalse]
        exact .ended (k + 1) ⟨rfl, rfl, hcloses.x_drive, hsecnum, hcount, hleft'.le, hpast.good,
          hpast.moved, hpast.few⟩ fun _ => .inr hbehind

/-! ## The run -/

/-- There is something to transfer while the task waits. -/
theorem Waits.count_pos (h : Waits proc_addr mp s k e) : 0 < s.xfer.x_count := by
  have hleft := h.left
  rw [h.x_count]
  omega

/-- A time-out fails. -/
theorem timeout_spec (hm : Sensible mp) (hmul : mp.COUNT % SECTOR_SIZE = 0)
    (h : Waits proc_addr mp s k e) (motoron : ℤ) :
    Outcome proc_addr mp s
      (fdcint ⟨0, 0⟩ ({ s with motoron := motoron, selectic := 0 }.command .IRUPT IRUPT)) False := by
  obtain ⟨t, ht⟩ : ∃ t, { s with motoron := motoron, selectic := 0 }.command .IRUPT IRUPT = t :=
    ⟨_, rfl⟩
  have hcloses : Closes proc_addr mp t k e := by
    have hsame : Closes proc_addr mp
        { s with motoron := motoron, selectic := 0, xfer := { s.xfer with x_cmd := .IRUPT } } k e :=
      h.closes.congr rfl rfl rfl
    rw [← ht]
    exact hsame.interrupted h.once IRUPT
  have hcmd : t.xfer.x_cmd = .IRUPT := by
    rw [← ht]
    rfl
  have hanswer : Answer proc_addr mp ⟨0, 0⟩ t k e (xferOk ⟨0, 0⟩ t) := by
    rw [xferOk, hcmd]
    exact .failed (.inl rfl) (hcloses.congr rfl rfl rfl) (.inr hcmd)
  have hless : t.work ≤ s.work := by
    have hturns : 1 ≤ s.xfer.x_cmd.turns := by cases s.xfer.x_cmd <;> decide
    rw [hcloses.work_eq hmul, h.work_eq hmul, hcmd]
    have hone : Cmd.IRUPT.turns = 1 := rfl
    omega
  rw [ht]
  cases fdcint_spec hm hmul hcloses.toStarted hanswer with
  | waits k e hw htimer hwork => exact .waits k e hw htimer (hwork.trans_le hless)
  | ended k hend hwhy => exact .ended k hend False.elim

/-- Every event leaves less to do. -/
theorem step_waits (hm : Sensible mp) (hmul : mp.COUNT % SECTOR_SIZE = 0)
    (h : Waits proc_addr mp s k e) (ev : Event) :
    ((∃ k e, Waits proc_addr mp (step s ev) k e) ∧ (step s ev).patience < s.patience) ∨
      ∃ k, Ended proc_addr mp (step s ev) k ∧ (ev = .interrupt okStatus →
        (step s ev).xfer.x_count = 0 ∨ NR_CYLINDERS ≤ (step s ev).cylinder) := by
  obtain ⟨htimer, htimer'⟩ := h.timer
  have hpos : 0 < s.work := by
    have hleft := h.left
    have hfew := h.few
    have hmax : MAX_ERRORS = 10 := rfl
    have hsize : SECTOR_SIZE = 512 := rfl
    have hturns : 1 ≤ s.xfer.x_cmd.turns := by cases s.xfer.x_cmd <;> decide
    rw [h.work_eq hmul]
    rw [hsize] at hmul hleft ⊢
    omega
  cases ev with
  | interrupt status =>
    have hstep : step s (.interrupt status) = fdcint status s := by
      rw [step, if_pos h.waiting]
    rw [hstep]
    cases fdcint_spec hm hmul h.toStarted (xferOk_answers hm h.toAsked status) with
    | waits k' e' hw htimer hwork =>
      refine .inl ⟨⟨k', e', hw⟩, ?_⟩
      rw [Fd.patience, Fd.patience, htimer]
      omega
    | ended k' hend hwhy =>
      refine .inr ⟨k', hend, fun he => hwhy ⟨Event.interrupt.inj he, ?_⟩⟩
      cases h.phase with
      | restore hcmd _ => simp [hcmd]
      | seek hcmd _ _ => simp [hcmd]
      | transfer hcmd _ _ _ => rcases transferCmd_cases s.xfer.x_rw with ht | ht <;> simp [hcmd, ht]
  | tick =>
    have hstep : step s .tick = fdTimer s := by
      rw [step, if_pos h.waiting]
    rw [hstep, fdTimer, if_neg (by omega)]
    dsimp only
    rw [if_pos htimer']
    by_cases hlast : s.selectic + 1 = 0
    · rw [if_pos hlast, hlast]
      cases timeout_spec hm hmul h _ with
      | waits k' e' hw htimer hwork =>
        refine .inl ⟨⟨k', e', hw⟩, ?_⟩
        rw [Fd.patience, Fd.patience, htimer]
        omega
      | ended k' hend hwhy => exact .inr ⟨k', hend, fun he => by cases he⟩
    · rw [if_neg hlast]
      refine .inl ⟨⟨k, e, h.toAsked.congr rfl rfl rfl rfl, h.waiting, ?_⟩, ?_⟩
      · dsimp only
        omega
      · have hwork : 30 * s.work - (s.selectic + 1) < 30 * s.work - s.selectic := by omega
        show (30 * s.work - (s.selectic + 1)).toNat < (30 * s.work - s.selectic).toNat
        omega

end Minix.Kernel.Floppy
