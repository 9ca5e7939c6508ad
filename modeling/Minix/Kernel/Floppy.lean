import Mathlib.Algebra.Order.Group.Unbundled.Int
import Mathlib.Logic.Function.Basic
import Minix.Kernel.Umap
import Minix.Kernel.Vrdwt
import Minix.Kernel.Tty

/-!
# The floppy task

`kernel/stfloppy.c`. `do_rdwt` starts a transfer by `do_xfer` and waits for `interrupt(FLOPPY)`. In
the meantime the controller interrupts and the clock calls `fd_timer`; both lead to `fdcint`, where
`xfer_ok` looks at what the last command has come to, `xfer_done` counts the sector or the error,
and `do_xfer` gives the next command.

`issued` and `attempts` are not variables of the driver. They record the commands that have been
given since the last sector was counted or failed, and how the attempts before that have ended.
-/

namespace Minix.Kernel.Floppy

open Lib

def TRACK_SIZE : ℤ := 7168
def SECTOR_SIZE : ℤ := 512
def NR_SECTORS : ℤ := 9
def NR_CYLINDERS : ℤ := 80
def NR_FLOPDRIVES : ℤ := 2
def NR_TYPES : ℤ := 2
def MAX_ERRORS : ℕ := 10

def EINVAL : ℤ := -22

/-- The number of heads, by type. -/
def nr_heads (d : ℤ) : ℤ := if d = 0 then 1 else 2

def DRIVE (d : ℤ) : ℤ := d % 8
def DTYPE (d : ℤ) : ℤ := d / 8 % 8
def FORMAT (d : ℤ) : Bool := d / 64 % 2 = 1

/-- The commands of the controller. `F_WRITE` also stands for the one that writes a track. -/
inductive Cmd
  | RESTORE
  | SEEK
  | F_READ
  | F_WRITE
  | IRUPT
deriving DecidableEq

/-- Bits of the command register. -/
def RESTORE : ℕ := 0x00
def SEEK : ℕ := 0x10
def F_READ : ℕ := 0x80
def F_WRITE : ℕ := 0xA0
def WRITETR : ℕ := 0xF0
def IRUPT : ℕ := 0xD0
def RATE3 : ℕ := 0x03
def VBIT : ℕ := 0x04
def HBIT : ℕ := 0x08

/-- Bits of the status registers. -/
def LD_T00 : BitVec 16 := 0x04
def CRCERR : BitVec 16 := 0x08
def RNF : BitVec 16 := 0x10
def WRI_PRO : BitVec 16 := 0x40
def DMAOK : BitVec 16 := 0x0001

/-- Bits that select a drive; the lowest one is the head. -/
def PA_FLOP0 : BitVec 16 := 0x02
def PA_FLOP1 : BitVec 16 := 0x04

/-- The transfer. -/
structure Xfer where
  x_rw : ℤ
  x_drive : ℤ
  x_secnum : ℤ
  x_address : VirBytes
  x_count : ℤ
  x_errors : ℕ
  x_cmd : Cmd

/-- The registers of the controller and of the DMA chip. -/
structure Regs where
  fdc_cs : ℕ
  fdc_tr : ℤ
  fdc_sr : ℤ
  fdc_dr : ℤ
  dma_addr : VirBytes
  dma_nsec : ℤ

/-- A command, with the state in which it was given. -/
structure Command where
  cmd : Cmd
  regs : Regs
  selected : BitVec 16
  xfer : Xfer
  curcyl : ℤ

/-- The commands that were given for a sector, up to its transfer or a failure. -/
structure Attempt where
  secnum : ℤ
  commands : List Command
  ok : Bool

/-- The variables of the driver. `waiting` is true until `interrupt(FLOPPY)`. -/
structure Fd where
  xfer : Xfer
  curcyl : ℤ → ℤ
  selected : BitVec 16
  selectic : ℤ
  motoron : ℤ
  regs : Regs
  waiting : Bool
  issued : List Command
  attempts : List Attempt

/-- Write to the command register. -/
def Fd.send (s : Fd) (cmd : Cmd) (data : ℕ) : Fd :=
  let regs := { s.regs with fdc_cs := data }
  { s with
    regs := regs
    issued := s.issued ++ [⟨cmd, regs, s.selected, s.xfer, s.curcyl (DRIVE s.xfer.x_drive)⟩] }

/-- Write to the command register, and say so in `x_cmd`. -/
def Fd.command (s : Fd) (cmd : Cmd) (data : ℕ) : Fd :=
  { s with xfer := { s.xfer with x_cmd := cmd } }.send cmd data

/-- The attempt has come to an end. -/
def Fd.ended (s : Fd) (ok : Bool) : Fd :=
  { s with
    issued := []
    attempts := s.attempts ++ [⟨s.xfer.x_secnum, s.issued, ok⟩] }

/-- The arm may be anywhere. -/
def Fd.lost (s : Fd) : Fd :=
  { s with curcyl := Function.update s.curcyl (DRIVE s.xfer.x_drive) (-1) }

/-- Select a drive and a head. It returns for how long the motor would have run. -/
def select (drive head : ℤ) (s : Fd) : ℤ × Fd :=
  (s.motoron, { s with
    motoron := 5
    selectic := -30
    selected := (if drive = 1 then PA_FLOP1 else PA_FLOP0) ||| BitVec.ofInt 16 head })

def deselect (s : Fd) : Fd := { s with selectic := 30 }

/-- Give the next command. It returns false if there is no such cylinder. -/
def doXfer (s : Fd) : Bool × Fd :=
  let xp := s.xfer
  let cylinder := if FORMAT xp.x_drive then xp.x_secnum else xp.x_secnum.tdiv NR_SECTORS
  let head := cylinder.tmod (nr_heads (DTYPE xp.x_drive))
  let cylinder := cylinder.tdiv (nr_heads (DTYPE xp.x_drive))
  if cylinder ≥ NR_CYLINDERS then (false, s)
  else
    let d := DRIVE xp.x_drive
    let sel := select d head s
    let hbit := if sel.1 ≠ 0 then HBIT else 0
    let s := sel.2
    if s.curcyl d = -1 then
      (true, s.command .RESTORE (if FORMAT xp.x_drive then RESTORE ||| hbit
        else RESTORE ||| VBIT ||| hbit))
    else
      let s := { s with regs := { s.regs with fdc_tr := s.curcyl d } }
      if cylinder ≠ s.curcyl d then
        -- be optimistic
        let s := { s with
          curcyl := Function.update s.curcyl d cylinder
          regs := { s.regs with fdc_dr := cylinder } }
        (true, s.command .SEEK (if FORMAT xp.x_drive then
            if cylinder = 0 then RESTORE ||| hbit else SEEK ||| RATE3 ||| hbit
          else SEEK ||| RATE3 ||| VBIT ||| hbit))
      else
        let sector := xp.x_secnum.tmod NR_SECTORS + 1
        let s := { s with regs := { s.regs with fdc_sr := sector, dma_addr := xp.x_address } }
        if xp.x_rw = DISK_READ then
          let s := { s with regs := { s.regs with dma_nsec := 1 } }
          (true, s.command .F_READ (F_READ ||| hbit))
        else if FORMAT xp.x_drive then
          let s := { s with regs := { s.regs with dma_nsec := TRACK_SIZE / SECTOR_SIZE } }
          (true, s.command .F_WRITE (WRITETR ||| hbit))
        else
          let s := { s with regs := { s.regs with dma_nsec := 1 } }
          (true, s.command .F_WRITE (F_WRITE ||| hbit))

/-- What `xfer_ok` returns. -/
inductive XferOk
  | X_OK
  | X_AGAIN
  | X_ERROR
  | X_FAIL
deriving DecidableEq

/-- What the status registers say after a command. -/
structure Status where
  dma_stat : BitVec 16
  fdc_stat : BitVec 16

def xferOk (status : Status) (s : Fd) : XferOk × Fd :=
  match s.xfer.x_cmd with
  | .IRUPT => (.X_ERROR, s.lost)
  | .F_READ =>
    if status.dma_stat &&& DMAOK = 0 then (.X_ERROR, s)
    else if status.fdc_stat &&& (RNF ||| CRCERR ||| LD_T00) ≠ 0 then (.X_ERROR, s.lost)
    else (.X_OK, s)
  | .F_WRITE =>
    if status.fdc_stat &&& WRI_PRO ≠ 0 then (.X_FAIL, s)
    else if status.fdc_stat &&& (RNF ||| CRCERR ||| LD_T00) ≠ 0 then (.X_ERROR, s.lost)
    else (.X_OK, s)
  | .SEEK =>
    if status.fdc_stat &&& (RNF ||| CRCERR) ≠ 0 then (.X_ERROR, s.lost) else (.X_AGAIN, s)
  | .RESTORE =>
    if status.fdc_stat &&& RNF ≠ 0 then (.X_ERROR, (s.send .IRUPT IRUPT).lost)
    else
      (.X_AGAIN, { s with curcyl := Function.update s.curcyl (DRIVE s.xfer.x_drive) 0 })

/-- Go on with `do_xfer`. It returns whether the transfer has come to an end. -/
def proceed (s : Fd) : Bool × Fd := let r := doXfer s; (!r.1, r.2)

/-- One error more. -/
def Fd.error (s : Fd) : Fd := { s with xfer := { s.xfer with x_errors := s.xfer.x_errors + 1 } }

/-- A sector has been transferred. -/
def Fd.advance (s : Fd) : Fd :=
  let size := if FORMAT s.xfer.x_drive then TRACK_SIZE else SECTOR_SIZE
  { s with xfer := { s.xfer with
    x_errors := 0
    x_secnum := int16 (s.xfer.x_secnum + 1)
    x_address := s.xfer.x_address + BitVec.ofInt 32 size
    x_count := s.xfer.x_count - size } }

def xferDone (status : Status) (s : Fd) : Bool × Fd :=
  let r := xferOk status s
  match r.1 with
  | .X_FAIL => (true, r.2.ended false)
  | .X_ERROR =>
    let s := (r.2.ended false).error
    if s.xfer.x_errors = MAX_ERRORS then (true, s) else proceed s
  | .X_AGAIN => proceed r.2
  | .X_OK =>
    let s := (r.2.ended true).advance
    if s.xfer.x_count = 0 then (true, s) else proceed s

/-- The interrupt of the controller. Its assertion is proved as `Waits.count_pos`. -/
def fdcint (status : Status) (s : Fd) : Fd :=
  let r := xferDone status s
  { r.2 with waiting := !r.1 }

/-- The clock calls this ten times a second. After three seconds without an answer it interrupts the
controller, of whose status nothing is read then. -/
def fdTimer (s : Fd) : Fd :=
  if s.selectic = 0 then s
  else
    let s := { s with motoron := if s.motoron ≠ 0 then s.motoron - 1 else s.motoron }
    if s.selectic < 0 then
      let s := { s with selectic := s.selectic + 1 }
      if s.selectic = 0 then fdcint ⟨0, 0⟩ (s.command .IRUPT IRUPT) else s
    else
      let s := { s with selectic := s.selectic - 1 }
      if s.selectic ≠ 0 then s else { s with selected := 0 }

/-- What can happen while the task waits. -/
inductive Event
  | interrupt (status : Status)
  | tick

def step (s : Fd) (e : Event) : Fd :=
  if s.waiting then
    match e with
    | .interrupt status => fdcint status s
    | .tick => fdTimer s
  else s

/-- A request returns a status, or the task waits. -/
inductive Rdwt
  | waiting (s : Fd)
  | returned (status : ℤ) (s : Fd)

def Rdwt.state : Rdwt → Fd
  | .waiting s => s
  | .returned _ s => s

def Rdwt.isReturned : Rdwt → Bool
  | .waiting _ => false
  | .returned _ _ => true

/-- What `do_rdwt` returns in the end. -/
def rdwtStatus (nbytes : ℤ) (s : Fd) : ℤ :=
  if s.xfer.x_count = nbytes then 0 else if s.xfer.x_count ≠ 0 then EIO else nbytes

variable (proc_addr : ℤ → ProcMap)

/-- The physical address of a buffer. -/
def physical (mp : RdwtMess VirBytes) : VirBytes :=
  umap (proc_addr mp.PROC_NR) .D mp.ADDRESS (BitVec.ofInt 32 mp.COUNT)

/-- Everything up to `do_xfer`. A request may be answered at once. -/
def prepare (mp : RdwtMess VirBytes) (s : Fd) : (ℤ × Fd) ⊕ Fd :=
  let s := { s with
    xfer := { s.xfer with x_rw := mp.m_type, x_drive := mp.DEVICE }
    issued := []
    attempts := [] }
  if DRIVE s.xfer.x_drive ≥ NR_FLOPDRIVES then .inl ( EIO, s)
  else if DTYPE s.xfer.x_drive ≥ NR_TYPES then .inl ( EIO, s)
  else
    let nbytes := mp.COUNT
    let s := { s with xfer := { s.xfer with x_count := nbytes } }
    if mp.POSITION.tmod SECTOR_SIZE ≠ 0 then .inl (EINVAL, s)
    else if nbytes.tmod SECTOR_SIZE ≠ 0 then .inl (EINVAL, s)
    else if FORMAT s.xfer.x_drive ∧ (nbytes ≠ TRACK_SIZE ∨ s.xfer.x_rw ≠ DISK_WRITE) then
      .inl (EINVAL, s)
    else
      let s := { s with xfer := { s.xfer with
        x_secnum := if FORMAT s.xfer.x_drive then int16 (mp.POSITION.tdiv TRACK_SIZE)
          else int16 (mp.POSITION.tdiv SECTOR_SIZE)
        x_address := physical proc_addr mp } }
      if s.xfer.x_address = 0 then .inl (EINVAL, s)
      else if nbytes = 0 then .inl (0, s)
      else .inr { s with xfer := { s.xfer with x_errors := 0 } }

/-- `do_rdwt`, where these things happen while it waits. -/
def doRdwt (mp : RdwtMess VirBytes) (s : Fd) (events : List Event) : Rdwt :=
  match prepare proc_addr mp s with
  | .inl r => .returned r.1 r.2
  | .inr s =>
    let r := doXfer s
    if r.1 then
      let s := events.foldl step { r.2 with waiting := true }
      if s.waiting then .waiting s else .returned (rdwtStatus mp.COUNT s) (deselect s)
    else .returned (rdwtStatus mp.COUNT r.2) r.2

end Minix.Kernel.Floppy
