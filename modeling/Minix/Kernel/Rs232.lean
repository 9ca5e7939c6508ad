import Mathlib.Algebra.Order.Group.Unbundled.Int
import Mathlib.Logic.Function.Basic
import Minix.Kernel.Tty
import Minix.Lib.Words

/-!
# The output of an RS232 line

`kernel/rs232.c` on the M68000: the output buffer of a line, what fills it (`serial_out` for a
write, `rs_out_char` for an echo) and what empties it (`rs_feed`), with the part of `tty_struct`
that they use. The bytes of a write are those of the memory at the time when they are copied, which
each step is given. `rs_buf` is the memory from the buffer on.

`level` is the interrupt level in the status register of the processor, which `lock` raises and
`restore` sets. What the terminal does not have is the history: what has been queued since the
buffer was reset, with the mode of that time, and what has been sent. `overrun` says that a
character has been stored outside the buffer. Messages to other processes are left out.
-/

namespace Minix.Kernel

open Lib

/-- Size of the output buffer of a line. -/
def RS_BUF_SIZE : ℕ := 256

/-- Room that is left in the buffer for echoes. -/
def SPARE : ℕ := 16

def XTABS : ℕ := 0o6000

def BS : UInt8 := 8
def TAB : UInt8 := 9
def BLANK : UInt8 := 32

/-- The level at which no interrupt comes through. -/
def LOCKED : ℕ := 7

/-- Whether an output process waits for a reply. -/
inductive TtyWaiting
  | NOT_WAITING
  | WAITING
  | COMPLETED
  deriving DecidableEq

structure RsLine where
  rs_busy : Bool
  rs_left : ℕ
  /-- The place of the next character to output. -/
  rs_next : ℕ
  rs_buf : ℕ → UInt8
  tty_mode : ℕ
  tty_column : ℤ
  tty_inhibited : Bool
  tty_waiting : TtyWaiting
  tty_outleft : ℕ
  tty_phys : ℕ
  tty_cum : ℤ
  /-- Number of lines that have completed their output. -/
  output_done : ℕ
  /-- Number of characters that have been received by the driver. -/
  tty_buf_count : ℕ
  level : ℕ
  /-- What has been queued since the column was `start`, with the mode. -/
  queued : List (ℕ × UInt8)
  start : ℤ
  sent : List UInt8
  overrun : Bool

/-- The place where the next character is deposited. -/
def RsLine.deposit (l : RsLine) : ℕ := l.rs_next + l.rs_left

/-- Store a character. -/
def RsLine.store (l : RsLine) (place : ℕ) (c : UInt8) : RsLine :=
  { l with
    rs_buf := Function.update l.rs_buf place c
    overrun := l.overrun || decide (RS_BUF_SIZE ≤ place) }

/-- If there is more output queued, output the next character. -/
def RsLine.rsFeed (l : RsLine) : RsLine :=
  if l.rs_left > 0 then
    { l with
      sent := l.sent ++ [l.rs_buf l.rs_next]
      rs_next := l.rs_next + 1
      rs_left := l.rs_left - 1 }
  else l

/-- The loop that expands a tab. -/
def RsLine.storeBlanks : ℕ → ℕ → RsLine → RsLine
  | 0, _, l => l
  | count + 1, place, l => storeBlanks count (place + 1) (l.store place BLANK)

/-- Output a character and update counters. -/
def RsLine.putLast (l : RsLine) (place : ℕ) (c : UInt8) : RsLine :=
  { l.store place c with
    rs_left := l.rs_left + 1
    tty_column := int16 (l.tty_column + 1) }

/-- Number of blanks up to the next tab stop. -/
def tabCount (column : ℤ) : ℤ := 8 - column.tmod 8

/-- Tab expansion and mapping of LF to CR and LF. -/
def RsLine.rsExpand (l : RsLine) (c : UInt8) : RsLine :=
  let l := { l with queued := l.queued ++ [(l.tty_mode, c)] }
  if c = BS then { l with tty_column := int16 (l.tty_column - 2) }.putLast l.deposit c
  else if c = CR then { l with tty_column := -1 }.putLast l.deposit c
  else if c = LF then
    if l.tty_mode &&& CRMOD ≠ 0 then
      let place := l.deposit
      { l.store place CR with
        rs_left := l.rs_left + 1
        tty_column := -1 }.putLast (place + 1) c
    else l.putLast l.deposit c
  else if c = TAB then
    let count := tabCount l.tty_column
    if l.tty_mode &&& XTABS = XTABS then
      { RsLine.storeBlanks count.toNat l.deposit l with
        rs_left := l.rs_left + count.toNat
        tty_column := int16 (l.tty_column + count) }
    else { l with tty_column := int16 (l.tty_column + (count - 1)) }.putLast l.deposit c
  else l.putLast l.deposit c

/-- If a line is idle, mark it as busy and start it going. -/
def RsLine.startUp (l : RsLine) : RsLine :=
  if l.rs_busy then l else { l with rs_busy := true }.rsFeed

/-- The loop that copies bytes from user space as long as there is room. -/
def RsLine.copyBytes (memory : ℕ → UInt8) : ℕ → RsLine → ℕ → RsLine × ℕ
  | 0, l, bytes => (l, bytes)
  | n + 1, l, bytes =>
    if l.tty_outleft > 0 ∧ l.deposit < RS_BUF_SIZE - SPARE then
      let c := memory (l.tty_phys + bytes)
      let l := { l with tty_outleft := l.tty_outleft - 1 }
      let l := if c < BLANK then l.rsExpand c else
        { l with queued := l.queued ++ [(l.tty_mode, c)] }.putLast l.deposit c
      copyBytes memory n l (bytes + 1)
    else (l, bytes)

/-- Copy as much data as possible to the output queue, then start I/O if necessary. -/
def RsLine.serialOut (memory : ℕ → UInt8) (l : RsLine) : RsLine :=
  if l.tty_inhibited then l
  else
    let (l, bytes) := RsLine.copyBytes memory l.tty_outleft l 0
    { l with
      tty_cum := int16 (l.tty_cum + bytes)
      tty_phys := l.tty_phys + bytes }.startUp

/-- Start output on a line. -/
def RsLine.startRs232 (memory : ℕ → UInt8) (l : RsLine) : RsLine :=
  let old_state := l.level
  let l := { l with level := LOCKED }.serialOut memory
  { l with level := old_state }

/-- An output ready interrupt has occurred. -/
def RsLine.rsWriteInt (memory : ℕ → UInt8) (l : RsLine) : RsLine :=
  if l.rs_left > 0 then l.rsFeed
  else
    let l := { l with
      rs_busy := false
      rs_next := 0 }
    if l.tty_outleft > 0 then l.serialOut memory
    else if l.tty_waiting = .WAITING then
      { l with
        tty_waiting := .COMPLETED
        output_done := l.output_done + 1 }
    else l

/-- The transmit buffer of the line is empty. -/
def RsLine.siaint (memory : ℕ → UInt8) (l : RsLine) : RsLine :=
  let s := l.level
  let l := { l with level := LOCKED }.rsWriteInt memory
  { l with level := s }

/-- Send a message to the task if there is something that it does not know of. -/
def RsLine.rsFlush (l : RsLine) : RsLine :=
  let s := l.level
  let l := { l with level := LOCKED }
  if l.tty_buf_count = 0 ∧ l.output_done = 0 then l
  else { l with level := s }

/-- Output a character on a line. -/
def RsLine.rsOutChar (l : RsLine) (c : UInt8) : RsLine :=
  let old_state := l.level
  let l := { l with level := LOCKED }
  if l.deposit = RS_BUF_SIZE then l
  else { (l.rsExpand c).startUp with level := old_state }

/-- A process wants to write on a line, from an address that is one of the process or not. -/
def RsLine.doWrite (memory : ℕ → UInt8) (l : RsLine) (count : ℕ) (phys : Option ℕ) : RsLine :=
  if l.tty_outleft > 0 then l
  else
    let l := { l with
      tty_outleft := count
      tty_waiting := .WAITING
      tty_cum := 0 }
    match phys with
    | some phys => { l with tty_phys := phys }.startRs232 memory
    | none =>
      { l with
        tty_phys := 0
        tty_cum := E_BAD_ADDR
        tty_outleft := 0 }.startRs232 memory

/-- A request on a line has completed, which the task tells the file system. -/
def RsLine.ttyODone (l : RsLine) : RsLine :=
  if l.tty_waiting = .COMPLETED then
    { l with
      tty_waiting := .NOT_WAITING
      output_done := l.output_done - 1 }
  else l

/-- A command has been interrupted from the keyboard. The output is reset. -/
def RsLine.sigchar (l : RsLine) : RsLine :=
  { l with
    tty_inhibited := false
    tty_outleft := 0
    tty_waiting := .NOT_WAITING
    rs_left := 0
    rs_busy := false
    rs_next := 0
    queued := []
    start := l.tty_column
    sent := [] }

/-- What happens to a line. Steps that copy bytes are given the memory. -/
inductive RsAct
  | write (memory : ℕ → UInt8) (count : ℕ) (phys : Option ℕ)
  | echo (c : UInt8)
  /-- A character has been transmitted. -/
  | transmitted (memory : ℕ → UInt8)
  /-- The output is stopped. -/
  | stop
  /-- The output is resumed. -/
  | resume (memory : ℕ → UInt8)
  | flush
  /-- Characters are received, or taken by the task. -/
  | received (count : ℕ)
  /-- The task tells that a request has completed. -/
  | done
  /-- A mode is set. -/
  | setp (mode : ℕ)
  /-- A write is cancelled. -/
  | cancel
  | signal

def RsLine.act (l : RsLine) : RsAct → RsLine
  | .write memory count phys => l.doWrite memory count phys
  | .echo c => l.rsOutChar c
  | .transmitted memory => l.siaint memory
  | .stop => { l with tty_inhibited := true }
  | .resume memory => { l with tty_inhibited := false }.startRs232 memory
  | .flush => l.rsFlush
  | .received count => { l with tty_buf_count := count }
  | .done => l.ttyODone
  | .setp mode => { l with tty_mode := mode }
  | .cancel => { l with
      tty_outleft := 0
      tty_waiting := .NOT_WAITING }
  | .signal => l.sigchar

/-! ## What the line should do -/

/-- What a character comes to on a line, and the column behind it. -/
def expansion (mode : ℕ) (column : ℤ) (c : UInt8) : List UInt8 × ℤ :=
  if c = TAB then
    let next := int16 (column + tabCount column)
    (if mode &&& XTABS = XTABS then List.replicate (tabCount column).toNat BLANK else [c], next)
  else if c = LF ∧ mode &&& CRMOD ≠ 0 then ([CR, LF], 0)
  else if c = CR then ([c], 0)
  else if c = BS then ([c], int16 (column - 1))
  else ([c], int16 (column + 1))

/-- What several characters come to. -/
def render : ℤ → List (ℕ × UInt8) → List UInt8 × ℤ
  | column, [] => ([], column)
  | column, (mode, c) :: cs =>
    let (out, column) := expansion mode column c
    let (more, column) := render column cs
    (out ++ more, column)

/-- What waits in the buffer. -/
def RsLine.waiting (l : RsLine) : List UInt8 := (List.range l.rs_left).map (l.rs_buf <| l.rs_next + ·)

/-- The buffer of a line is in order: nothing is or has been stored outside it, and what has been
sent and what waits are what has been queued, with tabs and line feeds expanded. -/
structure RsLine.Fine (l : RsLine) : Prop where
  within : l.rs_next + l.rs_left ≤ RS_BUF_SIZE
  stores : l.overrun = false
  order : l.sent ++ l.waiting = (render l.start l.queued).1

/-- `rs_out_char` and `rs_flush` leave the interrupt level as they found it. -/
def RsLine.Restores (l : RsLine) : RsAct → Prop
  | .echo c => (l.rsOutChar c).level = l.level
  | .flush => l.rsFlush.level = l.level
  | _ => True

/-- A line is fine in all states of a run. -/
def RsLine.Orderly : RsLine → List RsAct → Prop
  | l, [] => l.Fine
  | l, a :: as => l.Fine ∧ l.Restores a ∧ RsLine.Orderly (l.act a) as

/-- An echo finds room for what it comes to, and a flush has something to do. At a level at which
no interrupt comes through, a full buffer and a flush with nothing to do are fine. -/
def RsLine.Careful (l : RsLine) : RsAct → Prop
  | .echo c =>
    if l.deposit = RS_BUF_SIZE then l.level = LOCKED
    else l.deposit + (expansion l.tty_mode l.tty_column c).1.length ≤ RS_BUF_SIZE
  | .flush => l.level = LOCKED ∨ l.tty_buf_count ≠ 0 ∨ l.output_done ≠ 0
  | _ => True

/-- All steps of a run are so. -/
def RsLine.CarefulRun : RsLine → List RsAct → Prop
  | _, [] => True
  | l, a :: as => l.Careful a ∧ RsLine.CarefulRun (l.act a) as

/-- A line at boot. -/
structure RsLine.Init (l : RsLine) : Prop where
  next : l.rs_next = 0
  left : l.rs_left = 0
  column : l.tty_column = l.start
  queued : l.queued = []
  sent : l.sent = []
  overrun : l.overrun = false

end Minix.Kernel
