import Mathlib.Logic.Function.Basic
import Minix.Kernel.Ipc

/-!
# The input of a terminal

`in_char`, `chuck`, `rd_chars` and what else changes the input queue of a line in `kernel/tty.c`, on
the M68000. A character is what the keyboard or the RS232 line gives, after the function keys. What
is echoed or put out is left out, with the replies; whether the address of a reader is one of the
process is told by who reads.

`log` is the one field that the terminal does not have: it records what is put into the input queue
and taken out of it.
-/

namespace Minix.Kernel

/-- Size of the input queue. -/
def TTY_IN_BYTES : ℕ := 1000

/-- Unit for copying from the queue. -/
def TTY_BUF_SIZE : ℕ := 256

def RAW : ℕ := 0o40
def CRMOD : ℕ := 0o20
def CBREAK : ℕ := 0o2
def COOKED : ℕ := 0

def MARKER : UInt8 := 0o200
def BACKSLASH : UInt8 := 92
def LF : UInt8 := 10
def CR : UInt8 := 13

def SUSPEND : ℤ := -998
def EIO : ℤ := -5

/-- The bits of the mode of a cancel. -/
def R_BIT : ℕ := 4
def W_BIT : ℕ := 2

/-- What happens to the input queue. -/
inductive TtyEvent
  /-- A character is put into it. -/
  | accept (ch : UInt8)
  /-- The last character is erased. -/
  | erase (ch : UInt8)
  /-- Characters are taken out, of which the reader gets some. -/
  | read (taken given : List UInt8)
  /-- All is discarded. -/
  | discard

/-- The part of `tty_struct` that the input is about. -/
structure Tty where
  tty_inqueue : ℕ → UInt8
  tty_inhead : ℕ
  tty_intail : ℕ
  tty_incount : ℤ
  tty_lfct : ℤ
  tty_mode : ℕ
  tty_escaped : Bool
  tty_inhibited : Bool
  tty_erase : UInt8
  tty_kill : UInt8
  tty_intr : UInt8
  tty_quit : UInt8
  tty_xoff : UInt8
  tty_eof : UInt8
  tty_inleft : ℕ
  tty_outleft : ℕ
  log : List TtyEvent

/-- The next place in the queue. -/
def nextPlace (p : ℕ) : ℕ := if p + 1 = TTY_IN_BYTES then 0 else p + 1

/-- The place in front of a place. -/
def prevPlace (p : ℕ) : ℕ := if p ≠ 0 then p - 1 else TTY_IN_BYTES - 1

/-- Save a character in the input queue. -/
def Tty.save (t : Tty) (ch : UInt8) : Tty :=
  { t with
    tty_inqueue := Function.update t.tty_inqueue t.tty_inhead ch
    tty_inhead := nextPlace t.tty_inhead
    tty_incount := t.tty_incount + 1
    log := t.log ++ [.accept ch] }

/-- Discard the input. -/
def Tty.discard (t : Tty) : Tty :=
  { t with
    tty_inhead := 0
    tty_intail := 0
    tty_incount := 0
    tty_lfct := 0
    log := t.log ++ [.discard] }

/-- Delete one character from the input queue, unless it ends a line. -/
def chuck (t : Tty) : Option Tty :=
  if t.tty_incount = 0 then none
  else
    let prev := prevPlace t.tty_inhead
    let ch := t.tty_inqueue prev
    if ch = LF ∨ ch = CR then none
    else some { t with
      tty_inhead := prev
      tty_incount := t.tty_incount - 1
      log := t.log ++ [.erase ch] }

/-- Delete characters as long as there are some to be deleted. -/
def chuckAll : ℕ → Tty → Tty
  | 0, t => t
  | n + 1, t =>
    match chuck t with
    | none => t
    | some t => chuckAll n t

/-- A signal from the keyboard. `finish` ends the output. -/
def sigchar (t : Tty) : Tty :=
  { t with
    tty_inhibited := false
    tty_outleft := 0 }.discard

/-! ## A character has been typed -/

/-- Erase, kill and escape processing, without a character if it has been processed. -/
def Tty.cook (t : Tty) (ch : UInt8) : Tty × Option UInt8 :=
  if ch = t.tty_erase ∧ t.tty_escaped = false then ((chuck t).getD t, none)
  else if ch = t.tty_kill ∧ t.tty_escaped = false then (chuckAll t.tty_incount.toNat t, none)
  else if t.tty_escaped = false then
    if ch = BACKSLASH then ({ t with tty_escaped := true }, none)
    else if ch = t.tty_eof then ({ t with tty_lfct := t.tty_lfct + 1 }, some MARKER)
    else (t, some ch)
  else
    let t := { t with tty_escaped := false }
    if ch ≠ t.tty_erase ∧ ch ≠ t.tty_kill ∧ ch ≠ t.tty_eof then (t.save BACKSLASH, some ch)
    else (t, some ch)

/-- Carriage return is mapped to line feed. -/
def Tty.mapCr (t : Tty) (ch : UInt8) : UInt8 :=
  if ch = CR ∧ t.tty_mode &&& CRMOD ≠ 0 then LF else ch

/-- The characters that interrupt, and those that stop and start the output. -/
def Tty.control (t : Tty) (ch : UInt8) : Tty × Option UInt8 :=
  if ch = t.tty_intr ∨ ch = t.tty_quit then (sigchar t, none)
  else if ch = t.tty_xoff then ({ t with tty_inhibited := true }, none)
  else if t.tty_inhibited then ({ t with tty_inhibited := false }, none)
  else (t, some ch)

/-- What all modes come to. -/
def Tty.enter (t : Tty) (ch : UInt8) : Tty :=
  (if ch = LF then { t with tty_lfct := t.tty_lfct + 1 } else t).save ch

/-- The bits of the mode that tell raw, cbreak and cooked mode. -/
def Tty.inputMode (t : Tty) : ℕ := t.tty_mode &&& (RAW ||| CBREAK)

/-- The checks of cooked and cbreak mode. -/
def Tty.checked (t : Tty) (ch : UInt8) : Tty :=
  let (t', ch) := if t.inputMode = COOKED then t.cook ch else (t, some ch)
  match ch with
  | none => t'
  | some ch =>
    let ch := t'.mapCr ch
    match t'.control ch with
    | (t'', none) => t''
    | (t'', some ch) => t''.enter ch

/-- A character has just been typed in. Process and save it. -/
def inChar (t : Tty) (ch : UInt8) : Tty :=
  if t.tty_incount ≥ TTY_IN_BYTES then t
  else
    let ch := if t.inputMode ≠ RAW then ch &&& 0o177 else ch
    if t.inputMode = COOKED ∨ t.inputMode = CBREAK then t.checked ch else t.enter ch

/-! ## Reading -/

/-- A buffer that is filled from the input queue. -/
structure Filling where
  tty : Tty
  got : List UInt8
  eot_seen : Bool
  enough : Bool

/-- The inner loop, which fills one buffer. In cooked mode it provides one line only. -/
def fill (cooked : Bool) : ℕ → Filling → Filling
  | 0, f => f
  | n + 1, f =>
    let ch := f.tty.tty_inqueue f.tty.tty_intail
    let t := { f.tty with tty_intail := nextPlace f.tty.tty_intail }
    let got := f.got ++ [ch]
    if ch = LF ∨ (ch = MARKER ∧ cooked) then
      let f := ⟨{ t with tty_lfct := t.tty_lfct - 1 }, got, f.eot_seen || ch = MARKER, true⟩
      if cooked then f else fill cooked n f
    else fill cooked n { f with tty := t, got := got }

/-- One buffer goes to the reader. An end of file is not transmitted. -/
def copyBuffer (f : Filling) : Tty × List UInt8 :=
  let ct := f.got.length
  let user_ct := if f.eot_seen then ct - 1 else ct
  let given := f.got.take user_ct
  ({ f.tty with
    tty_inleft := f.tty.tty_inleft - ct
    tty_incount := f.tty.tty_incount - ct
    log := f.tty.log ++ [.read f.got given] }, given)

/-- The outer loop, one buffer load per iteration, with what the reader has got. -/
def rdLoop (cooked : Bool) : ℕ → Tty → List UInt8 → Tty × List UInt8
  | 0, t, given => (t, given)
  | n + 1, t, given =>
    if t.tty_inleft > 0 then
      let buf_ct := min (min t.tty_inleft t.tty_incount.toNat) TTY_BUF_SIZE
      let f := fill cooked buf_ct ⟨t, [], false, false⟩
      let (t, g) := copyBuffer f
      if t.tty_incount = 0 ∨ f.enough then (t, given ++ g) else rdLoop cooked n t (given ++ g)
    else (t, given)

/-- Read characters, if enough are available. The result is a code, and what the reader has got. -/
def rdChars (t : Tty) (mapped : Bool) : ℤ × List UInt8 × Tty :=
  let cooked : Bool := t.inputMode = 0
  if t.tty_incount = 0 ∨ (cooked ∧ t.tty_lfct = 0) then (SUSPEND, [], t)
  else if mapped = false then (E_BAD_ADDR, [], t)
  else
    let (t, given) := rdLoop cooked t.tty_inleft t []
    (given.length, given, { t with tty_inleft := 0 })

/-- A process wants to read from a terminal. -/
def doRead (t : Tty) (count : ℕ) (mapped : Bool) : ℤ × List UInt8 × Tty :=
  if t.tty_inleft > 0 then ( EIO, [], t) else rdChars { t with tty_inleft := count } mapped

/-- One character of those that have been accumulated, and a reader that can be satisfied by it. -/
def charint (t : Tty) (ch : UInt8) (mapped : Bool) : List UInt8 × Tty :=
  let t := inChar t ch
  if t.tty_inleft > 0 ∧ (t.tty_lfct > 0 ∨ (t.inputMode ≠ 0 ∧ t.tty_incount > 0)) then
    (rdChars t mapped).2
  else ([], t)

/-- A signal has been sent to a process that is hanging trying to read or write. -/
def doCancel (t : Tty) (mode : ℕ) : Tty :=
  if t.tty_inleft = 0 ∧ t.tty_outleft = 0 then t
  else
    let t := if mode &&& R_BIT ≠ 0 then
        { t.discard with
          tty_inleft := 0
          tty_inhibited := false }
      else t
    if mode &&& W_BIT ≠ 0 then { t with tty_outleft := 0 } else t

/-! ## What happens to a terminal -/

inductive TtyAct
  /-- A character arrives. -/
  | char (ch : UInt8) (mapped : Bool)
  | read (count : ℕ) (mapped : Bool)
  | cancel (mode : ℕ)
  /-- `TIOCSETP` -/
  | setp (erase kill : UInt8) (mode : ℕ)
  /-- `TIOCSETC` -/
  | setc (intr quit xoff eof : UInt8)
  /-- `SIGKILL` from the keyboard. -/
  | signal
  /-- Output that is asked for or done. -/
  | output (outleft : ℕ)

/-- What a terminal does, with the characters that a reader gets. -/
def Tty.act (t : Tty) : TtyAct → List UInt8 × Tty
  | .char ch mapped => charint t ch mapped
  | .read count mapped => (doRead t count mapped).2
  | .cancel mode => ([], doCancel t mode)
  | .setp erase kill mode => ([], { t with
      tty_erase := erase
      tty_kill := kill
      tty_mode := mode })
  | .setc intr quit xoff eof => ([], { t with
      tty_intr := intr
      tty_quit := quit
      tty_xoff := xoff
      tty_eof := eof })
  | .signal => ([], sigchar t)
  | .output outleft => ([], { t with tty_outleft := outleft })

end Minix.Kernel
