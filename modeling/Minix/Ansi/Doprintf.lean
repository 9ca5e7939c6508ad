import Mathlib.Logic.Function.Basic
import Minix.Lib.Words

/-!
# Formatted output

`_doprintf` of `lib/other/doprintf.c`, with `_itoa` and `ltoa`. An `int` has 16 bits and a `long`
32. A string ends with its null character; what is behind it cannot be read. The value is what is
put out, or `none` where a write goes outside `buf`, where something is read that is not there, and
where an argument is not of the type that is asked for.
-/

namespace Minix.Printf

open Lib Function

abbrev Byte := BitVec 8

/-- An integer as it is passed. -/
inductive Integer
  | int (n : BitVec 16)
  | long (n : BitVec 32)

/-- An argument. -/
inductive Arg
  | num (n : Integer)
  | str (s : Option (List Byte))

/-- The size of `buf`, but for the sign. -/
def MAXDIG : ℕ := 11

def SPACE : Byte := 32
def PERCENT : Byte := 37
def STAR : Byte := 42
def MINUS : Byte := 45
def FULL_STOP : Byte := 46
def ZERO : Byte := 48
def NINE : Byte := 57
def QUESTION : Byte := 63

/-! ## The buffer -/

/-- What has been written into `buf`. -/
abbrev Buf := ℕ → Option Byte

def Buf.fresh : Buf := fun _ => none

/-- A write into `buf`. -/
def Buf.store (buf : Buf) (i : ℕ) (c : Byte) : Option Buf :=
  if i < MAXDIG + 1 then some (update buf i (some c)) else none

/-- The character for a digit. -/
def digitChar (i : ℕ) : Byte :=
  let i := i + 48
  BitVec.ofNat 8 (if i > 57 then i + 7 else i)

/-- The first loop of `_itoa`, from the last digit to the first. The pointer goes down to `q`. -/
def putDigits (radix : ℕ) : ℕ → Buf → ℕ → Option (Buf × ℕ)
  | 0, _, _ => none
  | q + 1, buf, num => do
    let buf ← buf.store q (digitChar (num % radix))
    if num / radix ≠ 0 then putDigits radix q buf (num / radix) else some (buf, q)

/-- The second loop, which moves `i` characters from `q` to `p`. -/
def moveDigits : ℕ → Buf → ℕ → ℕ → Option (Buf × ℕ)
  | 0, _, _, _ => none
  | i + 1, buf, p, q => do
    let c ← buf q
    let buf ← buf.store p c
    if i ≠ 0 then moveDigits i buf (p + 1) (q + 1) else some (buf, p + 1)

/-- A number in some base is written at `p`. The value is the end. -/
def toAscii (buf : Buf) (p num radix : ℕ) : Option (Buf × ℕ) := do
  let (buf, q) ← putDigits radix (p + MAXDIG) buf num
  moveDigits (p + MAXDIG - q) buf p q

def _itoa (buf : Buf) (p : ℕ) (num : BitVec 16) (radix : ℕ) : Option (Buf × ℕ) :=
  toAscii buf p num.toNat radix

def ltoa (buf : Buf) (p : ℕ) (num : BitVec 32) (radix : ℕ) : Option (Buf × ℕ) :=
  toAscii buf p num.toNat radix

/-- The characters from the beginning of `buf` up to `p`. -/
def Buf.text (buf : Buf) (p : ℕ) : Option (List Byte) := (List.range p).mapM buf

/-! ## The parts of a format -/

def isdigit (c : Byte) : Bool := ZERO ≤ c && c ≤ NINE

/-- A flag, if there is one. -/
def flag (f : Byte) : List Byte → Option (Bool × List Byte)
  | [] => none
  | c :: fmt => if c = f then some (true, fmt) else some (false, c :: fmt)

/-- The loop that reads a width or a precision, which is a `short`, with the character that ends
it. -/
def number : List Byte → List Arg → ℤ → Option (Byte × ℤ × List Byte × List Arg)
  | [], _, _ => none
  | c :: fmt, args, n =>
    if isdigit c then number fmt args (int16 (int16 (n * 10) + (c.toNat - 48)))
    else if c = STAR then
      match args with
      | .num (.int k) :: args => number fmt args (int16 (int16 (n * 10) + k.toInt))
      | _ => none
    else some (c, n, fmt, args)

/-- The precision, if there is one. -/
def precision (c : Byte) (fmt : List Byte) (args : List Arg) :
    Option (Byte × ℤ × List Byte × List Arg) :=
  if c = FULL_STOP then number fmt args 0 else some (c, 0, fmt, args)

/-- The flag for a long argument. -/
def longFlag (c : Byte) (fmt : List Byte) : Option (Bool × Byte × List Byte) :=
  if c = 0x6C ∨ c = 0x4C then
    match fmt with
    | [] => none
    | d :: rest => if d ≠ 0 then some (true, d, rest) else some (true, c, fmt)
  else some (false, c, fmt)

/-! ## Conversions -/

/-- What is put out for an item, as it is between `s` and `p`, and what it is filled up with. -/
structure Item where
  text : List Byte
  zfill : Byte
  args : List Arg

/-- A character is put at the beginning of `buf`, which is the text. -/
def single (c zfill : Byte) (args : List Arg) : Option Item := do
  let buf ← Buf.fresh.store 0 c
  let text ← buf.text 1
  some ⟨text, zfill, args⟩

/-- The text is what has been written into `buf`. -/
def written (r : Option (Buf × ℕ)) (zfill : Byte) (args : List Arg) : Option Item := do
  let (buf, p) ← r
  let text ← buf.text p
  some ⟨text, zfill, args⟩

/-- `o`, `x` and `u`. -/
def oxu (radix : ℕ) (lflag : Bool) (zfill : Byte) : List Arg → Option Item
  | .num (.int n) :: args =>
    if lflag then none else written (_itoa Buf.fresh 0 n radix) zfill args
  | .num (.long n) :: args =>
    if lflag then written (ltoa Buf.fresh 0 n radix) zfill args else none
  | _ => none

/-- `d`. -/
def signed (lflag : Bool) (zfill : Byte) : List Arg → Option Item
  | .num (.int i) :: args =>
    if lflag then none
    else if i.toInt < 0 then do
      let buf ← Buf.fresh.store 0 MINUS
      written (_itoa buf 1 (-i) 10) zfill args
    else written (_itoa Buf.fresh 0 i 10) zfill args
  | .num (.long l) :: args =>
    if lflag then
      if l.toInt < 0 then do
        let buf ← Buf.fresh.store 0 MINUS
        written (ltoa buf 1 (-l) 10) zfill args
      else written (ltoa Buf.fresh 0 l 10) zfill args
    else none
  | _ => none

/-- `for (p = s; *p && --ndigit >= 0; p++);` -/
def upTo : List Byte → ℤ → Option (List Byte)
  | [], _ => none
  | c :: s, ndigit =>
    if c ≠ 0 ∧ int16 (ndigit - 1) ≥ 0 then (upTo s (int16 (ndigit - 1))).map (c :: ·) else some []

/-- `(null)`. -/
def nullText : List Byte := [0x28, 0x6E, 0x75, 0x6C, 0x6C, 0x29, 0]

/-- `s`. -/
def string (ndigit : ℤ) : List Arg → Option Item
  | .str s :: args =>
    (upTo (s.getD nullText) (if ndigit = 0 then 32767 else ndigit)).map (⟨·, SPACE, args⟩)
  | _ => none

/-- `c`. -/
def character : List Arg → Option Item
  | .num (.int n) :: args => single (n.setWidth 8) SPACE args
  | _ => none

/-- The conversions, by their characters. -/
def convert (c : Byte) (lflag : Bool) (zfill : Byte) (ndigit : ℤ) (args : List Arg) : Option Item :=
  if c = 0x58 then oxu 16 true zfill args
  else if c = 0x78 then oxu 16 lflag zfill args
  else if c = 0x55 then oxu 10 true zfill args
  else if c = 0x75 then oxu 10 lflag zfill args
  else if c = 0x4F then oxu 8 true zfill args
  else if c = 0x6F then oxu 8 lflag zfill args
  else if c = 0x44 then signed true zfill args
  else if c = 0x64 then signed lflag zfill args
  else if c = 0x65 ∨ c = 0x66 ∨ c = 0x67 then single QUESTION SPACE args
  else if c = 0x63 then character args
  else if c = 0x73 then string ndigit args
  else single c zfill args

/-! ## Padding -/

/-- The text is put out, with the padding before or behind it. A sign comes before zeros. -/
def pad (ljust : Bool) (zfill : Byte) (width : ℤ) (text : List Byte) : List Byte :=
  let i := int16 text.length
  let width := int16 (width - i)
  let width := if width < 0 then 0 else width
  let width := if ljust then width else int16 (-width)
  if width < 0 then
    if text.head? = some MINUS ∧ zfill = ZERO then
      MINUS :: (List.replicate (-width).toNat zfill ++ text.tail.take (i - 1).toNat)
    else List.replicate (-width).toNat zfill ++ text.take i.toNat
  else text.take i.toNat ++ List.replicate width.toNat zfill

/-- An item of a format, behind its `%`. -/
def item (fmt : List Byte) (args : List Arg) : Option (List Byte × List Byte × List Arg) := do
  let (ljust, fmt) ← flag MINUS fmt
  let (zero, fmt) ← flag ZERO fmt
  let (c, width, fmt, args) ← number fmt args 0
  let (c, ndigit, fmt, args) ← precision c fmt args
  let (lflag, c, fmt) ← longFlag c fmt
  let r ← convert c lflag (if zero then ZERO else SPACE) ndigit args
  some (pad ljust r.zfill width r.text, fmt, r.args)

/-- The loop over a format, which has at most so many turns. -/
def format : ℕ → List Byte → List Arg → Option (List Byte)
  | 0, _, _ => none
  | _, [], _ => none
  | n + 1, c :: fmt, args =>
    if c = 0 then some []
    else if c ≠ PERCENT then (format n fmt args).map (c :: ·)
    else do
      let (out, fmt, args) ← item fmt args
      (format n fmt args).map (out ++ ·)

/-- Each turn takes a character at least. -/
def _doprintf (fmt : List Byte) (args : List Arg) : Option (List Byte) :=
  format fmt.length fmt args

end Minix.Printf
