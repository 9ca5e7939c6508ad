import Minix.Lib.Words

/-!
# The video display

The driver of the ST's screen, `kernel/stvdu.c`. It takes characters and collects escape sequences,
and it writes the video RAM, at offsets from its base. An int has 16 bits.
-/

namespace Minix.Kernel

open Lib

def NCOL : ℤ := 80
def M_LIN_SCR : ℤ := 400
def C_LIN_SCR : ℤ := 200
def M_BYT_LIN : ℤ := 80
def C_BYT_LIN : ℤ := 160
def FONTC : ℤ := 8
def FONTM : ℤ := 16
def VIDEORAM : ℤ := 32000
def TAB_MASK : ℤ := 7

/-- The number of characters that `vbuf` holds. -/
def VBUF_SIZE : ℕ := 20

def RGB_BLACK : ℕ := 0x0000
def RGB_WHITE : ℕ := 0x0777

/-- The colors that can be selected. -/
def colors : List ℕ :=
  [RGB_BLACK, 0x0700, 0x0070, 0x0770, 0x0007, 0x0707, 0x0077, RGB_WHITE, 0x0555, 0x0222]

/-- The fonts, by a pointer into them. -/
structure Fonts where
  font8 : ℤ → UInt8
  font16 : ℤ → UInt8

/-- The display. `next` is what has been collected of an escape sequence, `res_high` is what the
monitor is, and `mem` is memory from the base of the video RAM on. -/
structure Vdu where
  curs : ℤ
  linc : ℤ
  nrow : ℤ
  bytr : ℤ
  mono : Bool
  attr : ℕ
  ccol : ℤ
  crow : ℤ
  savattr : ℕ
  savccol : ℤ
  savcrow : ℤ
  next : Option (List ℕ)
  res_high : Bool
  vd_rgb : ℕ → ℕ
  keypad : Bool
  app_mode : Bool
  /-- `XTABS` and `CRMOD` in `tty_mode`. -/
  xtabs : Bool
  crmod : Bool
  mem : ℤ → UInt8

/-! ## The video RAM -/

/-- The byte of a character in its line. The planes of a color screen are interleaved by words. -/
def Vdu.colByte (v : Vdu) (c : ℤ) : ℤ :=
  if v.mono then c else if c % 2 = 1 then 2 * c - 1 else 2 * c

/-- The offset of a character. -/
def Vdu.charAt (v : Vdu) (r c : ℤ) : ℤ := int16 (int16 (r * v.bytr) + v.colByte c)

/-- The bytes in a video line. -/
def Vdu.byteLine (v : Vdu) : ℤ := if v.mono then M_BYT_LIN else C_BYT_LIN

/-- One byte is written. -/
def Vdu.poke (v : Vdu) (a : ℤ) (b : UInt8) : Vdu := { v with mem := Function.update v.mem a b }

/-- The scan lines of a character from `start` on, each changed by `f`. -/
def Vdu.scan (v : Vdu) (start : ℤ) (f : ℕ → Vdu → UInt8) : Vdu :=
  (List.range v.linc.toNat).foldl (fun v (k : ℕ) => v.poke (start + k * v.byteLine) (f k v)) v

/-- Copy line `r1` to `r2`. -/
def cpyline (r1 r2 : ℤ) (v : Vdu) : Vdu :=
  (List.range (16 * (v.bytr / 16)).toNat).foldl
    (fun v (k : ℕ) => v.poke (int16 (r2 * v.bytr) + k) (v.mem (int16 (r1 * v.bytr) + k))) v

/-- Clear line `r`. -/
def clrline (r : ℤ) (v : Vdu) : Vdu :=
  (List.range (16 * (v.bytr / 16)).toNat).foldl
    (fun v (k : ℕ) => v.poke (int16 (r * v.bytr) + k) 0) v

/-- Copy char `(r1, c1)` to `(r2, c2)`. -/
def cpychar (r1 c1 r2 c2 : ℤ) (v : Vdu) : Vdu :=
  let src := v.charAt r1 c1
  let dst := v.charAt r2 c2
  let v := v.scan dst fun k v => v.mem (src + k * v.byteLine)
  if v.mono then v else v.scan (dst + 2) fun k v => v.mem (src + 2 + k * v.byteLine)

/-- Clear char `(r, c)`. -/
def clrchar (r c : ℤ) (v : Vdu) : Vdu :=
  let p := v.charAt r c
  let v := v.scan p fun _ _ => 0
  if v.mono then v else v.scan (p + 2) fun _ _ => 0

/-- `f` for the numbers from `i` on, `n` of them, upwards. -/
def forUp (i n : ℤ) (f : ℤ → Vdu → Vdu) (v : Vdu) : Vdu :=
  (List.range n.toNat).foldl (fun v (k : ℕ) => f (i + k) v) v

/-- `f` for the numbers from `i` on, `n` of them, downwards. -/
def forDown (i n : ℤ) (f : ℤ → Vdu → Vdu) (v : Vdu) : Vdu :=
  (List.range n.toNat).foldl (fun v (k : ℕ) => f (i - k) v) v

/-- Clear part of screen between two points inclusive. -/
def clrarea (r1 c1 r2 c2 : ℤ) (v : Vdu) : Vdu :=
  let wraps := c2 + 1 = NCOL
  let c2 := if wraps then 0 else c2 + 1
  let r2 := if wraps then r2 + 1 else r2
  let rest := c1 > 0 ∧ r1 < r2
  -- The first character of the rest of a line is cleared even behind the last column.
  let v := if rest then forUp c1 (max 1 (NCOL - c1)) (clrchar r1) v else v
  let c1 := if rest then 0 else c1
  let r1 := if rest then r1 + 1 else r1
  let v := forUp r1 (r2 - r1) clrline v
  forUp c1 (c2 - c1) (clrchar (max r1 r2)) v

/-- Move the cursor, if the place is there. -/
def moveto (r c : ℤ) (v : Vdu) : Vdu :=
  if r < 0 ∨ r ≥ v.nrow ∨ c < 0 ∨ c > NCOL then v
  else
    -- Show cursor in last column.
    { v with
      crow := r
      ccol := c
      curs := v.charAt r (if c = NCOL then c - 1 else c) }

/-- Copy from font memory into video memory. -/
def paint (fonts : Fonts) (c : ℕ) (v : Vdu) : Vdu :=
  let c := c &&& 0x7F
  let font := if v.linc = 16 then fonts.font16 else fonts.font8
  let fp : ℤ := if v.linc = 16 then c <<< 4 else c <<< 3
  let glyph := fun (fp : ℤ) (bit : ℕ) (k : ℕ) (v : Vdu) =>
    if v.attr &&& bit = 0 then font (fp + k) else ~~~font (fp + k)
  let plane0 := v.attr &&& 4 = 0
  let v := if plane0 then v.scan v.curs (glyph fp 1) else v
  -- The font pointer is set back even if the first plane is inhibited.
  let fp := if plane0 then fp else fp - v.linc
  if v.mono = false ∧ v.attr &&& 8 = 0 then v.scan (v.curs + 2) (glyph fp 2) else v

/-- (Un-)display the cursor. -/
def vducursor (v : Vdu) : Vdu :=
  let v := if v.attr &&& 4 = 0 then
    v.scan v.curs fun k v => ~~~v.mem (v.curs + k * v.byteLine) else v
  if v.mono = false ∧ v.attr &&& 8 = 0 then
    v.scan (v.curs + 2) fun k v => ~~~v.mem (v.curs + 2 + k * v.byteLine) else v

/-- A palette register is set. -/
def Vdu.setRgb (v : Vdu) (i rgb : ℕ) : Vdu := { v with vd_rgb := Function.update v.vd_rgb i rgb }

/-- Lines of `linc` video lines, `nrow` of them. -/
def Vdu.lines (v : Vdu) (linc nrow byt : ℤ) : Vdu :=
  { v with
    linc := linc
    nrow := nrow
    bytr := byt * linc }

def vduinit (v : Vdu) : Vdu :=
  let v :=
    if v.res_high then { v.lines FONTM (M_LIN_SCR / FONTM) M_BYT_LIN with mono := true }
    else { v.lines FONTC (C_LIN_SCR / FONTC) C_BYT_LIN with attr := 8 }.setRgb 1 RGB_WHITE
  let v := moveto 0 0 (v.setRgb 0 RGB_BLACK)
  vducursor (clrarea 0 0 (v.nrow - 1) (NCOL - 1) v)

/-! ## Escape sequences -/

/-- Compute next parameter out of ANSI sequence. -/
def vduparam (l : List ℕ) : ℤ × List ℕ :=
  let isDigit := fun c => decide (48 ≤ c ∧ c ≤ 57)
  let digits := l.takeWhile isDigit
  let rest := l.dropWhile isDigit
  let i := if digits = [] then -1
    else digits.foldl (fun i (c : ℕ) => int16 (i * 10 + ((c : ℤ) - 48))) 0
  (i, if rest.head? = some 59 then rest.tail else rest)

/-- One parameter of `m`. -/
def rendition (j : ℤ) (v : Vdu) : Vdu :=
  if j ≤ 0 then { v with attr := v.attr / 4 * 4 }
  else if j = 4 ∨ j = 7 then { v with attr := v.attr ||| 3 }
  else if j ≥ 30 ∧ j ≤ 39 then v.setRgb 1 (colors.getD (j - 30).toNat 0)
  else if j ≥ 40 ∧ j ≤ 49 then v.setRgb 0 (colors.getD (j - 40).toNat 0)
  else v

/-- Set graphic rendition. A parameter takes a character at least, so that the length of the sequence
is fuel enough. -/
def renditions : ℕ → ℤ → List ℕ → Vdu → Vdu
  | 0, j, _, v => rendition j v
  | fuel + 1, j, l, v =>
    let v := rendition j v
    let (j, l) := vduparam l
    if j ≥ 0 then renditions fuel j l v else v

/-- A color in `w` is set, if it is given. -/
def setColor (j : ℤ) (shift w : ℕ) : ℕ :=
  if j ≥ 0 then w - w / 2 ^ shift % 8 * 2 ^ shift + (j % 8).toNat * 2 ^ shift else w

/-- The escape sequence that is specific to Minix-ST. -/
def minixSt (j : ℤ) (l : List ℕ) (v : Vdu) : Vdu :=
  let v := if j = 0 ∧ v.mono then
    let v := v.lines 16 (M_LIN_SCR / 16) M_BYT_LIN
    moveto (v.nrow - 1) 0 v else v
  let v := if j = 1 ∧ v.mono then
    let v := v.lines 8 (M_LIN_SCR / 8) M_BYT_LIN
    moveto (v.nrow - 1) 0 v else v
  let (j, l) := vduparam l
  let v := if j ≥ 0 then { v with attr := (j % 16).toNat } else v
  let (m, l) := vduparam l
  let (r, l) := vduparam l
  let (g, l) := vduparam l
  let (b, _) := vduparam l
  if m ≥ 0 then
    let w := (m % 16).toNat
    v.setRgb w (setColor b 0 (setColor g 4 (setColor r 8 (v.vd_rgb w))))
  else v

/-- Modes are set or reset. -/
def setMode (c : ℕ) (l : List ℕ) (v : Vdu) : Vdu :=
  if l[0]? = some 63 then
    if l[1]? = some 53 ∧ v.mono then v.setRgb 0 (if c = 108 then RGB_BLACK else RGB_WHITE)
    else if l[1]? = some 49 then { v with app_mode := c = 108 }
    else v
  else v

/-- Insert `i` lines. -/
def insertLines (i : ℤ) (v : Vdu) : Vdu :=
  let i := if i > v.nrow - v.crow then v.nrow - v.crow else i
  let copied := forDown (v.nrow - 1) (v.nrow - (v.crow + i)) (fun j => cpyline (j - i) j) v
  forDown (v.crow + i - 1) i clrline copied

/-- Delete `i` lines. -/
def deleteLines (i : ℤ) (v : Vdu) : Vdu :=
  let i := if i > v.nrow - v.crow then v.nrow - v.crow else i
  let copied := forUp v.crow (v.nrow - i - v.crow) (fun j => cpyline (j + i) j) v
  forUp (v.nrow - i) i clrline copied

/-- Insert `i` chars. -/
def insertChars (i : ℤ) (v : Vdu) : Vdu :=
  let i := if i > NCOL - v.ccol then NCOL - v.ccol else i
  let n := NCOL - v.ccol - i
  let copied := forDown (n - 1) n (fun j => cpychar v.crow (v.ccol + j) v.crow (v.ccol + j + i)) v
  clrarea v.crow v.ccol v.crow (v.ccol + i - 1) copied

/-- Delete `i` chars. -/
def deleteChars (i : ℤ) (v : Vdu) : Vdu :=
  let i := if i > NCOL - v.ccol then NCOL - v.ccol else i
  let n := NCOL - v.ccol - i
  let copied := forDown (n - 1) n
    (fun j => cpychar v.crow (NCOL - 1 - j) v.crow (NCOL - 1 - j - i)) v
  clrarea v.crow (NCOL - i) v.crow (NCOL - 1) copied

/-- Execute ANSI escape sequence: `buf` is what follows `[`. -/
def vduansi (c : ℕ) (buf : List ℕ) (v : Vdu) : Vdu :=
  let (j, l) := vduparam buf
  let i := if j ≤ 0 then 1 else j
  match Char.ofNat c with
  | 'A' => moveto (if v.crow - i < 0 then 0 else v.crow - i) v.ccol v
  | 'B' => moveto (if int16 (i + v.crow) ≥ v.nrow then v.nrow - 1 else int16 (i + v.crow)) v.ccol v
  | 'C' => moveto v.crow (if int16 (i + v.ccol) ≥ NCOL then NCOL - 1 else int16 (i + v.ccol)) v
  | 'D' => moveto v.crow (if v.ccol - i < 0 then 0 else v.ccol - i) v
  | 'H' | 'f' =>
    let (j, _) := vduparam l
    let j := if j ≤ 0 then 1 else j
    let i := if i > v.nrow then v.nrow else i
    moveto (i - 1) ((if j > NCOL then NCOL else j) - 1) v
  | 'J' =>
    if j ≤ 0 then clrarea v.crow v.ccol (v.nrow - 1) (NCOL - 1) v
    else if j = 1 then clrarea 0 0 v.crow v.ccol v
    else if j = 2 then clrarea 0 0 (v.nrow - 1) (NCOL - 1) v
    else v
  | 'K' =>
    if j ≤ 0 then clrarea v.crow v.ccol v.crow (NCOL - 1) v
    else if j = 1 then clrarea v.crow 0 v.crow v.ccol v
    else if j = 2 then clrarea v.crow 0 v.crow (NCOL - 1) v
    else v
  | 'm' => renditions l.length j l v
  | 'L' => insertLines i v
  | 'M' => deleteLines i v
  | '@' => insertChars i v
  | 'P' => deleteChars i v
  | 'l' | 'h' => setMode c l v
  | '~' => minixSt j l v
  | _ => v

/-! ## Characters -/

/-- Line feed. -/
def lineFeed (v : Vdu) : Vdu :=
  if v.crow = v.nrow - 1 then
    clrline (v.nrow - 1) (forUp 0 (v.nrow - 1) (fun i => cpyline (i + 1) i) v)
  else moveto (v.crow + 1) v.ccol v

/-- Line feed, after a carriage return if this is the mode of the terminal. -/
def newLine (v : Vdu) : Vdu := lineFeed (if v.crmod then moveto v.crow 0 v else v)

/-- Execute non-ANSI escape sequence: `c₀` is its first character. -/
def vduesc (c₀ : ℕ) (v : Vdu) : Vdu :=
  match Char.ofNat c₀ with
  | '8' =>
    let v := { v with
      ccol := v.savccol
      crow := v.savcrow
      attr := v.savattr }
    moveto v.crow v.ccol v
  | '7' => { v with
      savccol := v.ccol
      savcrow := v.crow
      savattr := v.attr }
  | '=' => { v with keypad := true }
  | '>' => { v with keypad := false }
  | 'E' => newLine (moveto v.crow 0 v)
  | 'D' => newLine v
  | 'M' =>
    if v.crow = 0 then clrline 0 (forDown (v.nrow - 1) (v.nrow - 1) (fun i => cpyline (i - 1) i) v)
    else moveto (v.crow - 1) v.ccol v
  | 'c' => { vducursor (vduinit v) with
      keypad := false
      app_mode := false }
  | _ => v

/-- A character that is not a control character. A sequence for which there is no room is not
executed. -/
def outGraphic (fonts : Fonts) (c : ℕ) (v : Vdu) : Vdu :=
  let c := if c &&& 0x80 ≠ 0 then c &&& 0x1F else c
  match v.next with
  | none =>
    let v := paint fonts c v
    moveto v.crow (v.ccol + 1) v
  | some seq =>
    if seq = [] ∧ c = 91 then { v with next := some [c] }
    else if c ≥ 0o60 ∧ (seq = [] ∨ seq.head? ≠ some 91) then
      let v := if seq.length ≥ VBUF_SIZE - 1 then v else vduesc ((seq ++ [c]).headD 0) v
      { v with next := none }
    else if c ≥ 0o100 then
      let v := if seq.length ≥ VBUF_SIZE then v else vduansi c seq.tail v
      { v with next := none }
    -- The character behind a buffer that is full is lost.
    else { v with next := some (if seq.length < VBUF_SIZE then seq ++ [c] else seq) }

/-- Horizontal tab. The spaces that it may be expanded to are characters like any others. -/
def tab (fonts : Fonts) : ℕ → Vdu → Option Vdu
  | 0, _ => none
  | fuel + 1, v =>
    let v := if v.xtabs then outGraphic fonts 0o40 v else moveto v.crow (v.ccol + 1) v
    if v.ccol % (TAB_MASK + 1) ≠ 0 then tab fonts fuel v else some v

/-- Control character. -/
def vductrl (fonts : Fonts) (fuel c : ℕ) (v : Vdu) : Option Vdu :=
  if c = 0o10 then some (moveto v.crow (v.ccol - 1) v)
  else if c = 0o11 then tab fonts fuel v
  else if c = 0o12 then some (newLine v)
  else if c = 0o13 ∨ c = 0o14 then some (lineFeed v)
  else if c = 0o15 then some (moveto v.crow 0 v)
  else if c = 0o30 ∨ c = 0o32 then some { v with next := none }
  else if c = 0o33 then some { v with next := some [] }
  else some v

/-- Send character to VDU, collecting escape sequences. It may not return. -/
def outChar (fonts : Fonts) (fuel c : ℕ) (v : Vdu) : Option Vdu :=
  if c = 0x7F then some v
  else if c &&& 0o140 = 0 then vductrl fonts fuel c v
  else some (outGraphic fonts c v)

end Minix.Kernel
