import Minix.Ansi.Numerals

/-!
# Formatted input

`_doscanf` of `lib/ansi/scanf.c` on a string, with `rnc` and `ugc`. Strings are without their null
characters; nothing behind one may be read. An `int` has 16 bits and a `long` 32. What is stored
into the arguments is a list, as each argument is stored into once, in order. `made` is not a
variable of the program; it lists the conversions of integers with what they are given and what they
leave.
-/

namespace Minix.Scanf

open Ansi (Ascii isspace isdigit isupper PLUS MINUS ZERO LOWER_X)

def PERCENT : Ascii := 37
def STAR : Ascii := 42
def LOWER_L : Ascii := 108

/-- The greatest unsigned integer. -/
def UINT_MAX : ℕ := 65535

def EOF : ℤ := -1

def tolower (c : Ascii) : Ascii := if isupper c then c + 32 else c

/-- What is stored into an argument. -/
inductive Cell
  | uint (n : BitVec 16)
  | ulong (n : BitVec 32)
  | chars (s : List Ascii)
deriving DecidableEq

/-- A conversion of an integer: what the format says, the input from the current character on,
whether data have been seen, what is stored, and the input that is left. -/
structure Made where
  base : ℕ
  field : List Ascii
  do_assign : Bool
  longflag : Bool
  input : List Ascii
  done_some : Bool
  stored : Option Cell
  rest : List Ascii

/-- The current character, where the next one is, and what has been done. -/
structure Scan where
  ic : Option Ascii
  rnc_arg : ℕ
  stored : List Cell
  done : ℤ
  made : List Made

variable (string : List Ascii)

/-- Get the next character. -/
def rnc (s : Scan) : Option Scan :=
  if s.rnc_arg ≤ string.length then
    some { s with ic := string[s.rnc_arg]?, rnc_arg := s.rnc_arg + 1 }
  else none

/-- Unget the current character. -/
def ugc (s : Scan) : Scan := { s with rnc_arg := s.rnc_arg - 1 }

/-- `while (isspace(ic)) rnc();`, which has so many turns at most. -/
def skipBlanks : ℕ → Scan → Option Scan
  | 0, _ => none
  | n + 1, s => if s.ic.any isspace then (rnc string s).bind (skipBlanks n) else some s

/-! ## Integers -/

/-- What a digit stands for. -/
def digitIn (base : ℕ) (c : Ascii) : Option ℕ :=
  if isdigit c ∧ c.val - 48 < base then some (c.val - 48)
  else if base = 16 ∧ 97 ≤ (tolower c).val ∧ (tolower c).val ≤ 102 then
    some (10 + (tolower c).val - 97)
  else none

/-- The loop over the digits, as many as the width. -/
def digitLoop (base : ℕ) : ℕ → BitVec 32 → Bool → Scan → Option (BitVec 32 × Bool × Scan)
  | 0, val, done_some, s => some (val, done_some, s)
  | width + 1, val, done_some, s =>
    match s.ic.bind (digitIn base) with
    | none => some (val, done_some, s)
    | some d => (rnc string s).bind
        (digitLoop base width (val * BitVec.ofNat 32 base + BitVec.ofNat 32 d) true)

/-- The mark of hexadecimal, for `x`. -/
def hexMark (base width : ℕ) (s : Scan) : Option (ℕ × Bool × Scan) :=
  if base = 16 ∧ 2 ≤ width ∧ s.ic = some ZERO then do
    let t ← rnc string s
    if t.ic.map tolower = some LOWER_X then do
      let t ← rnc string t
      some (width - 2, true, t)
    else some (width, false, { ugc t with ic := some ZERO })
  else some (width, false, s)

/-- The sign. -/
def signMark (width : ℕ) (s : Scan) : Option (Bool × Scan) :=
  if width ≠ 0 ∧ s.ic = some PLUS then (rnc string s).map (false, ·)
  else if width ≠ 0 ∧ s.ic = some MINUS then (rnc string s).map (true, ·)
  else some (false, s)

/-- The input from the current character on. -/
def Scan.input (s : Scan) : List Ascii := string.drop (s.rnc_arg - 1)

/-- What is stored. -/
def cellOf (longflag : Bool) (val : BitVec 32) : Cell :=
  if longflag then .ulong val else .uint (val.setWidth 16)

/-- A conversion that has been made is counted if it stores and has seen data. -/
def Scan.record (s : Scan) (m : Made) : Scan :=
  { s with
    stored := s.stored ++ m.stored.toList
    done := if m.done_some && m.do_assign then s.done + 1 else s.done
    made := s.made ++ [m] }

/-- The conversions `o`, `u`, `d` and `x`. The value says whether data have been seen. -/
def decimal (base : ℕ) (field : List Ascii) (width : ℕ) (do_assign longflag : Bool) (s : Scan) :
    Option (Bool × Scan) := do
  let (width, done_some, t) ← hexMark string base width s
  let (sign, t) ← signMark string width t
  let (val, done_some, t) ← digitLoop string base width 0 done_some t
  let val := if sign then -val else val
  let stored := if do_assign then some (cellOf longflag val) else none
  some (done_some, t.record
    ⟨base, field, do_assign, longflag, s.input string, done_some, stored, t.input string⟩)

/-! ## Characters -/

/-- The loops that store characters, up to one that is not `among` them. -/
def charLoop (among : Ascii → Bool) : ℕ → List Ascii → Scan → Option (List Ascii × Scan)
  | 0, cs, s => some (cs, s)
  | width + 1, cs, s =>
    match s.ic with
    | none => some (cs, s)
    | some c =>
      if among c then (rnc string s).bind (charLoop among width (cs ++ [c])) else some (cs, s)

/-- Characters are stored if they are assigned. -/
def takeChars (among : Ascii → Bool) (terminator : List Ascii) (width : ℕ) (do_assign : Bool)
    (s : Scan) : Option (Bool × Scan) := do
  let (cs, t) ← charLoop string among width [] s
  let done_some := !cs.isEmpty
  some (done_some, { t with
    stored := if do_assign then t.stored ++ [.chars (cs ++ terminator)] else t.stored
    done := if done_some && do_assign then t.done + 1 else t.done })

/-- See if a character is in a string, of which the first one is looked at in any case. -/
def scnindex (ch : Ascii) : List Ascii → Bool
  | [] => false
  | c :: cs => c = ch || match cs with
    | [] => false
    | d :: _ => d ≠ 0 && scnindex ch cs

/-! ## The format -/

/-- How it goes on: with the rest of the format, at `all_done`, or at `quit`. -/
inductive Next
  | go (format : List Ascii) (s : Scan)
  | allDone (s : Scan)
  | quit (s : Scan)

/-- A conversion that must have seen data. -/
def orDone (format : List Ascii) (r : Option (Bool × Scan)) : Option Next :=
  r.map fun x => if x.1 then .go format x.2 else .allDone x.2

/-- The digits of a width, as an `unsigned`. -/
def widthOf (field : List Ascii) : ℕ :=
  field.foldl (fun width c => (width * 10 + c.val - 48) % 65536) 0

/-- The conversion `[`, of which the format is behind the bracket. -/
def bracket (width : ℕ) (do_assign : Bool) (format : List Ascii) (s : Scan) : Option Next :=
  let reverse := format.head? = some 94
  let format := if reverse then format.tail else format
  let set := format.takeWhile (· ≠ 93)
  match format.dropWhile (· ≠ 93) with
  | [] => some (.quit s)
  | _ :: rest => orDone rest (takeChars string
      (fun c => !isspace c && (scnindex c (set ++ 0 :: rest) ^^ reverse)) [0] width do_assign s)

/-- The switch on the character of a conversion. -/
def switch (c : Ascii) (field : List Ascii) (width : ℕ) (do_assign longflag : Bool)
    (format : List Ascii) (s : Scan) : Option Next :=
  if c = 111 then orDone format (decimal string 8 field width do_assign longflag s)
  else if c = 117 ∨ c = 100 then
    orDone format (decimal string 10 field width do_assign longflag s)
  else if c = 120 then orDone format (decimal string 16 field width do_assign longflag s)
  else if c = 99 then
    (takeChars string (fun _ => true) [] (if field = [] then 1 else width) do_assign s).map
      fun x => .go format x.2
  else if c = 115 then
    orDone format (takeChars string (fun c => !isspace c) [0] width do_assign s)
  else if c = 91 then bracket string width do_assign format s
  else some (.go format s)

/-- White space is skipped, except for `c`. -/
def skipFor (c : Ascii) (s : Scan) : Option Scan :=
  if c ≠ 99 then skipBlanks string (string.length + 1) s else some s

/-- A conversion, behind its `%`. -/
def conversion (format : List Ascii) (s : Scan) : Option Next :=
  let do_assign := format.head? ≠ some STAR
  let format := if do_assign then format else format.tail
  let field := format.takeWhile isdigit
  let format := format.dropWhile isdigit
  let width := if field = [] then UINT_MAX else widthOf field
  let longflag := format.head?.map tolower = some LOWER_L
  let format := if longflag then format.tail else format
  match format with
  | [] => none
  | c :: format => (skipFor string c s).bind (switch string c field width do_assign longflag format)

/-- A character of the format that is read as it is. -/
def literal (c : Ascii) (format : List Ascii) (s : Scan) : Option Next := do
  let s ← skipBlanks string (string.length + 1) s
  if s.ic ≠ some c then some (.allDone s)
  else do
    let s ← rnc string s
    some (.go format s)

/-- One turn of the loop over the format. -/
def turn (format : List Ascii) (s : Scan) : Option Next :=
  match format.dropWhile isspace with
  | [] => some (.allDone s)
  | c :: format =>
    if s.ic = none then some (.quit s)
    else if c ≠ PERCENT then literal string c format s
    else conversion string format s

/-- The loop, which has so many turns at most. At `all_done` the current character is restored. -/
def scanLoop : ℕ → List Ascii → Scan → Option Scan
  | 0, _, _ => none
  | n + 1, format, s =>
    (turn string format s).bind fun
      | .go format s => scanLoop n format s
      | .allDone s => some (if s.ic.isSome then ugc s else s)
      | .quit s => some s

/-- `_doscanf` on a string. The number of items is that of the arguments of the call at most. -/
def _doscanf (format : List Ascii) : Option Scan :=
  (rnc string ⟨none, 0, [], 0, []⟩).bind fun s =>
    if s.ic = none then some { s with done := EOF }
    else scanLoop string (format.length + 1) format s

end Minix.Scanf
