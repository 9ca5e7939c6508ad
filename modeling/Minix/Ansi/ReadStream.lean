import Mathlib.Data.Int.Order.Basic
import Mathlib.Data.Int.Range
import Mathlib.Logic.Function.Basic
import Minix.Lib.Run
import Minix.Lib.Words

/-!
# Buffered reading

`fgetc`, `ungetc` and `fseek` of `lib/ansi` on a `FILE` that is read through a buffer, over `read`
and `lseek` of a file of given content. A read may return less than it is asked for, but something
in front of the end. The buffer is indexed from `_buf` on, and `_ptr` is such an index.

What the calls should do is a position and a slot for a character that is pushed back
(`Stream`). `ungetc` stores into the buffer and `fseek` moves inside it, so that what is in front
of `_ptr` need not be what the file holds there; `Clean` says which calls meet nothing of that, and
`buffered_reading` that runs of these return what the stream returns.
-/

namespace Minix.Ansi

open Lib

abbrev BUFSIZ : ℤ := 1024

abbrev EOF : ℤ := -1

abbrev MAX_FILE_POS : ℤ := 2147483647

/-- A `FILE` in read mode with a buffer, and the position of the file that it is opened on. -/
structure Iobuf where
  count : ℤ
  eof : Bool
  err : Bool
  buf : ℤ → UInt8
  ptr : ℤ
  /-- The position that the file system keeps. -/
  filpPos : ℤ

/-- What a seek is relative to: the beginning of the file, or the position. -/
inductive Whence
  | set
  | cur
  deriving DecidableEq

/-- `lseek`, which returns the new position. -/
def lseek (pos offset : ℤ) (whence : Whence) : ℤ × ℤ :=
  let p := match whence with
    | .set => offset
    | .cur => long32 (pos + offset)
  if p < 0 ∨ p > MAX_FILE_POS then (pos, -1) else (p, p)

/-- The buffer when `n` characters have been read from a position on. -/
def readInto (F : List UInt8) (pos n : ℤ) (buf : ℤ → UInt8) : ℤ → UInt8 :=
  fun i => if 0 ≤ i ∧ i < n then F.getD (pos + i).toNat 0 else buf i

/-- One character is taken out of the buffer. -/
def Iobuf.take (s : Iobuf) : Iobuf × ℤ :=
  ({ s with count := s.count - 1, ptr := s.ptr + 1 }, (s.buf s.ptr).toNat)

/-- `n` is what a read returns. -/
def fgetc (F : List UInt8) (n : ℤ) (s : Iobuf) : Iobuf × ℤ :=
  if s.eof || s.err then (s, EOF)
  else if s.count ≤ 0 then
    let s := { s with
      count := n, buf := readInto F s.filpPos n s.buf, filpPos := s.filpPos + max n 0 }
    if n ≤ 0 then (if n = 0 then { s with eof := true } else { s with err := true }, EOF)
    else { s with ptr := 0 }.take
  else s.take

def ungetc (ch : ℤ) (s : Iobuf) : Iobuf × ℤ :=
  if ch < 0 then (s, EOF)
  else if s.count ≥ BUFSIZ then (s, EOF)
  else
    let ptr := if s.ptr = 0 then s.ptr + 1 else s.ptr
    ({ s with
        count := s.count + 1
        ptr := ptr - 1
        buf := Function.update s.buf (ptr - 1) (UInt8.ofNat ch.toNat) }, ch)

/-- How far a seek is from the position. -/
def Iobuf.seekPos (s : Iobuf) (offset : ℤ) : Whence → ℤ
  | .set => long32 (offset + (s.count - s.filpPos))
  | .cur => offset

/-- A seek stays in the buffer. -/
def Iobuf.Inside (s : Iobuf) (offset : ℤ) (whence : Whence) : Prop :=
  s.count > 0 ∧ s.seekPos offset whence ≤ s.count ∧ s.seekPos offset whence ≥ -s.ptr

instance (s : Iobuf) (offset : ℤ) (whence : Whence) : Decidable (s.Inside offset whence) :=
  inferInstanceAs (Decidable (_ ∧ _ ∧ _))

/-- The offset for `lseek`, as the file is ahead of what has been read. -/
def Iobuf.lseekOffset (s : Iobuf) (offset : ℤ) : Whence → ℤ
  | .set => offset
  | .cur => long32 (offset - s.count)

def fseek (offset : ℤ) (whence : Whence) (s : Iobuf) : Iobuf × ℤ :=
  let s := { s with eof := false, err := false }
  if s.Inside offset whence then
    ({ s with
        ptr := s.ptr + s.seekPos offset whence
        count := s.count - s.seekPos offset whence }, 0)
  else
    let r := lseek s.filpPos (s.lseekOffset offset whence) whence
    ({ s with count := 0, filpPos := r.1 }, if r.2 = -1 then -1 else 0)

/-! ## The stream -/

/-- A position, and a character that has been pushed back: it is read in place of the one there. -/
structure Stream where
  pos : ℤ
  back : Option UInt8

/-- The next character. -/
def Stream.getc (F : List UInt8) (a : Stream) : Stream × ℤ :=
  match a.back with
  | some c => (⟨a.pos + 1, none⟩, c.toNat)
  | none =>
    if 0 ≤ a.pos ∧ a.pos < F.length then (⟨a.pos + 1, none⟩, (F.getD a.pos.toNat 0).toNat)
    else (a, EOF)

/-- A character is pushed back. -/
def Stream.ungetc (ch : ℤ) (a : Stream) : Stream := ⟨a.pos - 1, some (UInt8.ofNat ch.toNat)⟩

/-- Where a seek leads to. -/
def Stream.target (a : Stream) (offset : ℤ) : Whence → ℤ
  | .set => offset
  | .cur => a.pos + offset

/-- A seek clears the slot; one that leads to no position fails, and changes nothing. -/
def Stream.seek (offset : ℤ) (whence : Whence) (a : Stream) : Stream × ℤ :=
  if 0 ≤ a.target offset whence ∧ a.target offset whence ≤ MAX_FILE_POS then
    (⟨a.target offset whence, none⟩, 0)
  else (a, -1)

/-! ## Runs of both -/

/-- A call, with what a read returns if there is one. -/
inductive ReadCall
  | fgetc (n : ℤ)
  | ungetc (ch : ℤ)
  | fseek (offset : ℤ) (whence : Whence)

/-- A `FILE`, and the stream that it should be. -/
structure Both where
  file : Iobuf
  stream : Stream

/-- A call of both, with what they return. A character that `ungetc` refuses is not pushed back. -/
def Both.call (F : List UInt8) (w : Both) : ReadCall → Both × ℤ × ℤ
  | .fgetc n =>
    (⟨(Ansi.fgetc F n w.file).1, (w.stream.getc F).1⟩, (Ansi.fgetc F n w.file).2,
      (w.stream.getc F).2)
  | .ungetc ch =>
    if (Ansi.ungetc ch w.file).2 = EOF then (⟨(Ansi.ungetc ch w.file).1, w.stream⟩, EOF, EOF)
    else (⟨(Ansi.ungetc ch w.file).1, w.stream.ungetc ch⟩, (Ansi.ungetc ch w.file).2, ch)
  | .fseek offset whence =>
    (⟨(Ansi.fseek offset whence w.file).1, (w.stream.seek offset whence).1⟩,
      (Ansi.fseek offset whence w.file).2, (w.stream.seek offset whence).2)

/-- What a read may return: as much as there is and there is room for, or less, but not nothing in
front of the end. -/
def ReadReturns (F : List UInt8) (pos n : ℤ) : Prop :=
  0 ≤ n ∧ n ≤ BUFSIZ ∧ (0 < n → pos + n ≤ F.length) ∧ (n = 0 → F.length ≤ pos)

/-- The calls that are made: no second character is pushed back, and an offset is a long. -/
def Allowed (F : List UInt8) (w : Both) : ReadCall → Prop
  | .fgetc n => ReadReturns F w.file.filpPos n
  | .ungetc _ => w.stream.back = none
  | .fseek offset _ => -2147483648 ≤ offset ∧ offset < 2147483648

/-- The file holds a character at a position. -/
def HasByte (F : List UInt8) (pos : ℤ) (c : UInt8) : Prop := 0 ≤ pos ∧ F[pos.toNat]? = some c

/-- A seek in the buffer leaves there to be read what the file holds. -/
def Unaltered (F : List UInt8) (s : Iobuf) (offset : ℤ) (whence : Whence) : Prop :=
  ∀ i, s.ptr + s.seekPos offset whence ≤ i → i < s.ptr + s.count →
    HasByte F (s.filpPos - (s.ptr + s.count - i)) (s.buf i)

/-- The calls that go right. A character is not pushed back behind the end of the file, or to the
beginning of a buffer that is not empty. A seek in the buffer leaves nothing altered to be read; any
other one leads to a position, or leaves nothing to be read behind. -/
def Clean (F : List UInt8) (w : Both) : ReadCall → Prop
  | .fgetc _ => True
  | .ungetc ch => 0 ≤ ch → w.file.count < BUFSIZ →
    w.file.eof = false ∧ (w.file.ptr = 0 → w.file.count = 0)
  | .fseek offset whence =>
    if w.file.Inside offset whence then Unaltered F w.file offset whence
    else
      0 ≤ w.stream.target offset whence ∧ w.stream.target offset whence ≤ MAX_FILE_POS ∨
        w.file.count = 0

/-- A step of a run, with what both return. -/
def ReadStep (F : List UInt8) (w : Both) (c : ReadCall × ℤ × ℤ) (w' : Both) : Prop :=
  Allowed F w c.1 ∧ w.call F c.1 = (w', c.2)

/-- A step that goes right. -/
def CleanStep (F : List UInt8) (w : Both) (c : ReadCall × ℤ × ℤ) (w' : Both) : Prop :=
  ReadStep F w c w' ∧ Clean F w c.1

/-- A file that has just been opened. -/
structure JustOpened (F : List UInt8) (w : Both) : Prop where
  size : (F.length : ℤ) ≤ MAX_FILE_POS
  count : w.file.count = 0
  flags : w.file.eof = false ∧ w.file.err = false
  ptr : w.file.ptr = 0
  filpPos : w.file.filpPos = 0
  stream : w.stream = ⟨0, none⟩

/-! ## The invariant -/

/-- The position of the file is ahead of the stream by what is left in the buffer, which is what the
file holds there, but for a character that has been pushed back. -/
structure ReadInv (F : List UInt8) (w : Both) : Prop where
  size : (F.length : ℤ) ≤ MAX_FILE_POS
  err : w.file.err = false
  ptr : 0 ≤ w.file.ptr
  count : 0 ≤ w.file.count
  room : w.file.ptr + w.file.count ≤ BUFSIZ
  filpPos : 0 ≤ w.file.filpPos ∧ w.file.filpPos ≤ MAX_FILE_POS
  ahead : w.stream.pos = w.file.filpPos - w.file.count
  back : ∀ c, w.stream.back = some c → 0 < w.file.count ∧ w.file.buf w.file.ptr = c
  bytes : ∀ i, w.file.ptr ≤ i → i < w.file.ptr + w.file.count →
    (w.stream.back = none ∨ i ≠ w.file.ptr) →
      HasByte F (w.file.filpPos - (w.file.ptr + w.file.count - i)) (w.file.buf i)
  eof : w.file.eof = true → w.file.count = 0 ∧ (F.length : ℤ) ≤ w.file.filpPos

variable {F : List UInt8} {w w' : Both} {n ch offset : ℤ} {whence : Whence} {c : ReadCall × ℤ × ℤ}
  {as : List (ReadCall × ℤ × ℤ)}

/-- Just opened, the buffer is empty and both are at the beginning. -/
theorem JustOpened.inv (h : JustOpened F w) : ReadInv F w where
  size := h.size
  err := h.flags.2
  ptr := by rw [h.ptr]
  count := by rw [h.count]
  room := by rw [h.ptr, h.count]; decide
  filpPos := by rw [h.filpPos]; decide
  ahead := by rw [h.stream, h.filpPos, h.count]; rfl
  back := by
    intro c hc
    rw [h.stream] at hc
    cases hc
  bytes := by
    intro i hlo hhi
    rw [h.count] at hhi
    omega
  eof := by
    intro he
    rw [h.flags.1] at he
    cases he

/-- An empty buffer holds no character that has been pushed back. -/
theorem ReadInv.no_back (h : ReadInv F w) (hc : w.file.count = 0) : w.stream.back = none := by
  cases hb : w.stream.back with
  | none => rfl
  | some c =>
    have := (h.back c hb).1
    omega

/-- What a read brings is what the file holds. -/
theorem hasByte_readInto {pos i : ℤ} (buf : ℤ → UInt8) (hpos : 0 ≤ pos) (hn : pos + n ≤ F.length)
    (hlo : 0 ≤ i) (hhi : i < n) : HasByte F (pos + i) (readInto F pos n buf i) := by
  have hlen : (pos + i).toNat < F.length := by omega
  refine ⟨by omega, ?_⟩
  simp only [readInto, hlo, hhi, and_self, if_true]
  rw [List.getD_eq_getElem?_getD, List.getElem?_eq_getElem hlen, Option.getD_some]

/-- The stream returns the character that the file holds. -/
theorem Stream.getc_of_hasByte {a : Stream} {b : UInt8} (hback : a.back = none)
    (h : HasByte F a.pos b) : a.getc F = (⟨a.pos + 1, none⟩, (b.toNat : ℤ)) := by
  obtain ⟨hlo, hb⟩ := h
  obtain ⟨hlen, -⟩ := List.getElem?_eq_some_iff.mp hb
  have hin : 0 ≤ a.pos ∧ a.pos < F.length := ⟨hlo, by omega⟩
  simp only [Stream.getc, hback, if_pos hin, List.getD_eq_getElem?_getD, hb, Option.getD_some]

/-- At the end the stream returns `EOF`, and stays where it is. -/
theorem Stream.getc_at_end {a : Stream} (hback : a.back = none) (h : (F.length : ℤ) ≤ a.pos) :
    a.getc F = (a, EOF) := by
  have hout : ¬(0 ≤ a.pos ∧ a.pos < F.length) := by omega
  simp only [Stream.getc, hback, if_neg hout]

/-- The next character of a buffer that is not empty is that of the stream. -/
theorem ReadInv.getc_eq (h : ReadInv F w) (hc : 0 < w.file.count) :
    w.stream.getc F = (⟨w.stream.pos + 1, none⟩, ((w.file.buf w.file.ptr).toNat : ℤ)) := by
  cases hb : w.stream.back with
  | some c =>
    rw [← (h.back c hb).2] at hb
    simp only [Stream.getc, hb]
  | none =>
    have hbyte := h.bytes w.file.ptr le_rfl (by omega) (.inl hb)
    apply Stream.getc_of_hasByte hb
    have hpos : w.stream.pos = w.file.filpPos - (w.file.ptr + w.file.count - w.file.ptr) := by
      rw [h.ahead]
      omega
    rwa [hpos]

/-- A character that is taken out of the buffer is the next one of the stream. -/
theorem ReadInv.take (h : ReadInv F w) (heof : w.file.eof = false) (hc : 0 < w.file.count) :
    ReadInv F ⟨w.file.take.1, (w.stream.getc F).1⟩ ∧ w.file.take.2 = (w.stream.getc F).2 := by
  rw [h.getc_eq hc]
  have hptr := h.ptr
  have hroom := h.room
  have hahead := h.ahead
  refine ⟨⟨h.size, h.err, ?_, ?_, ?_, h.filpPos, ?_, ?_, ?_, ?_⟩, rfl⟩
  · exact Int.add_nonneg hptr Int.one_nonneg
  · exact Int.le_sub_one_of_lt hc
  · show w.file.ptr + 1 + (w.file.count - 1) ≤ BUFSIZ
    omega
  · show w.stream.pos + 1 = w.file.filpPos - (w.file.count - 1)
    omega
  · intro c hback
    cases hback
  · intro i hlo hhi _
    simp only [Iobuf.take] at hlo hhi ⊢
    have hbyte := h.bytes i (by omega) (by omega) (.inr (by omega))
    have hsame : w.file.ptr + 1 + (w.file.count - 1) - i = w.file.ptr + w.file.count - i := by omega
    rwa [hsame]
  · intro he
    exact absurd (heof.symm.trans he) (by decide)

/-! ## One lemma for each call -/

/-- The next character: it is taken out of the buffer, which is filled again when it is empty. -/
theorem ReadInv.fgetc (h : ReadInv F w) (hn : ReadReturns F w.file.filpPos n) :
    ReadInv F ⟨(Ansi.fgetc F n w.file).1, (w.stream.getc F).1⟩ ∧
      (Ansi.fgetc F n w.file).2 = (w.stream.getc F).2 := by
  have hahead := h.ahead
  have hcount := h.count
  by_cases heof : w.file.eof = true
  · -- The end has been met before.
    obtain ⟨hc, hend⟩ := h.eof heof
    have hgetc : w.stream.getc F = (w.stream, EOF) :=
      Stream.getc_at_end (h.no_back hc) (by omega)
    rw [hgetc]
    simp only [Ansi.fgetc, heof, Bool.true_or, if_true]
    exact ⟨h, trivial⟩
  have heof' : w.file.eof = false := Bool.eq_false_iff.mpr heof
  by_cases hc : w.file.count ≤ 0
  · have hc0 : w.file.count = 0 := by omega
    have hback := h.no_back hc0
    obtain ⟨hn0, hnb, hin, hend⟩ := hn
    have hpos := h.filpPos.1
    have hmax : max n 0 = n := max_eq_left hn0
    by_cases hnz : n = 0
    · -- The read meets the end.
      have hgetc : w.stream.getc F = (w.stream, EOF) :=
        Stream.getc_at_end hback (by have := hend hnz; omega)
      rw [hgetc]
      simp only [Ansi.fgetc, heof', h.err, Bool.or_self, Bool.false_eq_true, if_false, if_pos hc,
        hnz, le_refl, if_true, max_self, add_zero]
      refine ⟨⟨h.size, rfl, h.ptr, le_rfl, ?_, h.filpPos, by simpa [hc0] using hahead, ?_, ?_, ?_⟩,
        trivial⟩
      · have := h.room
        show w.file.ptr + 0 ≤ BUFSIZ
        omega
      · intro c hb
        rw [hback] at hb
        cases hb
      · intro i hlo hhi
        simp only at hlo hhi
        omega
      · exact fun _ => ⟨rfl, hend hnz⟩
    · -- The buffer is filled.
      have hlen := hin (by omega)
      have hsize := h.size
      have hfilled : ReadInv F ⟨{ w.file with
          count := n, buf := readInto F w.file.filpPos n w.file.buf,
          filpPos := w.file.filpPos + n, ptr := 0 }, w.stream⟩ := by
        refine ⟨h.size, h.err, le_rfl, hn0, by simpa using hnb, ⟨?_, ?_⟩, ?_, ?_, ?_, ?_⟩
        · exact Int.add_nonneg hpos hn0
        · exact hlen.trans hsize
        · show w.stream.pos = w.file.filpPos + n - n
          omega
        · intro c hb
          rw [hback] at hb
          cases hb
        · intro i hlo hhi _
          simp only [zero_add] at hlo hhi ⊢
          have hbyte := hasByte_readInto w.file.buf hpos hlen hlo hhi
          have hsame : w.file.filpPos + n - (n - i) = w.file.filpPos + i := by omega
          rwa [hsame]
        · intro he
          exact absurd he heof
      have htake := hfilled.take heof' (by show 0 < n; omega)
      have hpos' : ¬n ≤ 0 := by omega
      simpa only [Ansi.fgetc, heof', h.err, Bool.or_self, Bool.false_eq_true, if_false, if_pos hc,
        if_neg hpos', hmax] using htake
  · have htake := h.take heof' (by omega)
    simpa only [Ansi.fgetc, heof', h.err, Bool.or_self, Bool.false_eq_true, if_false, if_neg hc]
      using htake

/-- A character is pushed back in front of `_ptr`, which moves to it. -/
theorem ReadInv.ungetc (h : ReadInv F w) (ha : Allowed F w (.ungetc ch))
    (hc : Clean F w (.ungetc ch)) :
    ReadInv F (w.call F (.ungetc ch)).1 ∧
      (w.call F (.ungetc ch)).2.1 = (w.call F (.ungetc ch)).2.2 := by
  have hrefuse : Ansi.ungetc ch w.file = (w.file, EOF) →
      ReadInv F (w.call F (.ungetc ch)).1 ∧
        (w.call F (.ungetc ch)).2.1 = (w.call F (.ungetc ch)).2.2 := by
    intro hr
    simp only [Both.call, hr, if_true]
    exact ⟨h, trivial⟩
  by_cases hneg : ch < 0
  · exact hrefuse (by simp only [Ansi.ungetc, if_pos hneg])
  by_cases hfull : w.file.count ≥ BUFSIZ
  · exact hrefuse (by simp only [Ansi.ungetc, if_neg hneg, if_pos hfull])
  obtain ⟨heof, hstart⟩ := hc (by omega) (by omega)
  have hback : w.stream.back = none := ha
  have hne : ¬ch = EOF := by
    have heof : EOF = -1 := rfl
    omega
  have hcount := h.count
  have hroom := h.room
  have hptr := h.ptr
  have hahead := h.ahead
  -- At the beginning of an empty buffer `_ptr` is moved away first.
  have hmoved : ∃ p, (if w.file.ptr = 0 then w.file.ptr + 1 else w.file.ptr) = p + 1 ∧ 0 ≤ p ∧
      p + (w.file.count + 1) ≤ BUFSIZ ∧ (0 < w.file.count → p + 1 = w.file.ptr) := by
    by_cases hz : w.file.ptr = 0
    · have hc0 := hstart hz
      exact ⟨w.file.ptr, if_pos hz, hptr, by omega, by omega⟩
    · exact ⟨w.file.ptr - 1, by rw [if_neg hz]; omega, by omega, by omega, by omega⟩
  obtain ⟨p, hp, hp0, hproom, hpnext⟩ := hmoved
  simp only [Both.call, Ansi.ungetc, if_neg hneg, if_neg hfull, if_neg hne, hp,
    add_sub_cancel_right, Stream.ungetc]
  refine ⟨⟨h.size, h.err, hp0, ?_, hproom, h.filpPos, ?_, ?_, ?_, ?_⟩, trivial⟩
  · exact Int.add_nonneg hcount Int.one_nonneg
  · show w.stream.pos - 1 = w.file.filpPos - (w.file.count + 1)
    omega
  · intro c hb
    obtain rfl := Option.some.inj hb
    exact ⟨Int.lt_add_one_of_le hcount, Function.update_self ..⟩
  · intro i hlo hhi hor
    simp only at hlo hhi hor ⊢
    have hi : i ≠ p := by simpa using hor
    have hnext := hpnext (by omega)
    have hbyte := h.bytes i (by omega) (by omega) (.inl hback)
    rw [Function.update_of_ne hi]
    have hsame : p + (w.file.count + 1) - i = w.file.ptr + w.file.count - i := by omega
    rwa [hsame]
  · intro he
    exact absurd (heof.symm.trans he) (by decide)

/-- A seek in the buffer is to the position that it asks for, though the difference is a long. -/
theorem ReadInv.target_of_inside (h : ReadInv F w) (hlo : -2147483648 ≤ offset)
    (hhi : offset < 2147483648) (hin : w.file.Inside offset whence) :
    w.stream.target offset whence = w.stream.pos + w.file.seekPos offset whence := by
  obtain ⟨hc, hle, hge⟩ := hin
  have hahead := h.ahead
  have hroom := h.room
  have hptr := h.ptr
  obtain ⟨hpos, hmax⟩ := h.filpPos
  cases whence with
  | cur => rfl
  | set =>
    have hsize : BUFSIZ = 1024 ∧ MAX_FILE_POS = 2147483647 := ⟨rfl, rfl⟩
    simp only [Stream.target, Iobuf.seekPos] at hle hge ⊢
    rw [long32_eq] at hle hge ⊢
    split_ifs at hle hge ⊢ <;> omega

/-- A seek that is not in the buffer leads to the position that it asks for, or fails where there is
none and nothing is left in the buffer. -/
theorem ReadInv.lseek_target (h : ReadInv F w) (hlo : -2147483648 ≤ offset)
    (hhi : offset < 2147483648)
    (hc : 0 ≤ w.stream.target offset whence ∧ w.stream.target offset whence ≤ MAX_FILE_POS ∨
      w.file.count = 0) :
    lseek w.file.filpPos (w.file.lseekOffset offset whence) whence =
    if 0 ≤ w.stream.target offset whence ∧ w.stream.target offset whence ≤ MAX_FILE_POS then
      (w.stream.target offset whence, w.stream.target offset whence)
    else (w.file.filpPos, -1) := by
  have hahead := h.ahead
  obtain ⟨hpos, hmax⟩ := h.filpPos
  have hsize : MAX_FILE_POS = 2147483647 := rfl
  generalize ht : w.stream.target offset whence = t at hc ⊢
  cases whence with
  | set =>
    obtain rfl : offset = t := ht
    have hcode : lseek w.file.filpPos (w.file.lseekOffset offset .set) .set =
        if offset < 0 ∨ offset > MAX_FILE_POS then (w.file.filpPos, -1) else (offset, offset) := rfl
    rw [hcode]
    by_cases hin : 0 ≤ offset ∧ offset ≤ MAX_FILE_POS
    · rw [if_pos hin, if_neg (by omega)]
    · rw [if_neg hin, if_pos (by omega)]
  | cur =>
    have ht : w.stream.pos + offset = t := ht
    have hsum : long32 (w.file.filpPos + long32 (offset - w.file.count)) = long32 t := by
      rw [add_comm, long32_long32_add, ← ht, hahead]
      congr 1
      omega
    simp only [lseek, Iobuf.lseekOffset, hsum]
    by_cases hin : 0 ≤ t ∧ t ≤ MAX_FILE_POS
    · rw [long32_of_range (by omega) (by omega), if_pos hin, if_neg (by omega)]
    · -- Beyond the last position the sum is negative as a long.
      have hout : long32 t < 0 := by
        rw [long32_eq]
        split_ifs <;> omega
      rw [if_neg hin, if_pos (.inl hout)]

/-- A seek in the buffer leaves the position of the file where it is. -/
theorem ReadInv.fseek_inside (h : ReadInv F w) (ha : Allowed F w (.fseek offset whence))
    (hc : Clean F w (.fseek offset whence)) (hin : w.file.Inside offset whence) :
    ReadInv F (w.call F (.fseek offset whence)).1 ∧
      (w.call F (.fseek offset whence)).2.1 = (w.call F (.fseek offset whence)).2.2 := by
  obtain ⟨hlo, hhi⟩ := ha
  have hahead := h.ahead
  have hroom := h.room
  have hptr := h.ptr
  obtain ⟨hpos, hmax⟩ := h.filpPos
  have htarget := h.target_of_inside hlo hhi hin
  have hin' : Iobuf.Inside { w.file with eof := false, err := false } offset whence := hin
  simp only [Clean, if_pos hin, Unaltered] at hc
  obtain ⟨hcount, hle, hge⟩ := hin
  -- What is left behind the target is what the file holds, and so the target is a position.
  have hbegin : 0 ≤ w.stream.target offset whence := by
    rw [htarget]
    by_cases hall : w.file.seekPos offset whence = w.file.count
    · omega
    · have := (hc (w.file.ptr + w.file.seekPos offset whence) le_rfl (by omega)).1
      omega
  have hok : 0 ≤ w.stream.target offset whence ∧ w.stream.target offset whence ≤ MAX_FILE_POS :=
    ⟨hbegin, by omega⟩
  have hmoved : Iobuf.seekPos { w.file with eof := false, err := false } offset whence =
      w.file.seekPos offset whence := rfl
  simp only [Both.call, Ansi.fseek, if_pos hin', Stream.seek, if_pos hok, hmoved]
  generalize w.file.seekPos offset whence = d at *
  refine ⟨⟨h.size, rfl, ?_, ?_, ?_, ⟨hpos, hmax⟩, ?_, ?_, ?_, ?_⟩, trivial⟩
  · show 0 ≤ w.file.ptr + d
    omega
  · exact Int.sub_nonneg_of_le hle
  · show w.file.ptr + d + (w.file.count - d) ≤ BUFSIZ
    omega
  · show w.stream.target offset whence = w.file.filpPos - (w.file.count - d)
    omega
  · intro c hb
    cases hb
  · intro i hlo' hhi' _
    simp only at hlo' hhi' ⊢
    have hsame : w.file.ptr + d + (w.file.count - d) = w.file.ptr + w.file.count := by omega
    rw [hsame] at hhi' ⊢
    exact hc i hlo' hhi'
  · intro he
    cases he

/-- A seek past the buffer leaves nothing in it. -/
theorem ReadInv.fseek_past (h : ReadInv F w) (ha : Allowed F w (.fseek offset whence))
    (hc : Clean F w (.fseek offset whence)) (hin : ¬w.file.Inside offset whence) :
    ReadInv F (w.call F (.fseek offset whence)).1 ∧
      (w.call F (.fseek offset whence)).2.1 = (w.call F (.fseek offset whence)).2.2 := by
  obtain ⟨hlo, hhi⟩ := ha
  simp only [Clean, if_neg hin] at hc
  have hin' : ¬Iobuf.Inside { w.file with eof := false, err := false } offset whence := hin
  have hoffset : Iobuf.lseekOffset { w.file with eof := false, err := false } offset whence =
      w.file.lseekOffset offset whence := by cases whence <;> rfl
  have hseek := h.lseek_target hlo hhi hc
  have hroom := h.room
  have hcount := h.count
  have hempty : ∀ {pos : ℤ} {back : Option UInt8}, 0 ≤ pos ∧ pos ≤ MAX_FILE_POS → back = none →
      ReadInv F ⟨{ w.file with eof := false, err := false, count := 0, filpPos := pos },
        ⟨pos, back⟩⟩ := by
    intro pos back hpos hback
    refine ⟨h.size, rfl, h.ptr, le_rfl, ?_, hpos, (sub_zero pos).symm, ?_, ?_, ?_⟩
    · show w.file.ptr + 0 ≤ BUFSIZ
      omega
    · intro c hb
      rw [hback] at hb
      cases hb
    · intro i hlo' hhi'
      simp only at hlo' hhi'
      omega
    · intro he
      cases he
  simp only [Both.call, Ansi.fseek, if_neg hin', hoffset, hseek, Stream.seek]
  by_cases hok : 0 ≤ w.stream.target offset whence ∧ w.stream.target offset whence ≤ MAX_FILE_POS
  · have hne : ¬w.stream.target offset whence = -1 := by omega
    simp only [if_pos hok, if_neg hne]
    exact ⟨hempty hok rfl, trivial⟩
  · -- The seek fails, with nothing in the buffer that could get lost.
    simp only [if_neg hok, if_true]
    have hc0 : w.file.count = 0 := hc.resolve_left hok
    have hsame : w.stream = ⟨w.file.filpPos, w.stream.back⟩ := by
      have hpos : w.stream.pos = w.file.filpPos := by rw [h.ahead, hc0, sub_zero]
      rw [← hpos]
    rw [hsame]
    exact ⟨hempty h.filpPos (h.no_back hc0), trivial⟩

/-- A call that goes right keeps the invariant, and returns what the stream returns. -/
theorem ReadInv.step (h : ReadInv F w) (hs : CleanStep F w c w') :
    ReadInv F w' ∧ c.2.1 = c.2.2 := by
  obtain ⟨⟨ha, hcall⟩, hc⟩ := hs
  obtain ⟨call, r⟩ := c
  have hkept : ReadInv F (w.call F call).1 ∧ (w.call F call).2.1 = (w.call F call).2.2 := by
    cases call with
    | fgetc n => exact h.fgetc ha
    | ungetc ch => exact h.ungetc ha hc
    | fseek offset whence =>
      by_cases hin : w.file.Inside offset whence
      · exact h.fseek_inside ha hc hin
      · exact h.fseek_past ha hc hin
  simpa only [hcall] using hkept

/-- Where every call goes right, what is read is what the stream holds. -/
theorem buffered_reading (hopen : JustOpened F w) (h : Run (CleanStep F) w as w') :
    ∀ x ∈ as, x.2.1 = x.2.2 := by
  have hrun : ReadInv F w' ∧ ∀ x ∈ as, x.2.1 = x.2.2 := by
    induction h with
    | nil => exact ⟨hopen.inv, by simp⟩
    | snoc _ hst ih =>
      obtain ⟨hinv, hread⟩ := ih
      obtain ⟨hinv', hlast⟩ := hinv.step hst
      refine ⟨hinv', fun x hx => ?_⟩
      rcases List.mem_append.mp hx with hx | hx
      · exact hread x hx
      · rw [List.mem_singleton.mp hx]
        exact hlast
  exact hrun.2

/-! ## Runs of given calls -/

/-- Calls one after the other, with what they return. -/
def Both.play (F : List UInt8) (w : Both) : List ReadCall → List (ReadCall × ℤ × ℤ)
  | [] => []
  | c :: cs => (c, (w.call F c).2) :: (w.call F c).1.play F cs

/-- Each of the calls may be made, and has a property, when it comes to it. -/
def Both.Each (F : List UInt8) (P : Both → ReadCall → Prop) (w : Both) : List ReadCall → Prop
  | [] => True
  | c :: cs => Allowed F w c ∧ P w c ∧ (w.call F c).1.Each F P cs

instance : Decidable (ReadReturns F w.file.filpPos n) :=
  inferInstanceAs (Decidable (_ ∧ _ ∧ (_ → _) ∧ (_ → _)))

instance (call : ReadCall) : Decidable (Allowed F w call) :=
  match call with
  | .fgetc n => inferInstanceAs (Decidable (ReadReturns F w.file.filpPos n))
  | .ungetc _ => inferInstanceAs (Decidable (w.stream.back = none))
  | .fseek offset _ => inferInstanceAs (Decidable (-2147483648 ≤ offset ∧ offset < 2147483648))

instance (pos : ℤ) (b : UInt8) : Decidable (HasByte F pos b) := inferInstanceAs (Decidable (_ ∧ _))

instance (s : Iobuf) : Decidable (Unaltered F s offset whence) :=
  inferInstanceAs (Decidable (∀ i, s.ptr + s.seekPos offset whence ≤ i → i < s.ptr + s.count →
    HasByte F (s.filpPos - (s.ptr + s.count - i)) (s.buf i)))

instance (call : ReadCall) : Decidable (Clean F w call) :=
  match call with
  | .fgetc _ => inferInstanceAs (Decidable True)
  | .ungetc ch => inferInstanceAs (Decidable (0 ≤ ch → w.file.count < BUFSIZ → _))
  | .fseek offset whence =>
    inferInstanceAs (Decidable (if w.file.Inside offset whence then _ else _ ∨ _))

instance decidableEach {P : Both → ReadCall → Prop} [∀ w c, Decidable (P w c)] (F : List UInt8) :
    (w : Both) → (cs : List ReadCall) → Decidable (w.Each F P cs)
  | _, [] => inferInstanceAs (Decidable True)
  | w, c :: cs =>
    haveI := decidableEach (P := P) F (w.call F c).1 cs
    inferInstanceAs (Decidable (_ ∧ _ ∧ _))

/-- Calls that may be made are a run. -/
theorem Both.run_play {P : Both → ReadCall → Prop} {cs : List ReadCall} (h : w.Each F P cs) :
    ∃ w', Run (fun w c w' => ReadStep F w c w' ∧ P w c.1) w (w.play F cs) w' := by
  induction cs generalizing w with
  | nil => exact ⟨w, .nil⟩
  | cons c cs ih =>
    obtain ⟨ha, hp, hrest⟩ := h
    obtain ⟨w', hrun⟩ := ih hrest
    have hfirst : ReadStep F w (c, (w.call F c).2) (w.call F c).1 := ⟨ha, rfl⟩
    exact ⟨w', (Run.single ⟨hfirst, hp⟩).append hrun⟩

/-- A file that has just been opened, with nothing in its buffer. -/
def opened : Both := ⟨⟨0, false, false, fun _ => 0, 0, 0⟩, ⟨0, none⟩⟩

/-- Each goes wrong in another way: a character that has been pushed back stays in the buffer, or is
pushed back behind the end, or over one that is not read yet, and a seek that fails leaves the
buffer empty. -/
def wrongCalls : List (List UInt8 × List ReadCall) :=
  [([97, 98], [.fgetc 2, .ungetc 120, .fseek 0 .cur, .fgetc 0]),
    ([], [.fgetc 0, .ungetc 120, .fgetc 0]),
    ([97, 98], [.fgetc 2, .fseek 0 .set, .ungetc 120, .fgetc 0, .fgetc 0]),
    ([97, 98], [.fgetc 2, .fseek (-5) .cur, .fgetc 0])]

/-- None of the calls that `Clean` excludes goes right. -/
theorem wrongCalls_differ : ∀ f ∈ wrongCalls, JustOpened f.1 opened ∧
    (∃ w', Run (ReadStep f.1) opened (opened.play f.1 f.2) w') ∧
      ∃ x ∈ opened.play f.1 f.2, x.2.1 ≠ x.2.2 := by
  intro f hf
  have hsize : ∀ f ∈ wrongCalls, (f.1.length : ℤ) ≤ MAX_FILE_POS := by decide
  have hmade : ∀ f ∈ wrongCalls, opened.Each f.1 (fun _ _ => True) f.2 := by
    decide +kernel
  have hwrong : ∀ f ∈ wrongCalls, ∃ x ∈ opened.play f.1 f.2, x.2.1 ≠ x.2.2 := by decide +kernel
  obtain ⟨w', hrun⟩ := Both.run_play (hmade f hf)
  have hopen : JustOpened f.1 opened := ⟨hsize f hf, rfl, ⟨rfl, rfl⟩, rfl, rfl, rfl⟩
  exact ⟨hopen, ⟨w', hrun.mono fun _ _ _ h => h.1⟩, hwrong f hf⟩

/-- What is read is not what the file holds: `x` is pushed back in place of `a`, and stays there. -/
theorem reading_differs : JustOpened [97, 98] opened ∧
    ∃ as w', Run (ReadStep [97, 98]) opened as w' ∧
      as.map Prod.snd = [(97, 97), (120, 120), (0, 0), (120, 97)] := by
  have hf : ([97, 98], [.fgetc 2, .ungetc 120, .fseek 0 .cur, .fgetc 0]) ∈ wrongCalls :=
    List.mem_cons_self ..
  obtain ⟨hopen, ⟨w', hrun⟩, -⟩ := wrongCalls_differ _ hf
  exact ⟨hopen, _, w', hrun, by decide +kernel⟩

/-- A character is pushed back and read again, and a seek is made in the buffer and one past it. -/
def rightCalls : List ReadCall :=
  [.fgetc 2, .ungetc 120, .fgetc 0, .fseek 0 .cur, .fgetc 0, .fseek 1 .set]

/-- The calls return what the stream returns. -/
theorem buffered_reading_twoBytes :
    ∃ w', Run (CleanStep [97, 98]) opened (opened.play [97, 98] rightCalls) w' ∧
      ∀ x ∈ opened.play [97, 98] rightCalls, x.2.1 = x.2.2 := by
  have hmade : opened.Each [97, 98] (Clean [97, 98]) rightCalls := by decide +kernel
  have hopen : JustOpened [97, 98] opened := ⟨by decide, rfl, ⟨rfl, rfl⟩, rfl, rfl, rfl⟩
  obtain ⟨w', hrun⟩ := Both.run_play hmade
  exact ⟨w', hrun, buffered_reading hopen hrun⟩

end Minix.Ansi
