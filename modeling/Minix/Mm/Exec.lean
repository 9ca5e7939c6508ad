import Minix.Mm.HoleCount
import Minix.Mm.Break

/-!
# Executing a program

`mm/exec.c`, from the header of the file to the segments that are loaded. The header is eight longs.
A segment is loaded by `read` calls that the file system answers; `loadSeg` has the part of memory
that each call asks it to write. `CoreImage` records the block that `alloc_mem` gave beside the map
that is made of it. What is read of a header with more bytes than eight longs is left out.
-/

namespace Minix.Mm

open Lib (Span int16 long32 long32_eq long32_of_range)

/-- The file is not executable. -/
def ENOEXEC : ℤ := -8

/-- Number of bytes of args and environ for exec(). -/
def ARG_MAX : ℤ := 4096

/-- Magic number with 2 bits masked off. -/
def MAGIC : BitVec 32 := 0x04000301

/-- Value for separate I & D. -/
def SEP : BitVec 32 := 0x00200000

/-- The locations of the sizes in the header. -/
def TEXTB : Fin 8 := 2
def DATAB : Fin 8 := 3
def BSSB : Fin 8 := 4
def TOTB : Fin 8 := 6
def SYMB : Fin 8 := 7

/-- What `read_header` returns. -/
structure ExecSizes where
  /-- `ft`, which is `SEPARATE` or 0. -/
  separate : Bool
  text_bytes : ℤ
  data_bytes : ℤ
  bss_bytes : ℤ
  tot_bytes : ℤ
  sym_bytes : ℤ
  deriving DecidableEq, Repr

/-- Get text and data sizes. -/
def execSizes (buf : Fin 8 → BitVec 32) : ExecSizes :=
  let text_bytes := (buf TEXTB).toInt
  let data_bytes := (buf DATAB).toInt
  let tot_bytes := (buf TOTB).toInt
  if buf 0 &&& SEP ≠ 0 then
    ⟨true, text_bytes, data_bytes, (buf BSSB).toInt, tot_bytes, (buf SYMB).toInt⟩
  else
    -- An incomplete text click at the end must be treated as data.
    let data_bytes := long32 (data_bytes + text_bytes)
    let text_bytes := (text_bytes >>> CLICK_SHIFT) <<< CLICK_SHIFT
    ⟨false, text_bytes, long32 (data_bytes - text_bytes), (buf BSSB).toInt,
      long32 (tot_bytes - text_bytes), (buf SYMB).toInt⟩

/-- The bytes in clicks: `(bytes + CLICK_SIZE - 1) >> CLICK_SHIFT`, in a `vir_clicks`. -/
def clicksOf (bytes : ℤ) : ℕ := u16 (long32 (bytes + CLICK_SIZE - 1) >>> CLICK_SHIFT)

/-- Read the header and extract the text, data, bss and total sizes from it. -/
def readHeader (buf : Fin 8 → BitVec 32) (sc : ℕ) : Except ℤ ExecSizes :=
  if buf 0 &&& 0xFF0FFFFF ≠ MAGIC then .error ENOEXEC
  else if (buf TOTB).toInt = 0 then .error ENOEXEC
  else
    let sizes := execSizes buf
    let tc := clicksOf sizes.text_bytes
    let dc := clicksOf (sizes.data_bytes + sizes.bss_bytes)
    let totc := clicksOf sizes.tot_bytes
    if totc ≤ dc then .error ENOEXEC
    else
      let dvir := if sizes.separate then 0 else tc
      let s_vir := u16 (dvir + (totc - sc))
      if sizeOk dc dvir s_vir then .ok sizes else .error ENOMEM

/-- The new core image: the map, and the block of memory that it is in. -/
structure CoreImage where
  table : HoleTable
  segT : MemMap
  segD : MemMap
  segS : MemMap
  block : Span

/-- Allocate new memory and release the old memory. `fresh` is the memory that the kernel reports to
be free then. -/
def newMem (t : HoleTable) (sizes : ExecSizes) (stk_bytes : ℤ) (fresh : ℕ × ℕ) :
    Option (Except ℤ CoreImage) :=
  let text_clicks := clicksOf sizes.text_bytes
  let data_clicks := clicksOf (sizes.data_bytes + sizes.bss_bytes)
  let stack_clicks := clicksOf stk_bytes
  let tot_clicks := clicksOf sizes.tot_bytes
  let gap_clicks := u16 (tot_clicks - data_clicks - stack_clicks)
  if int16 gap_clicks < 0 then some (.error ENOMEM)
  else
    (maxHole t).bind fun max =>
    if max < u16 (text_clicks + tot_clicks) then some (.error EAGAIN)
    else
      (allocMem t (u16 (text_clicks + tot_clicks))).bind fun (new_base, t) =>
      if new_base = NO_MEM then none
      else
        let d_phys := u16 (new_base + text_clicks)
        let s_phys := u16 (d_phys + data_clicks + gap_clicks)
        (freeMem t fresh.1 fresh.2).map fun t => .ok {
          table := t
          segT := ⟨new_base, new_base, text_clicks⟩
          segD := ⟨d_phys, d_phys, data_clicks⟩
          segS := ⟨s_phys, s_phys, stack_clicks⟩
          block := (new_base, u16 (text_clicks + tot_clicks)) }

/-- The part of `do_exec` that decides about the memory of the program. -/
def execMem (t : HoleTable) (buf : Fin 8 → BitVec 32) (stack_bytes : ℤ) (fresh : ℕ × ℕ) :
    Option (Except ℤ (ExecSizes × CoreImage)) :=
  if ARG_MAX < stack_bytes then some (.error ENOMEM)
  else
    match readHeader buf (clicksOf stack_bytes) with
    | .error _ => some (.error ENOEXEC)
    | .ok sizes => (newMem t sizes stack_bytes fresh).map fun r => r.map fun img => (sizes, img)

/-- The loop of `load_seg`, as far as it gets with these answers of `read`: where each call writes,
and how many bytes it asks for. -/
def loadSeg : List ℤ → ℤ → ℤ → List (ℤ × ℤ)
  | [], _, _ => []
  | answer :: answers, ubuf_ptr, seg_bytes =>
    if seg_bytes = 0 then []
    else
      let bytes := if seg_bytes < 31 * 1024 then int16 seg_bytes else 31 * 1024
      (ubuf_ptr, bytes) ::
        if answer ≠ bytes then [] else loadSeg answers (ubuf_ptr + bytes) (seg_bytes - bytes)

end Minix.Mm
