import Mathlib.Data.Fin.VecNotation
import Minix.Lib.Indices
import Minix.Mm.ExecLoad

/-!
# Programs that fit

The sizes in a header are longs, and the clicks that they are turned into have 16 bits, so what is
accepted is a program whose clicks fit when they are cut. `ExecFits` is what should be true of it,
in exact arithmetic. It is so in the cases of `ExecExact`: the clicks of the text and the total do
not wrap together, no text and no data beyond `2 ^ 24` bytes has been cut off, and the data that is
loaded is no larger than data and bss together, of which bss may be negative.
-/

namespace Minix.Mm

open Lib

variable {buf : Fin 8 → BitVec 32} {t : HoleTable} {sizes : ExecSizes} {img : CoreImage}
  {stk : ℤ} {fresh : ℕ × ℕ}

/-! ## Exact sizes -/

/-- The text of the program: all of it, or its whole clicks if it shares its space with the data. -/
def textOf (buf : Fin 8 → BitVec 32) : ℤ :=
  if buf 0 &&& SEP ≠ 0 then (buf TEXTB).toInt else (buf TEXTB).toInt / 256 * 256

/-- The data of the program, with what is left over of the text. -/
def dataOf (buf : Fin 8 → BitVec 32) : ℤ :=
  if buf 0 &&& SEP ≠ 0 then (buf DATAB).toInt else (buf DATAB).toInt + (buf TEXTB).toInt % 256

/-- The bss of the program. -/
def bssOf (buf : Fin 8 → BitVec 32) : ℤ := (buf BSSB).toInt

/-- Its data, gap and stack. -/
def totOf (buf : Fin 8 → BitVec 32) : ℤ :=
  if buf 0 &&& SEP ≠ 0 then (buf TOTB).toInt else (buf TOTB).toInt - textOf buf

/-- Bytes rounded up to clicks, without a limit. -/
def roundUp (bytes : ℤ) : ℤ := (bytes + 255) / 256

theorem toInt_range (w : BitVec 32) : -2147483648 ≤ w.toInt ∧ w.toInt < 2147483648 := by
  have h₁ := BitVec.le_toInt w
  have h₂ := BitVec.toInt_lt (x := w)
  omega

theorem shift_back (x : ℤ) : (x >>> CLICK_SHIFT) <<< CLICK_SHIFT = x / 256 * 256 := by
  rw [shiftRight_click, Int.shiftLeft_eq]
  rfl

theorem execSizes_text (buf : Fin 8 → BitVec 32) : (execSizes buf).text_bytes = textOf buf := by
  unfold execSizes textOf
  dsimp only
  split
  · rfl
  · exact shift_back _

theorem execSizes_data (buf : Fin 8 → BitVec 32) :
    (execSizes buf).data_bytes = long32 (dataOf buf) := by
  have hrange := toInt_range (buf DATAB)
  unfold execSizes dataOf
  dsimp only
  split
  · exact (long32_of_range hrange.1 hrange.2).symm
  · dsimp only
    rw [shift_back, long32_long32_sub]
    congr 1
    omega

theorem execSizes_bss (buf : Fin 8 → BitVec 32) : (execSizes buf).bss_bytes = bssOf buf := by
  unfold execSizes
  dsimp only
  split <;> rfl

theorem execSizes_tot (buf : Fin 8 → BitVec 32) :
    (execSizes buf).tot_bytes = long32 (totOf buf) := by
  have hrange := toInt_range (buf TOTB)
  unfold execSizes totOf
  dsimp only
  split
  · exact (long32_of_range hrange.1 hrange.2).symm
  · next hsep =>
    dsimp only
    rw [shift_back, textOf, if_neg hsep]

theorem clicksOf_cast (x : ℤ) : (clicksOf x : ℤ) = roundUp x % 2 ^ 16 := by
  rw [clicksOf, clicks_long32, roundUp]
  exact congrArg (fun y => y / 256 % 2 ^ 16) (add_sub_assoc x 256 1)

theorem clicksOf_lt (x : ℤ) : clicksOf x < 2 ^ 16 := u16_lt _

theorem clicksOf_long32 (x y : ℤ) : clicksOf (long32 x + y) = clicksOf (x + y) := by
  have hwrap : (clicksOf (long32 x + y) : ℤ) = clicksOf (x + y) := by
    rw [clicksOf_cast, clicksOf_cast, long32_eq, roundUp, roundUp]
    split <;> omega
  exact Int.ofNat_inj.mp hwrap

theorem text_clicks (buf : Fin 8 → BitVec 32) :
    clicksOf (execSizes buf).text_bytes = clicksOf (textOf buf) := by
  rw [execSizes_text]

theorem data_clicks (buf : Fin 8 → BitVec 32) :
    clicksOf ((execSizes buf).data_bytes + (execSizes buf).bss_bytes) =
      clicksOf (dataOf buf + bssOf buf) := by
  rw [execSizes_data, execSizes_bss, clicksOf_long32]

theorem tot_clicks (buf : Fin 8 → BitVec 32) :
    clicksOf (execSizes buf).tot_bytes = clicksOf (totOf buf) := by
  have hlong := clicksOf_long32 (totOf buf) 0
  rwa [add_zero, add_zero, ← execSizes_tot] at hlong

/-! ## What is accepted -/

/-- What is known of a program that was accepted, with its clicks. -/
structure ExecOk (buf : Fin 8 → BitVec 32) (stk : ℤ) (img : CoreImage) (tc dc sc totc : ℕ) :
    Prop where
  tc_eq : (tc : ℤ) = roundUp (textOf buf) % 2 ^ 16
  dc_eq : (dc : ℤ) = roundUp (dataOf buf + bssOf buf) % 2 ^ 16
  sc_eq : (sc : ℤ) = roundUp stk
  totc_eq : (totc : ℤ) = roundUp (totOf buf) % 2 ^ 16
  gap : dc + sc ≤ totc
  totc_lt : totc < 2 ^ 16
  block_len : img.block.2 = (tc + totc) % 2 ^ 16
  block_end : img.block.1 + img.block.2 < 2 ^ 16
  segT : img.segT = ⟨img.block.1, img.block.1, tc⟩
  segD : img.segD = ⟨(img.block.1 + tc) % 2 ^ 16, (img.block.1 + tc) % 2 ^ 16, dc⟩
  segS : img.segS = ⟨(img.block.1 + tc + totc - sc) % 2 ^ 16,
    (img.block.1 + tc + totc - sc) % 2 ^ 16, sc⟩

/-- `read_header` accepts the sizes if the stack is at least one click, among others. -/
theorem readHeader_ok {sc : ℕ} (h : readHeader buf sc = .ok sizes) :
    sizes = execSizes buf ∧
      clicksOf (sizes.data_bytes + sizes.bss_bytes) < clicksOf sizes.tot_bytes := by
  unfold readHeader at h
  dsimp only at h
  split_ifs at h with h₁ h₂ h₃ h₄ h₅
  · cases h
    exact ⟨rfl, not_le.mp h₃⟩
  · cases h
    exact ⟨rfl, not_le.mp h₃⟩

/-- `new_mem` has got a block for the program. -/
theorem newMem_ok (h : newMem t sizes stk fresh = some (.ok img)) :
    0 ≤ int16 (u16 (clicksOf sizes.tot_bytes - clicksOf (sizes.data_bytes + sizes.bss_bytes) -
        clicksOf stk : ℤ)) ∧
      ∃ t', allocMem t (u16 (clicksOf sizes.text_bytes + clicksOf sizes.tot_bytes)) =
          some (img.block.1, t') ∧
        img.block.2 = u16 (clicksOf sizes.text_bytes + clicksOf sizes.tot_bytes) ∧
        img.block.1 ≠ NO_MEM ∧
        img.segT = ⟨img.block.1, img.block.1, clicksOf sizes.text_bytes⟩ ∧
        ∃ d s : ℕ, d = u16 (img.block.1 + clicksOf sizes.text_bytes) ∧
          s = u16 (d + clicksOf (sizes.data_bytes + sizes.bss_bytes) +
            u16 (clicksOf sizes.tot_bytes - clicksOf (sizes.data_bytes + sizes.bss_bytes) -
              clicksOf stk : ℤ)) ∧
          img.segD = ⟨d, d, clicksOf (sizes.data_bytes + sizes.bss_bytes)⟩ ∧
          img.segS = ⟨s, s, clicksOf stk⟩ := by
  unfold newMem at h
  dsimp only at h
  split at h
  · cases h
  next hgap =>
  obtain ⟨max, -, h⟩ := Option.bind_eq_some_iff.mp h
  split at h
  · cases h
  obtain ⟨⟨new_base, t₁⟩, halloc, h⟩ := Option.bind_eq_some_iff.mp h
  dsimp only at h
  split at h
  · cases h
  next hbase =>
  obtain ⟨t₂, -, h⟩ := Option.map_eq_some_iff.mp h
  cases h
  exact ⟨not_lt.mp hgap, t₁, halloc, rfl, hbase, rfl, _, _, rfl, rfl, rfl, rfl⟩

/-- The stack is no larger than it may be, so its clicks are exact. -/
theorem stack_clicks (h₀ : 0 ≤ stk) (h : stk ≤ ARG_MAX) :
    (clicksOf stk : ℤ) = roundUp stk ∧ clicksOf stk ≤ 16 := by
  have hcast := clicksOf_cast stk
  unfold ARG_MAX at h
  unfold roundUp at hcast ⊢
  omega

/-- The gap that is computed is the gap: it is negative as an `int` if it would be negative. -/
theorem gap_exact {dc sc totc : ℕ} (hdc : dc < totc) (htot : totc < 2 ^ 16) (hsc : sc ≤ 16)
    (h : 0 ≤ int16 (u16 (totc - dc - sc : ℤ))) :
    dc + sc ≤ totc ∧ u16 (totc - dc - sc : ℤ) = totc - dc - sc := by
  rw [int16_eq] at h
  unfold u16 at h ⊢
  split at h <;> omega

/-- From the calls to their clicks. The block ends below `2 ^ 16`, as all memory does. -/
theorem execMem_ok {H : List Span} (hH : HolesAre t H) (h₀ : 0 ≤ stk)
    (h : execMem t buf stk fresh = some (.ok (sizes, img))) :
    sizes = execSizes buf ∧ stk ≤ ARG_MAX ∧
      ExecOk buf stk img (clicksOf (textOf buf)) (clicksOf (dataOf buf + bssOf buf)) (clicksOf stk)
        (clicksOf (totOf buf)) := by
  unfold execMem at h
  split_ifs at h with hstk
  · cases h
  have hstk' : stk ≤ ARG_MAX := not_lt.mp hstk
  cases hread : readHeader buf (clicksOf stk) with
  | error e =>
    rw [hread] at h
    cases h
  | ok s =>
    rw [hread] at h
    obtain ⟨r, hnew, hr⟩ := Option.map_eq_some_iff.mp h
    cases r with
    | error e => cases hr
    | ok i =>
      obtain ⟨rfl, rfl⟩ := Prod.mk.inj (Except.ok.inj hr)
      obtain ⟨rfl, hdc⟩ := readHeader_ok hread
      obtain ⟨hgap, t', halloc, hlen, hbase, hT, d, e, hd, he, hD, hS⟩ := newMem_ok hnew
      simp only [text_clicks, data_clicks, tot_clicks] at hdc hgap halloc hlen hT hd he hD
      obtain ⟨hsc, hsc16⟩ := stack_clicks h₀ hstk'
      have htotlt := clicksOf_lt (totOf buf)
      obtain ⟨hroom, hgapeq⟩ := gap_exact hdc htotlt hsc16 hgap
      have hend : i.block.1 + i.block.2 ≤ memEnd := by
        rcases allocMem_spec hH (u16 (clicksOf (textOf buf) + clicksOf (totOf buf))) with
          ⟨-, hno⟩ | ⟨x, hx, hle, t₂, -, hsome, -, -⟩
        · obtain ⟨hzero, -⟩ := Prod.mk.inj (Option.some.inj (halloc.symm.trans hno))
          exact absurd hzero hbase
        · obtain ⟨hbegin, -⟩ := Prod.mk.inj (Option.some.inj (halloc.symm.trans hsome))
          have hxN := hH.within x hx
          rw [hlen]
          omega
      refine ⟨rfl, hstk', {
        tc_eq := clicksOf_cast _
        dc_eq := clicksOf_cast _
        sc_eq := hsc
        totc_eq := clicksOf_cast _
        gap := hroom
        totc_lt := htotlt
        block_len := ?_
        block_end := Nat.lt_of_le_of_lt hend (by decide)
        segT := hT
        segD := ?_
        segS := ?_ }⟩
      · rw [hlen]
        unfold u16
        omega
      · have hdeq : d = (i.block.1 + clicksOf (textOf buf)) % 2 ^ 16 := by
          rw [hd]
          unfold u16
          omega
        rw [hD, hdeq]
      · have heeq : e = (i.block.1 + clicksOf (textOf buf) + clicksOf (totOf buf) -
            clicksOf stk) % 2 ^ 16 := by
          rw [he, hgapeq, hd]
          unfold u16
          omega
        rw [hS, heeq]

/-! ## Fitting -/

/-- The program fits in the block that it got: its sizes in exact arithmetic, the segments of its
map, and what is loaded. -/
structure ExecFits (buf : Fin 8 → BitVec 32) (stk : ℤ) (sizes : ExecSizes) (img : CoreImage) :
    Prop where
  room : roundUp (textOf buf) * CLICK_SIZE + dataOf buf + bssOf buf + stk ≤
    img.block.2 * CLICK_SIZE
  text_begin : img.block.1 ≤ img.segT.mem_phys
  data_begin : img.segT.mem_phys + img.segT.mem_len ≤ img.segD.mem_phys
  stack_begin : img.segD.mem_phys + img.segD.mem_len ≤ img.segS.mem_phys
  stack_end : img.segS.mem_phys + img.segS.mem_len ≤ img.block.1 + img.block.2
  text_loads : LoadsWithin img.segT sizes.text_bytes
  data_loads : LoadsWithin img.segD sizes.data_bytes

/-- The sizes are such that nothing that matters is lost when they are cut to clicks of 16 bits. -/
structure ExecExact (buf : Fin 8 → BitVec 32) : Prop where
  /-- The clicks of text and total together need no more than 16 bits. -/
  block : roundUp (textOf buf) % 2 ^ 16 + roundUp (totOf buf) % 2 ^ 16 < 2 ^ 16
  text : roundUp (textOf buf) < 2 ^ 16
  /-- What is cut off of text, and of data and bss, is not positive on the whole. -/
  cut : roundUp (textOf buf) / 2 ^ 16 + roundUp (dataOf buf + bssOf buf) / 2 ^ 16 ≤ 0
  /-- The data has room in the clicks of data and bss. -/
  data : loaded (long32 (dataOf buf)) ≤ roundUp (dataOf buf + bssOf buf) % 2 ^ 16 * CLICK_SIZE

/-- The segments are in order if the clicks do not wrap. -/
theorem ExecOk.order_iff {tc dc sc totc : ℕ} (h : ExecOk buf stk img tc dc sc totc) :
    (img.block.1 ≤ img.segT.mem_phys ∧
      img.segT.mem_phys + img.segT.mem_len ≤ img.segD.mem_phys ∧
      img.segD.mem_phys + img.segD.mem_len ≤ img.segS.mem_phys ∧
      img.segS.mem_phys + img.segS.mem_len ≤ img.block.1 + img.block.2) ↔ tc + totc < 2 ^ 16 := by
  have hgap := h.gap
  have htot := h.totc_lt
  have hlen := h.block_len
  have hend := h.block_end
  rw [h.segT, h.segD, h.segS]
  dsimp only
  omega

/-- Without that wrap, the sizes fit if nothing is cut off. -/
theorem ExecOk.room_iff {tc dc sc totc : ℕ} (h : ExecOk buf stk img tc dc sc totc) (h₀ : 0 ≤ stk)
    (hblock : tc + totc < 2 ^ 16) :
    roundUp (textOf buf) * CLICK_SIZE + dataOf buf + bssOf buf + stk ≤
        img.block.2 * CLICK_SIZE ↔
      roundUp (textOf buf) / 2 ^ 16 + roundUp (dataOf buf + bssOf buf) / 2 ^ 16 ≤ 0 := by
  have htc := h.tc_eq
  have hdc := h.dc_eq
  have hsc := h.sc_eq
  have hgap := h.gap
  have hlen := h.block_len
  rw [show CLICK_SIZE = 256 from rfl]
  generalize roundUp (textOf buf) = T at htc ⊢
  unfold roundUp at hdc hsc ⊢
  omega

/-- The text is loaded within its segment if its clicks have 16 bits. -/
theorem ExecOk.text_iff {tc dc sc totc : ℕ} (h : ExecOk buf stk img tc dc sc totc) :
    LoadsWithin img.segT (textOf buf) ↔ roundUp (textOf buf) < 2 ^ 16 := by
  have htc := h.tc_eq
  rw [loadsWithin_iff, h.segT, show CLICK_SIZE = 256 from rfl]
  unfold loaded roundUp at *
  dsimp only
  split
  · rw [int16_eq]
    split <;> omega
  · omega

/-- Accepted executables fit, exactly if their sizes are exact. -/
theorem exec_fits_iff {phys : PhysMem} {m : Memory} (hm : Reachable (MemStart phys) MemStep m)
    (h₀ : 0 ≤ stk) (h : execMem m.table buf stk fresh = some (.ok (sizes, img))) :
    ExecFits buf stk sizes img ↔ ExecExact buf := by
  obtain ⟨H, hH⟩ := reachable_balanced hm
  obtain ⟨rfl, -, hok⟩ := execMem_ok hH.holes h₀ h
  have horder := hok.order_iff
  have hdata : LoadsWithin img.segD (execSizes buf).data_bytes ↔
      loaded (long32 (dataOf buf)) ≤ roundUp (dataOf buf + bssOf buf) % 2 ^ 16 * CLICK_SIZE := by
    rw [loadsWithin_iff, hok.segD, execSizes_data]
    dsimp only
    rw [hok.dc_eq]
  have hblock : clicksOf (textOf buf) + clicksOf (totOf buf) < 2 ^ 16 ↔
      roundUp (textOf buf) % 2 ^ 16 + roundUp (totOf buf) % 2 ^ 16 < 2 ^ 16 := by
    rw [← hok.tc_eq, ← hok.totc_eq]
    omega
  have htext : LoadsWithin img.segT (execSizes buf).text_bytes ↔ roundUp (textOf buf) < 2 ^ 16 := by
    rw [execSizes_text]
    exact hok.text_iff
  constructor
  · intro hfits
    have hnowrap := horder.mp
      ⟨hfits.text_begin, hfits.data_begin, hfits.stack_begin, hfits.stack_end⟩
    exact {
      block := hblock.mp hnowrap
      text := htext.mp hfits.text_loads
      cut := (hok.room_iff h₀ hnowrap).mp hfits.room
      data := hdata.mp hfits.data_loads }
  · intro hexact
    have hnowrap := hblock.mpr hexact.block
    obtain ⟨hbegin, hT, hD, hS⟩ := horder.mpr hnowrap
    exact {
      room := (hok.room_iff h₀ hnowrap).mpr hexact.cut
      text_begin := hbegin
      data_begin := hT
      stack_begin := hD
      stack_end := hS
      text_loads := htext.mpr hexact.text
      data_loads := hdata.mpr hexact.data }

/-- A header with these sizes of text, data, bss and total. -/
def header (magic text data bss tot : BitVec 32) : Fin 8 → BitVec 32 :=
  ![magic, 32, text, data, bss, 0, tot, 0]

/-- A program of three clicks of text, three of data and bss, a gap and a stack. -/
def smallHeader : Fin 8 → BitVec 32 := header 0x04100301 0x300 0x200 0x100 0x1000

/-- Its text and total are 65716 clicks, which wrap to 180. -/
def wrapHeader : Fin 8 → BitVec 32 := header 0x04200301 0xFF8800 0x100 0 0x12C00

/-- A process with 70 clicks executes the program of a header, with a stack of 64 bytes. -/
def execTwoChunks (buf : Fin 8 → BitVec 32) :
    Option (ExecSizes × Span × MemMap × MemMap × MemMap) :=
  (memInit ⟨0, 0, fun _ => none, none, none⟩ twoChunks.chunks).bind fun t =>
    (maxHole t).bind fun _ => (allocMem t 100).bind fun p => (allocMem p.2 70).bind fun q =>
      match execMem q.2 buf 64 (100, 70) with
      | some (.ok (sizes, img)) => some (sizes, img.block, img.segT, img.segD, img.segS)
      | _ => none

theorem execTwoChunks_reachable {r : ExecSizes × Span × MemMap × MemMap × MemMap}
    (h : execTwoChunks buf = some r) : ∃ m sizes img,
      Reachable (MemStart twoChunks) MemStep m ∧
        execMem m.table buf 64 (100, 70) = some (.ok (sizes, img)) ∧
          r = (sizes, img.block, img.segT, img.segD, img.segS) := by
  have hrun : ((memInit ⟨0, 0, fun _ => none, none, none⟩ twoChunks.chunks).bind fun t =>
      (maxHole t).bind fun m => (allocMem t 100).bind fun p => (allocMem p.2 70).bind fun q =>
        some (m, p.1, q.1)) = some (640, 0, 100) := by
    decide +kernel
  simp only [Option.bind_eq_some_iff, Option.some.injEq, Prod.mk.injEq] at hrun
  obtain ⟨t, h₁, m, h₂, ⟨_, t₁⟩, h₃, ⟨_, t₂⟩, h₄, rfl, rfl, rfl⟩ := hrun
  have hstart : MemStart twoChunks ⟨t₁, [(0, 100)]⟩ :=
    ⟨_, t, 640, 100, h₁, by decide, h₂, by decide, h₃, rfl⟩
  have halloc : MemStep ⟨t₁, [(0, 100)]⟩ (.alloc 70) ⟨t₂, (100, 70) :: [(0, 100)]⟩ :=
    MemStep.alloc (s := ⟨t₁, [(0, 100)]⟩) h₄
  have hreach := (Reachable.of_init hstart).of_step halloc
  unfold execTwoChunks at h
  rw [h₁, Option.bind_some, h₂, Option.bind_some, h₃, Option.bind_some, h₄, Option.bind_some] at h
  split at h
  · next sizes img hexec => exact ⟨_, sizes, img, hreach, hexec, (Option.some.inj h).symm⟩
  · cases h

theorem exec_fits_small : ∃ (m : Memory) (sizes : ExecSizes) (img : CoreImage),
    execMem m.table smallHeader 64 (100, 70) = some (.ok (sizes, img)) ∧ img.block = (170, 16) ∧
      (ExecFits smallHeader 64 sizes img ↔ ExecExact smallHeader) := by
  have hrun : (execTwoChunks smallHeader).map (fun r => r.2.1) = some (170, 16) := by
    decide +kernel
  obtain ⟨r, hr, hblock⟩ := Option.map_eq_some_iff.mp hrun
  obtain ⟨m, sizes, img, hm, hexec, rfl⟩ := execTwoChunks_reachable hr
  exact ⟨m, sizes, img, hexec, hblock, exec_fits_iff hm (by decide) hexec⟩

/-- A program with much text gets a block of 180 clicks from click 170 on, and data in the memory of
the system, at click 50. -/
theorem exec_overlays : ∃ (m : Memory) (sizes : ExecSizes) (img : CoreImage),
    Reachable (MemStart twoChunks) MemStep m ∧
      execMem m.table wrapHeader 64 (100, 70) = some (.ok (sizes, img)) ∧
        img.block = (170, 180) ∧ img.segD = ⟨50, 50, 1⟩ ∧ ¬ ExecFits wrapHeader 64 sizes img := by
  have hrun : (execTwoChunks wrapHeader).map (fun r => (r.2.1, r.2.2.1, r.2.2.2.1)) =
      some ((170, 180), ⟨170, 170, 65416⟩, ⟨50, 50, 1⟩) := by
    decide +kernel
  obtain ⟨r, hr, hproj⟩ := Option.map_eq_some_iff.mp hrun
  obtain ⟨m, sizes, img, hm, hexec, rfl⟩ := execTwoChunks_reachable hr
  obtain ⟨hblock, hsegs⟩ := Prod.mk.inj hproj
  obtain ⟨hT, hD⟩ := Prod.mk.inj hsegs
  refine ⟨m, sizes, img, hm, hexec, hblock, hD, fun hfits => ?_⟩
  have hbegin := hfits.data_begin
  dsimp only at hT hD
  rw [hT, hD] at hbegin
  exact absurd hbegin (by decide)

end Minix.Mm
