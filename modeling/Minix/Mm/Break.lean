import Minix.Lib.Words
import Minix.Mm.Signal

/-!
# The break and the stack

`do_brk` of `mm/break.c`, and what `adjust` does for its three callers. A pointer to memory of the
process is the number of the byte. `adjust` changes the fields of the map one by one and takes its
changes back if the sizes turn out not to fit, so it comes down to the question whether there is
`Room`: if there is, the entry is `grown`, and if there is none, the entry is as before
(`adjust_eq`).
-/

namespace Minix.Mm

open Lib (long32 long32_eq long32_long32_add)

/-- Not enough core. -/
def ENOMEM : ℤ := -12

/-- The clicks below a break: `(vir_clicks) (((long) v + CLICK_SIZE - 1) >> CLICK_SHIFT)`. -/
def brkClicks (addr : ℤ) : ℕ := u16 (long32 (long32 addr + CLICK_SIZE - 1) >>> CLICK_SHIFT)

/-- The size of the data segment for a break. -/
def brkSize (p : MProc) (addr : ℤ) : ℕ := u16 (brkClicks addr - p.segD.mem_vir)

/-- Perform the brk(addr) system call: the answer, `res_ptr`, and the entry afterwards. `new_sp` is
the stack pointer that `sys_getsp` reports. -/
def doBrk (n : ProcNr) (p : MProc) (addr new_sp : ℤ) : ℤ × ℤ × MProc :=
  if brkClicks addr < p.segD.mem_vir then (ENOMEM, -1, p)
  else
    let (room, p) := adjust n p (brkSize p addr) new_sp
    if room then (OK, addr, p) else (ENOMEM, -1, p)

/-- The fields of a segment are of the types `vir_clicks` and `phys_clicks`. -/
structure MemMap.Clicks (m : MemMap) : Prop where
  vir : m.mem_vir < 2 ^ 16
  phys : m.mem_phys < 2 ^ 16
  len : m.mem_len < 2 ^ 16

variable {n : ProcNr} {p : MProc} {data_clicks : ℕ} {sp addr new_sp : ℤ}

/-! ## Clicks -/

theorem u16_lt (x : ℤ) : u16 x < 2 ^ 16 := by
  unfold u16
  omega

theorem u16_of_lt {k : ℕ} (h : k < 2 ^ 16) : u16 k = k := by
  unfold u16
  omega

theorem u16_cast (x : ℤ) : (u16 x : ℤ) = x % 2 ^ 16 := by
  unfold u16
  omega

/-- A shift by a click is a division. -/
theorem shiftRight_click (x : ℤ) : x >>> CLICK_SHIFT = x / 256 := by
  rw [Int.shiftRight_eq_div_pow]
  rfl

/-- A long that has wrapped still has the right clicks, as far as 16 bits go. -/
theorem clicks_long32 (x : ℤ) : (u16 (long32 x >>> CLICK_SHIFT) : ℤ) = x / 256 % 2 ^ 16 := by
  rw [u16_cast, shiftRight_click, long32_eq]
  split <;> omega

/-- The click of an address. -/
def spClick (sp : ℤ) : ℕ := u16 (sp >>> CLICK_SHIFT)

theorem spClick_cast (sp : ℤ) : (spClick sp : ℤ) = sp / 256 % 2 ^ 16 := by
  rw [spClick, u16_cast, shiftRight_click]

theorem spClick_lt (sp : ℤ) : spClick sp < 2 ^ 16 := u16_lt _

/-- In memory of 24 bits the click of an address is where the address is. -/
theorem spClick_of_lt (h₀ : 0 ≤ sp) (h : sp < 2 ^ 24) : (spClick sp : ℤ) = sp / 256 := by
  rw [spClick_cast]
  omega

/-! ## `adjust` -/

/-- The lower end of the stack, with the click of the stack pointer in it. -/
def lower (p : MProc) (sp : ℤ) : ℕ := min (spClick sp) p.segS.mem_vir

/-- The stack pointer is not beyond the stack, and data of this size ends below the stack, by the
margin of safety too. The sums are cut to 16 bits. -/
def Room (p : MProc) (data_clicks : ℕ) (sp : ℤ) : Prop :=
  spClick sp < p.segS.mem_vir + p.segS.mem_len ∧
    u16 (p.segD.mem_vir + data_clicks + SAFETY_CLICKS) ≤ lower p sp ∧
      u16 (p.segD.mem_vir + data_clicks) ≤ lower p sp

instance : Decidable (Room p data_clicks sp) := inferInstanceAs (Decidable (_ ∧ _ ∧ _))

/-- The entry with data of another size. -/
def setData (p : MProc) (data_clicks : ℕ) : MProc :=
  { p with segD := { p.segD with mem_len := data_clicks } }

/-- The entry with data of another size, and a stack down to the stack pointer. -/
def grown (p : MProc) (data_clicks : ℕ) (sp : ℤ) : MProc :=
  if spClick sp < p.segS.mem_vir then
    moveStack (setData p data_clicks) (p.segS.mem_vir - spClick sp)
  else setData p data_clicks

/-- The change of the stack is taken back exactly. -/
theorem moveStack_back (hS : p.segS.Clicks) (k : ℕ) (delta : ℤ) :
    moveStack (setData (moveStack (setData p k) delta) p.segD.mem_len) (-delta) = p := by
  obtain ⟨hvir, hphys, hlen⟩ := hS
  have hback : ∀ {m : ℕ} (d : ℤ), m < 2 ^ 16 → u16 (u16 (m + d) - d) = m := by
    intro m d hm
    unfold u16
    omega
  have hv : u16 (u16 (p.segS.mem_vir - delta) - -delta) = p.segS.mem_vir := hback (-delta) hvir
  have hp : u16 (u16 (p.segS.mem_phys - delta) - -delta) = p.segS.mem_phys := hback (-delta) hphys
  have hl : u16 (u16 (p.segS.mem_len + delta) + -delta) = p.segS.mem_len := hback delta hlen
  simp only [moveStack, setData, hv, hp, hl]

/-- The lower end of the stack in the entry with more of both. -/
theorem grown_vir (p : MProc) (k : ℕ) (sp : ℤ) :
    (grown p k sp).segS.mem_vir = lower p sp := by
  unfold grown lower
  split
  · next h =>
    have heq : (p.segS.mem_vir : ℤ) - (p.segS.mem_vir - spClick sp : ℤ) = spClick sp := by omega
    have hvir : (moveStack (setData p k) (p.segS.mem_vir - spClick sp)).segS.mem_vir =
        u16 (p.segS.mem_vir - (p.segS.mem_vir - spClick sp : ℤ)) := rfl
    rw [hvir, heq, u16_of_lt (spClick_lt sp), min_eq_left h.le]
  · next h => exact (min_eq_right (not_lt.mp h)).symm

theorem grown_segD (p : MProc) (k : ℕ) (sp : ℤ) :
    (grown p k sp).segD = { p.segD with mem_len := k } := by
  unfold grown
  split <;> rfl

theorem grown_rest (p : MProc) (k : ℕ) (sp : ℤ) :
    grown p k sp = { p with segD := (grown p k sp).segD, segS := (grown p k sp).segS } := by
  unfold grown
  split <;> rfl

/-- What `adjust` does for a process other than `INIT`: all of it or nothing. -/
theorem adjust_eq (hn : n ≠ INIT_PROC_NR) (hS : p.segS.Clicks) (data_clicks : ℕ) (sp : ℤ) :
    adjust n p data_clicks sp =
      if Room p data_clicks sp then (true, grown p data_clicks sp) else (false, p) := by
  have hvir := grown_vir p data_clicks sp
  have hdata := congrArg MemMap.mem_len (grown_segD p data_clicks sp)
  have hbase := congrArg MemMap.mem_vir (grown_segD p data_clicks sp)
  have hlower : (if 0 < (p.segS.mem_vir : ℤ) - spClick sp then spClick sp else p.segS.mem_vir) =
      lower p sp := by
    unfold lower
    split <;> omega
  have hgrown : (if 0 < (p.segS.mem_vir : ℤ) - spClick sp then
      moveStack (setData p data_clicks) (p.segS.mem_vir - spClick sp) else setData p data_clicks) =
      grown p data_clicks sp := by
    unfold grown
    exact if_congr (by omega) rfl rfl
  have hback : (if 0 < (p.segS.mem_vir : ℤ) - spClick sp then
      moveStack (setData (grown p data_clicks sp) p.segD.mem_len) (-(p.segS.mem_vir - spClick sp))
      else setData (grown p data_clicks sp) p.segD.mem_len) = p := by
    unfold grown
    by_cases h : spClick sp < p.segS.mem_vir
    · rw [if_pos h, if_pos (by omega)]
      exact moveStack_back hS ..
    · rw [if_neg h, if_neg (by omega)]
      rfl
  have hadjust : adjust n p data_clicks sp =
      if p.segS.mem_vir + p.segS.mem_len ≤ spClick sp then (false, p)
      else if (if 0 < (p.segS.mem_vir : ℤ) - spClick sp then spClick sp else p.segS.mem_vir) <
          u16 (p.segD.mem_vir + data_clicks + SAFETY_CLICKS) then (false, p)
      else
        let q := if 0 < (p.segS.mem_vir : ℤ) - spClick sp then
          moveStack (setData p data_clicks) (p.segS.mem_vir - spClick sp) else setData p data_clicks
        if sizeOk q.segD.mem_len q.segD.mem_vir q.segS.mem_vir then (true, q)
        else
          (false, if 0 < (p.segS.mem_vir : ℤ) - spClick sp then
            moveStack (setData q p.segD.mem_len) (-(p.segS.mem_vir - spClick sp))
            else setData q p.segD.mem_len) := by
    unfold adjust
    rw [if_neg hn]
    rfl
  rw [hadjust, hlower, hgrown]
  dsimp only
  rw [hback, hvir, hdata, hbase]
  unfold sizeOk
  by_cases h₁ : p.segS.mem_vir + p.segS.mem_len ≤ spClick sp
  · have hno : ¬ Room p data_clicks sp := fun h => absurd h.1 (not_lt.mpr h₁)
    rw [if_pos h₁, if_neg hno]
  by_cases h₂ : lower p sp < u16 (p.segD.mem_vir + data_clicks + SAFETY_CLICKS)
  · have hno : ¬ Room p data_clicks sp := fun h => absurd h.2.1 (not_le.mpr h₂)
    rw [if_neg h₁, if_pos h₂, if_neg hno]
  rw [if_neg h₁, if_neg h₂]
  by_cases h₃ : u16 (p.segD.mem_vir + data_clicks) ≤ lower p sp
  · have hroom : Room p data_clicks sp := ⟨not_le.mp h₁, not_lt.mp h₂, h₃⟩
    rw [if_pos (decide_eq_true h₃), if_pos hroom]
  · have hno : ¬ Room p data_clicks sp := fun h => h₃ h.2.2
    rw [decide_eq_false h₃, if_neg hno]
    exact if_neg Bool.false_ne_true

/-! ## The callers -/

/-- The map of a process: its data is below its stack, which ends within the address space. -/
structure MapOk (p : MProc) : Prop where
  data : p.segD.mem_vir + p.segD.mem_len ≤ p.segS.mem_vir
  stack : p.segS.mem_vir + p.segS.mem_len ≤ 2 ^ 16
  dClicks : p.segD.Clicks
  sClicks : p.segS.Clicks

/-- The calls of `adjust`, with the size of the data and the stack pointer that they pass. -/
inductive AdjustCall (p : MProc) : ℕ → ℤ → Prop
  /-- `do_brk`, unless it refuses the address itself. -/
  | brk (addr new_sp : ℤ) (h : p.segD.mem_vir ≤ brkClicks addr) :
      AdjustCall p (brkSize p addr) new_sp
  /-- `sig_proc`, with what a signal pushes. -/
  | signal (new_sp : ℤ) : AdjustCall p p.segD.mem_len (new_sp - SIG_PUSH_BYTES)
  /-- `stack_fault`, with one click between data and stack. -/
  | fault (new_sp : ℤ) : AdjustCall p p.segD.mem_len (new_sp - CLICK_SIZE)

/-- What becomes of a map that was adjusted. The stack is moved in the clicks of 16 bits that
`mem_phys` is counted in. -/
structure Adjusted (p p' : MProc) (data_clicks : ℕ) (sp : ℤ) : Prop where
  /-- Nothing but data and stack is changed. -/
  rest : p' = { p with segD := p'.segD, segS := p'.segS }
  data_len : p'.segD.mem_len = data_clicks
  data_vir : p'.segD.mem_vir = p.segD.mem_vir
  data_phys : p'.segD.mem_phys = p.segD.mem_phys
  stack_end : p'.segS.mem_vir + p'.segS.mem_len = p.segS.mem_vir + p.segS.mem_len
  stack_phys : (p'.segS.mem_phys + p'.segS.mem_len) % 2 ^ 16 =
    (p.segS.mem_phys + p.segS.mem_len) % 2 ^ 16
  /-- Without a wrap, if the stack has room below it in memory. -/
  stack_phys_eq : p.segS.mem_vir ≤ p.segS.mem_phys + p.segD.mem_vir →
    p'.segS.mem_phys + p'.segS.mem_len = p.segS.mem_phys + p.segS.mem_len
  apart : p'.segD.mem_vir + p'.segD.mem_len ≤ p'.segS.mem_vir
  sp_inside : p'.segS.mem_vir ≤ spClick sp
  sp_above : 0 ≤ sp → sp < 2 ^ 24 → (p'.segS.mem_vir : ℤ) * CLICK_SIZE ≤ sp
  stack_grows : p.segS.mem_len ≤ p'.segS.mem_len

/-- `adjust` returns `ENOMEM` and has changed nothing, or `OK` and the map is adjusted. -/
def AdjustOutcome (p : MProc) (r : Bool × MProc) (data_clicks : ℕ) (sp : ℤ) : Prop :=
  r = (false, p) ∨ r.1 = true ∧ Adjusted p r.2 data_clicks sp

theorem brkClicks_lt (addr : ℤ) : brkClicks addr < 2 ^ 16 := u16_lt _

theorem brkSize_add (h : p.segD.mem_vir ≤ brkClicks addr) :
    p.segD.mem_vir + brkSize p addr = brkClicks addr := by
  have hlt := brkClicks_lt addr
  have hsize : brkSize p addr = brkClicks addr - p.segD.mem_vir := by
    have hcast : (brkClicks addr : ℤ) - p.segD.mem_vir =
        (brkClicks addr - p.segD.mem_vir : ℕ) := by omega
    rw [brkSize, hcast]
    exact u16_of_lt (by omega)
  omega

/-- The data that the callers ask for ends within the address space. -/
theorem AdjustCall.fits (hp : MapOk p) (h : AdjustCall p data_clicks sp) :
    p.segD.mem_vir + data_clicks < 2 ^ 16 := by
  have hdata := hp.data
  have hvir := hp.sClicks.vir
  cases h with
  | brk addr _ h =>
    rw [brkSize_add h]
    exact brkClicks_lt addr
  | signal => omega
  | fault => omega

/-- The new stack, if the stack pointer is below the old one. -/
theorem grown_segS (h : spClick sp < p.segS.mem_vir) (k : ℕ) :
    (grown p k sp).segS.mem_phys = u16 (p.segS.mem_phys - (p.segS.mem_vir - spClick sp : ℤ)) ∧
      (grown p k sp).segS.mem_len = u16 (p.segS.mem_len + (p.segS.mem_vir - spClick sp : ℤ)) := by
  unfold grown
  rw [if_pos h]
  exact ⟨rfl, rfl⟩

theorem grown_segS_of_le (h : ¬ spClick sp < p.segS.mem_vir) (k : ℕ) :
    (grown p k sp).segS = p.segS := by
  unfold grown
  rw [if_neg h]
  rfl

/-- If there is room, the map is adjusted as it should be. In click 0 there is never room: the stack
would have a length of `2 ^ 16`, but the data or the margin of safety is in the way. -/
theorem grown_adjusted (hp : MapOk p) (hfits : p.segD.mem_vir + data_clicks < 2 ^ 16)
    (hroom : Room p data_clicks sp) : Adjusted p (grown p data_clicks sp) data_clicks sp := by
  obtain ⟨hbelow, hmargin, hsize⟩ := hroom
  have hend := hp.stack
  have hlen := hp.sClicks.len
  have hphys := hp.sClicks.phys
  have hD := grown_segD p data_clicks sp
  have hvir := grown_vir p data_clicks sp
  have hlow : lower p sp ≤ spClick sp := min_le_left ..
  have hlow' : lower p sp ≤ p.segS.mem_vir := min_le_right ..
  have hcast : u16 ((p.segD.mem_vir : ℤ) + data_clicks) = p.segD.mem_vir + data_clicks := by
    rw [← Nat.cast_add]
    exact u16_of_lt hfits
  rw [hcast] at hsize
  have hapart : (grown p data_clicks sp).segD.mem_vir + (grown p data_clicks sp).segD.mem_len ≤
      (grown p data_clicks sp).segS.mem_vir := by
    rw [hvir, hD]
    exact hsize
  have hinside : (grown p data_clicks sp).segS.mem_vir ≤ spClick sp := by
    rw [hvir]
    exact hlow
  have habove : 0 ≤ sp → sp < 2 ^ 24 →
      ((grown p data_clicks sp).segS.mem_vir : ℤ) * CLICK_SIZE ≤ sp := by
    intro h₀ h₁
    have hclick := spClick_of_lt h₀ h₁
    rw [show CLICK_SIZE = 256 from rfl]
    omega
  by_cases h : spClick sp < p.segS.mem_vir
  · have hmin : lower p sp = spClick sp := min_eq_left h.le
    obtain ⟨hphys', hlen'⟩ := grown_segS h data_clicks
    have hpos : 0 < spClick sp := by
      by_contra hzero
      have hz : p.segD.mem_vir + data_clicks = 0 := by omega
      have hmargin' : u16 ((p.segD.mem_vir : ℤ) + data_clicks + SAFETY_CLICKS) = 6 := by
        rw [← Nat.cast_add, hz]
        rfl
      omega
    have hlenEq : u16 (p.segS.mem_len + (p.segS.mem_vir - spClick sp : ℤ)) =
        p.segS.mem_len + (p.segS.mem_vir - spClick sp) := by
      unfold u16
      omega
    rw [hlenEq] at hlen'
    have hphysMod : (u16 (p.segS.mem_phys - (p.segS.mem_vir - spClick sp : ℤ)) : ℤ) =
        (p.segS.mem_phys - (p.segS.mem_vir - spClick sp : ℤ)) % 2 ^ 16 := u16_cast _
    exact {
      rest := grown_rest ..
      data_len := by rw [hD]
      data_vir := by rw [hD]
      data_phys := by rw [hD]
      stack_end := by
        rw [hvir, hlen']
        omega
      stack_phys := by
        rw [hphys', hlen']
        omega
      stack_phys_eq := fun hroom => by
        rw [hphys', hlen']
        omega
      apart := hapart
      sp_inside := hinside
      sp_above := habove
      stack_grows := by
        rw [hlen']
        omega }
  · have hS := grown_segS_of_le h data_clicks
    exact {
      rest := grown_rest ..
      data_len := by rw [hD]
      data_vir := by rw [hD]
      data_phys := by rw [hD]
      stack_end := by rw [hS]
      stack_phys := by rw [hS]
      stack_phys_eq := fun _ => by rw [hS]
      apart := hapart
      sp_inside := hinside
      sp_above := habove
      stack_grows := le_of_eq (by rw [hS]) }

/-- Segment adjustment is atomic and sound, for each of the callers. -/
theorem adjust_atomic (hn : n ≠ INIT_PROC_NR) (hp : MapOk p) (h : AdjustCall p data_clicks sp) :
    AdjustOutcome p (adjust n p data_clicks sp) data_clicks sp := by
  rw [adjust_eq hn hp.sClicks]
  by_cases hroom : Room p data_clicks sp
  · rw [if_pos hroom]
    exact .inr ⟨rfl, grown_adjusted hp (h.fits hp) hroom⟩
  · rw [if_neg hroom]
    exact .inl rfl

/-- A process of 16 clicks of data and 16 clicks of stack. -/
def twoSegments : MProc :=
  { (mmInit fun _ => (⟨0xF0, 0xF0, 0x10⟩, ⟨0x100, 0x100, 0x10⟩, ⟨0x200, 0x200, 0x10⟩)).mproc 3 with
    mp_pid := 3 }

theorem twoSegments_mapOk : MapOk twoSegments where
  data := by decide
  stack := by decide
  dClicks := ⟨by decide, by decide, by decide⟩
  sClicks := ⟨by decide, by decide, by decide⟩

theorem adjust_atomic_brk :
    AdjustOutcome twoSegments (adjust 3 twoSegments (brkSize twoSegments 0x12345) 0x1FF00)
      (brkSize twoSegments 0x12345) 0x1FF00 :=
  adjust_atomic (by decide) twoSegments_mapOk (.brk 0x12345 0x1FF00 (by decide))

example : (adjust 3 twoSegments (brkSize twoSegments 0x12345) 0x1FF00).2.segS =
    ⟨0x1FF, 0x1FF, 0x11⟩ := by
  decide

theorem grown_clicks (hS : p.segS.Clicks) (k : ℕ) (sp : ℤ) : (grown p k sp).segS.Clicks := by
  by_cases h : spClick sp < p.segS.mem_vir
  · obtain ⟨hphys, hlen⟩ := grown_segS h k
    have hvir : (grown p k sp).segS.mem_vir ≤ p.segS.mem_vir := by
      rw [grown_vir]
      exact min_le_right ..
    exact ⟨hvir.trans_lt hS.vir, hphys ▸ u16_lt _, hlen ▸ u16_lt _⟩
  · rw [grown_segS_of_le h]
    exact hS

/-- A map stays as it should be, whoever adjusts it. -/
theorem AdjustCall.mapOk (hn : n ≠ INIT_PROC_NR) (hp : MapOk p) (h : AdjustCall p data_clicks sp) :
    MapOk (adjust n p data_clicks sp).2 := by
  rw [adjust_eq hn hp.sClicks]
  by_cases hroom : Room p data_clicks sp
  · rw [if_pos hroom]
    have hfits := h.fits hp
    have hgrown := grown_adjusted hp hfits hroom
    have hD := grown_segD p data_clicks sp
    exact {
      data := hgrown.apart
      stack := hgrown.stack_end ▸ hp.stack
      dClicks := hD ▸ ⟨hp.dClicks.vir, hp.dClicks.phys, lt_of_le_of_lt (Nat.le_add_left ..) hfits⟩
      sClicks := grown_clicks hp.sClicks .. }
  · rw [if_neg hroom]
    exact hp

/-- `do_brk` of a process other than `INIT` either refuses and changes nothing, or adjusts the map.
-/
theorem doBrk_outcome (hn : n ≠ INIT_PROC_NR) (hp : MapOk p) (addr new_sp : ℤ) :
    doBrk n p addr new_sp = (ENOMEM, -1, p) ∨
      ∃ p', doBrk n p addr new_sp = (OK, addr, p') ∧ Adjusted p p' (brkSize p addr) new_sp := by
  unfold doBrk
  by_cases h : brkClicks addr < p.segD.mem_vir
  · rw [if_pos h]
    exact .inl rfl
  rw [if_neg h]
  have houtcome := adjust_eq hn hp.sClicks (brkSize p addr) new_sp
  rw [houtcome]
  by_cases hroom : Room p (brkSize p addr) new_sp
  · rw [if_pos hroom]
    have hcall : AdjustCall p (brkSize p addr) new_sp := .brk addr new_sp (not_lt.mp h)
    exact .inr ⟨_, rfl, grown_adjusted hp (hcall.fits hp) hroom⟩
  · rw [if_neg hroom]
    exact .inl rfl

/-- A signal that is to be caught: the map is adjusted, or nothing but `mp_catch` is changed. -/
theorem catchSig_outcome {k : Outside} {s : MState} {rmp : ProcNr} (sig_nr : ℕ)
    (hn : rmp ≠ INIT_PROC_NR) (hp : MapOk (s.mproc rmp)) :
    AdjustOutcome
      { s.mproc rmp with mp_catch := clearSig (s.mproc rmp).mp_catch sig_nr }
      ((catchSig k s rmp sig_nr).1, (catchSig k s rmp sig_nr).2.mproc rmp)
      (s.mproc rmp).segD.mem_len (k.sp rmp sig_nr - SIG_PUSH_BYTES) := by
  have hmap : MapOk { s.mproc rmp with mp_catch := clearSig (s.mproc rmp).mp_catch sig_nr } :=
    ⟨hp.data, hp.stack, hp.dClicks, hp.sClicks⟩
  have hentry : ((catchSig k s rmp sig_nr).1, (catchSig k s rmp sig_nr).2.mproc rmp) =
      adjust rmp { s.mproc rmp with mp_catch := clearSig (s.mproc rmp).mp_catch sig_nr }
        (s.mproc rmp).segD.mem_len (k.sp rmp sig_nr - SIG_PUSH_BYTES) := by
    unfold catchSig
    simp only [MState.set, Function.update_self]
  rw [hentry, adjust_eq hn hmap.sClicks]
  by_cases hroom : Room { s.mproc rmp with mp_catch := clearSig (s.mproc rmp).mp_catch sig_nr }
      (s.mproc rmp).segD.mem_len (k.sp rmp sig_nr - SIG_PUSH_BYTES)
  · rw [if_pos hroom]
    have hcall := AdjustCall.signal (p := { s.mproc rmp with
      mp_catch := clearSig (s.mproc rmp).mp_catch sig_nr }) (k.sp rmp sig_nr)
    exact .inr ⟨rfl, grown_adjusted hmap (hcall.fits hmap) hroom⟩
  · rw [if_neg hroom]
    exact .inl rfl

/-! ## What an answer of `do_brk` means -/

/-- If the answer is `OK`, the bytes below the address are in the data segment. -/
def BrkMeans (n : ProcNr) (p : MProc) (addr new_sp : ℤ) : Prop :=
  (doBrk n p addr new_sp).1 = OK →
    addr ≤ ((doBrk n p addr new_sp).2.2.segD.mem_vir +
      (doBrk n p addr new_sp).2.2.segD.mem_len) * CLICK_SIZE

/-- There is room for data up to a click. -/
def RoomBelow (p : MProc) (click : ℕ) (new_sp : ℤ) : Prop :=
  spClick new_sp < p.segS.mem_vir + p.segS.mem_len ∧
    (click + SAFETY_CLICKS) % 2 ^ 16 ≤ lower p new_sp ∧ click ≤ lower p new_sp

/-- The address is within the clicks that 16 bits can count, or what is left of it in 16 bits is
refused too. For `INIT`, whose segments are never adjusted, it has to be within the data as it is.
-/
def BrkFits (n : ProcNr) (p : MProc) (addr new_sp : ℤ) : Prop :=
  if n = INIT_PROC_NR then
    brkClicks addr < p.segD.mem_vir ∨ addr ≤ (p.segD.mem_vir + p.segD.mem_len) * CLICK_SIZE
  else
    addr ≤ 0xFFFF00 ∨ brkClicks addr < p.segD.mem_vir ∨ ¬ RoomBelow p (brkClicks addr) new_sp

/-- The clicks of an address are cut to 16 bits. -/
theorem brkClicks_cast (addr : ℤ) : (brkClicks addr : ℤ) = (addr + 255) / 256 % 2 ^ 16 := by
  rw [brkClicks, add_sub_assoc, long32_long32_add, clicks_long32]
  rfl

theorem room_brkSize (h : p.segD.mem_vir ≤ brkClicks addr) :
    Room p (brkSize p addr) new_sp ↔ RoomBelow p (brkClicks addr) new_sp := by
  have hsum : (p.segD.mem_vir : ℤ) + brkSize p addr = brkClicks addr := by
    rw [← Nat.cast_add, brkSize_add h]
  have hmargin : u16 ((brkClicks addr : ℤ) + SAFETY_CLICKS) =
      (brkClicks addr + SAFETY_CLICKS) % 2 ^ 16 := by
    unfold u16
    omega
  unfold Room RoomBelow
  rw [hsum, hmargin, u16_of_lt (brkClicks_lt addr)]

/-- An address means what it says up to the last click, and not beyond. -/
theorem brkClicks_covers (h₀ : 0 ≤ addr) :
    addr ≤ (brkClicks addr : ℤ) * CLICK_SIZE ↔ addr ≤ 0xFFFF00 := by
  have hcast := brkClicks_cast addr
  rw [show CLICK_SIZE = 256 from rfl]
  omega

/-- brk means what it returns, exactly for these addresses. -/
theorem brk_means_iff (hS : p.segS.Clicks) (h₀ : 0 ≤ addr) :
    BrkMeans n p addr new_sp ↔ BrkFits n p addr new_sp := by
  unfold BrkMeans BrkFits doBrk
  by_cases hlow : brkClicks addr < p.segD.mem_vir
  · have hno : ENOMEM ≠ OK := by decide
    rw [if_pos hlow]
    by_cases hn : n = INIT_PROC_NR
    · rw [if_pos hn]
      exact ⟨fun _ => .inl hlow, fun _ h => absurd h hno⟩
    · rw [if_neg hn]
      exact ⟨fun _ => .inr (.inl hlow), fun _ h => absurd h hno⟩
  rw [if_neg hlow]
  by_cases hn : n = INIT_PROC_NR
  · have hadjust : adjust n p (brkSize p addr) new_sp = (true, p) := if_pos hn
    rw [if_pos hn, hadjust]
    exact ⟨fun h => .inr (h rfl), fun h _ => h.resolve_left hlow⟩
  rw [if_neg hn, adjust_eq hn hS]
  have hroom : Room p (brkSize p addr) new_sp ↔ RoomBelow p (brkClicks addr) new_sp :=
    room_brkSize (not_lt.mp hlow)
  by_cases h : Room p (brkSize p addr) new_sp
  · have hD := grown_segD p (brkSize p addr) new_sp
    have hend : ((grown p (brkSize p addr) new_sp).segD.mem_vir : ℤ) +
        (grown p (brkSize p addr) new_sp).segD.mem_len = brkClicks addr := by
      rw [hD, ← Nat.cast_add, brkSize_add (not_lt.mp hlow)]
    rw [if_pos h]
    change (OK = OK → addr ≤ (((grown p (brkSize p addr) new_sp).segD.mem_vir : ℤ) +
      (grown p (brkSize p addr) new_sp).segD.mem_len) * CLICK_SIZE) ↔ _
    rw [hend, brkClicks_covers h₀]
    constructor
    · exact fun hfits => .inl (hfits rfl)
    · rintro (hfits | hrefused | hno) _
      · exact hfits
      · exact absurd hrefused hlow
      · exact absurd (hroom.mp h) hno
  · rw [if_neg h]
    have hno : ENOMEM ≠ OK := by decide
    exact ⟨fun _ => .inr (.inr fun hr => h (hroom.mpr hr)), fun _ hans => absurd hans hno⟩

theorem brk_means_small :
    BrkMeans 3 twoSegments 0x12345 0x1FF00 ↔ BrkFits 3 twoSegments 0x12345 0x1FF00 :=
  brk_means_iff twoSegments_mapOk.sClicks (by decide)

/-- An address of 25 bits is granted, and the data ends where the address would without its highest
bit. -/
theorem brk_cut : ¬ BrkMeans 3 twoSegments 0x1012345 0x1FF00 := by
  unfold BrkMeans
  decide +kernel

end Minix.Mm
