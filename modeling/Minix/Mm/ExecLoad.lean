import Minix.Mm.Exec

/-!
# What `load_seg` writes

The calls of `load_seg` ask for at most 31K each, as an `int`, and go on as long as they are
answered in full. Of a positive number of bytes they write just that many (`loadSeg_within`,
`loadSeg_reaches`). Of a negative one the first call asks for the low 16 bits, and those after it,
for nothing.
-/

namespace Minix.Mm

open Lib (int16 int16_eq int16_of_range)

variable {answers : List ℤ} {ubuf_ptr seg_bytes : ℤ}

/-- Whatever `read` answers, the calls of `load_seg` write within the segment. -/
def LoadsWithin (m : MemMap) (seg_bytes : ℤ) : Prop :=
  ∀ answers, ∀ call ∈ loadSeg answers (m.mem_vir * CLICK_SIZE) seg_bytes, 0 < call.2 →
    (m.mem_vir : ℤ) * CLICK_SIZE ≤ call.1 ∧
      call.1 + call.2 ≤ (m.mem_vir + m.mem_len : ℤ) * CLICK_SIZE

/-- How many bytes `load_seg` asks for: of a negative number, what an `int` has of it. -/
def loaded (seg_bytes : ℤ) : ℤ := if seg_bytes < 0 then int16 seg_bytes else seg_bytes

/-- The bytes of the next call. -/
def callBytes (seg_bytes : ℤ) : ℤ := if seg_bytes < 31 * 1024 then int16 seg_bytes else 31 * 1024

theorem loadSeg_cons (answer : ℤ) (hne : seg_bytes ≠ 0) :
    loadSeg (answer :: answers) ubuf_ptr seg_bytes = (ubuf_ptr, callBytes seg_bytes) ::
      if answer ≠ callBytes seg_bytes then []
      else loadSeg answers (ubuf_ptr + callBytes seg_bytes) (seg_bytes - callBytes seg_bytes) := by
  rw [loadSeg, if_neg hne]
  rfl

theorem callBytes_pos (h : 0 < seg_bytes) :
    0 < callBytes seg_bytes ∧ callBytes seg_bytes ≤ seg_bytes ∧
    (seg_bytes ≤ 31 * 1024 → callBytes seg_bytes = seg_bytes) ∧
    (31 * 1024 ≤ seg_bytes → callBytes seg_bytes = 31 * 1024) := by
  unfold callBytes
  split
  · rw [int16_of_range (by omega) (by omega)]
    omega
  · omega

theorem callBytes_neg (h : seg_bytes < 0) : callBytes seg_bytes = int16 seg_bytes :=
  if_pos (by omega)

/-- When nothing but whole multiples of `2 ^ 16` are left of a negative number, no call asks for
anything. -/
theorem loadSeg_empty (hneg : seg_bytes ≤ 0) (hmod : seg_bytes % 65536 = 0) :
    ∀ call ∈ loadSeg answers ubuf_ptr seg_bytes, ¬ 0 < call.2 := by
  induction answers with
  | nil => exact fun _ h => absurd h List.not_mem_nil
  | cons answer answers ih =>
    by_cases hzero : seg_bytes = 0
    · rw [loadSeg, if_pos hzero]
      exact fun _ h => absurd h List.not_mem_nil
    have hbytes : callBytes seg_bytes = 0 := by
      rw [callBytes_neg (lt_of_le_of_ne hneg hzero), int16_eq, hmod]
      rfl
    rw [loadSeg_cons answer hzero, hbytes, add_zero, sub_zero]
    intro call hcall
    rcases List.mem_cons.mp hcall with rfl | hcall
    · exact lt_irrefl 0
    · split at hcall
      · exact absurd hcall List.not_mem_nil
      · exact ih call hcall

/-- The calls do not write beyond what is loaded. -/
theorem loadSeg_within : ∀ call ∈ loadSeg answers ubuf_ptr seg_bytes, 0 < call.2 →
    ubuf_ptr ≤ call.1 ∧ call.1 + call.2 ≤ ubuf_ptr + loaded seg_bytes := by
  induction answers generalizing ubuf_ptr seg_bytes with
  | nil => exact fun _ h => absurd h List.not_mem_nil
  | cons answer answers ih =>
    by_cases hzero : seg_bytes = 0
    · rw [loadSeg, if_pos hzero]
      exact fun _ h => absurd h List.not_mem_nil
    rw [loadSeg_cons answer hzero]
    intro call hcall hpos
    unfold loaded at ih ⊢
    by_cases hneg : seg_bytes < 0
    · -- Only the first call asks for anything.
      rw [callBytes_neg hneg] at hcall
      rw [if_pos hneg]
      rcases List.mem_cons.mp hcall with rfl | hcall
      · exact ⟨le_refl _, le_refl _⟩
      · have hrest : seg_bytes - int16 seg_bytes ≤ 0 ∧
            (seg_bytes - int16 seg_bytes) % 65536 = 0 := by
          rw [int16_eq]
          split <;> omega
        split at hcall
        · exact absurd hcall List.not_mem_nil
        · exact absurd hpos (loadSeg_empty hrest.1 hrest.2 call hcall)
    · obtain ⟨hbytes, hle, -, -⟩ := callBytes_pos (lt_of_le_of_ne (not_lt.mp hneg) (Ne.symm hzero))
      rw [if_neg hneg]
      rcases List.mem_cons.mp hcall with rfl | hcall
      · exact ⟨le_refl _, by dsimp only; omega⟩
      · split at hcall
        · exact absurd hcall List.not_mem_nil
        · have hlater := ih call hcall hpos
          rw [if_neg (by omega)] at hlater
          omega

/-- If every call is answered in full, the last one writes up to the end of what is loaded. -/
theorem loadSeg_reaches_nat (k : ℕ) (hpos : 0 < seg_bytes) (hk : seg_bytes ≤ 31 * 1024 * k) :
    ∃ answers, ∃ call ∈ loadSeg answers ubuf_ptr seg_bytes,
      0 < call.2 ∧ call.1 + call.2 = ubuf_ptr + seg_bytes := by
  induction k generalizing ubuf_ptr seg_bytes with
  | zero => omega
  | succ k ih =>
    obtain ⟨hbytes, -, hsmall, hlarge⟩ := callBytes_pos hpos
    by_cases h : seg_bytes ≤ 31 * 1024
    · refine ⟨[0], (ubuf_ptr, callBytes seg_bytes), ?_, hbytes, ?_⟩
      · rw [loadSeg_cons 0 (ne_of_gt hpos)]
        exact List.mem_cons_self
      · dsimp only
        rw [hsmall h]
    · have hlater : ∃ answers, ∃ call ∈
          loadSeg answers (ubuf_ptr + 31 * 1024) (seg_bytes - 31 * 1024), 0 < call.2 ∧
            call.1 + call.2 = ubuf_ptr + 31 * 1024 + (seg_bytes - 31 * 1024) :=
        ih (by omega) (by omega)
      obtain ⟨answers, call, hcall, hcpos, hend⟩ := hlater
      refine ⟨31 * 1024 :: answers, call, ?_, hcpos, by omega⟩
      rw [loadSeg_cons _ (ne_of_gt hpos), hlarge (by omega), if_neg (by simp)]
      exact List.mem_cons_of_mem _ hcall

theorem loadSeg_reaches (h : 0 < loaded seg_bytes) :
    ∃ answers, ∃ call ∈ loadSeg answers ubuf_ptr seg_bytes,
      0 < call.2 ∧ call.1 + call.2 = ubuf_ptr + loaded seg_bytes := by
  unfold loaded at h ⊢
  by_cases hneg : seg_bytes < 0
  · rw [if_pos hneg] at h ⊢
    refine ⟨[0], (ubuf_ptr, callBytes seg_bytes), ?_, ?_, ?_⟩
    · rw [loadSeg_cons 0 (ne_of_lt hneg)]
      exact List.mem_cons_self
    · dsimp only
      rwa [callBytes_neg hneg]
    · dsimp only
      rw [callBytes_neg hneg]
  · rw [if_neg hneg] at h ⊢
    exact loadSeg_reaches_nat (seg_bytes.toNat) h (by omega)

/-- A segment is written within if what is loaded is no larger. -/
theorem loadsWithin_iff (m : MemMap) (seg_bytes : ℤ) :
    LoadsWithin m seg_bytes ↔ loaded seg_bytes ≤ (m.mem_len : ℤ) * CLICK_SIZE := by
  unfold LoadsWithin
  rw [show CLICK_SIZE = 256 from rfl]
  constructor
  · intro h
    by_contra hno
    have hreach : ∃ answers, ∃ call ∈ loadSeg answers (m.mem_vir * 256) seg_bytes, 0 < call.2 ∧
        call.1 + call.2 = m.mem_vir * 256 + loaded seg_bytes := loadSeg_reaches (by omega)
    obtain ⟨answers, call, hcall, hpos, hend⟩ := hreach
    have hwithin := (h answers call hcall hpos).2
    omega
  · intro h answers call hcall hpos
    have hwithin := loadSeg_within call hcall hpos
    omega

end Minix.Mm
