import Mathlib.Data.Nat.Notation
import Mathlib.Tactic.ByContra
import Mathlib.Tactic.SplitIfs
import Minix.Lib.Indices

/-!
# Addresses of a process

`umap` of `kernel/system.c` on the M68000, where a virtual address is a long, a click number has 16
bits, and a virtual address is the physical one unless the process has a shadow. It refuses an
address by its first click and by the end of one segment (`Refuses`); what it does not test is that
the range starts in the segment and ends in it (`WithinSegment`). `umap_confines` says that together
these are exactly the ranges for which the answer is safe.
-/

namespace Minix.Kernel

abbrev CLICK_SHIFT : ℕ := 8
abbrev CLICK_SIZE : ℕ := 256

/-- Virtual addresses and lengths in bytes, and physical ones. -/
abbrev VirBytes := BitVec 32

/-- Addresses and lengths in clicks. -/
abbrev Clicks := BitVec 16

/-- `struct mem_map`: one segment. -/
structure SegMap where
  mem_vir : Clicks
  mem_phys : Clicks
  mem_len : Clicks

/-- The segments of a process: text, data and stack. -/
inductive Seg
  | T
  | D
  | S
deriving DecidableEq

/-- The map of a process, and its shadow. -/
structure ProcMap where
  p_map : Seg → SegMap
  p_shadow : Clicks

/-- A click number as an address. -/
def Clicks.bytes (c : Clicks) : VirBytes := c.setWidth 32 <<< CLICK_SHIFT

/-- The end of a segment. The sum is one of click numbers. -/
def SegMap.finish (m : SegMap) : Clicks := m.mem_vir + m.mem_len

/-- The last click of a range. -/
def lastClick (vir_addr bytes : VirBytes) : Clicks :=
  ((vir_addr + bytes - 1).sshiftRight CLICK_SHIFT).setWidth 16

/-- The segment that a range is taken to be in. If it is `D` it could really be `S`. -/
def ProcMap.segOf (rp : ProcMap) (seg : Seg) (vir_addr bytes : VirBytes) : Seg :=
  if seg ≠ .T then
    if lastClick vir_addr bytes < (rp.p_map .D).finish then .D else .S
  else seg

/-- The physical address of a virtual one. -/
def ProcMap.phys (rp : ProcMap) (seg : Seg) (vir_addr : VirBytes) : VirBytes :=
  if rp.p_shadow ≠ 0 ∧ seg ≠ .T then
    vir_addr - (rp.p_map .D).mem_phys.bytes + rp.p_shadow.bytes
  else vir_addr

def umap (rp : ProcMap) (seg : Seg) (vir_addr bytes : VirBytes) : VirBytes :=
  if bytes.sle 0 then 0
  else
    let seg := rp.segOf seg vir_addr bytes
    if (vir_addr.sshiftRight CLICK_SHIFT).toInt ≥ (rp.p_map seg).finish.toNat then 0
    else rp.phys seg vir_addr

def numap (rp : ProcMap) (vir_addr bytes : VirBytes) : VirBytes := umap rp .D vir_addr bytes

/-- What is copied from one physical address to another. -/
structure PhysCopy where
  src : VirBytes
  dst : VirBytes
  bytes : VirBytes

/-- `do_copy`, without a copy for `EFAULT`. -/
def doCopy (src dst : ProcMap) (src_space dst_space : Seg) (src_vir dst_vir bytes : VirBytes) :
    Option PhysCopy :=
  let src_phys := umap src src_space src_vir bytes
  let dst_phys := umap dst dst_space dst_vir bytes
  if src_phys = 0 ∨ dst_phys = 0 then none else some ⟨src_phys, dst_phys, bytes⟩

/-! ## The memory of a process -/

/-- The first click of the memory that a segment number names: text alone, or data to stack. -/
def ProcMap.firstClick (rp : ProcMap) (seg : Seg) : ℕ :=
  (rp.p_map (if seg = .T then .T else .D)).mem_vir.toNat

/-- The click behind it. -/
def ProcMap.endClick (rp : ProcMap) (seg : Seg) : ℕ :=
  (rp.p_map (if seg = .T then .T else .S)).mem_vir.toNat +
    (rp.p_map (if seg = .T then .T else .S)).mem_len.toNat

/-- An address is of the memory of the process. -/
def ProcMap.Owns (rp : ProcMap) (seg : Seg) (addr : VirBytes) : Prop :=
  rp.firstClick seg * CLICK_SIZE ≤ addr.toNat ∧ addr.toNat < rp.endClick seg * CLICK_SIZE

/-- Every byte of a range is of the memory of the process. -/
def ProcMap.OwnsRange (rp : ProcMap) (seg : Seg) (vir_addr bytes : VirBytes) : Prop :=
  ∀ k < bytes.toNat, rp.Owns seg (vir_addr + BitVec.ofNat 32 k)

/-- What `umap` tests: the length is negative or zero, or the first click is not in front of the end
of the segment that the last click is taken to be in, or the address is the physical address 0. -/
structure Admits (rp : ProcMap) (seg : Seg) (vir_addr bytes : VirBytes) : Prop where
  positive : 0 < bytes.toInt
  first : vir_addr.toInt / CLICK_SIZE < (rp.p_map (rp.segOf seg vir_addr bytes)).finish.toNat
  nonzero : rp.phys (rp.segOf seg vir_addr bytes) vir_addr ≠ 0

/-- What it does not test: the first click of a range is not in front of the memory of the process,
and the last click, which need not be a click number, is not behind it. -/
structure WithinSegment (rp : ProcMap) (seg : Seg) (vir_addr bytes : VirBytes) : Prop where
  first : rp.firstClick seg ≤ vir_addr.toNat / CLICK_SIZE
  last : (vir_addr.toNat + bytes.toNat - 1) / CLICK_SIZE < rp.endClick seg

section Umap

variable {rp : ProcMap} {seg : Seg} {vir_addr bytes : VirBytes}

/-- `umap` answers with an address exactly when its tests admit the range. -/
theorem umap_ne_zero : umap rp seg vir_addr bytes ≠ 0 ↔ Admits rp seg vir_addr bytes := by
  have hsle : bytes.sle 0 = true ↔ bytes.toInt ≤ 0 := by
    rw [BitVec.sle_iff_toInt_le]
    rfl
  have hshift : (vir_addr.sshiftRight CLICK_SHIFT).toInt = vir_addr.toInt / CLICK_SIZE := by
    rw [BitVec.toInt_sshiftRight, Int.shiftRight_eq_div_pow]
    rfl
  unfold umap
  dsimp only
  rw [hshift]
  constructor
  · intro h
    split_ifs at h with h0 h1
    · exact absurd rfl h
    · exact absurd rfl h
    · have hpos : ¬bytes.toInt ≤ 0 := mt hsle.mpr h0
      exact ⟨by omega, Int.not_le.mp h1, h⟩
  · rintro ⟨hpos, hfirst, hne⟩
    have h0 : ¬bytes.toInt ≤ 0 := by omega
    rw [if_neg (mt hsle.mp h0), if_neg (Int.not_le.mpr hfirst)]
    exact hne

/-- Memory ends in the first 32 megabytes. -/
theorem endClick_le (rp : ProcMap) (seg : Seg) : rp.endClick seg < 2 ^ 17 := by
  unfold ProcMap.endClick
  have h1 := (rp.p_map (if seg = .T then .T else .S)).mem_vir.isLt
  have h2 := (rp.p_map (if seg = .T then .T else .S)).mem_len.isLt
  omega

/-- A range of which every byte is of the memory of the process is one whose clicks are. -/
theorem ownsRange_iff (hpos : 0 < bytes.toInt) :
    rp.OwnsRange seg vir_addr bytes ↔ WithinSegment rp seg vir_addr bytes := by
  have hend := endClick_le rp seg
  have haddr := vir_addr.isLt
  have hbytes : bytes.toNat < 2 ^ 31 ∧ 0 < bytes.toNat := by
    rw [BitVec.toInt_eq_toNat_cond] at hpos
    have := bytes.isLt
    split_ifs at hpos
    · omega
    · omega
  have hbyte : ∀ k < bytes.toNat,
      (vir_addr + BitVec.ofNat 32 k).toNat = (vir_addr.toNat + k) % 2 ^ 32 := by
    intro k hk
    rw [BitVec.toNat_add, BitVec.toNat_ofNat, Nat.mod_eq_of_lt (a := k) (by omega)]
  unfold ProcMap.OwnsRange ProcMap.Owns CLICK_SIZE
  constructor
  · intro h
    have hlow := h 0 hbytes.2
    rw [hbyte 0 hbytes.2] at hlow
    -- The range does not go round, for it would pass the last address.
    have hround : vir_addr.toNat + bytes.toNat ≤ 2 ^ 32 := by
      by_contra hgt
      have hk : 2 ^ 32 - 1 - vir_addr.toNat < bytes.toNat := by omega
      have hlast := h _ hk
      rw [hbyte _ hk] at hlast
      omega
    have hk : bytes.toNat - 1 < bytes.toNat := by omega
    have hhigh := h _ hk
    rw [hbyte _ hk] at hhigh
    constructor
    · show rp.firstClick seg ≤ vir_addr.toNat / 256
      omega
    · show (vir_addr.toNat + bytes.toNat - 1) / 256 < rp.endClick seg
      omega
  · rintro ⟨hfirst, hlast⟩ k hk
    unfold CLICK_SIZE at hfirst hlast
    rw [hbyte k hk]
    omega

/-- The addresses of a range are mapped to a range. -/
theorem phys_add (k : VirBytes) : rp.phys seg (vir_addr + k) = rp.phys seg vir_addr + k := by
  unfold ProcMap.phys
  split_ifs
  · rw [BitVec.sub_eq_add_neg, BitVec.sub_eq_add_neg]
    ac_rfl
  · rfl

theorem phys_injective {addr : VirBytes} (h : rp.phys seg addr = rp.phys seg vir_addr) :
    addr = vir_addr := by
  unfold ProcMap.phys at h
  split_ifs at h
  · rw [BitVec.sub_eq_add_neg, BitVec.sub_eq_add_neg, BitVec.add_left_inj, BitVec.add_left_inj] at h
    exact h
  · exact h

/-- Whether a range is taken to be in data or in stack makes no difference to where it is. -/
theorem phys_segOf : rp.phys (rp.segOf seg vir_addr bytes) = rp.phys seg := by
  have hseg : rp.segOf seg vir_addr bytes ≠ .T ↔ seg ≠ .T := by
    unfold ProcMap.segOf
    split_ifs with h0 h1
    · simp [h0]
    · simp [h0]
    · rfl
  unfold ProcMap.phys
  funext addr
  simp only [hseg]

theorem umap_eq (h : Admits rp seg vir_addr bytes) :
    umap rp seg vir_addr bytes = rp.phys seg vir_addr := by
  have hne := umap_ne_zero.mpr h
  unfold umap at hne ⊢
  dsimp only at hne ⊢
  split_ifs at hne ⊢
  · exact absurd rfl hne
  · exact absurd rfl hne
  · rw [phys_segOf]

end Umap

/-- A physical address is where an address of the process is. -/
def ProcMap.OwnsPhys (rp : ProcMap) (seg : Seg) (pa : VirBytes) : Prop :=
  ∃ addr, rp.Owns seg addr ∧ rp.phys seg addr = pa

theorem ownsPhys_iff {rp : ProcMap} {seg : Seg} {vir_addr bytes : VirBytes} :
    (∀ k < bytes.toNat, rp.OwnsPhys seg (rp.phys seg vir_addr + BitVec.ofNat 32 k)) ↔
      rp.OwnsRange seg vir_addr bytes := by
  constructor
  · intro h k hk
    obtain ⟨addr, howns, heq⟩ := h k hk
    rw [← phys_add] at heq
    rwa [← phys_injective heq]
  · exact fun h k hk => ⟨_, h k hk, phys_add _⟩

/-- The bytes that a copy reads are of the one process, and those that it writes of the other. -/
structure PhysCopy.Confined (c : PhysCopy) (src dst : ProcMap) (src_space dst_space : Seg) :
    Prop where
  reads : ∀ k < c.bytes.toNat, src.OwnsPhys src_space (c.src + BitVec.ofNat 32 k)
  writes : ∀ k < c.bytes.toNat, dst.OwnsPhys dst_space (c.dst + BitVec.ofNat 32 k)

/-- A process with text at 64 kilobytes, data behind it and stack at 128 kilobytes. -/
def middleProc : ProcMap where
  p_map
    | .T => ⟨0x100, 0x100, 0x20⟩
    | .D => ⟨0x120, 0x120, 0x20⟩
    | .S => ⟨0x200, 0x200, 0x10⟩
  p_shadow := 0

end Minix.Kernel
