import Mathlib.Algebra.Order.Group.Unbundled.Int
import Minix.Kernel.Ipc
import Minix.Kernel.Umap
import Minix.Lib.Words

/-!
# The memory task

`kernel/memory.c` on the M68000: `do_mem`, which reads and writes `/dev/ram`, `/dev/mem`,
`/dev/kmem` and `/dev/null`, and `do_setup`, which places the RAM disk. Positions and physical
addresses are longs, and `w` is the width of an `int`, the type of a count.

`do_mem` adds the position to the origin of the device and the count to that. `NoOverflow` says that
neither sum is too large for a long. Where it holds, `doMem_bounds` says that what is copied is
within the bounds of the device (`Bounded`); where it does not, `doMem_overflow` says that the
request is answered as if it was within.
-/

namespace Minix.Kernel

open Lib

abbrev NR_RAMS : ℤ := 4
abbrev RAM_DEV : ℤ := 0
abbrev MEM_DEV : ℤ := 1
abbrev KMEM_DEV : ℤ := 2
abbrev NULL_DEV : ℤ := 3

def DISK_READ : ℤ := 3
def DISK_WRITE : ℤ := 4

def ENXIO : ℤ := -6

/-- Memory size for `/dev/mem`. -/
def MEM_BYTES : VirBytes := 0x1000000

/-- The bytes of a block, in which the size of the RAM disk is given. -/
def RAM_BLOCK : VirBytes := 1024

/-- Origin and limit of each RAM disk, by minor device. -/
structure RamTable where
  ram_origin : ℤ → VirBytes
  ram_limit : ℤ → VirBytes

/-- A message to a disk task. -/
structure DiskMess (w : ℕ) where
  m_type : ℤ
  DEVICE : ℤ
  PROC_NR : ℤ
  COUNT : BitVec w
  POSITION : VirBytes
  ADDRESS : VirBytes

/-- What a request returns, and what it has copied. -/
structure MemReply where
  status : ℤ
  copy : Option PhysCopy

/-- How `mem_task` initialises the table; `kmem` is where `numap` finds the kernel's data, and
`size` the kernel's data in clicks. -/
def memInit (kmem : VirBytes) (size : Clicks) : RamTable where
  ram_origin device := if device = KMEM_DEV then kmem else 0
  ram_limit device :=
    if device = KMEM_DEV then size.bytes + kmem
    else if device = MEM_DEV then MEM_BYTES
    else 0

variable {w : ℕ}

/-- Set parameters for one of the disk RAMs. -/
def doSetup (t : RamTable) (m : DiskMess w) : ℤ × RamTable :=
  let device := m.DEVICE
  if device ≠ RAM_DEV then ( ENXIO, t)
  else
    (OK,
      { ram_origin := Function.update t.ram_origin device m.POSITION
        ram_limit :=
          Function.update t.ram_limit device (m.POSITION + m.COUNT.signExtend 32 * RAM_BLOCK) })

/-- The count of a request that begins at `mem_phys`, cut at the limit of the device. -/
def clipCount (limit mem_phys : VirBytes) (COUNT : BitVec w) : BitVec w :=
  if limit.slt (mem_phys + COUNT.signExtend 32) then (limit - mem_phys).setWidth w else COUNT

/-- Read or write `/dev/null`, `/dev/mem`, `/dev/kmem` or `/dev/ram`. `proc_addr` gives the map of a
process. -/
def doMem (proc_addr : ℤ → ProcMap) (t : RamTable) (m : DiskMess w) : MemReply :=
  let device := m.DEVICE
  if device < 0 ∨ device ≥ NR_RAMS then ⟨ ENXIO, none⟩
  else if device = NULL_DEV then ⟨if m.m_type = DISK_READ then 0 else m.COUNT.toInt, none⟩
  else if m.POSITION.slt 0 then ⟨ ENXIO, none⟩
  else
    let mem_phys := t.ram_origin device + m.POSITION
    if (t.ram_limit device).sle mem_phys then ⟨0, none⟩
    else
      let count := clipCount (t.ram_limit device) mem_phys m.COUNT
      let user_phys := numap (proc_addr m.PROC_NR) m.ADDRESS (count.signExtend 32)
      if user_phys = 0 then ⟨E_BAD_ADDR, none⟩
      else if m.m_type = DISK_READ then
        ⟨count.toInt, some ⟨mem_phys, user_phys, count.signExtend 32⟩⟩
      else ⟨count.toInt, some ⟨user_phys, mem_phys, count.signExtend 32⟩⟩

/-! ## The bounds of a device -/

/-- The number of bytes that have been copied. -/
def MemReply.copied (r : MemReply) : ℤ := r.copy.elim 0 fun c => c.bytes.toInt

/-- The end of a copy that is on the device. -/
def DiskMess.deviceSide (m : DiskMess w) (c : PhysCopy) : VirBytes :=
  if m.m_type = DISK_READ then c.src else c.dst

/-- A physical address is of the device. -/
def RamTable.Within (t : RamTable) (device : ℤ) (pa : VirBytes) : Prop :=
  (t.ram_origin device).toInt ≤ pa.toInt ∧ pa.toInt < (t.ram_limit device).toInt

/-- The number of bytes from the position of a request to the end of the device. -/
def RamTable.room (t : RamTable) (m : DiskMess w) : ℤ :=
  (t.ram_limit m.DEVICE).toInt - (t.ram_origin m.DEVICE).toInt - m.POSITION.toInt

/-- The bytes of a request that are in front of the end. -/
def RamTable.share (t : RamTable) (m : DiskMess w) : ℤ := min m.COUNT.toInt (t.room m)

/-- The sums that a request leads to are longs. -/
structure NoOverflow (t : RamTable) (m : DiskMess w) : Prop where
  position : 0 ≤ m.POSITION.toInt →
    (t.ram_origin m.DEVICE).toInt + m.POSITION.toInt < 2 ^ 31
  count : 0 ≤ m.POSITION.toInt → 0 < t.room m →
    (t.ram_origin m.DEVICE).toInt + m.POSITION.toInt + m.COUNT.toInt < 2 ^ 31

/-- A request is answered within the bounds of its device: the bytes that are copied are of the
device, they are as many as the request asks for up to the end, and their number is returned. A
negative position and an address that is not of the process are refused. -/
structure Bounded (proc_addr : ℤ → ProcMap) (t : RamTable) (m : DiskMess w) (r : MemReply) :
    Prop where
  within : ∀ c ∈ r.copy, ∀ k < c.bytes.toNat,
    t.Within m.DEVICE (m.deviceSide c + BitVec.ofNat 32 k)
  negative : m.POSITION.toInt < 0 → r = ⟨ ENXIO, none⟩
  past : t.room m ≤ 0 → r = ⟨0, none⟩
  refused : 0 ≤ m.POSITION.toInt → 0 < t.room m →
    numap (proc_addr m.PROC_NR) m.ADDRESS (BitVec.ofInt 32 (t.share m)) = 0 → r = ⟨E_BAD_ADDR, none⟩
  inside : 0 ≤ m.POSITION.toInt → 0 < t.room m →
    numap (proc_addr m.PROC_NR) m.ADDRESS (BitVec.ofInt 32 (t.share m)) ≠ 0 →
      r.copied = t.share m ∧ r.status = t.share m

section Arithmetic

/-- A sum of addresses is one of longs. -/
theorem addr_add (a b : VirBytes) : (a + b).toInt = long32 (a.toInt + b.toInt) := BitVec.toInt_add a b

theorem addr_sub (a b : VirBytes) : (a - b).toInt = long32 (a.toInt - b.toInt) := BitVec.toInt_sub

theorem addr_range (a : VirBytes) : -2147483648 ≤ a.toInt ∧ a.toInt < 2147483648 :=
  ⟨a.le_toInt, BitVec.toInt_lt⟩

/-- Where the end of a request is a long, the count is cut at the limit. -/
theorem clipCount_toInt {limit mem_phys : VirBytes} {COUNT : BitVec w} (hw : w ≤ 32)
    (hlt : mem_phys.toInt < limit.toInt) (hcount : 0 < COUNT.toInt)
    (hend : mem_phys.toInt + COUNT.toInt < 2147483648) :
    (clipCount limit mem_phys COUNT).toInt = min COUNT.toInt (limit.toInt - mem_phys.toInt) := by
  have hext : (COUNT.signExtend 32).toInt = COUNT.toInt := BitVec.toInt_signExtend_of_le hw
  have hmem := addr_range mem_phys
  have hlong := addr_range (COUNT.signExtend 32)
  have hsum : (mem_phys + COUNT.signExtend 32).toInt = mem_phys.toInt + COUNT.toInt := by
    rw [addr_add, hext]
    exact long32_of_range (by omega) hend
  unfold clipCount
  by_cases hcut : limit.slt (mem_phys + COUNT.signExtend 32)
  · rw [if_pos hcut]
    rw [BitVec.slt_iff_toInt_lt, hsum] at hcut
    have hdiff : (limit - mem_phys).toInt = limit.toInt - mem_phys.toInt := by
      rw [addr_sub]
      exact long32_of_range (by omega) (by omega)
    -- The difference is below the count, so an `int` holds it.
    have hnat : ((limit - mem_phys).toNat : ℤ) = limit.toInt - mem_phys.toInt := by
      rw [← hdiff, BitVec.toInt_eq_toNat_of_lt]
      have hcond := BitVec.toInt_eq_toNat_cond (limit - mem_phys)
      split_ifs at hcond
      · omega
      · have := (limit - mem_phys).isLt
        omega
    have hfit := BitVec.two_mul_toInt_lt (x := COUNT)
    rw [BitVec.toInt_setWidth, hnat, min_eq_right (by omega)]
    exact Int.bmod_eq_of_le_mul_two (by push_cast; omega) (by push_cast; omega)
  · rw [if_neg hcut]
    rw [BitVec.slt_iff_toInt_lt, hsum] at hcut
    rw [min_eq_left (by omega)]

end Arithmetic

section Bounds

variable {proc_addr : ℤ → ProcMap} {t : RamTable} {m : DiskMess w}

/-- What `do_mem` does with a request that it does not find to be at the end of the device. -/
theorem doMem_go (proc_addr : ℤ → ProcMap) (hlo : 0 ≤ m.DEVICE) (hhi : m.DEVICE < NR_RAMS)
    (hnull : m.DEVICE ≠ NULL_DEV) (hpos : 0 ≤ m.POSITION.toInt)
    (hlt : (t.ram_origin m.DEVICE + m.POSITION).toInt < (t.ram_limit m.DEVICE).toInt) :
    let mem_phys := t.ram_origin m.DEVICE + m.POSITION
    let count := clipCount (t.ram_limit m.DEVICE) mem_phys m.COUNT
    let user_phys := numap (proc_addr m.PROC_NR) m.ADDRESS (count.signExtend 32)
    (user_phys = 0 → doMem proc_addr t m = ⟨E_BAD_ADDR, none⟩) ∧
      (user_phys ≠ 0 → ∃ c, doMem proc_addr t m = ⟨count.toInt, some c⟩ ∧
        c.bytes = count.signExtend 32 ∧ m.deviceSide c = mem_phys) := by
  intro mem_phys count user_phys
  have hslt : ¬m.POSITION.slt 0 := by
    rw [BitVec.slt_iff_toInt_lt]
    exact not_lt.mpr hpos
  have hsle : ¬(t.ram_limit m.DEVICE).sle (t.ram_origin m.DEVICE + m.POSITION) := by
    rw [BitVec.sle_iff_toInt_le]
    exact not_le.mpr hlt
  unfold doMem
  dsimp only
  rw [if_neg (by omega), if_neg hnull, if_neg hslt, if_neg hsle]
  constructor
  · intro h0
    rw [if_pos h0]
  · intro h0
    rw [if_neg h0]
    unfold DiskMess.deviceSide
    split_ifs with hread
    · exact ⟨_, rfl, rfl, rfl⟩
    · exact ⟨_, rfl, rfl, rfl⟩

/-- What `do_mem` does with a request that it finds to be at the end. -/
theorem doMem_end (hlo : 0 ≤ m.DEVICE) (hhi : m.DEVICE < NR_RAMS) (hnull : m.DEVICE ≠ NULL_DEV)
    (hpos : 0 ≤ m.POSITION.toInt)
    (hle : (t.ram_limit m.DEVICE).toInt ≤ (t.ram_origin m.DEVICE + m.POSITION).toInt) :
    doMem proc_addr t m = ⟨0, none⟩ := by
  have hslt : ¬m.POSITION.slt 0 := by
    rw [BitVec.slt_iff_toInt_lt]
    exact not_lt.mpr hpos
  unfold doMem
  dsimp only
  rw [if_neg (by omega), if_neg hnull, if_neg hslt, if_pos (BitVec.sle_iff_toInt_le.mpr hle)]

theorem doMem_negative (hlo : 0 ≤ m.DEVICE) (hhi : m.DEVICE < NR_RAMS) (hnull : m.DEVICE ≠ NULL_DEV)
    (hneg : m.POSITION.toInt < 0) : doMem proc_addr t m = ⟨ ENXIO, none⟩ := by
  have hslt : m.POSITION.slt 0 := by
    rw [BitVec.slt_iff_toInt_lt]
    exact hneg
  unfold doMem
  dsimp only
  rw [if_neg (by omega), if_neg hnull, if_pos hslt]

/-- The address of a byte of a copy, as long as the addresses are longs. -/
theorem addr_byte {a : VirBytes} {k : ℕ} (hk : (k : ℤ) < 2147483648)
    (hend : a.toInt + k < 2147483648) : (a + BitVec.ofNat 32 k).toInt = a.toInt + k := by
  have ha := addr_range a
  have hof : (BitVec.ofNat 32 k).toInt = k := by
    rw [BitVec.toInt_eq_toNat_bmod, BitVec.toNat_ofNat, Nat.mod_eq_of_lt (by omega)]
    exact Int.bmod_eq_of_le_mul_two (by push_cast; omega) (by push_cast; omega)
  rw [addr_add, hof]
  exact long32_of_range (by omega) hend

/-- The number of bytes of a copy whose length is not negative. -/
theorem bytes_toNat {n : VirBytes} (h : 0 ≤ n.toInt) : (n.toNat : ℤ) = n.toInt := by
  have hcond := BitVec.toInt_eq_toNat_cond n
  split_ifs at hcond
  · omega
  · have := n.isLt
    omega

end Bounds

section Requests

variable {proc_addr : ℤ → ProcMap} {t : RamTable} {m : DiskMess w}

/-- A request whose position is in front of the end, and whose sums are longs. -/
theorem doMem_inside (hw : w ≤ 32) (hlo : 0 ≤ m.DEVICE) (hhi : m.DEVICE < NR_RAMS)
    (hnull : m.DEVICE ≠ NULL_DEV) (hcount : 0 < m.COUNT.toInt)
    (horigin : 0 ≤ (t.ram_origin m.DEVICE).toInt) (hsum : NoOverflow t m)
    (hpos : 0 ≤ m.POSITION.toInt) (hroom : 0 < t.room m) :
    Bounded proc_addr t m (doMem proc_addr t m) := by
  have hfirst := hsum.position hpos
  have hlast := hsum.count hpos hroom
  have hroomdef : t.room m = (t.ram_limit m.DEVICE).toInt - (t.ram_origin m.DEVICE).toInt -
    m.POSITION.toInt := rfl
  have hmem : (t.ram_origin m.DEVICE + m.POSITION).toInt =
      (t.ram_origin m.DEVICE).toInt + m.POSITION.toInt := by
    rw [addr_add]
    exact long32_of_range (by omega) (by omega)
  have hlt : (t.ram_origin m.DEVICE + m.POSITION).toInt < (t.ram_limit m.DEVICE).toInt := by omega
  set count := clipCount (t.ram_limit m.DEVICE) (t.ram_origin m.DEVICE + m.POSITION) m.COUNT
    with hdef
  have hclip : count.toInt = t.share m := by
    rw [hdef, clipCount_toInt hw hlt hcount (by omega), hmem, RamTable.share, hroomdef]
    congr 1
    omega
  have hext : (count.signExtend 32).toInt = t.share m := by
    rw [BitVec.toInt_signExtend_of_le hw, hclip]
  have hof : BitVec.ofInt 32 (t.share m) = count.signExtend 32 := by
    rw [← hext, BitVec.ofInt_toInt]
  have hshare : 0 < t.share m ∧ t.share m ≤ t.room m :=
    ⟨lt_min hcount hroom, min_le_right _ _⟩
  obtain ⟨hbad, hgood⟩ := doMem_go proc_addr hlo hhi hnull hpos hlt
  rw [← hdef] at hbad hgood
  constructor
  · intro c hc k hk
    by_cases huser : numap (proc_addr m.PROC_NR) m.ADDRESS (count.signExtend 32) = 0
    · rw [hbad huser] at hc
      exact absurd hc (by simp)
    · obtain ⟨c', hreply, hbytes, hside⟩ := hgood huser
      rw [hreply] at hc
      obtain rfl : c' = c := Option.some.inj hc
      have hnat : ((count.signExtend 32).toNat : ℤ) = t.share m := by
        rw [bytes_toNat (by omega), hext]
      have hkshare : (k : ℤ) < t.share m := by
        rw [hbytes] at hk
        omega
      have hlimit := addr_range (t.ram_limit m.DEVICE)
      have haddr : (m.deviceSide c' + BitVec.ofNat 32 k).toInt =
          (t.ram_origin m.DEVICE).toInt + m.POSITION.toInt + k := by
        rw [hside, addr_byte (by omega) (by omega), hmem]
      constructor
      · omega
      · omega
  · intro hneg
    omega
  · intro hpast
    omega
  · intro _ _ huser
    rw [hof] at huser
    exact hbad huser
  · intro _ _ huser
    rw [hof] at huser
    obtain ⟨c, hreply, hbytes, -⟩ := hgood huser
    rw [hreply]
    refine ⟨?_, hclip⟩
    change c.bytes.toInt = _
    rw [hbytes, hext]

/-- A request whose first sum is too large begins in front of all memory. -/
theorem doMem_wraps (hw : w ≤ 32) (hlo : 0 ≤ m.DEVICE) (hhi : m.DEVICE < NR_RAMS)
    (hnull : m.DEVICE ≠ NULL_DEV) (hcount : 0 < m.COUNT.toInt)
    (horigin : 0 ≤ (t.ram_origin m.DEVICE).toInt)
    (hlimit : (t.ram_origin m.DEVICE).toInt ≤ (t.ram_limit m.DEVICE).toInt)
    (hpos : 0 ≤ m.POSITION.toInt)
    (hover : 2 ^ 31 ≤ (t.ram_origin m.DEVICE).toInt + m.POSITION.toInt) {c : PhysCopy}
    (hc : (doMem proc_addr t m).copy = some c) :
    0 < c.bytes.toNat ∧ (m.deviceSide c).toInt < 0 := by
  have hposition := addr_range m.POSITION
  have horg := addr_range (t.ram_origin m.DEVICE)
  have hmem : (t.ram_origin m.DEVICE + m.POSITION).toInt =
      (t.ram_origin m.DEVICE).toInt + m.POSITION.toInt - 4294967296 := by
    rw [addr_add, long32_eq]
    split
    · omega
    · omega
  have hlong := addr_range (m.COUNT.signExtend 32)
  rw [BitVec.toInt_signExtend_of_le hw] at hlong
  have hlt : (t.ram_origin m.DEVICE + m.POSITION).toInt < (t.ram_limit m.DEVICE).toInt := by omega
  have hclip := clipCount_toInt hw hlt hcount (by omega)
  obtain ⟨hbad, hgood⟩ := doMem_go proc_addr hlo hhi hnull hpos hlt
  by_cases huser : numap (proc_addr m.PROC_NR) m.ADDRESS ((clipCount (t.ram_limit m.DEVICE)
      (t.ram_origin m.DEVICE + m.POSITION) m.COUNT).signExtend 32) = 0
  · rw [hbad huser] at hc
    exact absurd hc (by simp)
  · obtain ⟨c', hreply, hbytes, hside⟩ := hgood huser
    rw [hreply] at hc
    obtain rfl : c' = c := Option.some.inj hc
    have hlen : 0 < c'.bytes.toInt := by
      rw [hbytes, BitVec.toInt_signExtend_of_le hw, hclip]
      exact lt_min hcount (by omega)
    have hnat := bytes_toNat hlen.le
    rw [hside]
    exact ⟨by omega, by omega⟩

/-- A request whose second sum is too large is not cut. -/
theorem doMem_uncut (hw : w ≤ 32) (hlo : 0 ≤ m.DEVICE) (hhi : m.DEVICE < NR_RAMS)
    (hnull : m.DEVICE ≠ NULL_DEV) (hcount : 0 < m.COUNT.toInt)
    (horigin : 0 ≤ (t.ram_origin m.DEVICE).toInt) (hpos : 0 ≤ m.POSITION.toInt)
    (hfirst : (t.ram_origin m.DEVICE).toInt + m.POSITION.toInt < 2 ^ 31) (hroom : 0 < t.room m)
    (hover : 2 ^ 31 ≤ (t.ram_origin m.DEVICE).toInt + m.POSITION.toInt + m.COUNT.toInt)
    {c : PhysCopy} (hc : (doMem proc_addr t m).copy = some c) :
    t.room m < c.bytes.toNat ∧
      (m.deviceSide c).toInt = (t.ram_origin m.DEVICE).toInt + m.POSITION.toInt := by
  have hroomdef : t.room m = (t.ram_limit m.DEVICE).toInt - (t.ram_origin m.DEVICE).toInt -
    m.POSITION.toInt := rfl
  have hlimit := addr_range (t.ram_limit m.DEVICE)
  have hext : (m.COUNT.signExtend 32).toInt = m.COUNT.toInt := BitVec.toInt_signExtend_of_le hw
  have hlong := addr_range (m.COUNT.signExtend 32)
  have hmem : (t.ram_origin m.DEVICE + m.POSITION).toInt =
      (t.ram_origin m.DEVICE).toInt + m.POSITION.toInt := by
    rw [addr_add]
    exact long32_of_range (by omega) (by omega)
  have huncut : clipCount (t.ram_limit m.DEVICE) (t.ram_origin m.DEVICE + m.POSITION) m.COUNT =
      m.COUNT := by
    unfold clipCount
    refine if_neg ?_
    rw [BitVec.slt_iff_toInt_lt, addr_add, hmem, hext, long32_eq]
    split
    · omega
    · omega
  obtain ⟨hbad, hgood⟩ := doMem_go proc_addr hlo hhi hnull hpos
    (by omega : (t.ram_origin m.DEVICE + m.POSITION).toInt < (t.ram_limit m.DEVICE).toInt)
  rw [huncut] at hbad hgood
  by_cases huser : numap (proc_addr m.PROC_NR) m.ADDRESS (m.COUNT.signExtend 32) = 0
  · rw [hbad huser] at hc
    exact absurd hc (by simp)
  · obtain ⟨c', hreply, hbytes, hside⟩ := hgood huser
    rw [hreply] at hc
    obtain rfl : c' = c := Option.some.inj hc
    have hnat : (c'.bytes.toNat : ℤ) = m.COUNT.toInt := by
      rw [hbytes, bytes_toNat (by omega), hext]
    exact ⟨by omega, by rw [hside, hmem]⟩

end Requests

/-- A write of one byte to `/dev/null` answers that one byte has been written, and copies none. -/
theorem null_write : ∃ (t : RamTable) (m : DiskMess 16),
    0 ≤ m.DEVICE ∧ m.DEVICE < NR_RAMS ∧ m.m_type = DISK_WRITE ∧ 0 < m.COUNT.toInt ∧
    0 ≤ (t.ram_origin m.DEVICE).toInt ∧
    (t.ram_origin m.DEVICE).toInt ≤ (t.ram_limit m.DEVICE).toInt ∧
    (doMem (fun _ => middleProc) t m).status ≠ (doMem (fun _ => middleProc) t m).copied := by
  refine ⟨memInit 0 0, ⟨DISK_WRITE, NULL_DEV, 0, 1, 0, 0x12000⟩, ?_⟩
  decide

/-- `do_mem` answers every request within the bounds of the device, whatever the bounds are, unless
a sum overflows; `/dev/null` is always at its end, and takes all that is written. -/
theorem doMem_bounds (proc_addr : ℤ → ProcMap) (t : RamTable) (m : DiskMess w) (hw : w ≤ 32)
    (hlo : 0 ≤ m.DEVICE) (hhi : m.DEVICE < NR_RAMS) (hcount : 0 < m.COUNT.toInt) :
    (m.DEVICE = NULL_DEV →
      doMem proc_addr t m = ⟨if m.m_type = DISK_READ then 0 else m.COUNT.toInt, none⟩) ∧
    (m.DEVICE ≠ NULL_DEV → 0 ≤ (t.ram_origin m.DEVICE).toInt →
      (t.ram_origin m.DEVICE).toInt ≤ (t.ram_limit m.DEVICE).toInt → NoOverflow t m →
        Bounded proc_addr t m (doMem proc_addr t m)) := by
  constructor
  · intro hnull
    unfold doMem
    dsimp only
    rw [if_neg (by omega), if_pos hnull]
  · intro hnull horigin hlimit hsum
    by_cases hpos : 0 ≤ m.POSITION.toInt
    · by_cases hroom : 0 < t.room m
      · exact doMem_inside hw hlo hhi hnull hcount horigin hsum hpos hroom
      · -- at the end, or past it
        have hle : (t.ram_limit m.DEVICE).toInt ≤
            (t.ram_origin m.DEVICE + m.POSITION).toInt := by
          have hfirst := hsum.position hpos
          rw [addr_add, long32_of_range (by omega) (by omega)]
          unfold RamTable.room at hroom
          omega
        rw [doMem_end hlo hhi hnull hpos hle]
        constructor
        · intro c hc
          exact absurd hc (by simp)
        · intro hneg
          omega
        · exact fun _ => rfl
        · exact fun _ h => absurd h hroom
        · exact fun _ h => absurd h hroom
    · rw [doMem_negative hlo hhi hnull (by omega)]
      constructor
      · intro c hc
        exact absurd hc (by simp)
      · exact fun _ => rfl
      · intro hroom
        unfold RamTable.room at hroom
        omega
      · exact fun h => absurd h hpos
      · exact fun h => absurd h hpos

/-- The RAM disk of 100 blocks at 512 kilobytes. -/
def smallRam : RamTable := (doSetup (memInit 0 0x100) (⟨5, RAM_DEV, 1, 100#16, 0x80000, 0⟩)).2

/-- A request for the last 24 bytes of the RAM disk and 1000 more is answered with 24 bytes. -/
theorem doMem_bounds_small :
    (doMem (fun _ => middleProc) smallRam
      (⟨DISK_READ, RAM_DEV, 2, 1024#16, 0x18FE8, 0x12000⟩)).status = 24 ∧
    Bounded (fun _ => middleProc) smallRam
      (⟨DISK_READ, RAM_DEV, 2, 1024#16, 0x18FE8, 0x12000⟩ : DiskMess 16)
      (doMem (fun _ => middleProc) smallRam ⟨DISK_READ, RAM_DEV, 2, 1024#16, 0x18FE8, 0x12000⟩) :=
  ⟨by decide, (doMem_bounds _ _ _ (by decide) (by decide) (by decide) (by decide)).2 (by decide)
    (by decide) (by decide) ⟨fun _ => by decide, fun _ _ => by decide⟩⟩

/-- What a request copies is of the device exactly when no sum overflows. -/
theorem doMem_within_iff (proc_addr : ℤ → ProcMap) (t : RamTable) (m : DiskMess w) (hw : w ≤ 32)
    (hcount : 0 < m.COUNT.toInt) (horigin : 0 ≤ (t.ram_origin m.DEVICE).toInt)
    (hlimit : (t.ram_origin m.DEVICE).toInt ≤ (t.ram_limit m.DEVICE).toInt) {c : PhysCopy}
    (hc : (doMem proc_addr t m).copy = some c) :
    (∀ k < c.bytes.toNat, t.Within m.DEVICE (m.deviceSide c + BitVec.ofNat 32 k)) ↔
      NoOverflow t m := by
  -- The requests that are refused copy nothing.
  have hdev : (0 ≤ m.DEVICE ∧ m.DEVICE < NR_RAMS) ∧ m.DEVICE ≠ NULL_DEV := by
    unfold doMem at hc
    dsimp only at hc
    split_ifs at hc with hbad hnull
    all_goals exact ⟨by omega, hnull⟩
  obtain ⟨⟨hlo, hhi⟩, hnull⟩ := hdev
  have hpos : 0 ≤ m.POSITION.toInt := by
    by_contra hneg
    rw [doMem_negative hlo hhi hnull (by omega)] at hc
    exact absurd hc (by simp)
  constructor
  · intro hwithin
    have hfirst : (t.ram_origin m.DEVICE).toInt + m.POSITION.toInt < 2 ^ 31 := by
      by_contra hover
      obtain ⟨hlen, hside⟩ :=
        doMem_wraps hw hlo hhi hnull hcount horigin hlimit hpos (by omega) hc
      have hzero := (hwithin 0 hlen).1
      rw [addr_byte (by decide) (by omega)] at hzero
      omega
    refine ⟨fun _ => hfirst, fun _ hroom => ?_⟩
    by_contra hover
    obtain ⟨hlen, hside⟩ :=
      doMem_uncut hw hlo hhi hnull hcount horigin hpos hfirst hroom (by omega) hc
    -- the byte at the limit is copied
    have hend := addr_range (t.ram_limit m.DEVICE)
    unfold RamTable.room at hroom hlen
    have hlast := (hwithin (t.room m).toNat (by unfold RamTable.room; omega)).2
    rw [addr_byte (by unfold RamTable.room; omega) (by unfold RamTable.room; omega)] at hlast
    unfold RamTable.room at hlast
    omega
  · intro hsum
    exact ((doMem_bounds proc_addr t m hw hlo hhi hcount).2 hnull horigin hlimit hsum).within c hc

/-- A request for the last 24 bytes of the RAM disk copies bytes of it only. -/
theorem doMem_within_small : ∃ c, (doMem (fun _ => middleProc) smallRam
      (⟨DISK_READ, RAM_DEV, 2, 1024#16, 0x18FE8, 0x12000⟩)).copy = some c ∧
    ∀ k < c.bytes.toNat, smallRam.Within RAM_DEV ((⟨DISK_READ, RAM_DEV, 2, 1024#16, 0x18FE8, 0x12000⟩ :
      DiskMess 16).deviceSide c + BitVec.ofNat 32 k) := by
  obtain ⟨c, hc⟩ := Option.isSome_iff_exists.mp (show (doMem (fun _ => middleProc) smallRam
    (⟨DISK_READ, RAM_DEV, 2, 1024#16, 0x18FE8, 0x12000⟩)).copy.isSome by decide)
  exact ⟨c, hc, (doMem_within_iff _ _ _ (by decide) (by decide) (by decide) (by decide) hc).mpr
    ⟨fun _ => by decide, fun _ _ => by decide⟩⟩

end Minix.Kernel
