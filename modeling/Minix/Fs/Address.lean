import Minix.Fs.File
import Minix.Fs.CacheRun

/-!
# Block numbers of positions

Positions are longs, and block numbers have 16 bits. `rw_chunk` and `rahead` divide the position in
a block special file by the size of a block, and `read_map` shifts a zone number by the scale of the
device: either number may be cut off. `block_addressing` says when none is: a block special file has
65536 blocks at most, and so have the devices up to the zones that a file has.
-/

namespace Minix.Fs

/-! ## The zone of a position -/

/-- What `read_map` finds for a position, in front of its last statement: the zones of the indirect
blocks that it looks into, and the zone. -/
structure ZoneAt where
  indirect : List ℕ
  zone : ℕ
  cache : Cache

/-- The zone in a single indirect block. -/
def singleAt (s : Cache) (dev scale z excess : ℕ) : Option ZoneAt :=
  if z = NO_ZONE then some ⟨[], NO_ZONE, s⟩
  else do
    let (z', s) ← indirEntry s dev (zoneBlock z scale 0) excess
    some ⟨[z], z', s⟩

/-- The zone of a position. -/
def zoneAt (s : Cache) (rip : Inode) (scale position : ℕ) : Option ZoneAt :=
  let zone := (position / BLOCK_SIZE) >>> scale
  let excess := zone - NR_DZONE_NUM
  if h : zone < NR_DZONE_NUM then some ⟨[], rip.i_zone ⟨zone, direct_lt h⟩, s⟩
  else if excess < NR_INDIRECTS then singleAt s rip.i_dev scale (rip.i_zone 7) excess
  else if rip.i_zone 8 = NO_ZONE then some ⟨[], NO_ZONE, s⟩
  else do
    let (z, s) ← indirEntry s rip.i_dev (zoneBlock (rip.i_zone 8) scale 0)
      ((excess - NR_INDIRECTS) / NR_INDIRECTS)
    let w ← singleAt s rip.i_dev scale z ((excess - NR_INDIRECTS) % NR_INDIRECTS)
    some { w with indirect := rip.i_zone 8 :: w.indirect }

/-- The block of a position within its zone. -/
def blockOff (scale position : ℕ) : ℕ :=
  position / BLOCK_SIZE - ((position / BLOCK_SIZE) >>> scale) <<< scale

/-- The block number that `read_map` makes of a zone. -/
def ZoneAt.block (w : ZoneAt) (scale boff : ℕ) : ℕ :=
  if w.zone = NO_ZONE then NO_BLOCK else zoneBlock w.zone scale boff

variable {s : Cache} {sp : SuperBlock} {rip : Inode} {scale position : ℕ}

theorem readSingle_eq (s : Cache) (dev z excess boff : ℕ) :
    readSingle s dev scale z excess boff =
      (singleAt s dev scale z excess).map fun w => (w.block scale boff, w.cache) := by
  unfold readSingle singleAt
  split_ifs with hz
  · rfl
  · cases indirEntry s dev (zoneBlock z scale 0) excess <;> rfl

/-- `read_map` makes a block number of the zone of the position. -/
theorem readMap_eq : readMap s rip scale position =
    (zoneAt s rip scale position).map fun w => (w.block scale (blockOff scale position), w.cache) := by
  unfold readMap zoneAt
  dsimp only
  split_ifs with hd hz hi h8
  · exact congrArg (fun b => some (b, s)) (if_pos hz).symm
  · exact congrArg (fun b => some (b, s)) (if_neg hz).symm
  · exact readSingle_eq s _ _ _ _
  · rfl
  · cases indirEntry s rip.i_dev (zoneBlock (rip.i_zone 8) scale 0) _ with
    | none => rfl
    | some p =>
      obtain ⟨z, s⟩ := p
      show readSingle s _ scale z _ _ = _
      rw [readSingle_eq]
      show _ = Option.map _ ((singleAt s rip.i_dev scale z _).bind _)
      cases singleAt s rip.i_dev scale z _ <;> rfl

/-! ## Numbers and blocks -/

/-- A block number that is used for a position, by `rw_chunk` or by `rahead`. Both call `read_map`
if the file is not block special. -/
inductive UsedBlock (sp : SuperBlock) (s : Cache) (rip : Inode) (position b : ℕ) : Prop
  | chunk (s' : Cache) (h : chunkBlock s sp rip position = some (b, s'))
  | ahead (e : Readahead) (a : Ahead) (s' : Cache) (he : e.rip = rip) (hs : e.scale = sp.s_log_zone_size)
      (ha : a.cache = s) (hp : a.position = position) (h : aheadBlock e a = some (b, s'))

/-- The block of the device that a position denotes: its own one in a block special file, else the
one in its zone, if there is one. -/
def Denotes (sp : SuperBlock) (s : Cache) (rip : Inode) (position d : ℕ) : Prop :=
  if rip.blockSpec then d = position / BLOCK_SIZE
  else ∃ w, zoneAt s rip sp.s_log_zone_size position = some w ∧ w.zone ≠ NO_ZONE ∧
    d = w.zone * 2 ^ sp.s_log_zone_size + blockOff sp.s_log_zone_size position

/-- A position that the checks of `read_write` admit: of a byte that can be read, or written. -/
structure Admitted (sp : SuperBlock) (rip : Inode) (position : ℕ) : Prop where
  low : position ≤ MAX_FILE_POS
  inside : position < fileSize rip ∨ rip.blockSpec = false ∧ position < sp.s_max_size

/-- The place on the device of a block, as `rw_block` computes it. -/
def blockPos (b : ℕ) : ℕ := b * BLOCK_SIZE

/-- No two blocks are taken for each other. -/
structure AddressOk (sp : SuperBlock) (s : Cache) (rip : Inode) : Prop where
  /-- A number stands for one block. -/
  inj : ∀ p q b d d', Admitted sp rip p → Admitted sp rip q → UsedBlock sp s rip p b →
    UsedBlock sp s rip q b → Denotes sp s rip p d → Denotes sp s rip q d' → d = d'
  /-- The block that is read or written is the one that has the byte at the position. -/
  place : ∀ p b d, Admitted sp rip p → UsedBlock sp s rip p b → Denotes sp s rip p d →
    blockPos b ≤ d * BLOCK_SIZE + p % BLOCK_SIZE ∧
      d * BLOCK_SIZE + p % BLOCK_SIZE < blockPos b + BLOCK_SIZE
  /-- The numbers of the indirect blocks are not cut off. -/
  indirect : rip.blockSpec = false → ∀ p w, Admitted sp rip p →
    zoneAt s rip sp.s_log_zone_size p = some w →
      ∀ z ∈ w.indirect, zoneBlock z sp.s_log_zone_size 0 = z * 2 ^ sp.s_log_zone_size

/-- The blocks of a file have numbers of 16 bits: a block special file is not larger than 65536
blocks, and the zones of another file are in the first 65536 blocks of their device. -/
def AddressFits (sp : SuperBlock) (s : Cache) (rip : Inode) : Prop :=
  if rip.blockSpec then fileSize rip ≤ 65536 * BLOCK_SIZE
  else ∀ p w, Admitted sp rip p → zoneAt s rip sp.s_log_zone_size p = some w →
    (w.zone ≠ NO_ZONE →
      w.zone * 2 ^ sp.s_log_zone_size + blockOff sp.s_log_zone_size p < 65536) ∧
    ∀ z ∈ w.indirect, z * 2 ^ sp.s_log_zone_size < 65536

section Address

variable {b d p : ℕ}

/-- The number that is used in a block special file. -/
theorem usedBlock_special (hspec : rip.blockSpec = true) :
    UsedBlock sp s rip position b ↔ b = unshort (position / BLOCK_SIZE) := by
  constructor
  · rintro (⟨s', h⟩ | ⟨e, a, s', rfl, hs, ha, rfl, h⟩)
    · unfold chunkBlock at h
      rw [if_pos hspec] at h
      exact (Prod.mk.inj (Option.some.inj h)).1.symm
    · unfold aheadBlock at h
      rw [if_pos hspec] at h
      exact (Prod.mk.inj (Option.some.inj h)).1.symm
  · rintro rfl
    refine .chunk s ?_
    unfold chunkBlock
    rw [if_pos hspec]

/-- The number that is used in another file. -/
theorem usedBlock_mapped (hspec : rip.blockSpec = false) :
    UsedBlock sp s rip position b ↔ ∃ w, zoneAt s rip sp.s_log_zone_size position = some w ∧
      b = w.block sp.s_log_zone_size (blockOff sp.s_log_zone_size position) := by
  have hmap : (∃ s', readMap s rip sp.s_log_zone_size position = some (b, s')) ↔
      ∃ w, zoneAt s rip sp.s_log_zone_size position = some w ∧
        b = w.block sp.s_log_zone_size (blockOff sp.s_log_zone_size position) := by
    rw [readMap_eq]
    constructor
    · rintro ⟨s', h⟩
      obtain ⟨w, hw, heq⟩ := Option.map_eq_some_iff.mp h
      exact ⟨w, hw, (Prod.mk.inj heq).1.symm⟩
    · rintro ⟨w, hw, rfl⟩
      exact ⟨w.cache, by rw [hw]; rfl⟩
  have hneg : ¬rip.blockSpec = true := by simp [hspec]
  rw [← hmap]
  constructor
  · rintro (⟨s', h⟩ | ⟨e, a, s', rfl, hs, rfl, rfl, h⟩)
    · unfold chunkBlock at h
      rw [if_neg hneg] at h
      exact ⟨s', h⟩
    · unfold aheadBlock at h
      rw [if_neg hneg, hs] at h
      exact ⟨s', h⟩
  · rintro ⟨s', h⟩
    refine .chunk s' ?_
    unfold chunkBlock
    rw [if_neg hneg]
    exact h

/-- A number that is not cut off. -/
theorem unshort_eq_iff {n : ℕ} : unshort n = n ↔ n < 65536 := by
  unfold unshort
  omega

theorem zoneBlock_eq {z boff : ℕ} :
    zoneBlock z scale boff = unshort (z * 2 ^ scale + boff) := by
  unfold zoneBlock
  rw [Nat.shiftLeft_eq]

/-- The number that is used for a position is that of the block that it denotes, cut off. -/
theorem UsedBlock.eq (hb : UsedBlock sp s rip p b) (hd : Denotes sp s rip p d) : b = unshort d := by
  by_cases hspec : rip.blockSpec = true
  · rw [usedBlock_special hspec] at hb
    unfold Denotes at hd
    rw [if_pos hspec] at hd
    rw [hb, hd]
  · have hfalse : rip.blockSpec = false := by simpa using hspec
    obtain ⟨w, hw, rfl⟩ := (usedBlock_mapped hfalse).mp hb
    unfold Denotes at hd
    rw [if_neg hspec] at hd
    obtain ⟨w', hw', hne, rfl⟩ := hd
    obtain rfl : w = w' := Option.some.inj (hw.symm.trans hw')
    unfold ZoneAt.block
    rw [if_neg hne, zoneBlock_eq]

/-- The numbers of the blocks of a file stand for the blocks exactly when they have 16 bits. -/
theorem AddressFits.lt (h : AddressFits sp s rip) (hp : Admitted sp rip p)
    (hd : Denotes sp s rip p d) : d < 65536 := by
  unfold AddressFits at h
  unfold Denotes at hd
  split_ifs at h hd with hspec
  · have hin : p < fileSize rip := by
      rcases hp.inside with hin | ⟨hfalse, -⟩
      · exact hin
      · exact absurd hspec (by simp [hfalse])
    have hlt : p < 65536 * BLOCK_SIZE := lt_of_lt_of_le hin h
    rw [hd]
    exact Nat.div_lt_of_lt_mul (by rwa [Nat.mul_comm])
  · obtain ⟨w, hw, hne, rfl⟩ := hd
    exact (h p w hp hw).1 hne

/-- The block numbers that are used for the positions of a file stand for the blocks that the
positions denote exactly when these have numbers of 16 bits. -/
theorem block_addressing (sp : SuperBlock) (s : Cache) (rip : Inode) :
    AddressOk sp s rip ↔ AddressFits sp s rip := by
  constructor
  · intro h
    -- A block that is in its place has the number that it should have.
    have hlt : ∀ p b d, Admitted sp rip p → UsedBlock sp s rip p b → Denotes sp s rip p d →
        d < 65536 := by
      intro p b d hp hb hd
      have hplace := h.place p b d hp hb hd
      have hcut := hb.eq hd
      unfold blockPos at hplace
      have hrem : p % BLOCK_SIZE < BLOCK_SIZE := offset_lt p
      have hbd : b = d := by
        have hle : b * 1024 ≤ d * 1024 + p % 1024 := hplace.1
        have hgt : d * 1024 + p % 1024 < b * 1024 + 1024 := hplace.2
        omega
      exact unshort_eq_iff.mp (hcut.symm.trans hbd)
    unfold AddressFits
    split_ifs with hspec
    · by_contra hgt
      have hin : 65536 * BLOCK_SIZE < fileSize rip := Nat.lt_of_not_le hgt
      have hp : Admitted sp rip (65536 * BLOCK_SIZE) := ⟨by decide, Or.inl hin⟩
      have hd : Denotes sp s rip (65536 * BLOCK_SIZE) 65536 := by
        unfold Denotes
        rw [if_pos hspec]
        decide
      exact absurd (hlt _ _ _ hp ((usedBlock_special hspec).mpr rfl) hd) (by decide)
    · have hfalse : rip.blockSpec = false := by simpa using hspec
      intro p w hp hw
      constructor
      · intro hne
        refine hlt p _ _ hp ((usedBlock_mapped hfalse).mpr ⟨w, hw, rfl⟩) ?_
        unfold Denotes
        rw [if_neg hspec]
        exact ⟨w, hw, hne, rfl⟩
      · intro z hz
        have heq := h.indirect hfalse p w hp hw z hz
        rw [zoneBlock_eq] at heq
        exact unshort_eq_iff.mp heq
  · intro h
    have hnum : ∀ p b d, Admitted sp rip p → UsedBlock sp s rip p b → Denotes sp s rip p d →
        b = d := by
      intro p b d hp hb hd
      rw [hb.eq hd]
      exact unshort_eq_iff.mpr (h.lt hp hd)
    refine ⟨fun p q b d d' hp hq hb hb' hd hd' => ?_, fun p b d hp hb hd => ?_, ?_⟩
    · rw [← hnum p b d hp hb hd, hnum q b d' hq hb' hd']
    · rw [hnum p b d hp hb hd]
      exact ⟨Nat.le_add_right _ _, Nat.add_lt_add_left (Nat.mod_lt _ (by decide)) _⟩
    · intro hfalse p w hp hw z hz
      have hspec : ¬rip.blockSpec = true := by simp [hfalse]
      unfold AddressFits at h
      rw [if_neg hspec] at h
      rw [zoneBlock_eq]
      exact unshort_eq_iff.mpr ((h p w hp hw).2 z hz)

/-- A hard disk, as a block special file. -/
def diskFile : Inode := ⟨I_BLOCK_SPECIAL, 0, fun _ => 0x300, 1, false⟩

/-- A file system of 65535 zones of one block. -/
def wideSuper : SuperBlock := ⟨65535, 8, 1400, 0, 268966912, [], 1⟩

/-- The positions 0 and 64 megabytes of a hard disk have the same block number, in the cache that
`fs_init` builds. -/
theorem address_wraps : ¬AddressOk wideSuper (bufPool staticCache) diskFile := by
  intro h
  have hspec : diskFile.blockSpec = true := by decide
  have hused : ∀ p, UsedBlock wideSuper (bufPool staticCache) diskFile p
      (unshort (p / BLOCK_SIZE)) := fun p => (usedBlock_special hspec).mpr rfl
  have hdenotes : ∀ p, Denotes wideSuper (bufPool staticCache) diskFile p (p / BLOCK_SIZE) := fun p => by
    unfold Denotes
    rw [if_pos hspec]
  have hsame := h.inj 0 (65536 * BLOCK_SIZE) 0 0 65536 ⟨by decide, Or.inl (by decide)⟩
    ⟨by decide, Or.inl (by decide)⟩ (hused 0) (hused _) (hdenotes 0) (hdenotes _)
  exact absurd hsame (by decide)

/-- A device of 65536 blocks at most has no block whose number is cut off. -/
theorem addressFits_of_zones (hspec : rip.blockSpec = false)
    (hn : sp.s_nzones * 2 ^ sp.s_log_zone_size ≤ 65536)
    (hz : ∀ p w, zoneAt s rip sp.s_log_zone_size p = some w →
      w.zone < sp.s_nzones ∧ ∀ z ∈ w.indirect, z < sp.s_nzones) : AddressFits sp s rip := by
  have hneg : ¬rip.blockSpec = true := by simp [hspec]
  have hzone : ∀ z < sp.s_nzones, ∀ k < 2 ^ sp.s_log_zone_size,
      z * 2 ^ sp.s_log_zone_size + k < 65536 := by
    intro z hz k hk
    calc z * 2 ^ sp.s_log_zone_size + k
        < z * 2 ^ sp.s_log_zone_size + 2 ^ sp.s_log_zone_size := Nat.add_lt_add_left hk _
      _ = (z + 1) * 2 ^ sp.s_log_zone_size := (Nat.succ_mul _ _).symm
      _ ≤ sp.s_nzones * 2 ^ sp.s_log_zone_size := Nat.mul_le_mul_right _ hz
      _ ≤ 65536 := hn
  have hoff : ∀ p, blockOff sp.s_log_zone_size p < 2 ^ sp.s_log_zone_size := by
    intro p
    unfold blockOff
    rw [Nat.shiftLeft_eq, Nat.shiftRight_eq_div_pow, Nat.mul_comm, ← Nat.mod_eq_sub_mul_div]
    exact Nat.mod_lt _ (Nat.two_pow_pos _)
  unfold AddressFits
  rw [if_neg hneg]
  intro p w _ hw
  obtain ⟨hlt, hind⟩ := hz p w hw
  exact ⟨fun _ => hzone _ hlt _ (hoff p), fun z hmem => hzone z (hind z hmem) 0 (Nat.two_pow_pos _)⟩

end Address

end Minix.Fs
