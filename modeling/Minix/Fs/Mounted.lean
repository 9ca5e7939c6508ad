import Minix.Fs.Faithful
import Minix.Fs.Write

/-!
# A mounted device

The zone map of a mounted device is in buffers that are held (`Holds`), so that they stay in the
cache whatever other blocks are got. `Mounted` says so of a cache that is a faithful disk. What a
function does to blocks is then said of their contents: a block is got and read, got and changed, or
got to be overwritten, and put again.
-/

namespace Minix.Fs

open Lib

/-- The block of the zone map with a given number. -/
def SuperBlock.zmapBlock (sp : SuperBlock) (j : ℕ) : ℕ := 2 + sp.s_imap_blocks + j

/-- The first block of the data area. -/
def SuperBlock.firstBlock (sp : SuperBlock) : ℕ := sp.s_firstdatazone * 2 ^ sp.s_log_zone_size

/-- A zone number is one of the data area. -/
def SuperBlock.HasZone (sp : SuperBlock) (z : ℕ) : Prop :=
  sp.s_firstdatazone ≤ z ∧ z < sp.s_nzones

/-- What a device is that can be mounted, and has less than 65536 blocks. -/
structure SuperBlock.Ok (sp : SuperBlock) : Prop where
  dev : sp.s_dev ≠ NO_DEV
  first : 1 ≤ sp.s_firstdatazone
  zones : sp.s_firstdatazone ≤ sp.s_nzones
  small : sp.s_nzones * 2 ^ sp.s_log_zone_size < 65536
  slots : sp.s_zmap.length ≤ 8
  map : sp.s_nzones - sp.s_firstdatazone + 1 ≤ 8192 * sp.s_zmap.length
  /-- The data area is behind the zone map. -/
  area : 2 + sp.s_imap_blocks + sp.s_zmap.length ≤ sp.firstBlock

/-- Who holds the buffers of the zone map, and leaves room for one more to be held. -/
structure Holds (sp : SuperBlock) (held : Buf → ℕ) : Prop where
  zmap : ∀ bp ∈ sp.s_zmap, 0 < held bp
  used : (usedBufs held).card < NR_BUFS
  bound : ∀ x, held x < 255

/-- A mounted device: its zone map is in buffers, nobody has left a buffer to be overwritten, and no
error has been reported. -/
structure Mounted (sp : SuperBlock) (s : Session) (L : Contents) : Prop where
  faithful : Faithful s ∅ L
  quiet : s.cache.rdwt_err = OK
  zmap : ∀ j, ∀ bp ∈ sp.s_zmap[j]?, s.cache.b_dev bp = sp.s_dev ∧
    s.cache.b_blocknr bp = sp.zmapBlock j

variable {sp : SuperBlock} {s : Session} {L : Contents} {c : Cache} {held : Buf → ℕ} {bp x : Buf}
  {dev block : ℕ} {only_search : Search} {data : Block} {fresh : Set Buf}

theorem Holds.room (h : Holds sp s.held) : Room s := ⟨h.used, h.bound⟩

/-- A block that is filled in when the driver serves the request reports nothing. -/
theorem fillBuf_err (hs : Served c) (bp : Buf) (dev block : ℕ) (only_search : Search) :
    (fillBuf c bp dev block only_search).rdwt_err = c.rdwt_err := by
  rw [fillBuf_served hs]
  split_ifs <;> rfl

/-- `get_block` reports nothing. -/
theorem Got.err (hgot : Got s.cache dev block only_search bp c) (h : Faithful s fresh L) :
    c.rdwt_err = s.cache.rdwt_err := by
  cases hgot with
  | hit => rfl
  | @miss links c₁ habsent hfree hlinks hlinked hclean =>
    have hblocknr : links.b_blocknr = s.cache.b_blocknr := by rw [hlinks]
    have hs : Faithful ⟨s.cache, s.held⟩ fresh L := h
    obtain ⟨hw, -, -⟩ := hs.cleanTaken hblocknr hclean
    rw [fillBuf_err (hw.served.congr rfl rfl : Served c₁)]
    exact cleanTaken_err (c := { s.cache with toLinks := links }) hclean

/-- A call reports nothing. -/
theorem Call.err {base : Buf → ℕ} {s' : Session} {a : CacheCall} (hc : Call base s a s')
    (h : Faithful s fresh L) : s'.cache.rdwt_err = s.cache.rdwt_err := by
  cases hc with
  | get hroom he => exact (getBlock_got_of_eq h.inv hroom he).err h
  | put => exact putBlock_err ..
  | read _ _ he => exact rwScattered_err he

/-- A buffer that is held keeps its block and its device when another block is got. -/
theorem Got.held_keeps (hgot : Got s.cache dev block only_search bp c) (h : Faithful s fresh L)
    (hx : s.held x ≠ 0) : c.b_dev x = s.cache.b_dev x ∧ c.b_blocknr x = s.cache.b_blocknr x := by
  rw [← h.inv.count] at hx
  refine ⟨?_, (hgot.stays (Or.inr hx)).blocknr⟩
  cases hgot with
  | hit => rfl
  | @miss links c₁ habsent hfree hlinks hlinked hclean =>
    have hblocknr : links.b_blocknr = s.cache.b_blocknr := by rw [hlinks]
    have hs : Faithful ⟨s.cache, s.held⟩ fresh L := h
    obtain ⟨hw, -, -⟩ := hs.cleanTaken hblocknr hclean
    have hne : x ≠ bp := fun e => hx (e ▸ hfree)
    rw [((fillBuf_filled (hw.served.congr rfl rfl : Served c₁) bp dev block only_search).others x
      hne).dev]
    exact congrFun hw.dev x

/-- The zone map stays where it is when a block is got. -/
theorem Mounted.got_zmap (h : Mounted sp s L) (hh : Holds sp s.held)
    (hgot : Got s.cache dev block only_search bp c) : ∀ j, ∀ x ∈ sp.s_zmap[j]?,
      c.b_dev x = sp.s_dev ∧ c.b_blocknr x = sp.zmapBlock j := by
  intro j x hx
  have hheld := hh.zmap x (List.mem_of_getElem? hx)
  obtain ⟨hdev, hb⟩ := hgot.held_keeps h.faithful (Nat.pos_iff_ne_zero.mp hheld)
  rw [hdev, hb]
  exact h.zmap j x hx

/-- A block is got, and its buffer has the contents. -/
theorem Mounted.get (h : Mounted sp s L) (hh : Holds sp s.held) (hdev : dev ≠ NO_DEV) (block : ℕ) :
    ∃ bp c, getBlock s.cache dev block .NORMAL = some (bp, c) ∧ c.b_dev bp = dev ∧
      c.b_blocknr bp = block ∧ c.b_data bp = L dev block ∧
      Mounted sp ⟨c, Function.update s.held bp (s.held bp + 1)⟩ L := by
  obtain ⟨bp, c, he, hd, hb, hdata, hf⟩ := h.faithful.get hh.room hdev block
  have hgot := getBlock_got_of_eq h.faithful.inv hh.room he
  exact ⟨bp, c, he, hd, hb, hdata (Set.notMem_empty _), hf, (hgot.err h.faithful).trans h.quiet,
    h.got_zmap hh hgot⟩

/-- A block is got to be written. Its buffer has the contents, unless the block was not in the cache
and is not read. -/
theorem Mounted.get_write (h : Mounted sp s L) (hh : Holds sp s.held) (hdev : dev ≠ NO_DEV)
    (block : ℕ) (only_search : Search) (hmode : only_search ≠ .PREFETCH) :
    ∃ bp c, getBlock s.cache dev block only_search = some (bp, c) ∧ c.b_dev bp = dev ∧
      c.b_blocknr bp = block ∧
      (only_search = .NORMAL ∨ ¬Absent s.cache dev block → c.b_data bp = L dev block) ∧
      ∀ data, Mounted sp ⟨writeBuf c bp data, Function.update s.held bp (s.held bp + 1)⟩
        (L.set dev block data) := by
  obtain ⟨bp, c, he, hgot⟩ := getBlock_got h.faithful.inv hh.used dev block only_search
  have hf := hgot.faithful h.faithful hh.room
  have hzmap := h.got_zmap hh hgot
  have hd : c.b_dev bp = dev := hgot.dev_eq h.faithful hmode
  have hb := hgot.blocknr
  refine ⟨bp, c, he, hd, hb, fun hread => ?_, fun data =>
    ⟨?_, (hgot.err h.faithful).trans h.quiet, hzmap⟩⟩
  · have hfresh : bp ∉ (∅ : Set Buf) ∪ gotFresh s.cache (.get dev block only_search bp) := by
      rintro (hm | hm)
      · exact Set.notMem_empty _ hm
      · obtain ⟨-, -, hno, habsent⟩ := mem_gotFresh hm
        rcases hread with e | e
        · exact absurd (e.symm.trans hno) (by decide)
        · exact e habsent
    have := (hf.block bp (by rw [hd]; exact hdev) hfresh).1
    rwa [hd, hb] at this
  · have hw := hf.write bp data
    dsimp only at hw
    rw [hd, hb] at hw
    have hempty : ((∅ : Set Buf) ∪ gotFresh s.cache (.get dev block only_search bp)) \ {bp} = ∅ := by
      rw [Set.empty_union]
      exact Set.eq_empty_of_forall_notMem fun x hx => hx.2 (mem_gotFresh hx.1).1
    rwa [hempty] at hw

/-- A buffer is written. -/
theorem Mounted.write (h : Mounted sp s L) (bp : Buf) (data : Block) :
    Mounted sp ⟨writeBuf s.cache bp data, s.held⟩
      (L.set (s.cache.b_dev bp) (s.cache.b_blocknr bp) data) where
  faithful := by
    have := h.faithful.write bp data
    rwa [Set.empty_sdiff] at this
  quiet := h.quiet
  zmap := h.zmap

/-- The hold on a buffer that was got is returned. -/
theorem update_hold_back (held : Buf → ℕ) (bp : Buf) :
    Function.update (Function.update held bp (held bp + 1)) bp
      (Function.update held bp (held bp + 1) bp - 1) = held := by
  rw [Function.update_self, Function.update_idem, Nat.add_sub_cancel, Function.update_eq_self]

/-- The type of a block that is neither written at once nor dropped when it is put. -/
def PlainType (block_type : ℕ) : Prop := block_type &&& WRITE_IMMED = 0 ∧ block_type ≠ ZUPER_BLOCK

/-- A block that was got is put. -/
theorem Mounted.put (h : Mounted sp ⟨c, Function.update held bp (held bp + 1)⟩ L) {block_type : ℕ}
    (ht : PlainType block_type) : Mounted sp ⟨putBlock c (some bp) block_type, held⟩ L where
  faithful := by
    have := h.faithful.put (show 0 < _ by dsimp only; rw [Function.update_self]; omega) block_type
      (fun e => absurd e (Set.notMem_empty _))
    dsimp only at this
    rwa [update_hold_back] at this
  quiet := (putBlock_err ..).trans h.quiet
  zmap j x hx := by
    dsimp only
    rw [putBlock_data ht.1 ht.2]
    obtain ⟨hdev, hb⟩ := h.zmap j x hx
    exact ⟨hdev, (congrFun (putLinks_blocknr ..) x).trans hb⟩

theorem indirect_plain : PlainType INDIRECT_BLOCK := ⟨by decide, by decide⟩

theorem full_data_plain : PlainType FULL_DATA_BLOCK := ⟨by decide, by decide⟩

theorem partial_data_plain : PlainType PARTIAL_DATA_BLOCK := ⟨by decide, by decide⟩

/-- What was written first is gone. -/
theorem writeBuf_writeBuf (c : Cache) (bp : Buf) (data data' : Block) :
    writeBuf (writeBuf c bp data) bp data' = writeBuf c bp data' := by
  unfold writeBuf
  simp only [Function.update_idem]

/-! ## Blocks that are read, changed and cleared -/

/-- An entry of an indirect block is read. -/
theorem Mounted.indirEntry (h : Mounted sp s L) (hh : Holds sp s.held) (hdev : dev ≠ NO_DEV)
    (b i : ℕ) : ∃ c, Fs.indirEntry s.cache dev b i = some (bInd (L dev b) i, c) ∧
      Mounted sp ⟨c, s.held⟩ L := by
  obtain ⟨bp, c, he, -, -, hdata, hm⟩ := h.get hh hdev b
  refine ⟨putBlock c (some bp) INDIRECT_BLOCK, ?_, hm.put indirect_plain⟩
  unfold Fs.indirEntry
  rw [he, ← hdata]
  rfl

/-- What an entry is written into: a new indirect block is clear. -/
def entryBlock (L : Contents) (dev b : ℕ) (is_new : Bool) : Block :=
  if is_new then fun _ => 0 else L dev b

/-- An entry of an indirect block is written. -/
theorem Mounted.writeEntry (h : Mounted sp s L) (hh : Holds sp s.held) (hdev : dev ≠ NO_DEV)
    (b : ℕ) (is_new : Bool) (i new_zone : ℕ) :
    ∃ c, Fs.writeEntry s.cache dev b is_new i new_zone = some c ∧
      Mounted sp ⟨c, s.held⟩ (L.set dev b (setInd (entryBlock L dev b is_new) i new_zone)) := by
  obtain ⟨bp, c, he, -, -, hdata, hw⟩ := h.get_write hh hdev b
    (if is_new then .NO_READ else .NORMAL) (by cases is_new <;> decide)
  unfold Fs.writeEntry entryBlock
  rw [he]
  cases is_new with
  | true =>
    refine ⟨_, ?_, (hw _).put indirect_plain⟩
    have hzero : (zeroBlock c bp).b_data bp = fun _ => 0 := Function.update_self ..
    show some (putBlock (writeBuf (zeroBlock c bp) bp (setInd ((zeroBlock c bp).b_data bp) i
      new_zone)) (some bp) INDIRECT_BLOCK) = _
    rw [hzero]
    unfold zeroBlock
    rw [writeBuf_writeBuf]
    rfl
  | false =>
    rw [← hdata (Or.inl rfl)]
    exact ⟨_, rfl, (hw _).put indirect_plain⟩

/-- A block is cleared. -/
theorem Mounted.clearBlock (h : Mounted sp s L) (hh : Holds sp s.held) (hdev : dev ≠ NO_DEV)
    (b : ℕ) : ∃ c, Fs.clearBlock s.cache dev b = some c ∧
      Mounted sp ⟨c, s.held⟩ (L.set dev b fun _ => 0) := by
  obtain ⟨bp, c, he, -, -, -, hw⟩ := h.get_write hh hdev b .NO_READ (by decide)
  unfold Fs.clearBlock
  rw [he]
  exact ⟨_, rfl, (hw _).put full_data_plain⟩

end Minix.Fs
