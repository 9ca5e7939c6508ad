import Minix.Fs.Read

/-!
# Zones, and the blocks of a file that is written

`alloc_bit` and `free_bit` of `fs/super.c`, `alloc_zone` and `free_zone` of `fs/cache.c`, and
`write_map`, `clear_zone` and `new_block` of `fs/write.c`. The zone map of a device is in buffers
that are held as long as it is mounted. The words of a block are 16-bit numbers with their most
significant byte first, as the zone numbers in an indirect block are.
-/

namespace Minix.Fs

/-- `log2 (BLOCK_SIZE) + 3` -/
abbrev BIT_MAP_SHIFT : ℕ := 13

/-- Number of bits in a word. -/
abbrev INT_BITS : ℕ := 16

/-- Number of words in a block. -/
abbrev INTS_PER_BLOCK : ℕ := BLOCK_SIZE / 2

/-- No bit could be allocated. -/
def NO_BIT : ℕ := 0

def OK : ℤ := 0
def EFBIG : ℤ := -27
def ENOSPC : ℤ := -28

/-- The super block of a mounted device. -/
structure SuperBlock where
  s_nzones : ℕ
  s_imap_blocks : ℕ
  s_firstdatazone : ℕ
  s_log_zone_size : ℕ
  s_max_size : ℕ
  s_zmap : List Buf
  s_dev : ℕ

/-- A number goes into an indirect block, or a word into a block. -/
def setInd (b : Block) (i v : ℕ) : Block := fun k =>
  if k.val = 2 * i then UInt8.ofNat (v / 256)
  else if k.val = 2 * i + 1 then UInt8.ofNat v
  else b k

/-! ## Bit maps -/

/-- The lowest bit of a word that is off. -/
def freeBitOf (k : ℕ) : Option ℕ := (List.range INT_BITS).find? fun i => (k >>> i) &&& 1 = 0

/-- The loop on the words of block `b` of a bit map. The result is a bit number with its word and
its place there, unless the block has no free bit or the first one is beyond the map. -/
def allocWord (map_bits b : ℕ) (block : Block) : ℕ → ℕ → Option (ℕ × ℕ × ℕ)
  | 0, _ => none
  | n + 1, w =>
    match freeBitOf (bInd block w) with
    | none => allocWord map_bits b block n (w + 1)
    | some i =>
      let a := unshort (i + w * INT_BITS + b <<< BIT_MAP_SHIFT)
      if a ≥ map_bits then none else some (a, w, i)

/-- The loop on the blocks of a bit map, of which `block_count` are left. -/
def allocBlock (s : Cache) (map_ptr : List Buf) (map_bits : ℕ) :
    ℕ → ℕ → ℕ → Option (ℕ × Cache)
  | 0, _, _ => some (NO_BIT, s)
  | block_count + 1, b, w =>
    match map_ptr[b]? with
    | none => none
    | some bp =>
      match allocWord map_bits b (s.b_data bp) (INTS_PER_BLOCK - w) w with
      | some (a, w, i) =>
        some (a, writeBuf s bp (setInd (s.b_data bp) w (bInd (s.b_data bp) w ||| 1 <<< i)))
      | none => allocBlock s map_ptr map_bits block_count (if b + 1 = map_ptr.length then 0 else b + 1) 0

/-- Allocate a bit from a bit map and return its bit number. -/
def allocBit (s : Cache) (map_ptr : List Buf) (map_bits origin : ℕ) : Option (ℕ × Cache) :=
  let origin := if origin ≥ map_bits then 0 else origin
  let b := origin >>> BIT_MAP_SHIFT
  let w := (origin - b <<< BIT_MAP_SHIFT) / INT_BITS
  let block_count := if w = 0 then map_ptr.length else map_ptr.length + 1
  allocBlock s map_ptr map_bits block_count b w

/-- Return a zone or inode by turning off its bitmap bit. -/
def freeBit (s : Cache) (map_ptr : List Buf) (bit_returned : ℕ) : Cache :=
  let b := bit_returned >>> BIT_MAP_SHIFT
  let r := bit_returned - b <<< BIT_MAP_SHIFT
  let w := r / INT_BITS
  let bit := r % INT_BITS
  match map_ptr[b]? with
  | none => s
  | some bp =>
    writeBuf s bp (setInd (s.b_data bp) w (bInd (s.b_data bp) w &&& (65535 ^^^ 1 <<< bit)))

/-- The bit number of a zone. -/
def zoneBit (sp : SuperBlock) (z : ℕ) : ℕ := unshort (z + 65537 - sp.s_firstdatazone)

/-- Allocate a new zone and return its number, which is `NO_ZONE` if there is no space. -/
def allocZone (s : Cache) (sp : SuperBlock) (z : ℕ) : Option (ℕ × Cache) := do
  let (b, s) ← allocBit s sp.s_zmap (sp.s_nzones - sp.s_firstdatazone + 1) (zoneBit sp z)
  some (if b = NO_BIT then NO_ZONE else sp.s_firstdatazone - 1 + b, s)

/-- Return a zone. -/
def freeZone (s : Cache) (sp : SuperBlock) (numb : ℕ) : Cache :=
  if numb = NO_ZONE then s else freeBit s sp.s_zmap (zoneBit sp numb)

/-! ## Writing a new zone into an inode -/

/-- What a function leaves that can fail: its result, the inode and the cache. -/
structure Written (α : Type) where
  res : Except ℤ α
  rip : Inode
  cache : Cache

/-- Enter a zone in an indirect block, which is cleared first if it is new. -/
def writeEntry (s : Cache) (dev b : ℕ) (is_new : Bool) (i new_zone : ℕ) : Option Cache := do
  let (bp, s) ← getBlock s dev b (if is_new then .NO_READ else .NORMAL)
  let s := if is_new then zeroBlock s bp else s
  some (putBlock (writeBuf s bp (setInd (s.b_data bp) i new_zone)) (some bp) INDIRECT_BLOCK)

/-- The place of a zone number in an inode. -/
def Inode.setZone (rip : Inode) (i : Fin NR_ZONE_NUMS) (z : ℕ) : Inode :=
  { rip with i_zone := Function.update rip.i_zone i z }

/-- The zone of an indirect block that is named by the inode itself: it is created if need be. -/
def ownIndirect (s : Cache) (sp : SuperBlock) (rip : Inode) (i : Fin NR_ZONE_NUMS) :
    Option (ℕ × Bool × Inode × Cache) :=
  if rip.i_zone i ≠ NO_ZONE then some (rip.i_zone i, false, rip, s)
  else do
    let (z, s) ← allocZone s sp (rip.i_zone 0)
    some (z, true, rip.setZone i z, s)

/-- The zone of the single indirect block at `index` of the double indirect block `bp`: it is
created if need be. -/
def dblIndirect (s : Cache) (sp : SuperBlock) (rip : Inode) (bp : Buf) (index : ℕ) :
    Option (ℕ × Bool × Cache) :=
  if bInd (s.b_data bp) index ≠ NO_ZONE then some (bInd (s.b_data bp) index, false, s)
  else do
    let (z, s) ← allocZone s sp (rip.i_zone 0)
    some (z, true, writeBuf s bp (setInd (s.b_data bp) index z))

/-- The last part of `write_map`: `z` is the zone of the single indirect block. -/
def writeSingle (s : Cache) (sp : SuperBlock) (rip : Inode) (z : ℕ) (new_ind : Bool)
    (excess new_zone : ℕ) : Option (Written Unit) :=
  if z = NO_ZONE then some ⟨.error ENOSPC, rip, s⟩
  else do
    let s ← writeEntry s rip.i_dev (zoneBlock z sp.s_log_zone_size 0) new_ind excess new_zone
    some ⟨.ok (), rip, s⟩

/-- The part of `write_map` for the double indirect block, whose zone is `z`. -/
def writeDouble (s : Cache) (sp : SuperBlock) (rip : Inode) (z : ℕ) (new_dbl : Bool)
    (excess new_zone : ℕ) : Option (Written Unit) :=
  if z = NO_ZONE then some ⟨.error ENOSPC, rip, s⟩
  else if excess / NR_INDIRECTS ≥ NR_INDIRECTS then some ⟨.error EFBIG, rip, s⟩
  else do
    let (bp, s) ← getBlock s rip.i_dev (zoneBlock z sp.s_log_zone_size 0)
      (if new_dbl then .NO_READ else .NORMAL)
    let s := if new_dbl then zeroBlock s bp else s
    let (z, new_ind, s) ← dblIndirect s sp rip bp (excess / NR_INDIRECTS)
    writeSingle (putBlock s (some bp) INDIRECT_BLOCK) sp rip z new_ind (excess % NR_INDIRECTS)
      new_zone

/-- Write a new zone into an inode. -/
def writeMap (s : Cache) (sp : SuperBlock) (rip : Inode) (position new_zone : ℕ) :
    Option (Written Unit) :=
  let zone := (position / BLOCK_SIZE) >>> sp.s_log_zone_size
  let excess := zone - NR_DZONE_NUM
  if h : zone < NR_DZONE_NUM then
    some ⟨.ok (), rip.setZone ⟨zone, h.trans (by decide)⟩ new_zone, s⟩
  else if excess < NR_INDIRECTS then do
    let (z, new_ind, rip, s) ← ownIndirect s sp rip 7
    writeSingle s sp rip z new_ind excess new_zone
  else do
    let (z, new_dbl, rip, s) ← ownIndirect s sp rip 8
    writeDouble s sp rip z new_dbl (excess - NR_INDIRECTS) new_zone

/-! ## New blocks -/

/-- Clear a block without reading it. -/
def clearBlock (s : Cache) (dev b : ℕ) : Option Cache := do
  let (bp, s) ← getBlock s dev b .NO_READ
  some (putBlock (zeroBlock s bp) (some bp) FULL_DATA_BLOCK)

/-- Clear all the blocks between `blo` and `bhi`. The loop does not end if `bhi` is the greatest
block number. -/
def clearBlocks (s : Cache) (dev blo bhi : ℕ) : Option Cache :=
  if bhi = 65535 then none
  else (List.range' blo (bhi + 1 - blo)).foldlM (fun s b => clearBlock s dev b) s

/-- Zero a zone, possibly starting in the middle. -/
def clearZone (s : Cache) (sp : SuperBlock) (rip : Inode) (pos : ℕ) (flag : Bool) : Option Cache :=
  let scale := sp.s_log_zone_size
  let zone_size := BLOCK_SIZE <<< scale
  let pos := if flag then pos / zone_size * zone_size else pos
  let next := pos + BLOCK_SIZE - 1
  if scale = 0 ∨ next / zone_size ≠ pos / zone_size then some s
  else do
    let (blo, s) ← readMap s rip scale next
    if blo = NO_BLOCK then some s
    else clearBlocks s rip.i_dev blo (unshort ((blo >>> scale + 1) <<< scale + 65535))

/-- The zone near which the first zone of a file should be. -/
def newZoneNear (sp : SuperBlock) (rip : Inode) : ℕ :=
  if rip.i_size = 0 then sp.s_firstdatazone else rip.i_zone 0

/-- Clear a new zone, unless the write is at the end of the file. -/
def clearNew (s : Cache) (sp : SuperBlock) (rip : Inode) (position : ℕ) : Option Cache :=
  if position ≠ rip.i_size then clearZone s sp rip position true else some s

/-- Enter a new zone in the inode, which is given back if that fails, and return the block of the
position in it. -/
def enterZone (s : Cache) (sp : SuperBlock) (rip : Inode) (position z : ℕ) :
    Option (Written ℕ) := do
  let w ← writeMap s sp rip position z
  match w.res with
  | .error r => some ⟨.error r, w.rip, freeZone w.cache sp z⟩
  | .ok _ =>
    let s ← clearNew w.cache sp w.rip position
    let zone_size := BLOCK_SIZE <<< sp.s_log_zone_size
    some ⟨.ok (zoneBlock z sp.s_log_zone_size (position % zone_size / BLOCK_SIZE)), w.rip, s⟩

/-- The block of a position, in the current zone or in a new one. -/
def newBlockNr (s : Cache) (sp : SuperBlock) (rip : Inode) (position : ℕ) : Option (Written ℕ) := do
  let (b, s) ← readMap s rip sp.s_log_zone_size position
  if b ≠ NO_BLOCK then some ⟨.ok b, rip, s⟩
  else do
    let (z, s) ← allocZone s sp (newZoneNear sp rip)
    if z = NO_ZONE then some ⟨.error ENOSPC, rip, s⟩ else enterZone s sp rip position z

/-- Acquire a new block and return a pointer to it. -/
def newBlock (s : Cache) (sp : SuperBlock) (rip : Inode) (position : ℕ) : Option (Written Buf) := do
  let w ← newBlockNr s sp rip position
  match w.res with
  | .error r => some ⟨.error r, w.rip, w.cache⟩
  | .ok b =>
    let (bp, s) ← getBlock w.cache rip.i_dev b .NO_READ
    some ⟨.ok bp, w.rip, zeroBlock s bp⟩

end Minix.Fs
