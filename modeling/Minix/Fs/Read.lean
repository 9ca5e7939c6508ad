import Minix.Fs.Cache

/-!
# Blocks of a file, and reading ahead

`read_map` and `rahead` of `fs/read.c`. Zones and blocks are 16-bit numbers, and the zone numbers in
an indirect block have their most significant byte first. The `scale` of a file is the logarithm of
the number of blocks in a zone of its device.
-/

namespace Minix.Fs

/-- Number of zone numbers in an inode. -/
abbrev NR_ZONE_NUMS : ℕ := 9

/-- Number of zones that the inode has itself. -/
abbrev NR_DZONE_NUM : ℕ := NR_ZONE_NUMS - 2

theorem direct_lt {zone : ℕ} (h : zone < NR_DZONE_NUM) : zone < NR_ZONE_NUMS := h.trans (by decide)

/-- Number of zone numbers in an indirect block. -/
abbrev NR_INDIRECTS : ℕ := BLOCK_SIZE / 2

/-- Absence of a zone number. -/
def NO_ZONE : ℕ := 0

/-- The field of `i_mode` that gives the type of an inode. -/
def I_TYPE : ℕ := 0o170000

/-- A block special file. -/
def I_BLOCK_SPECIAL : ℕ := 0o060000

/-- The maximum positive long. -/
def MAX_P_LONG : ℕ := 2147483647

/-- A number, as it is kept in an `unshort`. -/
def unshort (n : ℕ) : ℕ := n % 2 ^ 16

/-- The part of an inode that tells where a file is. -/
structure Inode where
  i_mode : ℕ
  i_size : ℕ
  i_zone : Fin NR_ZONE_NUMS → ℕ
  i_dev : ℕ
  i_seek : Bool

/-- A zone number in an indirect block. -/
def bInd (b : Block) (i : ℕ) : ℕ :=
  if h : 2 * i + 1 < BLOCK_SIZE then
    (b ⟨2 * i, Nat.lt_of_succ_lt h⟩).toNat * 256 + (b ⟨2 * i + 1, h⟩).toNat
  else 0

/-- `((block_nr) z << scale) + boff` -/
def zoneBlock (z scale boff : ℕ) : ℕ := unshort (z <<< scale + boff)

/-- Look up a zone number in an indirect block. -/
def indirEntry (s : Cache) (dev b i : ℕ) : Option (ℕ × Cache) := do
  let (bp, s) ← getBlock s dev b .NORMAL
  some (bInd (s.b_data bp) i, putBlock s (some bp) INDIRECT_BLOCK)

/-- The last part of `read_map`: `z` is the zone number of the single indirect block. -/
def readSingle (s : Cache) (dev scale z excess boff : ℕ) : Option (ℕ × Cache) :=
  if z = NO_ZONE then some (NO_BLOCK, s)
  else do
    let (z, s) ← indirEntry s dev (zoneBlock z scale 0) excess
    some (if z = NO_ZONE then NO_BLOCK else zoneBlock z scale boff, s)

/-- Locate the block in which a position of a file is to be found. -/
def readMap (s : Cache) (rip : Inode) (scale position : ℕ) : Option (ℕ × Cache) :=
  let block_pos := position / BLOCK_SIZE
  let zone := block_pos >>> scale
  let boff := block_pos - zone <<< scale
  let excess := zone - NR_DZONE_NUM
  if h : zone < NR_DZONE_NUM then
    let z := rip.i_zone ⟨zone, direct_lt h⟩
    some (if z = NO_ZONE then NO_BLOCK else zoneBlock z scale boff, s)
  else if excess < NR_INDIRECTS then
    readSingle s rip.i_dev scale (rip.i_zone 7) excess boff
  else if rip.i_zone 8 = NO_ZONE then some (NO_BLOCK, s)
  else do
    let (z, s) ← indirEntry s rip.i_dev (zoneBlock (rip.i_zone 8) scale 0)
      ((excess - NR_INDIRECTS) / NR_INDIRECTS)
    readSingle s rip.i_dev scale z ((excess - NR_INDIRECTS) % NR_INDIRECTS) boff

/-! ## Reading ahead -/

/-- Whether a file is block special. -/
def Inode.blockSpec (rip : Inode) : Bool := rip.i_mode &&& I_TYPE = I_BLOCK_SPECIAL

/-- The device that `rahead` reads from. -/
def raheadDev (rip : Inode) : ℕ := if rip.blockSpec then rip.i_zone 0 else rip.i_dev

/-- Guesstimate `blocks_per_track`. What is set for a size of zero does not last, since there is no
`else` behind it. -/
def blocksPerTrack (rip : Inode) : ℕ :=
  let dev_size := if rip.blockSpec then rip.i_size else 80 * 2 * 9 * 512
  if dev_size < 80 * 2 * 15 * 512 then 9
  else if dev_size < 80 * 2 * 18 * 512 then 15
  else 18

/-- What the loop of `rahead` does not change. -/
structure Readahead where
  rip : Inode
  scale : ℕ
  fragment : ℕ
  bytes_ahead : ℕ

/-- The end of the file, which is unknown for a block special file of size 0. -/
def Readahead.fileSize (e : Readahead) : ℕ :=
  if e.rip.blockSpec ∧ e.rip.i_size = 0 then MAX_P_LONG else e.rip.i_size

/-- The limit (max + 1) on buffers used. -/
def Readahead.limitBufsInUse (e : Readahead) : ℕ :=
  if e.rip.blockSpec then NR_BUFS else NR_BUFS - 2

/-- The variables of the loop of `rahead`. -/
structure Ahead where
  cache : Cache
  position : ℕ
  blocks_ahead : ℕ
  reading_ahead : Bool
  max_track : ℕ
  read_q : List Buf

/-- Prefetch a block, and put it in the queue unless it is in the cache already. -/
def enqueue (e : Readahead) (a : Ahead) (block : ℕ) : Option Ahead :=
  if e.rip.blockSpec ∨ block ≠ NO_BLOCK then do
    let (bp, s) ← getBlock a.cache (raheadDev e.rip) block .PREFETCH
    some (if s.b_dev bp = NO_DEV then { a with cache := s, read_q := a.read_q ++ [bp] }
      else { a with cache := putBlock s (some bp) FULL_DATA_BLOCK })
  else some a

/-- The block of the current position is prefetched, unless it is on another track when reading
ahead. -/
def aheadFetch (e : Readahead) (a : Ahead) (block : ℕ) : Option Ahead :=
  let track := block / blocksPerTrack e.rip
  if a.reading_ahead then
    if track ≠ a.max_track then some a else enqueue e a block
  else enqueue e { a with max_track := if track > a.max_track then track else a.max_track } block

/-- The block of the current position. -/
def aheadBlock (e : Readahead) (a : Ahead) : Option (ℕ × Cache) :=
  if e.rip.blockSpec then some (unshort (a.position / BLOCK_SIZE), a.cache)
  else readMap a.cache e.rip e.scale a.position

/-- The second part of a turn of the loop. -/
def aheadNext (e : Readahead) (a : Ahead) : Option Ahead := do
  let (block, s) ← aheadBlock e a
  aheadFetch e { a with cache := s, position := a.position + BLOCK_SIZE } block

/-- A turn of the loop of `rahead`, which is `some none` when it breaks off. -/
def aheadTurn (e : Readahead) (a : Ahead) : Option (Option Ahead) :=
  if a.position ≥ e.fileSize ∨ a.cache.bufs_in_use ≥ e.limitBufsInUse then some none
  else if a.blocks_ahead ≠ 0 then
    (aheadNext e { a with blocks_ahead := a.blocks_ahead - 1 }).map some
  else if a.reading_ahead ∨ e.rip.i_seek = true ∨ (e.fragment + e.bytes_ahead) % BLOCK_SIZE ≠ 0 then
    some none
  else
    (aheadNext e { a with
      blocks_ahead := blocksPerTrack e.rip + 6, reading_ahead := true }).map some

/-- The loop of `rahead`, within the given number of turns. -/
def aheadLoop (e : Readahead) : ℕ → Ahead → Option Ahead
  | 0, _ => none
  | n + 1, a =>
    match aheadTurn e a with
    | none => none
    | some none => some a
    | some (some a') => aheadLoop e n a'

/-- The number of turns that the loop of `rahead` can take. -/
def aheadTurns (e : Readahead) (a : Ahead) : ℕ := a.blocks_ahead + blocksPerTrack e.rip + 8

/-- What the loop of `rahead` does not change. -/
def raheadEnv (rip : Inode) (scale position bytes_ahead : ℕ) : Readahead :=
  ⟨rip, scale, position % BLOCK_SIZE, bytes_ahead⟩

/-- The variables of `rahead` in front of its loop, with the buffer that must be read. -/
def raheadStart (s : Cache) (rip : Inode) (bp : Buf) (position bytes_ahead : ℕ) : Ahead where
  cache := s
  position := position - position % BLOCK_SIZE + BLOCK_SIZE
  blocks_ahead :=
    unshort (unshort (position % BLOCK_SIZE + bytes_ahead + BLOCK_SIZE - 1) / BLOCK_SIZE + 65535)
  reading_ahead := false
  max_track := s.b_blocknr bp / blocksPerTrack rip
  read_q := [bp]

/-- Fetch a block from the cache or the device. If a physical read is required, prefetch as many
more blocks as convenient into the cache. -/
def rahead (s : Cache) (rip : Inode) (scale baseblock position bytes_ahead : ℕ) :
    Option (Buf × Cache) := do
  let (bp, s) ← getBlock s (raheadDev rip) baseblock .PREFETCH
  if s.b_dev bp ≠ NO_DEV then some (bp, s)
  else do
    let e := raheadEnv rip scale position bytes_ahead
    let a := raheadStart s rip bp position bytes_ahead
    let a ← aheadLoop e (aheadTurns e a) a
    let s ← rwScattered a.cache (raheadDev rip) a.read_q .READING
    getBlock s (raheadDev rip) baseblock .NORMAL

end Minix.Fs
