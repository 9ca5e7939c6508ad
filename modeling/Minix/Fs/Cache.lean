import Minix.Lib.Dll

/-!
# The block cache of the file system

`fs/cache.c`, `fs/buf.h`, and `buf_pool`, `zero_block` and the buffer loop of `do_sync` from their
files. The array `buf[]` is kept field by field, and a pointer into it is a `Buf`. `Links` has the
fields that put the buffers on the two chains and count their users; `Cache` adds what they hold,
and the devices.

What a driver does with a request is an `Outcome`, taken from a list that is part of the state. An
exhausted list stands for a driver that serves every request. As in the other parts, `none` is a nil
pointer followed, a walk that does not end, or a panic.
-/

namespace Minix.Fs

open Lib

/-- Number of blocks in the buffer cache. -/
abbrev NR_BUFS : ℕ := 30

/-- Size of the buffer hash table. -/
abbrev NR_BUF_HASH : ℕ := 32

/-- Number of bytes in a disk block. -/
abbrev BLOCK_SIZE : ℕ := 1024

/-- No device: the buffer is free. -/
def NO_DEV : ℕ := 65535

/-- Absence of a block number. -/
def NO_BLOCK : ℕ := 0

/-- End of file detected by a driver. -/
def END_OF_FILE : ℤ := -104

/-- The address of a `struct buf`. -/
abbrev Buf := Fin NR_BUFS

instance lawfulBEq_buf : LawfulBEq Buf := inferInstance

/-- The contents of a disk block. -/
abbrev Block := Fin BLOCK_SIZE → UInt8

theorem offset_lt (p : ℕ) : p % BLOCK_SIZE < BLOCK_SIZE := Nat.mod_lt p (by decide)

/-- The argument `only_search` of `get_block`. -/
inductive Search
  | NORMAL | NO_READ | PREFETCH
  deriving DecidableEq

/-- The direction of a transfer. -/
inductive RwFlag
  | READING | WRITING
  deriving DecidableEq

/-- The block should be written to disk now. -/
def WRITE_IMMED : ℕ := 0o100

/-- The block is not likely to be needed soon. -/
def ONE_SHOT : ℕ := 0o200

/-- What a bit of `MAYBE_WRITE_IMMED` is, without `ROBUST`. -/
def MAYBE_WRITE_IMMED : ℕ := 0

def INODE_BLOCK : ℕ := 0 + MAYBE_WRITE_IMMED
def DIRECTORY_BLOCK : ℕ := 1 + MAYBE_WRITE_IMMED
def INDIRECT_BLOCK : ℕ := 2 + MAYBE_WRITE_IMMED
def I_MAP_BLOCK : ℕ := 3 + WRITE_IMMED + ONE_SHOT
def ZMAP_BLOCK : ℕ := 4 + WRITE_IMMED + ONE_SHOT
def ZUPER_BLOCK : ℕ := 5 + WRITE_IMMED + ONE_SHOT
def FULL_DATA_BLOCK : ℕ := 6
def PARTIAL_DATA_BLOCK : ℕ := 7

/-- What a driver does with a request: all of it, or it reports the number and leaves the block in
the destination. -/
abbrev Outcome := Option (ℤ × Block)

/-- What `dev_io` returns for a request of one block. -/
def Outcome.bytes : Outcome → ℤ
  | none => BLOCK_SIZE
  | some (r, _) => r

/-- What is left to do in an element of an i/o vector. -/
def Outcome.io_nbytes : Outcome → ℤ
  | none => 0
  | some (n, _) => n

/-- What the destination holds afterwards. -/
def Outcome.dest (o : Outcome) (source : Block) : Block :=
  match o with
  | none => source
  | some (_, left) => left

/-- The fields by which the buffers are linked and counted, and the heads of the chains. -/
structure Links where
  b_next : Buf → Option Buf
  b_prev : Buf → Option Buf
  b_hash : Buf → Option Buf
  b_blocknr : Buf → ℕ
  b_count : Buf → ℕ
  buf_hash : Fin NR_BUF_HASH → Option Buf
  front : Option Buf
  rear : Option Buf
  bufs_in_use : ℤ

/-- The buffers, the devices, and the outcomes of the transfers to come: of those that must be done
and of those that a driver may leave. -/
structure Cache extends Links where
  b_data : Buf → Block
  b_dev : Buf → ℕ
  b_dirt : Buf → Bool
  disk : ℕ → ℕ → Block
  io : List Outcome
  opt : List Outcome
  rdwt_err : ℤ

/-- No chain of buffers takes this many turns, unless it goes round in a circle. -/
def bufFuel : ℕ := NR_BUFS + 1

/-- A number, as it is kept in a `char`. -/
def char8 (n : ℕ) : ℕ := n % 2 ^ 8

/-- The hash chain of a block number. -/
def hashOf (block : ℕ) : Fin NR_BUF_HASH :=
  ⟨block &&& (NR_BUF_HASH - 1), Nat.lt_of_le_of_lt Nat.and_le_right (by decide)⟩

/-! ## Device I/O -/

/-- A block goes from the device to the buffer, or from the buffer to the device. -/
def transfer (s : Cache) (dev : ℕ) (bp : Buf) (rw_flag : RwFlag) (o : Outcome) : Cache :=
  match rw_flag with
  | .READING =>
    { s with b_data := Function.update s.b_data bp (o.dest (s.disk dev (s.b_blocknr bp))) }
  | .WRITING =>
    { s with
      disk := Function.update s.disk dev
        (Function.update (s.disk dev) (s.b_blocknr bp) (o.dest (s.b_data bp))) }

/-- What `rw_block` does when the driver returns anything but the size of a block: it invalidates
the block, and reports read errors to interested parties. -/
def ioError (s : Cache) (bp : Buf) (rw_flag : RwFlag) (r : ℤ) : Cache :=
  { s with
    b_dev := Function.update s.b_dev bp NO_DEV
    rdwt_err := match rw_flag with
      | .READING => if r ≥ 0 then END_OF_FILE else r
      | .WRITING => s.rdwt_err }

/-- The part of `rw_block` that is done for a buffer with a device. -/
def rwDevice (s : Cache) (bp : Buf) (rw_flag : RwFlag) : Cache :=
  let o := s.io.headD none
  let t := { transfer s (s.b_dev bp) bp rw_flag o with io := s.io.tail }
  if o.bytes = BLOCK_SIZE then t else ioError t bp rw_flag o.bytes

/-- Read or write a disk block. -/
def rwBlock (s : Cache) (bp : Buf) (rw_flag : RwFlag) : Cache :=
  let s := if s.b_dev bp ≠ NO_DEV then rwDevice s bp rw_flag else s
  { s with b_dirt := Function.update s.b_dirt bp false }

/-! ## Returning a block -/

/-- Take a buffer off the LRU chain. -/
def unlinkBuf (s : Links) (bp : Buf) : Links :=
  let next_ptr := s.b_next bp
  let prev_ptr := s.b_prev bp
  let s := match prev_ptr with
    | some p => { s with b_next := Function.update s.b_next p next_ptr }
    | none => { s with front := next_ptr }
  match next_ptr with
  | some n => { s with b_prev := Function.update s.b_prev n prev_ptr }
  | none => { s with rear := prev_ptr }

/-- Put a buffer on the front of the LRU chain. -/
def linkFront (s : Links) (bp : Buf) : Links :=
  let s := { s with
    b_prev := Function.update s.b_prev bp none
    b_next := Function.update s.b_next bp s.front }
  let s := match s.front with
    | none => { s with rear := some bp }
    | some f => { s with b_prev := Function.update s.b_prev f (some bp) }
  { s with front := some bp }

/-- Put a buffer on the rear of the LRU chain. -/
def linkRear (s : Links) (bp : Buf) : Links :=
  let s := { s with
    b_prev := Function.update s.b_prev bp s.rear
    b_next := Function.update s.b_next bp none }
  let s := match s.rear with
    | none => { s with front := some bp }
    | some r => { s with b_next := Function.update s.b_next r (some bp) }
  { s with rear := some bp }

/-- A buffer that is not in use any more goes to one end of the LRU chain. -/
def relinkBuf (s : Links) (bp : Buf) (block_type : ℕ) : Links :=
  let s := unlinkBuf { s with bufs_in_use := s.bufs_in_use - 1 } bp
  if block_type &&& ONE_SHOT ≠ 0 then linkFront s bp else linkRear s bp

/-- The last part of `put_block`: the block is written if it is important, and a super block is not
cached. -/
def releaseBuf (s : Cache) (bp : Buf) (block_type : ℕ) : Cache :=
  let s := if block_type &&& WRITE_IMMED ≠ 0 ∧ s.b_dirt bp = true ∧ s.b_dev bp ≠ NO_DEV then
    rwBlock s bp .WRITING else s
  if block_type = ZUPER_BLOCK then { s with b_dev := Function.update s.b_dev bp NO_DEV } else s

/-- Return a block to the list of available blocks. -/
def putBlock (s : Cache) (bp : Option Buf) (block_type : ℕ) : Cache :=
  match bp with
  | none => s
  | some bp =>
    let s := { s with b_count := Function.update s.b_count bp (char8 (s.b_count bp + 255)) }
    if s.b_count bp ≠ 0 then s
    else releaseBuf { s with toLinks := relinkBuf s.toLinks bp block_type } bp block_type

/-! ## Scattered I/O -/

/-- Whether the element at `i` has a greater block number than the one at `j`. -/
def above (b_blocknr : Buf → ℕ) (bufq : List Buf) (i j : ℕ) : Bool :=
  match bufq[i]?, bufq[j]? with
  | some x, some y => b_blocknr y < b_blocknr x
  | _, _ => false

/-- Exchange the elements at `i` and at `j`. -/
def exchange (bufq : List Buf) (i j : ℕ) : List Buf :=
  match bufq[i]?, bufq[j]? with
  | some x, some y => (bufq.set i y).set j x
  | _, _ => bufq

/-- The inner loop of the sort, which moves the element at `m` down in steps of `gap`. It takes at
most `m` turns. -/
def sink (b_blocknr : Buf → ℕ) (gap : ℕ) : ℕ → ℕ → List Buf → List Buf
  | 0, _, bufq => bufq
  | n + 1, m, bufq =>
    if gap ≤ m ∧ above b_blocknr bufq (m - gap) m = true then
      sink b_blocknr gap n (m - gap) (exchange bufq (m - gap) m)
    else bufq

/-- The loop over `j`, for one gap. -/
def gapPass (b_blocknr : Buf → ℕ) (gap : ℕ) (bufq : List Buf) : List Buf :=
  (List.range' gap (bufq.length - gap)).foldl (fun bufq j => sink b_blocknr gap (j + 1) j bufq) bufq

/-- `do gap = 3 * gap + 1; while (gap <= bufqsize);` -/
def firstGap (bufqsize : ℕ) : ℕ → ℕ → ℕ
  | 0, gap => gap
  | n + 1, gap => if 3 * gap + 1 ≤ bufqsize then firstGap bufqsize n (3 * gap + 1) else 3 * gap + 1

/-- `while (gap != 1) { gap /= 3; ... }` -/
def passes (b_blocknr : Buf → ℕ) : ℕ → ℕ → List Buf → List Buf
  | 0, _, bufq => bufq
  | n + 1, gap, bufq =>
    if gap = 1 then bufq else passes b_blocknr n (gap / 3) (gapPass b_blocknr (gap / 3) bufq)

/-- (Shell) sort buffers on block number. -/
def sortBufs (b_blocknr : Buf → ℕ) (bufq : List Buf) : List Buf :=
  passes b_blocknr (bufq.length + 1) (firstGap bufq.length bufq.length 1) bufq

/-- The driver goes through the i/o vector. Reads are optional. -/
def serve (s : Cache) (dev : ℕ) (rw_flag : RwFlag) : List Buf → List ℤ × Cache
  | [] => ([], s)
  | bp :: bufq =>
    let o := match rw_flag with
      | .READING => s.opt.headD none
      | .WRITING => s.io.headD none
    let s := match rw_flag with
      | .READING => { s with opt := s.opt.tail }
      | .WRITING => { s with io := s.io.tail }
    let r := serve (transfer s dev bp rw_flag o) dev rw_flag bufq
    (o.io_nbytes :: r.1, r.2)

/-- Harvest one result. -/
def harvest (dev : ℕ) (rw_flag : RwFlag) (s : Cache) (r : Buf × ℤ) : Cache :=
  match rw_flag with
  | .READING =>
    putBlock (if r.2 = 0 then { s with b_dev := Function.update s.b_dev r.1 dev } else s)
      (some r.1) PARTIAL_DATA_BLOCK
  | .WRITING =>
    { s with
      b_dev := if r.2 ≠ 0 then Function.update s.b_dev r.1 NO_DEV else s.b_dev
      b_dirt := Function.update s.b_dirt r.1 false }

/-- Do the i/o for a queue in order, and harvest the results. -/
def rwSorted (s : Cache) (dev : ℕ) (bufq : List Buf) (rw_flag : RwFlag) : Cache :=
  let r := serve s dev rw_flag bufq
  (bufq.zip r.1).foldl (harvest dev rw_flag) r.2

/-- Read or write scattered data from a device. -/
def rwScattered (s : Cache) (dev : ℕ) (bufq : List Buf) (rw_flag : RwFlag) : Option Cache :=
  if bufq.length = 0 then some s
  else if bufq.length > NR_BUFS then none
  else some (rwSorted s dev (sortBufs s.b_blocknr bufq) rw_flag)

/-- The dirty blocks of one device, in the order of the array. -/
def dirtyBufs (s : Cache) (dev : ℕ) : List Buf :=
  (List.finRange NR_BUFS).filter fun bp => s.b_dirt bp = true ∧ s.b_dev bp = dev

/-- Flush all dirty blocks for one device. -/
def flushall (s : Cache) (dev : ℕ) : Option Cache :=
  rwScattered s dev (dirtyBufs s dev) .WRITING

/-- Remove all the blocks belonging to some device from the cache. -/
def invalidate (s : Cache) (device : ℕ) : Cache :=
  { s with b_dev := fun bp => if s.b_dev bp = device then NO_DEV else s.b_dev bp }

/-- The loop of `do_sync` that writes all the dirty blocks to the disk, one drive at a time. -/
def syncBuffers (s : Cache) : Option Cache :=
  (List.finRange NR_BUFS).foldlM (fun s bp =>
    if s.b_dev bp ≠ NO_DEV ∧ s.b_dirt bp = true then flushall s (s.b_dev bp) else some s) s

/-! ## Getting a block -/

/-- Search the hash chain for a block. -/
def searchHash (s : Cache) (dev block : ℕ) : Option (Option Buf) :=
  if dev ≠ NO_DEV then
    (scan s.b_hash (fun bp => s.b_blocknr bp = block ∧ s.b_dev bp = dev) bufFuel none
      (s.buf_hash (hashOf block))).map Prod.snd
  else some none

/-- Record that a block is in use. -/
def useBuf (s : Links) (bp : Buf) : Links :=
  { s with
    bufs_in_use := if s.b_count bp = 0 then s.bufs_in_use + 1 else s.bufs_in_use
    b_count := Function.update s.b_count bp (char8 (s.b_count bp + 1)) }

/-- Take the oldest block that is not in use. -/
def takeOldest (s : Links) : Option (Buf × Links) :=
  if s.bufs_in_use = NR_BUFS then none
  else
    match scan s.b_next (fun bp => s.b_count bp = 0) bufFuel none s.front with
    | some (_, some bp) => some (bp, { s with bufs_in_use := s.bufs_in_use + 1 })
    | _ => none

/-- Remove a block from its hash chain. -/
def unhashBuf (s : Links) (bp : Buf) : Option Links :=
  let h := hashOf (s.b_blocknr bp)
  if s.buf_hash h = some bp then
    some { s with buf_hash := Function.update s.buf_hash h (s.b_hash bp) }
  else
    match (s.buf_hash h).bind (cellBefore s.b_hash bp bufFuel) with
    | none => none
    | some none => some s
    | some (some prev_ptr) =>
      some { s with b_hash := Function.update s.b_hash prev_ptr (s.b_hash bp) }

/-- Fill in a block's number, and add it to the hash chain where it goes. -/
def rekeyBuf (s : Links) (bp : Buf) (block : ℕ) : Links :=
  { s with
    b_blocknr := Function.update s.b_blocknr bp block
    b_count := Function.update s.b_count bp (char8 (s.b_count bp + 1))
    b_hash := Function.update s.b_hash bp (s.buf_hash (hashOf block))
    buf_hash := Function.update s.buf_hash (hashOf block) (some bp) }

/-- If the block taken is dirty, make it clean, with all others of the same device. -/
def cleanTaken (s : Cache) (bp : Buf) : Option Cache :=
  if s.b_dev bp ≠ NO_DEV ∧ s.b_dirt bp = true then flushall s (s.b_dev bp) else some s

/-- Fill in a block's parameters. The device is not to be marked on a block that is prefetched. -/
def assignBuf (s : Cache) (bp : Buf) (dev block : ℕ) (only_search : Search) : Cache :=
  { s with
    toLinks := rekeyBuf s.toLinks bp block
    b_dev := Function.update s.b_dev bp (if only_search = .PREFETCH then NO_DEV else dev) }

/-- The block taken becomes the requested one, which is read unless searching or prefetching. -/
def fillBuf (s : Cache) (bp : Buf) (dev block : ℕ) (only_search : Search) : Cache :=
  let s := assignBuf s bp dev block only_search
  if dev ≠ NO_DEV ∧ only_search = .NORMAL then rwBlock s bp .READING else s

/-- Evict a block for the requested one. -/
def replaceBuf (s : Cache) (dev block : ℕ) (only_search : Search) : Option (Buf × Cache) := do
  let (bp, links) ← takeOldest s.toLinks
  let links ← unhashBuf links bp
  let s ← cleanTaken { s with toLinks := links } bp
  some (bp, fillBuf s bp dev block only_search)

/-- Check to see if the requested block is in the block cache. If not, evict some other block and
fetch it. -/
def getBlock (s : Cache) (dev block : ℕ) (only_search : Search) : Option (Buf × Cache) :=
  match searchHash s dev block with
  | none => none
  | some (some bp) => some (bp, { s with toLinks := useBuf s.toLinks bp })
  | some none => replaceBuf s dev block only_search

/-! ## The rest -/

/-- Initialize the buffer pool. -/
def bufPool (s : Cache) : Cache :=
  { s with
    bufs_in_use := 0
    front := nth NR_BUFS 0
    rear := nth NR_BUFS (NR_BUFS - 1)
    b_blocknr := fun _ => NO_BLOCK
    b_dev := fun _ => NO_DEV
    b_next := fun bp => nth NR_BUFS (bp + 1)
    b_prev := fun bp => if bp = 0 then none else nth NR_BUFS (bp - 1)
    b_hash := fun bp => nth NR_BUFS (bp + 1)
    buf_hash := Function.update s.buf_hash (hashOf NO_BLOCK) (nth NR_BUFS 0) }

/-- A user of a block gives it new contents, and marks it as dirty. -/
def writeBuf (s : Cache) (bp : Buf) (data : Block) : Cache :=
  { s with
    b_data := Function.update s.b_data bp data
    b_dirt := Function.update s.b_dirt bp true }

/-- Zero a block. -/
def zeroBlock (s : Cache) (bp : Buf) : Cache := writeBuf s bp fun _ => 0

end Minix.Fs
