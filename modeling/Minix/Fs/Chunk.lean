import Minix.Fs.FileData
import Minix.Fs.File

/-!
# A chunk of a file is written

What `rw_chunk` does when it writes: there is no space for a new block, or a block is stored in the
file. The block has what the file has there, with what came from the user in it, or cleared in front
of that if it is at the end of the file. But a full block is not read in when it is not in the
cache, and if the copy from the user fails, it has what was in the buffer by chance.
-/

namespace Minix.Fs

/-- The block of a position is not in the cache when it is asked for. -/
def Uncached (sp : SuperBlock) (s : Cache) (rip : Inode) (position : ℕ) : Prop :=
  ∃ b c, readMap s rip sp.s_log_zone_size position = some (b, c) ∧ b ≠ NO_BLOCK ∧
    Absent c rip.i_dev b

/-- A block is cleared before a chunk is written. -/
def Clears (rip : Inode) (position off chunk : ℕ) : Prop :=
  chunk ≠ BLOCK_SIZE ∧ position ≥ rip.i_size ∧ off = 0

instance (rip : Inode) (position off chunk : ℕ) : Decidable (Clears rip position off chunk) :=
  inferInstanceAs (Decidable (_ ∧ _ ∧ _))

/-- What a file has in the block of a position. -/
def oldBlock (sp : SuperBlock) (L : Contents) (rip : Inode) (position : ℕ) : Block := fun k =>
  fileByte sp L rip (position / BLOCK_SIZE * BLOCK_SIZE + k)

/-- What `rw_chunk` leaves when it writes. -/
inductive ChunkWritten (sp : SuperBlock) (held : Buf → ℕ) (L : Contents) (x : Xfer) (off chunk : ℕ)
    (x' : Xfer) (L' : Contents) : Prop
  | full (hm : Mounted sp ⟨x'.cache, held⟩ L')
      (hx : x' = { x with cache := x'.cache, rip := x'.rip, r := x'.r })
      (hr : NoSpace (sp.zoneOf x.position) x'.r)
      (hfree : zoneRef sp L x.rip (.data (sp.zoneOf x.position)) = NO_ZONE)
      (hmap : Remapped sp L x.rip L' x'.rip (dataZones sp L x.rip))
  | stored {old data : Block} (hm : Mounted sp ⟨x'.cache, held⟩ L')
      (hx : x' = { x with
        cache := x'.cache
        rip := x'.rip
        user := { x.user with copies := x.user.copies.tail }
        r := x.user.copies.headD OK })
      (hst : Stored sp L x.rip x.position data L' x'.rip)
      (hdata : data = if x.user.copies.headD OK = OK then
        fromUser x.user.mem x.buffer off chunk old else old)
      (hold : old = (if Clears x.rip x.position off chunk then fun _ => 0
          else oldBlock sp L x.rip x.position) ∨
        chunk = BLOCK_SIZE ∧ Uncached sp x.cache x.rip x.position)

variable {sp : SuperBlock} {s : Session} {L L' : Contents} {rip rip' : Inode} {z position off chunk : ℕ}
  {x : Xfer}

/-- The positions of a block. -/
theorem block_position (position : ℕ) (k : Fin BLOCK_SIZE) :
    (position / BLOCK_SIZE * BLOCK_SIZE + k) / BLOCK_SIZE = position / BLOCK_SIZE ∧
      inBlock (position / BLOCK_SIZE * BLOCK_SIZE + k) = k := by
  constructor
  · rw [Nat.mul_comm, Nat.mul_add_div (by decide), Nat.div_eq_of_lt k.isLt, Nat.add_zero]
  · refine Fin.ext ?_
    show (position / BLOCK_SIZE * BLOCK_SIZE + k) % BLOCK_SIZE = k
    rw [Nat.mul_comm, Nat.mul_add_mod, Nat.mod_eq_of_lt k.isLt]

/-- A block that has no zone. -/
theorem oldBlock_hole (h : zoneRef sp L rip (.data (sp.zoneOf position)) = NO_ZONE) :
    oldBlock sp L rip position = fun _ => 0 := by
  funext k
  refine fileByte_hole ?_
  rwa [sp.zoneOf_eq, (block_position position k).1, ← sp.zoneOf_eq]

/-- A block that has a zone. -/
theorem oldBlock_mapped (h : zoneRef sp L rip (.data (sp.zoneOf position)) = z) (hz : z ≠ NO_ZONE) :
    oldBlock sp L rip position =
      L sp.s_dev (zoneBlock z sp.s_log_zone_size (sp.boff position)) := by
  funext k
  obtain ⟨hdiv, hin⟩ := block_position position k
  have hboff : sp.boff (position / BLOCK_SIZE * BLOCK_SIZE + k) = sp.boff position := by
    rw [sp.boff_eq, sp.boff_eq, hdiv]
  unfold oldBlock
  rw [fileByte_mapped (by rwa [sp.zoneOf_eq, hdiv, ← sp.zoneOf_eq]) hz, hboff, hin]

/-- What the buffer for a chunk is when it is written. -/
def WriteBufResult (sp : SuperBlock) (s : Session) (L : Contents) (rip : Inode)
    (position off chunk : ℕ) (w : Written Buf) : Prop :=
  match w.res with
  | .error r => NoSpace (sp.zoneOf position) r ∧ zoneRef sp L rip (.data (sp.zoneOf position)) = NO_ZONE ∧
      ∃ L', Mounted sp ⟨w.cache, s.held⟩ L' ∧ Remapped sp L rip L' w.rip (dataZones sp L rip)
  | .ok bp => ∃ after : Block → Contents,
      (∀ data, Mounted sp ⟨writeBuf w.cache bp data,
        Function.update s.held bp (s.held bp + 1)⟩ (after data)) ∧
      (∀ data, Stored sp L rip position data (after data) w.rip) ∧
      (w.cache.b_data bp = oldBlock sp L rip position ∨
        writeSearch rip position off chunk = .NO_READ ∧ Uncached sp s.cache rip position)

/-- The buffer for a chunk is got, to be written. -/
theorem Mounted.chunkBuf (h : Mounted sp s L) (hh : Holds sp s.held) (hsp : sp.Ok)
    (hok : FileOk sp L rip) (hspec : rip.blockSpec = false) (hk : Placed sp L rip (sp.zoneOf position))
    (off chunk left : ℕ) :
    ∃ w, Fs.chunkBuf s.cache sp rip position off chunk left .WRITING = some w ∧
      WriteBufResult sp s L rip position off chunk w := by
  have hdev : rip.i_dev ≠ NO_DEV := by
    rw [hok.dev]
    exact hsp.dev
  obtain ⟨c, he, hm⟩ := h.readMap hh hdev position
  unfold Fs.chunkBuf chunkBlock
  rw [if_neg (by rw [hspec]; decide), he, Option.bind_eq_bind, Option.bind_some]
  dsimp only
  by_cases h0 : zoneRef sp L rip (.data (sp.zoneOf position)) = NO_ZONE
  · have hno : blockAt sp L rip position = NO_BLOCK := if_pos h0
    obtain ⟨w, hw, hres⟩ := hm.newBlock hh hsp hok h0 hk
    rw [if_pos ⟨hspec, hno⟩]
    refine ⟨w, hw, ?_⟩
    unfold NewBlockResult at hres
    unfold WriteBufResult
    cases hwr : w.res with
    | error r =>
      rw [hwr] at hres
      exact ⟨hres.1, h0, hres.2⟩
    | ok bp =>
      rw [hwr] at hres
      obtain ⟨L', z, hnz, hzero, hmw⟩ := hres
      exact ⟨_, hmw, fun data => Stored.new hnz hok hsp data,
        Or.inl ((funext hzero).trans (oldBlock_hole h0).symm)⟩
  · have hat : blockAt sp L rip position = zoneBlock (zoneRef sp L rip (.data (sp.zoneOf position)))
        sp.s_log_zone_size (sp.boff position) := if_neg h0
    have hne := hsp.block_ne (hok.zone _ h0).1 (sp.boff_lt position)
    have hrd : raheadDev rip = sp.s_dev := by
      unfold raheadDev
      rw [hspec, if_neg (by decide), hok.dev]
    have hmode : writeSearch rip position off chunk ≠ .PREFETCH := by
      unfold writeSearch
      split_ifs <;> decide
    obtain ⟨bp, c', he', -, -, hread, hmw⟩ := hm.get_write hh hsp.dev (blockAt sp L rip position)
      (writeSearch rip position off chunk) hmode
    rw [if_neg (by rw [hat]; exact fun e => hne e.2)]
    unfold blockBuf
    dsimp only at he' hread ⊢
    rw [hrd, he', Option.bind_eq_bind, Option.bind_some]
    rw [hat] at hmw hread he
    refine ⟨_, rfl, _, hmw, fun data => Stored.old hok hsp rfl h0 data, ?_⟩
    -- The buffer has the contents of the block, unless that is not read.
    by_cases hsearch : writeSearch rip position off chunk = .NO_READ
    · by_cases habs : Absent c sp.s_dev (zoneBlock (zoneRef sp L rip (.data (sp.zoneOf position)))
          sp.s_log_zone_size (sp.boff position))
      · exact Or.inr ⟨hsearch, _, c, he, hne, by rwa [hok.dev]⟩
      · left
        rw [oldBlock_mapped rfl h0]
        exact hread (Or.inr habs)
    · left
      rw [oldBlock_mapped rfl h0]
      refine hread (Or.inl ?_)
      cases hs : writeSearch rip position off chunk with
      | NORMAL => rfl
      | NO_READ => exact absurd hs hsearch
      | PREFETCH => exact absurd hs hmode

/-- A chunk of a file is written. -/
theorem Mounted.rwChunk_write {held : Buf → ℕ} (h : Mounted sp ⟨x.cache, held⟩ L)
    (hh : Holds sp held) (hsp : sp.Ok) (hok : FileOk sp L x.rip) (hspec : x.rip.blockSpec = false)
    (hk : Placed sp L x.rip (sp.zoneOf x.position)) (off chunk : ℕ) :
    ∃ x' L', rwChunk sp .WRITING x off chunk = some x' ∧
      ChunkWritten sp held L x off chunk x' L' := by
  obtain ⟨w, he, hres⟩ := h.chunkBuf hh hsp hok hspec hk off chunk x.nbytes
  unfold rwChunk
  dsimp only at he
  rw [he, Option.bind_eq_bind, Option.bind_some]
  unfold WriteBufResult at hres
  cases hwr : w.res with
  | error r =>
    rw [hwr] at hres
    obtain ⟨hr, hfree, L', hm, hmap⟩ := hres
    exact ⟨_, L', rfl, .full hm rfl hr hfree hmap⟩
  | ok bp =>
    rw [hwr] at hres
    obtain ⟨after, hm, hst, hold⟩ := hres
    have hinode := (hst fun _ => 0).grown.inode
    have hspec' : w.rip.blockSpec = false := by
      rw [hinode]
      exact hspec
    have hsize : w.rip.i_size = x.rip.i_size := by rw [hinode]
    dsimp only
    -- What is in the buffer when the copy is made.
    obtain ⟨old, hbuf, hclear, hdata⟩ : ∃ old, (clearAtEnd w.cache w.rip bp x.position off chunk
        .WRITING).b_data bp = old ∧
        (∀ data, writeBuf (clearAtEnd w.cache w.rip bp x.position off chunk .WRITING) bp data =
          writeBuf w.cache bp data) ∧
        (old = (if Clears x.rip x.position off chunk then fun _ => 0
          else oldBlock sp L x.rip x.position) ∨
        chunk = BLOCK_SIZE ∧ Uncached sp x.cache x.rip x.position) := by
      unfold clearAtEnd
      by_cases hc : Clears x.rip x.position off chunk
      · rw [if_pos ⟨rfl, hc.1, hspec', by rw [hsize]; exact hc.2.1, hc.2.2⟩]
        refine ⟨_, rfl, fun data => writeBuf_writeBuf .., Or.inl ?_⟩
        rw [if_pos hc]
        exact Function.update_self ..
      · rw [if_neg fun e => hc ⟨e.2.1, by rw [← hsize]; exact e.2.2.2.1, e.2.2.2.2⟩]
        refine ⟨_, rfl, fun _ => rfl, ?_⟩
        rw [if_neg hc]
        refine hold.imp id fun ⟨hs, hu⟩ => ⟨?_, hu⟩
        unfold writeSearch at hs
        unfold Clears at hc
        split_ifs at hs with h₁ h₂
        · exact h₁
        · exact absurd ⟨h₁, h₂.2.2, h₂.2.1⟩ hc
    have hplain : PlainType (if off + chunk = BLOCK_SIZE then FULL_DATA_BLOCK
        else PARTIAL_DATA_BLOCK) := by
      split_ifs
      · exact full_data_plain
      · exact partial_data_plain
    refine ⟨_, after (if x.user.copies.headD OK = OK then
        fromUser x.user.mem x.buffer off chunk old else old), rfl,
      .stored (Mounted.put ?_ hplain) rfl (hst _) rfl hdata⟩
    unfold rwUser
    dsimp only
    rw [hbuf, hclear]
    exact hm _

end Minix.Fs
