import Minix.Fs.DirScan
import Minix.Fs.FileLoop

/-!
# What a search of a directory does

A search of a directory by a caller that may make it, for each of its three purposes: it looks up an
inode number (`IsDir.lookUp`), erases an entry (`IsDir.delete`) or makes one (`IsDir.enter`). The
other entries are left alone, with one exception: a directory of 65535 slots that are all in use is
extended by a block that it has already, which is cleared.
-/

namespace Minix.Fs

/-- The number of slots when there is an entry in slot `k`. -/
def slotsWith (slots k : ℕ) : ℕ := if unshort (k + 1) > slots then unshort (k + 1) else slots

/-- The first slot of the block that a directory is extended by. -/
def newBlockSlot (slots : ℕ) : ℕ := slots / NR_DIR_ENTRIES * NR_DIR_ENTRIES

/-- Where an entry is made: in a free slot, or behind the others in their block. -/
def EnteredAt (entry : ℕ → DirEntry) (string : Name) (slots k : ℕ) : Prop :=
  hunt entry .ENTER string slots = some k ∨
    hunt entry .ENTER string slots = none ∧ k = slots ∧ reach slots = slots ∧
      slots % NR_DIR_ENTRIES ≠ 0

/-- What a directory is when an entry has been made. -/
inductive DirEntered (sp : SuperBlock) (held : Buf → ℕ) (L : Contents) (dir : OwnedInode)
    (slots : ℕ) (string : Name) (numb : ℕ) (res : Searched) : Prop
  /-- The entry is in a block that was there. -/
  | slot {k : ℕ} {L' : Contents} (hk : EnteredAt (dirEntry sp L dir.toInode) string slots k)
      (hr : res.r = OK)
      (hdir : IsDir sp held res.cache L' res.ldir_ptr.toInode (slotsWith slots k))
      (hentry : ∀ k', dirEntry sp L' res.ldir_ptr.toInode k' =
        if k' = k then ⟨numb, string⟩ else dirEntry sp L dir.toInode k')
  /-- The entry is the first one of a clear block. -/
  | block {L' : Contents} (hk : hunt (dirEntry sp L dir.toInode) .ENTER string slots = none)
      (hreach : reach slots % NR_DIR_ENTRIES = 0) (hr : res.r = OK)
      (hdir : IsDir sp held res.cache L' res.ldir_ptr.toInode (slotsWith slots (reach slots)))
      (hentry : ∀ k', (k' / NR_DIR_ENTRIES = slots / NR_DIR_ENTRIES →
          dirEntry sp L' res.ldir_ptr.toInode k' =
            if k' = newBlockSlot slots then ⟨numb, string⟩ else ⟨0, fun _ => 0⟩) ∧
        (k' / NR_DIR_ENTRIES ≠ slots / NR_DIR_ENTRIES → k' < slots →
          dirEntry sp L' res.ldir_ptr.toInode k' = dirEntry sp L dir.toInode k'))
  /-- There is no space for a new block. -/
  | full {L' : Contents} (hk : hunt (dirEntry sp L dir.toInode) .ENTER string slots = none)
      (hhole : zoneRef sp L dir.toInode (.data (sp.zoneOf dir.i_size)) = NO_ZONE)
      (hr : res.r = ENOSPC) (hdir : IsDir sp held res.cache L' res.ldir_ptr.toInode slots)
      (hentry : ∀ k', dirEntry sp L' res.ldir_ptr.toInode k' = dirEntry sp L dir.toInode k')

variable {sp : SuperBlock} {held : Buf → ℕ} {c c' : Cache} {L L' : Contents} {rip rip' : Inode}
  {dir : OwnedInode} {slots slots' k n i j m p position numb new_slots : ℕ} {flag : DirFlag}
  {string : Name} {data b : Block} {e : DirEntry} {bp : Buf} {fp : Caller} {s_rd_only : Bool}
  {hit : Option (Buf × ℕ)} {res : Searched}

/-- The slot of an entry in the buffer of its block. -/
theorem HasBuf.slot (h : HasBuf sp held L rip (DIR_ENTRY_SIZE * k) c bp) :
    bDir (c.b_data bp) (k % NR_DIR_ENTRIES) = dirEntry sp L rip k := by
  rw [h.data]
  refine bDir_oldBlock ?_
  show k / 64 = 16 * k / 1024
  omega

/-- A search that is allowed ends with what is done with its slot. -/
theorem IsDir.search (h : IsDir sp held c L dir.toInode slots) (hh : Holds sp held) (hsp : sp.Ok)
    (ha : MaySearch fp s_rd_only dir flag) (string : Name) (numb : ℕ) :
    ∃ hit new_slots c', BlocksSearched sp held L dir.toInode flag string slots (hit, new_slots, c') ∧
      searchDir fp s_rd_only sp c dir string numb flag =
        searchEnd c' sp dir string numb flag hit new_slots slots := by
  have hold : unshort (dir.i_size / DIR_ENTRY_SIZE) = slots := by
    rw [h.size, Nat.mul_div_cancel_left _ (by decide)]
    exact Nat.mod_eq_of_lt h.small
  have hfuel : slots ≤ NR_DIR_ENTRIES * (0 + (dir.i_size / BLOCK_SIZE + 1)) := by
    rw [h.size]
    show slots ≤ 64 * (0 + (16 * slots / 1024 + 1))
    omega
  obtain ⟨⟨hit, new_slots, c'⟩, he, hres⟩ : ∃ res, Fs.searchBlocks c sp dir.toInode flag string slots
      (dir.i_size / BLOCK_SIZE + 1) 0 0 = some res ∧
      BlocksSearched sp held L dir.toInode flag string slots res :=
    h.searchBlocks hh hsp (Nat.zero_le _) hfuel rfl
  refine ⟨hit, new_slots, c', hres, ?_⟩
  unfold searchDir
  rw [if_neg (not_not.mpr ha.type)]
  dsimp only
  rw [if_neg (not_not.mpr ha.access), hold]
  rw [he]
  rfl

/-! ## Looking up -/

/-- An inode number is looked up. -/
theorem IsDir.lookUp (h : IsDir sp held c L dir.toInode slots) (hh : Holds sp held) (hsp : sp.Ok)
    (ha : MaySearch fp s_rd_only dir .LOOK_UP) (string : Name) (numb : ℕ) :
    ∃ res, searchDir fp s_rd_only sp c dir string numb .LOOK_UP = some res ∧ res.ldir_ptr = dir ∧
      IsDir sp held res.cache L dir.toInode slots ∧
      match hunt (dirEntry sp L dir.toInode) .LOOK_UP string slots with
      | some k => res.r = OK ∧ res.numb = (dirEntry sp L dir.toInode k).d_inum
      | none => res.r = ENOENT := by
  obtain ⟨hit, new_slots, c', hres, he⟩ := h.search hh hsp ha string numb
  rw [he]
  cases hit with
  | none =>
    obtain ⟨hnone, -, hm⟩ := hres
    rw [hnone]
    exact ⟨_, rfl, rfl, ⟨hm, h.ok, h.size, h.small, h.mapped⟩, rfl⟩
  | some hit =>
    obtain ⟨k, hi, hlt, -, hbuf, hhunt | ⟨hflag, -⟩⟩ := hres
    · rw [hhunt]
      refine ⟨_, rfl, rfl, ⟨hbuf.mounted.put directory_plain, h.ok, h.size, h.small, h.mapped⟩, rfl, ?_⟩
      rw [hi, hbuf.slot]
    · exact absurd hflag (by decide)

/-! ## Blocks that are stored -/

/-- The entries of a block that has been stored. -/
theorem Stored.dirEntry_here (h : Stored sp L rip position data L' rip')
    (hk : k / NR_DIR_ENTRIES = position / BLOCK_SIZE) :
    dirEntry sp L' rip' k = bDir data (k % NR_DIR_ENTRIES) := by
  refine entryOf_congr fun x hx => ?_
  have hk : k / 64 = position / 1024 := hk
  have hx : x < 16 := hx
  rw [h.here _ (show (16 * k + x) / 1024 = position / 1024 by omega)]
  congr 1
  refine Fin.ext ?_
  show (16 * k + x) % 1024 = (16 * (k % 64) + x) % 1024
  omega

/-- The entries of the other blocks. -/
theorem Stored.dirEntry_other (h : Stored sp L rip position data L' rip')
    (hk : k / NR_DIR_ENTRIES ≠ position / BLOCK_SIZE)
    (hmapped : zoneRef sp L rip (.data (sp.zoneOf position)) ≠ NO_ZONE ∨
      zoneRef sp L rip (.data (sp.zoneOf (DIR_ENTRY_SIZE * k))) ≠ NO_ZONE) :
    dirEntry sp L' rip' k = dirEntry sp L rip k := by
  refine entryOf_congr fun x hx => ?_
  have hk : k / 64 ≠ position / 1024 := hk
  have hx : x < 16 := hx
  have hzone : sp.zoneOf (DIR_ENTRY_SIZE * k + x) = sp.zoneOf (DIR_ENTRY_SIZE * k) := by
    rw [sp.zoneOf_eq, sp.zoneOf_eq]
    congr 1
    show (16 * k + x) / 1024 = 16 * k / 1024
    omega
  refine h.others _ (show (16 * k + x) / 1024 ≠ position / 1024 by omega) fun hhole hsame => ?_
  rw [hzone] at hsame
  rw [hsame] at hmapped
  exact absurd hhole (hmapped.elim id id)

/-- A directory is one when a block of it has been stored, and it has grown by a slot of the block
at most. -/
theorem IsDir.stored (h : IsDir sp held c L rip slots)
    (hst : Stored sp L rip position data L' rip') (hm : Mounted sp ⟨c', held⟩ L')
    (hs : slots' < 65536)
    (hgrown : slots' ≤ slots ∨ slots' = slots + 1 ∧
      slots / NR_DIR_ENTRIES = position / BLOCK_SIZE) :
    IsDir sp held c' L' { rip' with i_size := DIR_ENTRY_SIZE * slots' } slots' := by
  refine ⟨hm, hst.grown.ok.congr rfl rfl fun r hr => (hst.grown.ok.zone r hr).2, rfl, hs, ?_⟩
  intro p hp
  have hp : p < 16 * slots' := hp
  show zoneRef sp L' rip' (.data (sp.zoneOf p)) ≠ NO_ZONE
  by_cases hblock : p / BLOCK_SIZE = position / BLOCK_SIZE
  · have hzone : sp.zoneOf p = sp.zoneOf position := by rw [sp.zoneOf_eq, sp.zoneOf_eq, hblock]
    rw [hzone]
    exact hst.mapped
  · have hlt : p < rip.i_size := by
      rw [h.size]
      rcases hgrown with hle | ⟨rfl, hslots⟩
      · show p < 16 * slots
        omega
      · have hblock : ¬p / 1024 = position / 1024 := hblock
        have hslots : slots / 64 = position / 1024 := hslots
        show p < 16 * slots
        omega
    have hz := h.mapped p hlt
    rw [hst.grown.keeps _ hz]
    exact hz

/-- An entry of a block that is held is written. -/
theorem HasBuf.store (h : HasBuf sp held L rip (DIR_ENTRY_SIZE * k) c bp) (hok : FileOk sp L rip)
    (hsp : sp.Ok) (hz : zoneRef sp L rip (.data (sp.zoneOf (DIR_ENTRY_SIZE * k))) ≠ NO_ZONE)
    (he : e.d_inum < 65536) :
    ∃ L', Mounted sp ⟨putBlock (writeBuf c bp (setDir (c.b_data bp) (k % NR_DIR_ENTRIES) e))
        (some bp) DIRECTORY_BLOCK, held⟩ L' ∧
      (∃ data, Stored sp L rip (DIR_ENTRY_SIZE * k) data L' rip) ∧
      ∀ k', dirEntry sp L' rip k' = if k' = k then e else dirEntry sp L rip k' := by
  have hst : Stored sp L rip (DIR_ENTRY_SIZE * k) (setDir (c.b_data bp) (k % NR_DIR_ENTRIES) e)
      (L.set sp.s_dev (dataBlock sp L rip (DIR_ENTRY_SIZE * k))
        (setDir (c.b_data bp) (k % NR_DIR_ENTRIES) e)) rip := Stored.old hok hsp rfl hz _
  have hw := h.mounted.write bp (setDir (c.b_data bp) (k % NR_DIR_ENTRIES) e)
  dsimp only at hw
  rw [h.dev, h.blocknr] at hw
  refine ⟨_, hw.put directory_plain, ⟨_, hst⟩, fun k' => ?_⟩
  by_cases hblock : k' / NR_DIR_ENTRIES = DIR_ENTRY_SIZE * k / BLOCK_SIZE
  · have hb : k' / 64 = 16 * k / 1024 := hblock
    rw [hst.dirEntry_here hblock, bDir_setDir (Nat.mod_lt _ (by decide)) he, h.data,
      bDir_oldBlock hblock]
    have hiff : k' % NR_DIR_ENTRIES = k % NR_DIR_ENTRIES ↔ k' = k := by
      show k' % 64 = k % 64 ↔ k' = k
      omega
    simp only [hiff]
  · have hb : ¬k' / 64 = 16 * k / 1024 := hblock
    rw [hst.dirEntry_other hblock (Or.inl hz), if_neg (by omega)]

/-- The block of a slot that is seen is there. -/
theorem IsDir.mapped_slot (h : IsDir sp held c L rip slots) (hk : k < slots ∨
    k / NR_DIR_ENTRIES = slots / NR_DIR_ENTRIES ∧ slots % NR_DIR_ENTRIES ≠ 0) :
    zoneRef sp L rip (.data (sp.zoneOf (DIR_ENTRY_SIZE * k))) ≠ NO_ZONE := by
  rcases hk with hlt | ⟨hblock, hmod⟩
  · refine h.mapped _ ?_
    rw [h.size]
    show 16 * k < 16 * slots
    omega
  · have hblock : k / 64 = slots / 64 := hblock
    have hmod : slots % 64 ≠ 0 := hmod
    have hzone : sp.zoneOf (DIR_ENTRY_SIZE * k) = sp.zoneOf (DIR_ENTRY_SIZE * (slots - 1)) := by
      rw [sp.zoneOf_eq, sp.zoneOf_eq]
      congr 1
      show 16 * k / 1024 = 16 * (slots - 1) / 1024
      omega
    rw [hzone]
    refine h.mapped _ ?_
    rw [h.size]
    show 16 * (slots - 1) < 16 * slots
    omega

/-- The block of a slot that a hunt ends at is there. -/
theorem IsDir.mapped_hunt (h : IsDir sp held c L rip slots) {entry : ℕ → DirEntry}
    (hhunt : hunt entry flag string slots = some k) :
    zoneRef sp L rip (.data (sp.zoneOf (DIR_ENTRY_SIZE * k))) ≠ NO_ZONE := by
  have hlt := hunt_lt hhunt
  refine h.mapped_slot ?_
  show k < slots ∨ k / 64 = slots / 64 ∧ slots % 64 ≠ 0
  rcases reach_cases h.small with ⟨hr, -⟩ | ⟨hr, hs⟩ <;> omega

/-! ## Deleting -/

/-- An entry is erased. -/
theorem IsDir.delete (h : IsDir sp held c L dir.toInode slots) (hh : Holds sp held) (hsp : sp.Ok)
    (ha : MaySearch fp s_rd_only dir .DELETE) (string : Name) (numb : ℕ) :
    ∃ res L', searchDir fp s_rd_only sp c dir string numb .DELETE = some res ∧ res.ldir_ptr = dir ∧
      IsDir sp held res.cache L' dir.toInode slots ∧
      match hunt (dirEntry sp L dir.toInode) .DELETE string slots with
      | some k => res.r = OK ∧ ∀ k', dirEntry sp L' dir.toInode k' =
          if k' = k then (dirEntry sp L dir.toInode k).erase else dirEntry sp L dir.toInode k'
      | none => res.r = ENOENT ∧ L' = L := by
  obtain ⟨hit, new_slots, c', hres, he⟩ := h.search hh hsp ha string numb
  rw [he]
  cases hit with
  | none =>
    obtain ⟨hnone, -, hm⟩ := hres
    rw [hnone]
    exact ⟨_, L, rfl, rfl, ⟨hm, h.ok, h.size, h.small, h.mapped⟩, rfl, rfl⟩
  | some hit =>
    obtain ⟨k, hi, hlt, -, hbuf, hhunt | ⟨hflag, -⟩⟩ := hres
    · have hz := h.mapped_hunt hhunt
      obtain ⟨L', hm, ⟨data, hst⟩, hentry⟩ := hbuf.store h.ok hsp hz
        (e := (dirEntry sp L dir.toInode k).erase) (show 0 < 65536 by decide)
      have hdir := h.stored hst hm h.small (Or.inl le_rfl)
      rw [← h.size] at hdir
      rw [hhunt]
      unfold searchEnd
      dsimp only
      rw [hi, hbuf.slot]
      exact ⟨_, L', rfl, rfl, hdir, rfl, hentry⟩
    · exact absurd hflag (by decide)

/-! ## Entering -/

/-- The slots of a clear block are free. -/
theorem bDir_clear : bDir (fun _ => 0) i = ⟨0, fun _ => 0⟩ := by
  unfold bDir entryOf
  dsimp only
  rfl

/-- What `new_block` leaves for a position that may have a zone already. -/
def NewBufResult (sp : SuperBlock) (held : Buf → ℕ) (L : Contents) (rip : Inode) (position : ℕ)
    (w : Written Buf) : Prop :=
  match w.res with
  | .error r => zoneRef sp L rip (.data (sp.zoneOf position)) = NO_ZONE ∧
      NoSpace (sp.zoneOf position) r ∧ ∃ L', Mounted sp ⟨w.cache, held⟩ L' ∧
        Remapped sp L rip L' w.rip (dataZones sp L rip)
  | .ok bp => w.cache.b_data bp = (fun _ => 0) ∧ ∃ after : Block → Contents,
      (∀ data, Mounted sp ⟨writeBuf w.cache bp data, Function.update held bp (held bp + 1)⟩
        (after data)) ∧ ∀ data, Stored sp L rip position data (after data) w.rip

/-- A clear block is acquired: that of a zone that is there, or of a new one. -/
theorem Mounted.newBuf (h : Mounted sp ⟨c, held⟩ L) (hh : Holds sp held) (hsp : sp.Ok)
    (hok : FileOk sp L rip) (hk : Placed sp L rip (sp.zoneOf position)) :
    ∃ w, Fs.newBlock c sp rip position = some w ∧ NewBufResult sp held L rip position w := by
  by_cases h0 : zoneRef sp L rip (.data (sp.zoneOf position)) = NO_ZONE
  · obtain ⟨w, he, hres⟩ := h.newBlock hh hsp hok h0 hk
    refine ⟨w, he, ?_⟩
    unfold NewBlockResult at hres
    unfold NewBufResult
    cases hwr : w.res with
    | error r =>
      rw [hwr] at hres
      exact ⟨h0, hres⟩
    | ok bp =>
      rw [hwr] at hres
      obtain ⟨L', z, hnz, hzero, hmw⟩ := hres
      exact ⟨funext hzero, _, hmw, fun data => Stored.new hnz hok hsp data⟩
  · obtain ⟨c₁, he₁, hm₁⟩ := h.readMap hh (by rw [hok.dev]; exact hsp.dev) position
    have hat : blockAt sp L rip position = dataBlock sp L rip position := if_neg h0
    have hne : dataBlock sp L rip position ≠ NO_BLOCK :=
      hsp.block_ne (hok.zone _ h0).1 (sp.boff_lt position)
    obtain ⟨bp, c₂, he₂, -, -, -, hw⟩ := hm₁.get_write hh hsp.dev (dataBlock sp L rip position)
      .NO_READ (by decide)
    refine ⟨⟨.ok bp, rip, zeroBlock c₂ bp⟩, ?_, Function.update_self .., _, fun data => ?_,
      fun data => Stored.old hok hsp rfl h0 data⟩
    · rw [hat] at he₁
      unfold Fs.newBlock Fs.newBlockNr
      dsimp only at he₁ he₂
      rw [he₁, Option.bind_eq_bind, Option.bind_eq_bind, Option.bind_some]
      dsimp only
      rw [if_pos hne, Option.bind_some]
      dsimp only
      rw [hok.dev, he₂]
      rfl
    · dsimp only
      unfold zeroBlock
      rw [writeBuf_writeBuf]
      exact hw data

/-- A directory has an entry more when the slots have been counted. -/
theorem slotsWith_cases (hs : slots < 65536) (hk : k < reach slots ∨ k = reach slots) :
    slotsWith slots k < 65536 ∧
      (slotsWith slots k = slots ∨ slotsWith slots k = slots + 1 ∧ k = slots) := by
  unfold slotsWith unshort
  rcases reach_cases hs with ⟨hr, hlt⟩ | ⟨hr, rfl⟩ <;> split_ifs <;> omega

/-- The size of a directory in which there is an entry in slot `k`. -/
theorem IsDir.size_with (h : IsDir sp held c L rip slots) :
    (if unshort (k + 1) > slots then unshort (k + 1) * DIR_ENTRY_SIZE else rip.i_size) =
      DIR_ENTRY_SIZE * slotsWith slots k := by
  unfold slotsWith
  rw [h.size, Nat.mul_comm (unshort (k + 1))]
  split_ifs <;> rfl

/-- An entry is made in a slot of a block that is there. -/
theorem IsDir.enterSlot (h : IsDir sp held c L dir.toInode slots) (hsp : sp.Ok)
    (hbuf : HasBuf sp held L dir.toInode (DIR_ENTRY_SIZE * k) c' bp)
    (hk : EnteredAt (dirEntry sp L dir.toInode) string slots k) (hnumb : numb < 65536) :
    ∃ res, enterEntry c' sp dir string numb (some (bp, k % NR_DIR_ENTRIES)) (unshort (k + 1)) slots =
      some res ∧ DirEntered sp held L dir slots string numb res ∧ SameRights dir res.ldir_ptr := by
  have hz : zoneRef sp L dir.toInode (.data (sp.zoneOf (DIR_ENTRY_SIZE * k))) ≠ NO_ZONE := by
    rcases hk with hhunt | ⟨-, rfl, -, hmod⟩
    · exact h.mapped_hunt hhunt
    · exact h.mapped_slot (Or.inr ⟨rfl, hmod⟩)
  have hreach : k < reach slots ∨ k = reach slots := by
    rcases hk with hhunt | ⟨-, rfl, hr, -⟩
    · exact Or.inl (hunt_lt hhunt)
    · exact Or.inr hr.symm
  obtain ⟨hlt, hgrown⟩ := slotsWith_cases h.small hreach
  obtain ⟨L', hm, ⟨data, hst⟩, hentry⟩ := hbuf.store h.ok hsp hz (e := ⟨numb, string⟩) hnumb
  have hdir := h.stored hst hm hlt (hgrown.imp le_of_eq fun ⟨heq, hks⟩ => ⟨heq, by
    rw [hks]
    show slots / 64 = 16 * slots / 1024
    omega⟩)
  rw [← h.size_with] at hdir
  exact ⟨_, rfl, .slot hk rfl hdir hentry, ⟨rfl, rfl, rfl⟩⟩

/-- The zone behind the end of a directory has a place in the map. -/
theorem IsDir.zone_lt (h : IsDir sp held c L rip slots) : sp.zoneOf rip.i_size < MAX_ZONES := by
  have hs := h.small
  have hle : rip.i_size / BLOCK_SIZE / 2 ^ sp.s_log_zone_size ≤ rip.i_size / BLOCK_SIZE :=
    Nat.div_le_self ..
  rw [sp.zoneOf_eq]
  refine lt_of_le_of_lt hle ?_
  rw [h.size]
  show 16 * slots / 1024 < 7 + 512 + 512 * 512
  omega

/-- The number of slots does not wrap when there is no room in the last block. -/
theorem extend_count (hreach : reach slots % NR_DIR_ENTRIES = 0) :
    ¬unshort (unshort (reach slots) + 1) = 0 := by
  have hreach : reach slots % 64 = 0 := hreach
  rw [unshort_succ]
  unfold unshort
  omega

/-- An entry is made in a block that is acquired, unless there is no space for it. -/
theorem IsDir.enterBlock (h : IsDir sp held c L dir.toInode slots) (hh : Holds sp held)
    (hsp : sp.Ok) (hk : hunt (dirEntry sp L dir.toInode) .ENTER string slots = none)
    (hreach : reach slots % NR_DIR_ENTRIES = 0) (hnumb : numb < 65536) :
    ∃ res, enterEntry c sp dir string numb none (unshort (reach slots)) slots = some res ∧
      DirEntered sp held L dir slots string numb res ∧ SameRights dir res.ldir_ptr := by
  obtain ⟨hlt, hgrown⟩ := slotsWith_cases (k := reach slots) h.small (Or.inr rfl)
  obtain ⟨w, he, hres⟩ : ∃ w, newBlock c sp dir.toInode dir.i_size = some w ∧
      NewBufResult sp held L dir.toInode dir.i_size w :=
    h.mounted.newBuf hh hsp h.ok (Or.inl h.zone_lt)
  unfold enterEntry newSlot
  dsimp only
  rw [if_neg (extend_count hreach), he, Option.bind_eq_bind, Option.bind_eq_bind, Option.bind_some,
    Option.bind_some]
  dsimp only
  unfold NewBufResult at hres
  cases hwr : w.res with
  | error r =>
    rw [hwr] at hres
    obtain ⟨hhole, hr, L', hm, hmap⟩ := hres
    have hr : r = ENOSPC := hr.elim id fun ⟨_, hbig⟩ => absurd h.zone_lt (Nat.not_lt.mpr hbig)
    have hsize : w.rip.i_size = dir.i_size := by rw [hmap.inode]
    have hmode : w.rip.i_mode = dir.i_mode := by rw [hmap.inode]
    refine ⟨_, rfl, .full hk hhole hr ⟨hm, hmap.ok, hsize.trans h.size, h.small, ?_⟩ ?_,
      ⟨hmode, rfl, rfl⟩⟩
    · intro p hp
      have hz := h.mapped p (hsize ▸ hp)
      dsimp only
      rw [hmap.keeps _ hz]
      exact hz
    · intro k'
      exact entryOf_congr fun x _ => hmap.fileByte h.ok _
  | ok bp =>
    rw [hwr] at hres
    obtain ⟨hzero, after, hm, hst⟩ := hres
    have hst := hst (setDir (fun _ => 0) 0 ⟨numb, string⟩)
    have hsize : w.rip.i_size = dir.i_size := by rw [hst.grown.inode]
    have hmode : w.rip.i_mode = dir.i_mode := by rw [hst.grown.inode]
    have hblock : slots / NR_DIR_ENTRIES = dir.i_size / BLOCK_SIZE := by
      rw [h.size]
      show slots / 64 = 16 * slots / 1024
      omega
    have hdir := h.stored hst ((hm _).put directory_plain) hlt
      (hgrown.imp le_of_eq fun ⟨heq, _⟩ => ⟨heq, hblock⟩)
    rw [← h.size_with, ← unshort_succ, ← hsize] at hdir
    dsimp only [Except.map]
    rw [hzero]
    refine ⟨_, rfl, .block hk hreach rfl hdir fun k' => ⟨fun hk' => ?_, fun hk' hlt' => ?_⟩,
      ⟨hmode, rfl, rfl⟩⟩
    · have hmod : k' % NR_DIR_ENTRIES = 0 ↔ k' = newBlockSlot slots := by
        have hk' : k' / 64 = slots / 64 := hk'
        show k' % 64 = 0 ↔ k' = slots / 64 * 64
        omega
      refine (hst.dirEntry_here (hk'.trans hblock)).trans ?_
      rw [bDir_setDir (Nat.mod_lt _ (by decide)) hnumb, bDir_clear]
      simp only [hmod]
    · refine hst.dirEntry_other (fun e => hk' (e.trans hblock.symm)) (Or.inr ?_)
      exact h.mapped_slot (Or.inl hlt')

/-- An entry is made, unless there is no space for it. -/
theorem IsDir.enter (h : IsDir sp held c L dir.toInode slots) (hh : Holds sp held) (hsp : sp.Ok)
    (ha : MaySearch fp s_rd_only dir .ENTER) (string : Name) (hnumb : numb < 65536) :
    ∃ res, searchDir fp s_rd_only sp c dir string numb .ENTER = some res ∧
      DirEntered sp held L dir slots string numb res ∧ SameRights dir res.ldir_ptr := by
  obtain ⟨hit, new_slots, c', hres, he⟩ := h.search hh hsp ha string numb
  rw [he]
  cases hit with
  | none =>
    obtain ⟨hnone, hend, hm⟩ := hres
    obtain ⟨hreach, rfl⟩ := hend rfl
    have h' : IsDir sp held c' L dir.toInode slots := ⟨hm, h.ok, h.size, h.small, h.mapped⟩
    exact h'.enterBlock hh hsp hnone hreach hnumb
  | some hit =>
    obtain ⟨k, hi, hlt, rfl, hbuf, hk⟩ := hres
    obtain ⟨bp, i⟩ := hit
    dsimp only at hi
    subst hi
    exact h.enterSlot hsp hbuf (hk.imp id And.right) hnumb

end Minix.Fs
