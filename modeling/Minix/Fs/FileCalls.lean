import Minix.Fs.FileLoop

/-!
# Reading and writing an array of bytes

`IsFile` says that a file is an array of bytes, as far as reads can tell, and that nothing else can
come to be seen when it grows. A read returns the bytes of the array, and a write changes them: also
one that fails on its way, if it does no harm (`IsFile.write`).
-/

namespace Minix.Fs

/-- The longest file has a zone number for all its zones. -/
def SuperBlock.Sized (sp : SuperBlock) : Prop :=
  sp.s_max_size ≤ MAX_ZONES * (BLOCK_SIZE <<< sp.s_log_zone_size)

/-- A file is an array of bytes. -/
structure IsFile (sp : SuperBlock) (held : Buf → ℕ) (c : Cache) (L : Contents) (rip : Inode)
    (f : Bytes) : Prop where
  mounted : Mounted sp ⟨c, held⟩ L
  ok : FileOk sp L rip
  size : f.size = rip.i_size
  bytes : HasBytes sp L rip rip.i_size f.byte
  placed : Placed sp L rip (sp.zoneOf rip.i_size)

/-- The memory of a process when the bytes from `start` up to `position` have been read. -/
def readMem (byte : ℕ → UInt8) (start position : ℕ) (mem : ℕ → UInt8) (buffer : ℕ) : ℕ → UInt8 :=
  fun i => if buffer ≤ i ∧ i < buffer + (position - start) then byte (start + (i - buffer)) else mem i

/-- A read of a file, in front of a turn of the loop or behind its last one. -/
structure Reading (sp : SuperBlock) (held : Buf → ℕ) (L : Contents) (rip : Inode) (start : ℕ)
    (mem : ℕ → UInt8) (buffer : ℕ) (x : Xfer) : Prop where
  mounted : Mounted sp ⟨x.cache, held⟩ L
  rip_eq : x.rip = rip
  start_le : start ≤ x.position
  le_size : x.position ≤ max start rip.i_size
  buffer_eq : x.buffer = buffer + (x.position - start)
  mem_eq : x.user.mem = readMem (fileByte sp L rip) start x.position mem buffer

/-- The end of a read: all of it has been transferred, or all of the file, or it has failed. -/
def ReadEnd (rip : Inode) (x x' : Xfer) : Prop :=
  x'.r = OK ∧ (x'.nbytes = 0 ∨ rip.i_size ≤ x'.position) ∨ x'.r ≠ OK ∧ x'.r ∈ x.user.copies

variable {sp : SuperBlock} {c : Cache} {L L' L₀ : Contents} {rip rip' : Inode} {held : Buf → ℕ}
  {byte : ℕ → UInt8} {start buffer position chunk : ℕ} {mem : ℕ → UInt8} {x x' : Xfer} {f : Bytes}

/-! ## Reading -/

/-- The memory when a chunk more has been read. -/
theorem readMem_chunk (hs : start ≤ position) (hc : chunk ≤ BLOCK_SIZE - position % BLOCK_SIZE) :
    toUser (readMem (fileByte sp L rip) start position mem buffer) (buffer + (position - start))
        (position % BLOCK_SIZE) chunk (oldBlock sp L rip position) =
      readMem (fileByte sp L rip) start (position + chunk) mem buffer := by
  funext i
  have hlt := Nat.mod_lt position (show 0 < BLOCK_SIZE by decide)
  unfold toUser readMem
  by_cases hi : buffer + (position - start) ≤ i ∧ i < buffer + (position - start) + chunk
  · rw [dif_pos ⟨hi.1, hi.2, by omega⟩, if_pos (by omega)]
    unfold oldBlock
    have := Nat.div_add_mod' position BLOCK_SIZE
    refine congrArg (fileByte sp L rip) ?_
    dsimp only
    omega
  · rw [dif_neg fun e => hi ⟨e.1, e.2.1⟩]
    have : (buffer ≤ i ∧ i < buffer + (position - start)) ↔
        buffer ≤ i ∧ i < buffer + (position + chunk - start) := by omega
    simp only [this]

/-- What a turn of the loop leaves when it reads. -/
def ReadTurnResult (sp : SuperBlock) (held : Buf → ℕ) (L : Contents) (rip : Inode) (start : ℕ)
    (mem : ℕ → UInt8) (buffer : ℕ) (x : Xfer) (goes_on : Bool) (x' : Xfer) : Prop :=
  Reading sp held L rip start mem buffer x' ∧
    (goes_on = true ∧ x'.r = OK ∧ (∃ n, 0 < n ∧ Progress n x x') ∨
      goes_on = false ∧ Progress 0 x x' ∧ (x'.r = OK ∧ rip.i_size ≤ x'.position ∨
        x'.r ≠ OK ∧ x'.r ∈ x.user.copies))

/-- A turn of the loop reads a chunk, or fails, or is at the end of the file. -/
theorem Reading.turn (h : Reading sp held L rip start mem buffer x) (hh : Holds sp held) (hsp : sp.Ok)
    (hok : FileOk sp L rip) (hspec : rip.blockSpec = false) (hn : x.nbytes ≠ 0) (hr : x.r = OK) :
    ∃ b x', rwTurn sp .READING rip.i_size x = some (b, x') ∧
      ReadTurnResult sp held L rip start mem buffer x b x' := by
  have hlim : limited x.rip .READING = true := rfl
  unfold rwTurn
  by_cases hend : x.position ≥ rip.i_size
  · rw [if_pos ⟨hlim, hend⟩]
    exact ⟨_, _, rfl, h, Or.inr ⟨rfl, Progress.refl x, Or.inl ⟨hr, hend⟩⟩⟩
  rw [if_neg fun e => hend e.2]
  have hchunk : chunkSize .READING rip.i_size x =
      min (min x.nbytes (BLOCK_SIZE - x.position % BLOCK_SIZE)) (rip.i_size - x.position) := by
    unfold chunkSize
    rw [hlim, if_pos rfl]
  have hmod := Nat.mod_lt x.position (show 0 < BLOCK_SIZE by decide)
  generalize hcs : chunkSize .READING rip.i_size x = chunk at hchunk
  have hsize := h.le_size
  have hstart := h.start_le
  obtain ⟨x', he, hm, hread⟩ := h.mounted.rwChunk_read hh hsp (by rw [h.rip_eq]; exact hok)
    (by rw [h.rip_eq]; exact hspec) (x.position % BLOCK_SIZE) chunk
  dsimp only
  rw [he, Option.bind_eq_bind, Option.bind_some]
  have hx := hread.frame
  have hquiet : ¬x'.cache.rdwt_err < 0 := by
    rw [hm.quiet]
    decide
  have hr' : x'.r = x.user.copies.headD OK := by rw [hx]
  have hrip : x'.rip = rip := by rw [hx]; exact h.rip_eq
  have hpos : x'.position = x.position := by rw [hx]
  have hbuf : x'.buffer = x.buffer := by rw [hx]
  have hcopies : x'.user.copies = x.user.copies.tail := by rw [hread.user]
  have hmem : x'.user.mem = if x.user.copies.headD OK = OK then
      readMem (fileByte sp L rip) start (x.position + chunk) mem buffer
      else readMem (fileByte sp L rip) start x.position mem buffer := by
    rw [hread.user, h.mem_eq, h.buffer_eq, h.rip_eq, readMem_chunk hstart (by omega)]
  by_cases hok' : x.user.copies.headD OK = OK
  · rw [if_neg (by rw [hr']; tauto)]
    rw [if_pos hok'] at hmem
    refine ⟨_, _, rfl, ⟨hm, hrip, ?_, ?_, ?_, ?_⟩,
      Or.inl ⟨rfl, hr'.trans hok', chunk, by omega, ?_, ?_, ?_, ?_⟩⟩
    · show start ≤ x'.position + chunk
      omega
    · show x'.position + chunk ≤ _
      omega
    · show x'.buffer + chunk = buffer + (x'.position + chunk - start)
      have := h.buffer_eq
      omega
    · have : (x'.advance chunk).position = x.position + chunk := by rw [← hpos]; rfl
      rw [this]
      exact hmem
    · show x'.position + chunk = _
      rw [hpos]
    · show x.nbytes = x'.nbytes - chunk + chunk
      rw [show x'.nbytes = x.nbytes by rw [hx]]
      omega
    · show x'.cum_io + chunk = _
      rw [show x'.cum_io = x.cum_io by rw [hx]]
    · show x'.user.copies <:+ _
      rw [hcopies]
      exact List.tail_suffix _
  · rw [if_pos (Or.inl (by rw [hr']; exact hok'))]
    rw [if_neg hok'] at hmem
    refine ⟨_, _, rfl, ⟨hm, hrip, ?_, ?_, ?_, ?_⟩, Or.inr ⟨rfl, ⟨?_, ?_, ?_, ?_⟩,
      Or.inr ⟨by rw [hr']; exact hok', by rw [hr']; exact headD_mem hok'⟩⟩⟩
    · rw [hpos]
      exact hstart
    · rw [hpos]
      exact hsize
    · rw [hpos, hbuf]
      exact h.buffer_eq
    · rw [hpos]
      exact hmem
    · rw [hpos, Nat.add_zero]
    · rw [hx, Nat.add_zero]
    · rw [hx, Nat.add_zero]
    · rw [hcopies]
      exact List.tail_suffix _

/-- The loop of `read_write`, when it reads. The induction is on the turns that are left. -/
theorem Reading.loop {n : ℕ} (h : Reading sp held L rip start mem buffer x) (hh : Holds sp held)
    (hsp : sp.Ok) (hok : FileOk sp L rip) (hspec : rip.blockSpec = false) (hn : x.nbytes ≤ n)
    (hr : x.r = OK) :
    ∃ x' k, rwLoop sp .READING rip.i_size n x = some x' ∧
      Reading sp held L rip start mem buffer x' ∧ Progress k x x' ∧ ReadEnd rip x x' := by
  induction n generalizing x with
  | zero => exact ⟨x, 0, rfl, h, Progress.refl x, Or.inl ⟨hr, Or.inl (by omega)⟩⟩
  | succ n ih =>
    unfold rwLoop
    by_cases h0 : x.nbytes = 0
    · rw [if_pos h0]
      exact ⟨x, 0, rfl, h, Progress.refl x, Or.inl ⟨hr, Or.inl h0⟩⟩
    rw [if_neg h0]
    obtain ⟨b, x₁, he, hread, hres⟩ := h.turn hh hsp hok hspec h0 hr
    rw [he]
    rcases hres with ⟨rfl, hr₁, m, hm, hp⟩ | ⟨rfl, hp, hend⟩
    · have hnb := hp.nbytes
      obtain ⟨x', k, he', hread', hp', hend⟩ := ih hread (by omega) hr₁
      refine ⟨x', m + k, he', hread', hp.trans hp', hend.imp id fun h => ⟨h.1, ?_⟩⟩
      exact hp.copies.subset h.2
    · exact ⟨x₁, 0, rfl, hread, hp, hend.imp (fun h => ⟨h.1, Or.inr h.2⟩) id⟩

/-! ## The zone of the end of the file -/

/-- Blocks of a zone of the file itself are cleared. -/
theorem Grown.clearTail {k z i : ℕ} (h : FileOk sp L rip) (hsp : sp.Ok)
    (hz : zoneRef sp L rip (.data k) = z) (hne : z ≠ NO_ZONE) (hi : i < 2 ^ sp.s_log_zone_size) :
    Grown sp L rip (Fs.clearTail sp L z i) rip := by
  have hm := h.zoneRef_clearTail hsp hz hne hi
  have hhas : sp.HasZone z := hz ▸ (h.zone (.data k) (by rwa [hz])).1
  refine ⟨h.congr rfl hm fun r hr => ?_, rfl, fun r _ => by rw [hm], fun r h0 => ?_, fun x hx => ?_,
    fun x j hx hj _ hno => ?_, fun dev b hb => ?_⟩
  · rw [used_clearTail hsp hhas hi (h.zone r hr).1]
    exact (h.zone r hr).2
  · rw [hm]
    exact Or.inl h0
  · rw [used_clearTail hsp hhas hi hx, hm]
    exact ⟨Or.inl, fun e => e.elim id fun ⟨_, hr⟩ => h.used_of_ref hsp hx hr⟩
  · exact clearTail_zone hsp hhas hi hx (fun e => hno _ (hz.trans e.symm)) hj _
  · exact clearTail_low hsp hhas hi (hb.imp id And.left)

/-- The zone of a position is cleared. -/
theorem Grown.clearedZone (h : FileOk sp L rip) (hsp : sp.Ok) (pos : ℕ) :
    Grown sp L rip (Fs.clearedZone sp L rip pos) rip ∧
      zoneRef sp (Fs.clearedZone sp L rip pos) rip = zoneRef sp L rip := by
  unfold Fs.clearedZone
  dsimp only
  split_ifs with hno
  · exact ⟨Grown.refl h hsp, rfl⟩
  · push Not at hno
    exact ⟨Grown.clearTail h hsp rfl hno.2.2 (sp.boff_lt _),
      h.zoneRef_clearTail hsp rfl hno.2.2 (sp.boff_lt _)⟩

/-- The bytes of a file when the zone of a position has been cleared. -/
theorem fileByte_clearedZone (h : FileOk sp L rip) (hsp : sp.Ok) (pos p : ℕ) :
    fileByte sp (clearedZone sp L rip pos) rip p =
      if sp.s_log_zone_size ≠ 0 ∧ sp.zoneOf p = sp.zoneOf pos ∧
        (pos + BLOCK_SIZE - 1) / BLOCK_SIZE ≤ p / BLOCK_SIZE then 0 else fileByte sp L rip p := by
  have hm := (Grown.clearedZone h hsp pos).2
  have hblock : sp.zoneOf p * 2 ^ sp.s_log_zone_size + sp.boff p = p / BLOCK_SIZE := by
    rw [sp.zoneOf_eq, sp.boff_eq, Nat.div_add_mod']
  by_cases h0 : zoneRef sp L rip (.data (sp.zoneOf p)) = NO_ZONE
  · rw [fileByte_hole (by rw [hm, h0]), fileByte_hole h0, ite_self]
  · rw [fileByte_mapped (by rw [hm]) h0, clearedZone_block hsp h h0 (sp.boff_lt p), hblock]
    split_ifs
    · rfl
    · rw [fileByte_mapped rfl h0]

/-- When a write begins behind the end of a file, everything behind the end is cleared first. -/
theorem HasBytes.seek (h : HasBytes sp L rip rip.i_size byte) (hok : FileOk sp L rip) (hsp : sp.Ok)
    (hzero : ∀ p ≥ rip.i_size, byte p = 0) :
    ∀ e ≥ rip.i_size, HasBytes sp (clearedZone sp L rip rip.i_size) rip e byte := by
  have hbehind : ∀ p ≥ rip.i_size, fileByte sp (clearedZone sp L rip rip.i_size) rip p = 0 := by
    intro p hp
    rw [fileByte_clearedZone hok hsp]
    split_ifs with hc
    · rfl
    · refine h.tail p hp ?_
      by_cases hz : sp.zoneOf p = sp.zoneOf rip.i_size
      · by_cases hs : sp.s_log_zone_size = 0
        · exact Or.inr (Or.inr hs)
        · have hlt : ¬(rip.i_size + BLOCK_SIZE - 1) / BLOCK_SIZE ≤ p / BLOCK_SIZE := fun e =>
            hc ⟨hs, hz, e⟩
          refine Or.inr (Or.inl ?_)
          unfold BLOCK_SIZE at *
          omega
      · exact Or.inl hz
  have hfront : ∀ p < rip.i_size, fileByte sp (clearedZone sp L rip rip.i_size) rip p = byte p := by
    intro p hp
    rw [fileByte_clearedZone hok hsp, if_neg, h.front p hp]
    rintro ⟨-, -, hle⟩
    unfold BLOCK_SIZE at hle
    omega
  intro e he
  constructor
  · intro p hp
    by_cases hpe : p < rip.i_size
    · exact hfront p hpe
    · rw [hbehind p (by omega), hzero p (by omega)]
  · exact fun p hp _ => hbehind p (by omega)

/-! ## The calls -/

variable {o o' : OpenFile} {n : ℤ}

/-- Where a write begins. -/
def writeAt (rip : Inode) (f : Filp) : ℕ :=
  if f.filp_flags &&& O_APPEND ≠ 0 then rip.i_size else f.filp_pos

/-- A write does no harm. -/
def HarmlessWrite (sp : SuperBlock) (o : OpenFile) (nbytes buffer : ℕ) : Prop :=
  ∀ position s, rwStart { o.cache with rdwt_err := OK } sp o.rip o.filp .WRITING nbytes =
      some (.ok (position, s)) →
    Harmless sp (fileSize o.rip) (rwXfer o s position nbytes buffer)

/-- At the end of the file, a write finds the zone of the end, unless the end is in its first block.
-/
def RoomAtEnd (sp : SuperBlock) (o : OpenFile) : Prop :=
  writeAt o.rip o.filp = o.rip.i_size → sp.boff o.rip.i_size = 0 ∨
    ∃ b c, readMap o.cache o.rip sp.s_log_zone_size o.rip.i_size = some (b, c) ∧ b ≠ NO_BLOCK

/-- A write that is accepted. -/
structure Accepted (sp : SuperBlock) (o : OpenFile) (n : ℤ) : Prop where
  check : rwCheck o.filp .WRITING n = none
  small : (o.filp.filp_pos : ℤ) ≤ sp.s_max_size - n.toNat

/-- What a write leaves, of which `k` bytes have been transferred. -/
structure WriteDone (sp : SuperBlock) (held : Buf → ℕ) (L : Contents) (o : OpenFile) (f : Bytes)
    (n buffer k : ℕ) (r : ℤ) (o' : OpenFile) (L' : Contents) : Prop where
  file : IsFile sp held o'.cache L' o'.rip
    (f.write (writeAt o.rip o.filp) (writeAt o.rip o.filp + k) o.user.mem buffer)
  grown : ∃ rip, Grown sp L o.rip L' rip ∧
    o'.rip = { rip with i_size := o'.rip.i_size, i_seek := false }
  filp : o'.filp = { o.filp with filp_pos := writeAt o.rip o.filp + k }
  mem : o'.user.mem = o.user.mem
  le : k ≤ n
  last : 0 < k → zoneRef sp L' o'.rip (.data (sp.zoneOf (writeAt o.rip o.filp + k - 1))) ≠ NO_ZONE
  result : r = n ∧ k = n ∨ r ≠ OK ∧
    ((∃ p < writeAt o.rip o.filp + n, NoSpace (sp.zoneOf p) r) ∨ r ∈ o.user.copies)

/-- A regular file or a pipe is not block special. -/
theorem Inode.regular_blockSpec (h : rip.regular = true) : rip.blockSpec = false := by
  unfold Inode.regular at h
  unfold Inode.blockSpec
  rw [decide_eq_true_eq] at h
  rw [decide_eq_false_iff_not]
  rcases h with h | h
  · rw [h]
    decide
  · rw [h]
    decide

/-- The size of a file that is not block special. -/
theorem fileSize_regular (h : rip.regular = true) : fileSize rip = rip.i_size := by
  unfold fileSize
  rw [Inode.regular_blockSpec h, if_neg (by simp)]

/-- No error has been reported to begin with. -/
theorem Mounted.clear_err (h : Mounted sp ⟨c, held⟩ L) : { c with rdwt_err := OK } = c := by
  have := h.quiet
  dsimp only at this
  rw [← this]

/-- What `read_write` returns when no error has been reported. -/
theorem rwResult_quiet (h : x.cache.rdwt_err = OK) :
    rwResult x = if x.r = OK then (x.cum_io : ℤ) else x.r := by
  unfold rwResult
  dsimp only
  rw [h, if_neg (not_not.mpr rfl), if_neg (show OK ≠ END_OF_FILE by decide)]

/-- What a file can have of zones has a place in its map. -/
theorem SuperBlock.Sized.zoneOf_lt (h : sp.Sized) (hp : position < sp.s_max_size) :
    sp.zoneOf position < MAX_ZONES := by
  have hpos : 0 < BLOCK_SIZE <<< sp.s_log_zone_size := by
    rw [Nat.shiftLeft_eq]
    exact Nat.mul_pos (by decide) (Nat.two_pow_pos _)
  rw [← sp.div_zone_size, Nat.div_lt_iff_lt_mul hpos]
  exact lt_of_lt_of_le hp h

/-- A call that is checked has something to transfer. -/
theorem rwCheck_pos {rw_flag : RwFlag} {filp : Filp} (h : rwCheck filp rw_flag n = none) : 0 < n := by
  unfold rwCheck at h
  dsimp only at h
  by_contra hle
  rcases lt_or_eq_of_le (not_lt.mp hle) with hneg | h0
  · rw [if_pos hneg] at h
    exact Option.some_ne_none _ h
  · rw [if_neg (by omega)] at h
    split_ifs at h

/-- A write that is accepted begins where there is a place for it. -/
theorem IsFile.writeAt_placed (h : IsFile sp held o.cache L o.rip f) (hsz : sp.Sized)
    (hacc : Accepted sp o n) : Placed sp L o.rip (sp.zoneOf (writeAt o.rip o.filp)) := by
  unfold writeAt
  split_ifs
  · exact h.placed
  · have := rwCheck_pos hacc.check
    have := hacc.small
    exact Or.inl (hsz.zoneOf_lt (by omega))

/-- A write of a file. -/
theorem IsFile.write (h : IsFile sp held o.cache L o.rip f) (hh : Holds sp held) (hsp : sp.Ok)
    (hsz : sp.Sized) (hreg : o.rip.regular = true) (hacc : Accepted sp o n)
    (hroom : RoomAtEnd sp o) {buffer : ℕ} (hd : HarmlessWrite sp o n.toNat buffer) :
    ∃ r o' k L', readWrite sp o .WRITING n buffer = some (r, o') ∧
      WriteDone sp held L o f n.toNat buffer k r o' L' := by
  have hspec := Inode.regular_blockSpec hreg
  have hk := h.writeAt_placed hsz hacc
  obtain ⟨hcheck, hbig⟩ := hacc
  have hzero : ∀ p ≥ o.rip.i_size, f.byte p = 0 := by
    rw [← h.size]
    exact f.zero
  -- What is cleared in front of the loop.
  obtain ⟨c, L₁, hstart, hm, hg, hz₁, hbytes⟩ : ∃ c L₁,
      rwStart o.cache sp o.rip o.filp .WRITING n.toNat = some (.ok (writeAt o.rip o.filp, c)) ∧
      Mounted sp ⟨c, held⟩ L₁ ∧ Grown sp L o.rip L₁ o.rip ∧
      zoneRef sp L₁ o.rip = zoneRef sp L o.rip ∧
      HasBytes sp L₁ o.rip (max o.rip.i_size (writeAt o.rip o.filp)) f.byte := by
    unfold rwStart writeStart
    rw [if_pos ⟨rfl, hspec⟩, if_neg (by omega)]
    dsimp only
    show ∃ c L₁, (if writeAt o.rip o.filp > o.rip.i_size then _ else _) = _ ∧ _
    by_cases hseek : writeAt o.rip o.filp > o.rip.i_size
    · obtain ⟨c, he, hm⟩ := h.mounted.clearZone hh hsp h.ok o.rip.i_size false
      obtain ⟨hg, hz⟩ := Grown.clearedZone h.ok hsp o.rip.i_size
      rw [if_pos hseek]
      dsimp only at he
      rw [he]
      exact ⟨c, _, rfl, hm, hg, hz, h.bytes.seek h.ok hsp hzero _ (le_max_left _ _)⟩
    · rw [if_neg hseek, max_eq_left (by omega)]
      exact ⟨o.cache, L, rfl, h.mounted, Grown.refl h.ok hsp, rfl, h.bytes⟩
  have hwriting : Writing sp held L o.rip f.byte (writeAt o.rip o.filp) o.user.mem buffer
      (rwXfer o c (writeAt o.rip o.filp) n.toNat buffer) L₁ := by
    refine ⟨hm, hg, rfl, le_refl _, ?_, ?_, fun hend => ?_, fun hlt => absurd hlt (lt_irrefl _)⟩
    · show buffer = buffer + (writeAt o.rip o.filp - writeAt o.rip o.filp)
      omega
    · have hnone : writtenByte f.byte (writeAt o.rip o.filp) (writeAt o.rip o.filp) o.user.mem buffer =
          f.byte := by
        funext p
        exact if_neg (by omega)
      show HasBytes sp L₁ o.rip (max o.rip.i_size (writeAt o.rip o.filp)) (writtenByte f.byte
        (writeAt o.rip o.filp) (writeAt o.rip o.filp) o.user.mem buffer)
      rw [hnone]
      exact hbytes
    · show _ ∨ zoneRef sp L₁ o.rip _ ≠ _
      rw [hz₁]
      refine (hroom hend).imp id fun ⟨b, c', he, hb⟩ h0 => hb ?_
      obtain ⟨c'', he', -⟩ := h.mounted.readMap hh (by rw [h.ok.dev]; exact hsp.dev) o.rip.i_size
      obtain ⟨rfl, -⟩ := Prod.mk.inj (Option.some.inj (he.symm.trans he'))
      exact if_pos h0
  have hclear := h.mounted.clear_err
  obtain ⟨x, L', k, hloop, hw, hp, hend⟩ := hwriting.loop hh hsp hspec (le_refl _) rfl hk
    (hd _ _ (by rw [hclear]; exact hstart))
  have hpos : x.position = writeAt o.rip o.filp + k := hp.position
  have hio : x.cum_io = 0 + k := hp.cum_io
  have hnb : n.toNat = x.nbytes + k := hp.nbytes
  have hsize : x.rip.i_size = o.rip.i_size := by rw [hw.grown.inode]
  have hf : fileSize o.rip = o.rip.i_size := fileSize_regular hreg
  have hreg' : x.rip.regular = true := by
    rw [hw.grown.inode]
    exact hreg
  have hmax : (rwUpdate x.rip .WRITING (fileSize o.rip) x.position).i_size =
      max o.rip.i_size x.position := by
    unfold rwUpdate
    dsimp only
    rw [hf, hsize]
    by_cases hlt : x.position > o.rip.i_size
    · rw [if_pos ⟨rfl, Or.inl hreg', hlt⟩, max_eq_right hlt.le]
    · rw [if_neg fun e => hlt e.2.2, max_eq_left (by omega)]
  have hfile : IsFile sp held x.cache L' (rwUpdate x.rip .WRITING (fileSize o.rip) x.position)
      (f.write (writeAt o.rip o.filp) (writeAt o.rip o.filp + k) o.user.mem buffer) := by
    refine ⟨hw.mounted, hw.grown.ok.congr rfl rfl fun r hr => (hw.grown.ok.zone r hr).2, ?_, ?_, ?_⟩
    · rw [hmax, hpos, ← h.size]
      rfl
    · rw [hmax, ← hpos]
      exact ⟨hw.bytes.front, hw.bytes.tail⟩
    · rw [hmax]
      rcases le_total o.rip.i_size x.position with hle | hle
      · rw [max_eq_right hle]
        exact hw.placed hk
      · rw [max_eq_left hle]
        refine h.placed.imp id fun hd => ?_
        rw [← hw.grown.keeps _ hd] at hd
        exact hd
  have hresult := rwResult_quiet hw.mounted.quiet
  refine ⟨rwResult x, ⟨x.cache, rwUpdate x.rip .WRITING (fileSize o.rip) x.position,
    { o.filp with filp_pos := x.position }, x.user⟩, k, L', ?_, hfile, ⟨x.rip, hw.grown, rfl⟩, ?_,
    hw.mem_eq, by omega, fun hk0 => ?_, ?_⟩
  · unfold readWrite
    rw [hcheck]
    dsimp only
    rw [hclear, hstart, Option.bind_eq_bind, Option.bind_some]
    have hloop : rwLoop sp .WRITING (fileSize o.rip) n.toNat
      (rwXfer o c (writeAt o.rip o.filp) n.toNat buffer) = some x := hloop
    dsimp only
    rw [hloop]
    rfl
  · rw [hpos]
  · have := hw.last (by omega)
    rwa [hpos] at this
  · rw [hresult]
    rcases hend with ⟨hr, h0⟩ | ⟨hr, hcause⟩
    · rw [if_pos hr]
      have hn : n.toNat = k := by omega
      rw [hio, hn, Nat.zero_add]
      exact Or.inl ⟨rfl, rfl⟩
    · rw [if_neg hr]
      exact Or.inr ⟨hr, hcause⟩

/-- What a read leaves, of which `k` bytes have been transferred. -/
structure ReadDone (sp : SuperBlock) (held : Buf → ℕ) (L : Contents) (o : OpenFile) (f : Bytes)
    (n buffer k : ℕ) (r : ℤ) (o' : OpenFile) : Prop where
  file : IsFile sp held o'.cache L o'.rip f
  rip : o'.rip = { o.rip with i_seek := false }
  filp : o'.filp = { o.filp with filp_pos := o.filp.filp_pos + k }
  mem : o'.user.mem = readMem f.byte o.filp.filp_pos (o.filp.filp_pos + k) o.user.mem buffer
  le : k ≤ min n (f.size - o.filp.filp_pos)
  result : r = k ∧ k = min n (f.size - o.filp.filp_pos) ∨ r ≠ OK ∧ r ∈ o.user.copies

/-- A read of a file. -/
theorem IsFile.read (h : IsFile sp held o.cache L o.rip f) (hh : Holds sp held) (hsp : sp.Ok)
    (hreg : o.rip.regular = true) (hcheck : rwCheck o.filp .READING n = none) (buffer : ℕ) :
    ∃ r o' k, readWrite sp o .READING n buffer = some (r, o') ∧
      ReadDone sp held L o f n.toNat buffer k r o' := by
  have hspec := Inode.regular_blockSpec hreg
  have hf : fileSize o.rip = o.rip.i_size := fileSize_regular hreg
  have hreading : Reading sp held L o.rip o.filp.filp_pos o.user.mem buffer
      (rwXfer o o.cache o.filp.filp_pos n.toNat buffer) := by
    refine ⟨h.mounted, rfl, le_refl _, le_max_left _ _, ?_, ?_⟩
    · show buffer = buffer + (o.filp.filp_pos - o.filp.filp_pos)
      omega
    · funext i
      exact (if_neg (by dsimp only [rwXfer]; omega)).symm
  obtain ⟨x, k, hloop, hx, hp, hend⟩ := hreading.loop hh hsp h.ok hspec (le_refl _) rfl
  have hpos : x.position = o.filp.filp_pos + k := hp.position
  have hio : x.cum_io = 0 + k := hp.cum_io
  have hnb : n.toNat = x.nbytes + k := hp.nbytes
  have hclear := h.mounted.clear_err
  have hle := hx.le_size
  have hsize := h.size
  have hresult := rwResult_quiet hx.mounted.quiet
  have hrip : rwUpdate x.rip .READING (fileSize o.rip) x.position = { o.rip with i_seek := false } := by
    unfold rwUpdate
    rw [hx.rip_eq, if_neg fun e => RwFlag.noConfusion e.1]
  refine ⟨rwResult x, ⟨x.cache, rwUpdate x.rip .READING (fileSize o.rip) x.position,
    { o.filp with filp_pos := x.position }, x.user⟩, k, ?_, ?_, hrip, ?_, ?_, ?_, ?_⟩
  · unfold readWrite
    rw [hcheck]
    dsimp only
    have hstart : rwStart o.cache sp o.rip o.filp .READING n.toNat =
        some (.ok (o.filp.filp_pos, o.cache)) := if_neg fun e => RwFlag.noConfusion e.1
    rw [hclear, hstart, Option.bind_eq_bind, Option.bind_some]
    have hloop : rwLoop sp .READING (fileSize o.rip) n.toNat
      (rwXfer o o.cache o.filp.filp_pos n.toNat buffer) = some x := by
      rw [hf]
      exact hloop
    dsimp only
    rw [hloop]
    rfl
  · dsimp only
    rw [hrip]
    exact ⟨hx.mounted, h.ok.congr rfl rfl fun r hr => (h.ok.zone r hr).2, h.size,
      ⟨h.bytes.front, h.bytes.tail⟩, h.placed⟩
  · rw [hpos]
  · dsimp only
    rw [hx.mem_eq, hpos]
    funext i
    unfold readMem
    -- What has been read is in front of the end of the file.
    by_cases hi : buffer ≤ i ∧ i < buffer + (o.filp.filp_pos + k - o.filp.filp_pos)
    · rw [if_pos hi, if_pos hi]
      exact h.bytes.front _ (by omega)
    · rw [if_neg hi, if_neg hi]
  · rw [hsize]
    omega
  · rw [hresult, hsize]
    rcases hend with ⟨hr, h0⟩ | ⟨hr, hmem⟩
    · rw [if_pos hr, hio, Nat.zero_add]
      refine Or.inl ⟨rfl, ?_⟩
      omega
    · rw [if_neg hr]
      exact Or.inr ⟨hr, hmem⟩

end Minix.Fs
