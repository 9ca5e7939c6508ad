import Minix.Fs.FileAhead

/-!
# The loop of `read_write`

`Bytes` is a file as it should be: an array of bytes, which has zeros behind its end. While a file
is written its size in the inode is stale. What the blocks have in front of the size or of the
position is what is due there (`Writing`); behind it they have zeros, except in the zone of the end
of the file, where the blocks that begin behind it may have anything.
-/

namespace Minix.Fs

/-- A file as an array of bytes. -/
structure Bytes where
  byte : ℕ → UInt8
  size : ℕ
  zero : ∀ p ≥ size, byte p = 0

/-- The bytes of a file when those from `start` up to `position` have been written. -/
def writtenByte (byte : ℕ → UInt8) (start position : ℕ) (mem : ℕ → UInt8) (buffer p : ℕ) : UInt8 :=
  if start ≤ p ∧ p < position then mem (buffer + (p - start)) else byte p

/-- A file is written, from `start` up to `position`. -/
def Bytes.write (f : Bytes) (start position : ℕ) (mem : ℕ → UInt8) (buffer : ℕ) : Bytes where
  byte := writtenByte f.byte start position mem buffer
  size := max f.size position
  zero p hp := by
    unfold writtenByte
    rw [if_neg (by omega)]
    exact f.zero p (by omega)

/-- Where the blocks have zeros behind the end of a file. -/
def SuperBlock.Tail (sp : SuperBlock) (e p : ℕ) : Prop :=
  sp.zoneOf p ≠ sp.zoneOf e ∨ p / BLOCK_SIZE = e / BLOCK_SIZE ∧ e % BLOCK_SIZE ≠ 0 ∨
    sp.s_log_zone_size = 0

/-- The blocks of a file have given bytes in front of a position, and zeros behind it. -/
structure HasBytes (sp : SuperBlock) (L : Contents) (rip : Inode) (e : ℕ) (byte : ℕ → UInt8) : Prop where
  front : ∀ p < e, fileByte sp L rip p = byte p
  tail : ∀ p ≥ e, sp.Tail e p → fileByte sp L rip p = 0

/-- A write of a file, in front of a turn of the loop or behind its last one. -/
structure Writing (sp : SuperBlock) (held : Buf → ℕ) (L₀ : Contents) (rip : Inode) (byte : ℕ → UInt8)
    (start : ℕ) (mem : ℕ → UInt8) (buffer : ℕ) (x : Xfer) (L : Contents) : Prop where
  mounted : Mounted sp ⟨x.cache, held⟩ L
  grown : Grown sp L₀ rip L x.rip
  mem_eq : x.user.mem = mem
  start_le : start ≤ x.position
  buffer_eq : x.buffer = buffer + (x.position - start)
  bytes : HasBytes sp L x.rip (max rip.i_size x.position)
    (writtenByte byte start x.position mem buffer)
  /-- At the end of the file, a new zone is begun in its first block. -/
  room : x.position = rip.i_size → sp.boff rip.i_size = 0 ∨
    zoneRef sp L x.rip (.data (sp.zoneOf rip.i_size)) ≠ NO_ZONE
  /-- What has been written has a zone. -/
  last : start < x.position → zoneRef sp L x.rip (.data (sp.zoneOf (x.position - 1))) ≠ NO_ZONE

/-- A full block is written over one that is not in the cache, and the copy from the user fails. It
does harm in front of the end of the file, and behind it if nothing clears the block later. -/
def Damaging (sp : SuperBlock) (f_size : ℕ) (x : Xfer) : Prop :=
  x.user.copies.headD OK ≠ OK ∧ chunkSize .WRITING f_size x = BLOCK_SIZE ∧
    Uncached sp x.cache x.rip x.position ∧
    (x.position < x.rip.i_size ∨ sp.s_log_zone_size = 0)

/-- The loop goes on from a turn to the next. -/
def WriteTurn (sp : SuperBlock) (f_size : ℕ) (x x' : Xfer) : Prop :=
  rwTurn sp .WRITING f_size x = some (true, x')

/-- No turn that the loop comes to does harm. -/
def Harmless (sp : SuperBlock) (f_size : ℕ) (x : Xfer) : Prop :=
  ∀ x', Relation.ReflTransGen (WriteTurn sp f_size) x x' → x'.nbytes ≠ 0 → ¬Damaging sp f_size x'

/-- What has been transferred. -/
structure Progress (n : ℕ) (x x' : Xfer) : Prop where
  position : x'.position = x.position + n
  nbytes : x.nbytes = x'.nbytes + n
  cum_io : x'.cum_io = x.cum_io + n
  copies : x'.user.copies <:+ x.user.copies

variable {sp : SuperBlock} {s : Session} {L L' L₀ : Contents} {rip rip' : Inode} {held : Buf → ℕ}
  {byte : ℕ → UInt8} {start buffer e e' p q chunk : ℕ} {mem : ℕ → UInt8} {x x' : Xfer}

/-! ## Ends of files -/

/-- The other blocks of a zone are behind its first one. -/
theorem SuperBlock.boff_block_lt (h : sp.boff e = 0) (hb : p / BLOCK_SIZE ≠ e / BLOCK_SIZE)
    (hz : sp.zoneOf p = sp.zoneOf e) : e < p := by
  rw [sp.boff_eq] at h
  rw [sp.zoneOf_eq, sp.zoneOf_eq] at hz
  have he := Nat.div_add_mod (e / BLOCK_SIZE) (2 ^ sp.s_log_zone_size)
  have hp := Nat.div_add_mod (p / BLOCK_SIZE) (2 ^ sp.s_log_zone_size)
  rw [hz] at hp
  unfold BLOCK_SIZE at *
  omega

/-- A position that is not in the first block of a zone is in that of the one in front of it. -/
theorem SuperBlock.zoneOf_pred (h : sp.boff e ≠ 0) : sp.zoneOf (e - 1) = sp.zoneOf e := by
  have hpos := Nat.two_pow_pos sp.s_log_zone_size
  rw [sp.boff_eq] at h
  rw [sp.zoneOf_eq, sp.zoneOf_eq]
  have hdm := Nat.div_add_mod (e / BLOCK_SIZE) (2 ^ sp.s_log_zone_size)
  have hlt := Nat.mod_lt (e / BLOCK_SIZE) hpos
  refine Nat.div_eq_of_lt_le ?_ ?_
  · rw [Nat.mul_comm]
    unfold BLOCK_SIZE at *
    omega
  · rw [Nat.succ_mul, Nat.mul_comm]
    unfold BLOCK_SIZE at *
    omega

/-- The end of a chunk is in the block of the chunk, or at the beginning of the next one. -/
theorem chunk_end (hc : chunk ≤ BLOCK_SIZE - q % BLOCK_SIZE) (hm : (q + chunk) % BLOCK_SIZE ≠ 0) :
    (q + chunk) / BLOCK_SIZE = q / BLOCK_SIZE := by
  unfold BLOCK_SIZE at *
  omega

/-- What is behind the end of a file when a chunk has been written was behind it before. -/
theorem SuperBlock.Tail.of_advance (h : sp.Tail (max e (q + chunk)) p) (hp : max e (q + chunk) ≤ p)
    (hc : chunk ≤ BLOCK_SIZE - q % BLOCK_SIZE) (hb : p / BLOCK_SIZE ≠ q / BLOCK_SIZE) :
    sp.Tail (max e q) p := by
  rcases h with hne | ⟨hblock, hm⟩ | hs
  · have h₁ : sp.zoneOf (max e q) ≤ sp.zoneOf (max e (q + chunk)) := sp.zoneOf_mono (by omega)
    have h₂ := sp.zoneOf_mono hp
    exact Or.inl (by omega)
  · rcases le_total (q + chunk) e with hle | hle
    · rw [max_eq_left hle] at hblock hm
      rw [max_eq_left (by omega)]
      exact Or.inr (Or.inl ⟨hblock, hm⟩)
    · rw [max_eq_right hle] at hblock hm
      exact absurd (hblock.trans (chunk_end hc hm)) hb
  · exact Or.inr (Or.inr hs)

/-- The blocks of zones of one block. -/
theorem SuperBlock.block_of_zone (hs : sp.s_log_zone_size = 0) (hz : sp.zoneOf p = sp.zoneOf q) :
    p / BLOCK_SIZE = q / BLOCK_SIZE := by
  rw [sp.zoneOf_eq, sp.zoneOf_eq, hs, Nat.pow_zero, Nat.div_one, Nat.div_one] at hz
  exact hz

/-! ## A chunk -/

/-- The bytes in other blocks than the one that is stored. -/
theorem Stored.keeps {data : Block} (h : Stored sp L rip q data L' rip')
    (hroom : q = rip.i_size → sp.boff rip.i_size = 0 ∨
      zoneRef sp L rip (.data (sp.zoneOf rip.i_size)) ≠ NO_ZONE)
    (hb : p / BLOCK_SIZE ≠ q / BLOCK_SIZE)
    (hp : p < max rip.i_size q ∨ sp.Tail (max rip.i_size q) p) :
    fileByte sp L' rip' p = fileByte sp L rip p := by
  refine h.others p hb fun hfree hzone hend => ?_
  subst hend
  rw [max_self] at hp
  -- At the end of the file there is a new zone, and the position is in it.
  have hz : sp.boff rip.i_size = 0 := (hroom rfl).resolve_right (not_not.mpr hfree)
  rcases hp with hlt | hne | ⟨hblock, -⟩ | hs
  · exact absurd (sp.boff_block_lt hz hb hzone) (not_lt.mpr hlt.le)
  · exact hne hzone
  · exact hb hblock
  · exact hb (sp.block_of_zone hs hzone)

/-- The block of a position that is stored has its other bytes as they were, or cleared behind the
end of the file. -/
theorem HasBytes.old (h : HasBytes sp L rip (max rip.i_size q) byte)
    (hb : p / BLOCK_SIZE = q / BLOCK_SIZE) {old : Block}
    (hold : old = if Clears rip q (q % BLOCK_SIZE) chunk then fun _ => 0 else oldBlock sp L rip q)
    (hchunk : chunk ≠ BLOCK_SIZE) :
    (p < max rip.i_size q → old (inBlock p) = byte p) ∧
      (max rip.i_size q ≤ p → old (inBlock p) = 0) := by
  have hpos : q / BLOCK_SIZE * BLOCK_SIZE + (inBlock p).val = p := by
    rw [← hb]
    exact Nat.div_add_mod' p BLOCK_SIZE
  have hsame : oldBlock sp L rip q (inBlock p) = fileByte sp L rip p := by
    unfold oldBlock
    rw [hpos]
  have hdiv : BLOCK_SIZE = 1024 := rfl
  rw [hold]
  by_cases hc : Clears rip q (q % BLOCK_SIZE) chunk
  · rw [if_pos hc]
    refine ⟨fun hlt => ?_, fun _ => rfl⟩
    obtain ⟨-, hsize, hoff⟩ := hc
    rw [hdiv] at hb hoff
    omega
  · rw [if_neg hc, hsame]
    refine ⟨h.front p, fun hle => h.tail p hle (Or.inr (Or.inl ?_))⟩
    -- The end is in the middle of the block.
    have hc : ¬(q ≥ rip.i_size ∧ q % BLOCK_SIZE = 0) := fun e => hc ⟨hchunk, e⟩
    rw [hdiv] at hb hc ⊢
    omega

/-- A chunk has been written. -/
theorem HasBytes.stored {data old : Block}
    (h : HasBytes sp L rip (max rip.i_size q) (writtenByte byte start q mem buffer))
    (hst : Stored sp L rip q data L' rip')
    (hroom : q = rip.i_size → sp.boff rip.i_size = 0 ∨
      zoneRef sp L rip (.data (sp.zoneOf rip.i_size)) ≠ NO_ZONE)
    (hstart : start ≤ q)
    (hc : chunk ≤ BLOCK_SIZE - q % BLOCK_SIZE) (hpos : 0 < chunk)
    (hdata : data = fromUser mem (buffer + (q - start)) (q % BLOCK_SIZE) chunk old)
    (hold : chunk ≠ BLOCK_SIZE →
      old = if Clears rip q (q % BLOCK_SIZE) chunk then fun _ => 0 else oldBlock sp L rip q) :
    HasBytes sp L' rip' (max rip.i_size (q + chunk))
      (writtenByte byte start (q + chunk) mem buffer) := by
  have hdiv : BLOCK_SIZE = 1024 := rfl
  -- In the block, the bytes of the chunk are new.
  have hin : ∀ p, q ≤ p → p < q + chunk → fileByte sp L' rip' p = mem (buffer + (p - start)) := by
    intro p hq hlt
    have hb : p / BLOCK_SIZE = q / BLOCK_SIZE := by
      rw [hdiv] at hc ⊢
      omega
    have hmod : (inBlock p).val = p - q + q % BLOCK_SIZE := by
      show p % BLOCK_SIZE = _
      rw [hdiv] at hb ⊢
      omega
    rw [hst.here p hb, hdata]
    unfold fromUser
    rw [if_pos (by omega), hmod]
    congr 1
    omega
  have hout : ∀ p, p / BLOCK_SIZE = q / BLOCK_SIZE → p < q ∨ q + chunk ≤ p →
      fileByte sp L' rip' p = old (inBlock p) ∧ chunk ≠ BLOCK_SIZE := by
    intro p hb hp
    have hmod : (inBlock p).val = p % BLOCK_SIZE := rfl
    constructor
    · rw [hst.here p hb, hdata]
      unfold fromUser
      refine if_neg ?_
      rw [hmod]
      rw [hdiv] at hb ⊢
      omega
    · rw [hdiv] at hb hc ⊢
      omega
  have hsame : ∀ p, p < q ∨ q + chunk ≤ p →
      writtenByte byte start (q + chunk) mem buffer p = writtenByte byte start q mem buffer p := by
    intro p hp
    unfold writtenByte
    have : (start ≤ p ∧ p < q + chunk) ↔ start ≤ p ∧ p < q := by omega
    simp only [this]
  constructor
  · intro p hp
    by_cases hchunk : q ≤ p ∧ p < q + chunk
    · rw [hin p hchunk.1 hchunk.2]
      unfold writtenByte
      rw [if_pos ⟨hstart.trans hchunk.1, hchunk.2⟩]
    · have hside : p < q ∨ q + chunk ≤ p := by omega
      rw [hsame p hside]
      by_cases hb : p / BLOCK_SIZE = q / BLOCK_SIZE
      · obtain ⟨he, hne⟩ := hout p hb hside
        rw [he]
        exact (h.old hb (hold hne) hne).1 (by omega)
      · rw [hst.keeps hroom hb (Or.inl (by omega))]
        exact h.front p (by omega)
  · intro p hp htail
    have hside : p < q ∨ q + chunk ≤ p := by omega
    by_cases hb : p / BLOCK_SIZE = q / BLOCK_SIZE
    · obtain ⟨he, hne⟩ := hout p hb hside
      rw [he]
      exact (h.old hb (hold hne) hne).2 (by omega)
    · have hold := htail.of_advance hp hc hb
      rw [hst.keeps hroom hb (Or.inr hold)]
      exact h.tail p (by omega) hold

/-- A chunk has not been written, since the copy from the user failed. -/
theorem HasBytes.failed {old : Block} (h : HasBytes sp L rip (max rip.i_size q) byte)
    (hst : Stored sp L rip q old L' rip')
    (hroom : q = rip.i_size → sp.boff rip.i_size = 0 ∨
      zoneRef sp L rip (.data (sp.zoneOf rip.i_size)) ≠ NO_ZONE)
    (hc : chunk ≤ BLOCK_SIZE - q % BLOCK_SIZE)
    (hold : (old = if Clears rip q (q % BLOCK_SIZE) chunk then fun _ => 0 else oldBlock sp L rip q) ∨
      chunk = BLOCK_SIZE ∧ q ≥ rip.i_size ∧ sp.s_log_zone_size ≠ 0) :
    HasBytes sp L' rip' (max rip.i_size q) byte := by
  have hdiv : BLOCK_SIZE = 1024 := rfl
  -- The bytes of the block that are in question.
  have hblock : ∀ p, p / BLOCK_SIZE = q / BLOCK_SIZE →
      (p < max rip.i_size q → old (inBlock p) = byte p) ∧
        (max rip.i_size q ≤ p → sp.Tail (max rip.i_size q) p → old (inBlock p) = 0) := by
    intro p hb
    rcases hold with hold | ⟨hfull, hsize, hs⟩
    · by_cases hchunk : chunk = BLOCK_SIZE
      · have hno : ¬Clears rip q (q % BLOCK_SIZE) chunk := fun e => e.1 hchunk
        have hpos : q / BLOCK_SIZE * BLOCK_SIZE + (inBlock p).val = p := by
          rw [← hb]
          exact Nat.div_add_mod' p BLOCK_SIZE
        have hsame : old (inBlock p) = fileByte sp L rip p := by
          rw [hold, if_neg hno]
          unfold oldBlock
          rw [hpos]
        rw [hsame]
        exact ⟨h.front p, h.tail p⟩
      · obtain ⟨hfront, htail⟩ := h.old hb hold hchunk
        exact ⟨hfront, fun hle _ => htail hle⟩
    · -- The block begins at the end, or behind it.
      rw [max_eq_right hsize]
      rw [hfull] at hc
      refine ⟨fun hlt => ?_, fun _ ht => ?_⟩
      · rw [hdiv] at hb hc
        omega
      · rcases ht with hne | ⟨-, hm⟩ | h0
        · exact absurd (by rw [sp.zoneOf_eq, sp.zoneOf_eq, hb]) hne
        · rw [hdiv] at hm hc
          omega
        · exact absurd h0 hs
  constructor
  · intro p hp
    by_cases hb : p / BLOCK_SIZE = q / BLOCK_SIZE
    · rw [hst.here p hb]
      exact (hblock p hb).1 hp
    · rw [hst.keeps hroom hb (Or.inl hp)]
      exact h.front p hp
  · intro p hp htail
    by_cases hb : p / BLOCK_SIZE = q / BLOCK_SIZE
    · rw [hst.here p hb]
      exact (hblock p hb).2 hp htail
    · rw [hst.keeps hroom hb (Or.inr htail)]
      exact h.tail p hp htail

/-! ## The loop -/

theorem Progress.refl (x : Xfer) : Progress 0 x x := ⟨rfl, rfl, rfl, List.suffix_refl _⟩

theorem Progress.trans {n m : ℕ} {x'' : Xfer} (h : Progress n x x') (h' : Progress m x' x'') :
    Progress (n + m) x x'' where
  position := by rw [h'.position, h.position, Nat.add_assoc]
  nbytes := by rw [h.nbytes, h'.nbytes, Nat.add_assoc, Nat.add_comm m n]
  cum_io := by rw [h'.cum_io, h.cum_io, Nat.add_assoc]
  copies := h'.copies.trans h.copies

/-- The size of a file does not limit a write. -/
theorem limited_writing (hspec : rip.blockSpec = false) : limited rip .WRITING = false := by
  unfold limited
  rw [hspec]
  rfl

/-- The size of a chunk that is written. -/
theorem chunkSize_writing (hspec : x.rip.blockSpec = false) (f_size : ℕ) :
    chunkSize .WRITING f_size x = min x.nbytes (BLOCK_SIZE - x.position % BLOCK_SIZE) := by
  unfold chunkSize
  rw [limited_writing hspec]
  rfl

/-- The outcome of a copy is one of those to come. -/
theorem headD_mem {copies : List ℤ} (h : copies.headD OK ≠ OK) : copies.headD OK ∈ copies := by
  cases copies with
  | nil => exact absurd rfl h
  | cons r rs => exact List.mem_cons_self

/-- When there is no space for a zone, the bytes of a file are as they were. -/
theorem Remapped.fileByte (h : Remapped sp L rip L' rip' (dataZones sp L rip)) (hok : FileOk sp L rip)
    (p : ℕ) : Fs.fileByte sp L' rip' p = Fs.fileByte sp L rip p := by
  refine fileByte_congr (h.data _) fun h0 => ?_
  obtain ⟨hhas, hu⟩ := hok.zone _ h0
  refine h.frame.blocks _ _ hhas (sp.boff_lt p) hu fun r hr e => ?_
  rw [← hok.inj _ _ h0 e.symm] at hr
  exact absurd hr (by simp [Ref.indirect])

/-- What a turn of the loop leaves when it writes. -/
def TurnResult (sp : SuperBlock) (held : Buf → ℕ) (L₀ : Contents) (rip : Inode) (byte : ℕ → UInt8)
    (start : ℕ) (mem : ℕ → UInt8) (buffer : ℕ) (x : Xfer) (goes_on : Bool) (x' : Xfer) : Prop :=
  ∃ L', Writing sp held L₀ rip byte start mem buffer x' L' ∧
    (goes_on = true ∧ x'.r = OK ∧ (∃ n, 0 < n ∧ Progress n x x') ∨
      goes_on = false ∧ x'.r ≠ OK ∧ Progress 0 x x' ∧ 
        (NoSpace (sp.zoneOf x.position) x'.r ∨ x'.r ∈ x.user.copies))

/-- The double indirect block names all the zones behind those of the single one. -/
theorem double_of_data {k : ℕ} (hk : NR_DZONE_NUM + NR_INDIRECTS ≤ k)
    (h : zoneRef sp L rip (.data k) ≠ NO_ZONE) : zoneRef sp L rip .double ≠ NO_ZONE := by
  have hk : 7 + 512 ≤ k := hk
  have hp := Ref.parent_leaf (show ¬k < NR_DZONE_NUM from not_lt.mpr (show 7 ≤ k by omega))
    (show ¬k - NR_DZONE_NUM < NR_INDIRECTS from not_lt.mpr (show 512 ≤ k - 7 by omega))
  intro h0
  have hleaf : ∀ i, zoneRef sp L rip (.leaf i) = NO_ZONE := fun i => by
    rw [zoneRef_of_parent (show (Ref.leaf i).parent = some (.double, i) from rfl), h0, entry_zero]
  exact h (by rw [zoneRef_of_parent hp, hleaf, entry_zero])

/-- The zone that a write comes to has a place, if that where it began has one. -/
theorem Writing.placed (h : Writing sp held L₀ rip byte start mem buffer x L)
    (hk : Placed sp L₀ rip (sp.zoneOf start)) : Placed sp L x.rip (sp.zoneOf x.position) := by
  have hstart := h.start_le
  rcases hstart.eq_or_lt with heq | hlt
  · rw [← heq]
    refine hk.imp id fun hd => ?_
    rwa [h.grown.keeps _ hd]
  · -- What is in front of the position has been written.
    refine or_iff_not_imp_left.mpr fun hbig => double_of_data ?_ (h.last hlt)
    have hle : sp.zoneOf x.position ≤ sp.zoneOf (x.position - 1) + 1 := by
      rw [sp.zoneOf_eq, sp.zoneOf_eq, ← Nat.add_div_right _ (Nat.two_pow_pos _)]
      have := Nat.two_pow_pos sp.s_log_zone_size
      refine Nat.div_le_div_right ?_
      unfold BLOCK_SIZE
      omega
    have hbig : ¬sp.zoneOf x.position < 7 + 512 + 512 * 512 := hbig
    show 7 + 512 ≤ _
    omega

/-- A turn of the loop writes a chunk, or fails. -/
theorem Writing.turn (h : Writing sp held L₀ rip byte start mem buffer x L) (hh : Holds sp held)
    (hsp : sp.Ok) (hspec : rip.blockSpec = false) (hn : x.nbytes ≠ 0)
    (hk : Placed sp L₀ rip (sp.zoneOf start)) {f_size : ℕ} (hd : ¬Damaging sp f_size x) :
    ∃ b x', rwTurn sp .WRITING f_size x = some (b, x') ∧
      TurnResult sp held L₀ rip byte start mem buffer x b x' := by
  have hg := h.grown
  have hspec' : x.rip.blockSpec = false := by
    rw [hg.inode]
    exact hspec
  have hsize : x.rip.i_size = rip.i_size := by rw [hg.inode]
  have hchunk := chunkSize_writing hspec' f_size
  have hc : chunkSize .WRITING f_size x ≤ BLOCK_SIZE - x.position % BLOCK_SIZE := by omega
  have hpos : 0 < chunkSize .WRITING f_size x := by
    have := Nat.mod_lt x.position (show 0 < BLOCK_SIZE by decide)
    omega
  have hle : chunkSize .WRITING f_size x ≤ x.nbytes := by omega
  generalize hcs : chunkSize .WRITING f_size x = chunk at hc hpos hle
  obtain ⟨x', L', he, hw⟩ := h.mounted.rwChunk_write hh hsp hg.ok hspec' (h.placed hk)
    (x.position % BLOCK_SIZE) chunk
  have hroom := h.room
  rw [← hsize] at hroom
  have hbytes := h.bytes
  rw [← hsize] at hbytes
  unfold rwTurn
  rw [limited_writing hspec', if_neg (by simp), hcs]
  dsimp only
  rw [he, Option.bind_eq_bind, Option.bind_some]
  cases hw with
  | full hm hx hr hfree hmap =>
    have hne : x'.r ≠ OK := by
      rcases hr with e | ⟨e, -⟩ <;> rw [e] <;> decide
    have hx_pos : x'.position = x.position := by rw [hx]
    have hrip : x'.rip.i_size = rip.i_size := by rw [hmap.inode, hsize]
    rw [if_pos (Or.inl hne)]
    refine ⟨_, _, rfl, L', ⟨hm, hg.trans (hmap.grown fun k hk => Or.inl hk) hsp, ?_, ?_, ?_, ?_, ?_,
      ?_⟩, Or.inr ⟨rfl, hne, ?_, Or.inl hr⟩⟩
    · rw [hx]
      exact h.mem_eq
    · rw [hx_pos]
      exact h.start_le
    · rw [hx_pos, show x'.buffer = x.buffer by rw [hx]]
      exact h.buffer_eq
    · rw [hx_pos]
      exact ⟨fun p hp => (hmap.fileByte hg.ok p).trans (h.bytes.front p hp),
        fun p hp ht => (hmap.fileByte hg.ok p).trans (h.bytes.tail p hp ht)⟩
    · rw [hx_pos, hmap.data]
      exact h.room
    · rw [hx_pos, hmap.data]
      exact h.last
    · rw [hx]
      exact ⟨rfl, rfl, rfl, List.suffix_refl _⟩
  | @stored old data hm hx hst hdata hold =>
    have hgrown : Grown sp L₀ rip L' x'.rip := hg.trans hst.grown hsp
    have hr : x'.r = x.user.copies.headD OK := by rw [hx]
    have hcopies : x'.user.copies = x.user.copies.tail := by rw [hx]
    have hx_pos : x'.position = x.position := by rw [hx]
    have hx_buf : x'.buffer = x.buffer := by rw [hx]
    have hx_mem : x'.user.mem = mem := by
      rw [hx]
      exact h.mem_eq
    have hquiet : ¬x'.cache.rdwt_err < 0 := by
      rw [hm.quiet]
      decide
    have hmapped := hst.mapped
    by_cases hok : x.user.copies.headD OK = OK
    · -- The chunk has been written.
      rw [if_pos hok, h.mem_eq, h.buffer_eq] at hdata
      rw [if_neg (by rw [hr]; tauto)]
      have hstored := hbytes.stored hst hroom h.start_le hc hpos hdata fun hne =>
        hold.resolve_right fun e => hne e.1
      rw [hsize] at hstored
      refine ⟨_, _, rfl, L', ⟨hm, hgrown, hx_mem, ?_, ?_, ?_, ?_, ?_⟩,
        Or.inl ⟨rfl, hr.trans hok, chunk, hpos, ?_⟩⟩
      · show start ≤ x'.position + chunk
        have := h.start_le
        omega
      · show x'.buffer + chunk = buffer + (x'.position + chunk - start)
        have := h.start_le
        have := h.buffer_eq
        omega
      · have : (x'.advance chunk).position = x.position + chunk := by rw [← hx_pos]; rfl
        rw [this]
        exact hstored
      · intro hend
        have hend : x'.position + chunk = rip.i_size := hend
        rw [hx_pos] at hend
        by_cases hz : sp.boff rip.i_size = 0
        · exact Or.inl hz
        · -- The position in front of the end is in the chunk.
          have hpred := SuperBlock.zoneOf_pred hz
          have hblock : (rip.i_size - 1) / BLOCK_SIZE = x.position / BLOCK_SIZE := by
            unfold BLOCK_SIZE at hc ⊢
            omega
          rw [sp.zoneOf_eq (_ - 1), hblock, ← sp.zoneOf_eq] at hpred
          rw [← hpred]
          exact Or.inr hmapped
      · intro _
        have hlast : (x'.advance chunk).position - 1 = x.position + (chunk - 1) := by
          show x'.position + chunk - 1 = _
          omega
        have hblock : (x.position + (chunk - 1)) / BLOCK_SIZE = x.position / BLOCK_SIZE := by
          unfold BLOCK_SIZE at hc ⊢
          omega
        rw [hlast, sp.zoneOf_eq, hblock, ← sp.zoneOf_eq]
        exact hmapped
      · refine ⟨?_, ?_, ?_, ?_⟩
        · show x'.position + chunk = _
          rw [hx_pos]
        · show x.nbytes = x'.nbytes - chunk + chunk
          rw [show x'.nbytes = x.nbytes by rw [hx]]
          omega
        · show x'.cum_io + chunk = _
          rw [show x'.cum_io = x.cum_io by rw [hx]]
        · show x'.user.copies <:+ _
          rw [hcopies]
          exact List.tail_suffix _
    · -- The copy from the user has failed.
      rw [if_neg hok] at hdata
      subst hdata
      rw [if_pos (Or.inl (by rw [hr]; exact hok))]
      have hfailed := hbytes.failed hst hroom hc (hold.imp id fun ⟨hfull, hu⟩ => by
        have : ¬(x.position < x.rip.i_size ∨ sp.s_log_zone_size = 0) := fun e =>
          hd ⟨hok, hcs.trans hfull, hu, e⟩
        push Not at this
        exact ⟨hfull, this⟩)
      rw [hsize] at hfailed
      refine ⟨_, _, rfl, L', ⟨hm, hgrown, hx_mem, ?_, ?_, ?_, ?_, ?_⟩,
        Or.inr ⟨rfl, by rw [hr]; exact hok, ?_, Or.inr (by rw [hr]; exact headD_mem hok)⟩⟩
      · rw [hx_pos]
        exact h.start_le
      · rw [hx_pos, hx_buf]
        exact h.buffer_eq
      · rw [hx_pos]
        exact hfailed
      · intro hend
        rw [hx_pos] at hend
        refine (h.room hend).imp id fun h0 => ?_
        rw [hst.grown.keeps _ h0]
        exact h0
      · intro hlt
        rw [hx_pos] at hlt ⊢
        rw [hst.grown.keeps _ (h.last hlt)]
        exact h.last hlt
      · rw [hx]
        exact ⟨rfl, rfl, rfl, List.tail_suffix _⟩

/-- The end of a write: all of it has been transferred, or it has failed. -/
def WriteEnd (sp : SuperBlock) (x x' : Xfer) : Prop :=
  x'.r = OK ∧ x'.nbytes = 0 ∨ x'.r ≠ OK ∧
    ((∃ p < x.position + x.nbytes, NoSpace (sp.zoneOf p) x'.r) ∨ x'.r ∈ x.user.copies)

/-- The loop of `read_write`, when it writes. The induction is on the turns that are left. -/
theorem Writing.loop {n f_size : ℕ} (h : Writing sp held L₀ rip byte start mem buffer x L)
    (hh : Holds sp held) (hsp : sp.Ok) (hspec : rip.blockSpec = false) (hn : x.nbytes ≤ n)
    (hr : x.r = OK) (hk : Placed sp L₀ rip (sp.zoneOf start))
    (hd : Harmless sp f_size x) :
    ∃ x' L' k, rwLoop sp .WRITING f_size n x = some x' ∧
      Writing sp held L₀ rip byte start mem buffer x' L' ∧ Progress k x x' ∧ WriteEnd sp x x' := by
  induction n generalizing x L with
  | zero => exact ⟨x, L, 0, rfl, h, Progress.refl x, Or.inl ⟨hr, by omega⟩⟩
  | succ n ih =>
    unfold rwLoop
    by_cases h0 : x.nbytes = 0
    · rw [if_pos h0]
      exact ⟨x, L, 0, rfl, h, Progress.refl x, Or.inl ⟨hr, h0⟩⟩
    rw [if_neg h0]
    obtain ⟨b, x₁, he, L₁, hw, hres⟩ := h.turn hh hsp hspec h0 hk (hd x .refl h0)
    rw [he]
    rcases hres with ⟨rfl, hr₁, m, hm, hp⟩ | ⟨rfl, hr₁, hp, hcause⟩
    · have hpos := hp.position
      have hnb := hp.nbytes
      obtain ⟨x', L', k, he', hw', hp', hend⟩ := ih hw (by omega) hr₁ fun y hy =>
        hd y (.head he hy)
      refine ⟨x', L', m + k, he', hw', hp.trans hp', hend.imp id fun ⟨hne, hc⟩ => ⟨hne, ?_⟩⟩
      refine hc.imp (fun ⟨p, hlt, hno⟩ => ⟨p, ?_, hno⟩) fun hmem => hp.copies.subset hmem
      omega
    · refine ⟨x₁, L₁, 0, rfl, hw, hp, Or.inr ⟨hr₁, hcause.imp (fun hno => ⟨_, ?_, hno⟩) id⟩⟩
      omega

end Minix.Fs
