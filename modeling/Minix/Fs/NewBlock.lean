import Minix.Fs.WriteMap

/-!
# New blocks

`clear_zone` zeroes the blocks of a zone from a position on, and `new_block` finds a zone for a
position that has none. The zone that it enters is clear, unless the position is the end of the
file: then the block of the position is the only one that is cleared.
-/

namespace Minix.Fs

/-- The contents with `n` blocks of a device cleared, from block `lo` on. -/
def zeroRange (L : Contents) (dev lo n : ℕ) : Contents := fun d b =>
  if d = dev ∧ lo ≤ b ∧ b < lo + n then fun _ => 0 else L d b

/-- The contents with the blocks of a zone cleared, from its `i`th one on. -/
def clearTail (sp : SuperBlock) (L : Contents) (z i : ℕ) : Contents :=
  zeroRange L sp.s_dev (zoneBlock z sp.s_log_zone_size i) (2 ^ sp.s_log_zone_size - i)

/-- A zone has been entered for a position that had none. -/
structure NewZone (sp : SuperBlock) (L : Contents) (rip : Inode) (position : ℕ) (L' : Contents)
    (rip' : Inode) (z : ℕ) : Prop where
  map : Remapped sp L rip L' rip' (Function.update (dataZones sp L rip) (sp.zoneOf position) z)
  has : sp.HasZone z
  free : zoneRef sp L rip (.data (sp.zoneOf position)) = NO_ZONE
  unused : used sp L z = false
  /-- It is clear, unless it is at the end of the file. -/
  clear : position ≠ rip.i_size → sp.s_log_zone_size ≠ 0 → ∀ i < 2 ^ sp.s_log_zone_size,
    L' sp.s_dev (zoneBlock z sp.s_log_zone_size i) = fun _ => 0

/-- What `new_block` leaves. -/
def NewBlockResult (sp : SuperBlock) (held : Buf → ℕ) (L : Contents) (rip : Inode) (position : ℕ)
    (w : Written Buf) : Prop :=
  match w.res with
  | .error r => NoSpace (sp.zoneOf position) r ∧ ∃ L', Mounted sp ⟨w.cache, held⟩ L' ∧
      Remapped sp L rip L' w.rip (dataZones sp L rip)
  | .ok bp => ∃ L' z, NewZone sp L rip position L' w.rip z ∧
      (∀ k, w.cache.b_data bp k = 0) ∧
      ∀ data, Mounted sp ⟨writeBuf w.cache bp data, Function.update held bp (held bp + 1)⟩
        (L'.set sp.s_dev (zoneBlock z sp.s_log_zone_size (sp.boff position)) data)

/-- The contents when the zone of a position has been cleared, from the first block on that begins
at the position or behind it. -/
def clearedZone (sp : SuperBlock) (L : Contents) (rip : Inode) (pos : ℕ) : Contents :=
  let next := pos + BLOCK_SIZE - 1
  if sp.s_log_zone_size = 0 ∨ sp.zoneOf next ≠ sp.zoneOf pos ∨
    zoneRef sp L rip (.data (sp.zoneOf next)) = NO_ZONE then L
  else clearTail sp L (zoneRef sp L rip (.data (sp.zoneOf next))) (sp.boff next)

variable {sp : SuperBlock} {s : Session} {L L' L'' : Contents} {rip rip' : Inode}
  {b dev i j k n lo z position pos : ℕ} {data : ℕ → ℕ}

/-! ## Positions -/

/-- The relative zone of a position, by its block. -/
theorem SuperBlock.zoneOf_eq (sp : SuperBlock) (position : ℕ) :
    sp.zoneOf position = position / BLOCK_SIZE / 2 ^ sp.s_log_zone_size :=
  Nat.shiftRight_eq_div_pow ..

/-- The block of a position within its zone. -/
theorem SuperBlock.boff_eq (sp : SuperBlock) (position : ℕ) :
    sp.boff position = position / BLOCK_SIZE % 2 ^ sp.s_log_zone_size := by
  unfold SuperBlock.boff
  rw [sp.zoneOf_eq, Nat.shiftLeft_eq, Nat.mod_def, Nat.mul_comm]

theorem SuperBlock.boff_lt (sp : SuperBlock) (position : ℕ) :
    sp.boff position < 2 ^ sp.s_log_zone_size := by
  rw [sp.boff_eq]
  exact Nat.mod_lt _ (Nat.two_pow_pos _)

/-- The zones of a position, when it is divided by the size of a zone. -/
theorem SuperBlock.div_zone_size (sp : SuperBlock) (position : ℕ) :
    position / (BLOCK_SIZE <<< sp.s_log_zone_size) = sp.zoneOf position := by
  rw [sp.zoneOf_eq, Nat.shiftLeft_eq, Nat.div_div_eq_div_mul]

/-- The blocks of a position within its zone, when the zone is divided. -/
theorem SuperBlock.mod_zone_size (sp : SuperBlock) (position : ℕ) :
    position % (BLOCK_SIZE <<< sp.s_log_zone_size) / BLOCK_SIZE = sp.boff position := by
  rw [sp.boff_eq, Nat.shiftLeft_eq, Nat.mod_mul_right_div_self]

/-- Positions of one zone and one block within it are in one block of the file. -/
theorem SuperBlock.block_eq (sp : SuperBlock) {p q : ℕ} (hz : sp.zoneOf p = sp.zoneOf q)
    (hb : sp.boff p = sp.boff q) : p / BLOCK_SIZE = q / BLOCK_SIZE := by
  rw [sp.zoneOf_eq, sp.zoneOf_eq] at hz
  rw [sp.boff_eq, sp.boff_eq] at hb
  rw [← Nat.div_add_mod (p / BLOCK_SIZE) (2 ^ sp.s_log_zone_size), hz, hb, Nat.div_add_mod]

/-- The zones of positions are in the order of the positions. -/
theorem SuperBlock.zoneOf_mono (sp : SuperBlock) {p q : ℕ} (h : p ≤ q) : sp.zoneOf p ≤ sp.zoneOf q := by
  rw [sp.zoneOf_eq, sp.zoneOf_eq]
  exact Nat.div_le_div_right (Nat.div_le_div_right h)

/-! ## Clearing blocks -/

theorem zeroRange_zero : zeroRange L dev lo 0 = L := by
  funext d b
  unfold zeroRange
  exact if_neg fun e => by omega

/-- One more block is cleared, in front of the others. -/
theorem zeroRange_succ (hdev : dev ≠ NO_DEV) :
    zeroRange (L.set dev lo fun _ => 0) dev (lo + 1) n = zeroRange L dev lo (n + 1) := by
  funext d b
  unfold zeroRange
  by_cases h : d = dev ∧ b = lo
  · obtain ⟨rfl, rfl⟩ := h
    rw [if_neg (by omega), if_pos (by omega), Contents.set_self hdev]
  · rw [Contents.set_of_ne h]
    have : (d = dev ∧ lo + 1 ≤ b ∧ b < lo + 1 + n) ↔ d = dev ∧ lo ≤ b ∧ b < lo + (n + 1) := by
      omega
    simp only [this]

/-- The loop of `clear_zone`. -/
theorem Mounted.clearRange (h : Mounted sp s L) (hh : Holds sp s.held) (hdev : dev ≠ NO_DEV)
    (lo n : ℕ) : ∃ c, (List.range' lo n).foldlM (fun s b => Fs.clearBlock s dev b) s.cache = some c ∧
      Mounted sp ⟨c, s.held⟩ (zeroRange L dev lo n) := by
  induction n generalizing s L lo with
  | zero =>
    refine ⟨s.cache, rfl, ?_⟩
    rw [zeroRange_zero]
    exact h
  | succ n ih =>
    obtain ⟨c₁, he₁, hm₁⟩ := h.clearBlock hh hdev lo
    obtain ⟨c₂, he₂, hm₂⟩ := ih hm₁ hh (lo + 1)
    refine ⟨c₂, ?_, ?_⟩
    · rw [List.range'_succ, List.foldlM_cons, he₁]
      exact he₂
    · rwa [zeroRange_succ hdev] at hm₂

/-- The blocks of a zone that are cleared. -/
theorem clearTail_self (hsp : sp.Ok) (hz : sp.HasZone z) (hj : j < 2 ^ sp.s_log_zone_size) :
    clearTail sp L z i sp.s_dev (zoneBlock z sp.s_log_zone_size j) =
      if i ≤ j then fun _ => 0 else L sp.s_dev (zoneBlock z sp.s_log_zone_size j) := by
  unfold clearTail zeroRange
  by_cases hi : i ≤ j
  · rw [if_pos hi, if_pos]
    rw [hsp.zoneBlock_eq hz hj, hsp.zoneBlock_eq hz (lt_of_le_of_lt hi hj)]
    omega
  · rw [if_neg hi, if_neg]
    rintro ⟨-, h₁, h₂⟩
    by_cases hi' : i < 2 ^ sp.s_log_zone_size
    · rw [hsp.zoneBlock_eq hz hj, hsp.zoneBlock_eq hz hi'] at h₁
      omega
    · omega

/-- Blocks that are not of the zone are left alone. -/
theorem clearTail_of_ne (hsp : sp.Ok) (hz : sp.HasZone z) (hi : i < 2 ^ sp.s_log_zone_size)
    (hb : dev ≠ sp.s_dev ∨ ∀ j < 2 ^ sp.s_log_zone_size, b ≠ zoneBlock z sp.s_log_zone_size j) :
    clearTail sp L z i dev b = L dev b := by
  unfold clearTail zeroRange
  refine if_neg ?_
  rintro ⟨hd, h₁, h₂⟩
  rcases hb with hd' | hb
  · exact hd' hd
  · refine hb (b - z * 2 ^ sp.s_log_zone_size) ?_ ?_
    · rw [hsp.zoneBlock_eq hz hi] at h₁ h₂
      omega
    · rw [hsp.zoneBlock_eq hz hi] at h₁ h₂
      rw [hsp.zoneBlock_eq hz (by omega)]
      omega

/-- The blocks of another zone are left alone. -/
theorem clearTail_zone (hsp : sp.Ok) (hz : sp.HasZone z) (hi : i < 2 ^ sp.s_log_zone_size) {x : ℕ}
    (hx : sp.HasZone x) (hne : x ≠ z) (hj : j < 2 ^ sp.s_log_zone_size) (dev : ℕ) :
    clearTail sp L z i dev (zoneBlock x sp.s_log_zone_size j) =
      L dev (zoneBlock x sp.s_log_zone_size j) :=
  clearTail_of_ne hsp hz hi (Or.inr fun _ hj' e => hne (hsp.zoneBlock_inj hx hz hj hj' e).1)

/-- What is not in the data area is left alone. -/
theorem clearTail_low (hsp : sp.Ok) (hz : sp.HasZone z) (hi : i < 2 ^ sp.s_log_zone_size)
    (hb : dev ≠ sp.s_dev ∨ b < sp.firstBlock) : clearTail sp L z i dev b = L dev b :=
  clearTail_of_ne hsp hz hi (hb.imp id fun hlt j hj e => by
    have := hsp.firstBlock_le hz hj
    omega)

/-- Which zones are in use is not in the data area. -/
theorem used_clearTail (hsp : sp.Ok) (hz : sp.HasZone z) (hi : i < 2 ^ sp.s_log_zone_size) {x : ℕ}
    (hx : sp.HasZone x) : used sp (clearTail sp L z i) x = used sp L x := by
  have := hsp.zmap_lt (hsp.bit_lt hx).2
  unfold used mapBit
  rw [clearTail_low hsp hz hi (Or.inr this)]

/-- The blocks from the one that is looked up to the last one of its zone are cleared. -/
theorem Mounted.clearBlocks (h : Mounted sp s L) (hh : Holds sp s.held) (hsp : sp.Ok)
    (hz : sp.HasZone z) (hi : i < 2 ^ sp.s_log_zone_size) :
    ∃ c, Fs.clearBlocks s.cache sp.s_dev (zoneBlock z sp.s_log_zone_size i)
        (unshort ((zoneBlock z sp.s_log_zone_size i >>> sp.s_log_zone_size + 1) <<<
          sp.s_log_zone_size + 65535)) = some c ∧
      Mounted sp ⟨c, s.held⟩ (clearTail sp L z i) := by
  have hpos := Nat.two_pow_pos sp.s_log_zone_size
  have hdiv : (z * 2 ^ sp.s_log_zone_size + i) / 2 ^ sp.s_log_zone_size = z := by
    rw [Nat.mul_comm, Nat.mul_add_div hpos, Nat.div_eq_of_lt hi, Nat.add_zero]
  have hend : (z + 1) * 2 ^ sp.s_log_zone_size < 65536 :=
    lt_of_le_of_lt (Nat.mul_le_mul_right _ hz.2) hsp.small
  have hone : (z + 1) * 2 ^ sp.s_log_zone_size = z * 2 ^ sp.s_log_zone_size + 2 ^ sp.s_log_zone_size := by
    rw [Nat.add_mul, Nat.one_mul]
  -- The last block of the zone is not the greatest block number.
  have hhi : unshort ((zoneBlock z sp.s_log_zone_size i >>> sp.s_log_zone_size + 1) <<<
      sp.s_log_zone_size + 65535) =
      z * 2 ^ sp.s_log_zone_size + 2 ^ sp.s_log_zone_size - 1 := by
    rw [Nat.shiftRight_eq_div_pow, Nat.shiftLeft_eq, hsp.zoneBlock_eq hz hi, hdiv, hone]
    unfold unshort
    omega
  rw [hhi]
  unfold Fs.clearBlocks clearTail
  rw [if_neg (by omega)]
  have hn : z * 2 ^ sp.s_log_zone_size + 2 ^ sp.s_log_zone_size - 1 + 1 -
      zoneBlock z sp.s_log_zone_size i = 2 ^ sp.s_log_zone_size - i := by
    rw [hsp.zoneBlock_eq hz hi]
    omega
  rw [hn]
  exact h.clearRange hh hsp.dev _ _

/-- `clear_zone` clears the zone of a position. -/
theorem Mounted.clearZone (h : Mounted sp s L) (hh : Holds sp s.held) (hsp : sp.Ok)
    (hok : FileOk sp L rip) (pos : ℕ) (flag : Bool) :
    ∃ c, Fs.clearZone s.cache sp rip pos flag = some c ∧ Mounted sp ⟨c, s.held⟩
      (clearedZone sp L rip (if flag then
        pos / (BLOCK_SIZE <<< sp.s_log_zone_size) * (BLOCK_SIZE <<< sp.s_log_zone_size) else pos)) := by
  unfold Fs.clearZone
  dsimp only
  generalize (if flag then pos / (BLOCK_SIZE <<< sp.s_log_zone_size) *
    (BLOCK_SIZE <<< sp.s_log_zone_size) else pos) = pos
  rw [sp.div_zone_size, sp.div_zone_size]
  unfold clearedZone
  dsimp only
  by_cases h0 : sp.s_log_zone_size = 0 ∨ sp.zoneOf (pos + BLOCK_SIZE - 1) ≠ sp.zoneOf pos
  · rw [if_pos h0, if_pos (by tauto)]
    exact ⟨_, rfl, h⟩
  rw [if_neg h0]
  obtain ⟨c, he, hm⟩ := h.readMap hh (by rw [hok.dev]; exact hsp.dev) (pos + BLOCK_SIZE - 1)
  rw [he, Option.bind_eq_bind, Option.bind_some]
  dsimp only
  unfold blockAt
  by_cases hz : zoneRef sp L rip (.data (sp.zoneOf (pos + BLOCK_SIZE - 1))) = NO_ZONE
  · rw [if_pos hz, if_pos rfl, if_pos (by tauto)]
    exact ⟨_, rfl, hm⟩
  · have hhas := (hok.zone _ hz).1
    rw [if_neg hz, if_neg (hsp.block_ne hhas (sp.boff_lt _)), if_neg (by tauto), hok.dev]
    exact hm.clearBlocks hh hsp hhas (sp.boff_lt _)

/-- When a zone has been entered, it is cleared as a whole. -/
theorem clearedZone_start (hs : sp.s_log_zone_size ≠ 0)
    (hz : zoneRef sp L rip (.data (sp.zoneOf position)) = z) (hne : z ≠ NO_ZONE) :
    clearedZone sp L rip (position / (BLOCK_SIZE <<< sp.s_log_zone_size) *
      (BLOCK_SIZE <<< sp.s_log_zone_size)) = clearTail sp L z 0 := by
  have hpos := Nat.two_pow_pos sp.s_log_zone_size
  have hb : 0 < BLOCK_SIZE := by decide
  -- The first block of the zone, by its number in the file.
  have hfirst : sp.zoneOf position * 2 ^ sp.s_log_zone_size * BLOCK_SIZE =
      position / (BLOCK_SIZE <<< sp.s_log_zone_size) * (BLOCK_SIZE <<< sp.s_log_zone_size) := by
    rw [sp.div_zone_size, Nat.shiftLeft_eq, Nat.mul_comm BLOCK_SIZE, Nat.mul_assoc]
  rw [← hfirst]
  have hblock : (sp.zoneOf position * 2 ^ sp.s_log_zone_size * BLOCK_SIZE + BLOCK_SIZE - 1) /
      BLOCK_SIZE = sp.zoneOf position * 2 ^ sp.s_log_zone_size := by
    rw [Nat.add_sub_assoc hb, Nat.mul_comm _ BLOCK_SIZE, Nat.mul_add_div hb]
    rfl
  have hblock' : sp.zoneOf position * 2 ^ sp.s_log_zone_size * BLOCK_SIZE / BLOCK_SIZE =
      sp.zoneOf position * 2 ^ sp.s_log_zone_size := Nat.mul_div_cancel _ hb
  unfold clearedZone
  dsimp only
  rw [sp.zoneOf_eq (_ - 1), sp.zoneOf_eq (_ * BLOCK_SIZE), sp.boff_eq, hblock, hblock',
    Nat.mul_div_cancel _ hpos, Nat.mul_mod_left, hz, if_neg (by simp [hs, hne])]

/-- What is cleared in the zone of a position, whose blocks from the `i`th one on begin at the
position or behind it. -/
theorem clearedZone_block (hsp : sp.Ok) (hok : FileOk sp L rip)
    (hz : zoneRef sp L rip (.data k) ≠ NO_ZONE) (hj : j < 2 ^ sp.s_log_zone_size) :
    clearedZone sp L rip pos sp.s_dev
        (zoneBlock (zoneRef sp L rip (.data k)) sp.s_log_zone_size j) =
      if sp.s_log_zone_size ≠ 0 ∧ k = sp.zoneOf pos ∧
        (pos + BLOCK_SIZE - 1) / BLOCK_SIZE ≤ k * 2 ^ sp.s_log_zone_size + j then fun _ => 0
      else L sp.s_dev (zoneBlock (zoneRef sp L rip (.data k)) sp.s_log_zone_size j) := by
  have hpos := Nat.two_pow_pos sp.s_log_zone_size
  have hnext := Nat.div_add_mod ((pos + BLOCK_SIZE - 1) / BLOCK_SIZE) (2 ^ sp.s_log_zone_size)
  rw [← sp.zoneOf_eq, ← sp.boff_eq, Nat.mul_comm] at hnext
  have hmono : sp.zoneOf pos ≤ sp.zoneOf (pos + BLOCK_SIZE - 1) :=
    sp.zoneOf_mono (by unfold BLOCK_SIZE; omega)
  unfold clearedZone
  by_cases hk : k = sp.zoneOf (pos + BLOCK_SIZE - 1)
  · subst hk
    rw [← hnext]
    by_cases hsame : sp.zoneOf (pos + BLOCK_SIZE - 1) = sp.zoneOf pos
    · by_cases hs : sp.s_log_zone_size = 0
      · rw [if_pos (Or.inl hs), if_neg fun e => e.1 hs]
      · rw [if_neg (by tauto), clearTail_self hsp (hok.zone _ hz).1 hj]
        simp only [hs, hsame, ne_eq, not_false_eq_true, true_and, Nat.add_le_add_iff_left]
    · rw [if_pos (Or.inr (Or.inl hsame)), if_neg fun e => hsame e.2.1]
  · -- The zone that is cleared, if any, is another one; and the blocks are not behind the position.
    have hcond : ¬(sp.s_log_zone_size ≠ 0 ∧ k = sp.zoneOf pos ∧
        (pos + BLOCK_SIZE - 1) / BLOCK_SIZE ≤ k * 2 ^ sp.s_log_zone_size + j) := by
      rintro ⟨-, rfl, hle⟩
      have hlt : sp.zoneOf pos < sp.zoneOf (pos + BLOCK_SIZE - 1) := lt_of_le_of_ne hmono hk
      have := Nat.mul_le_mul_right (2 ^ sp.s_log_zone_size) (Nat.succ_le_of_lt hlt)
      rw [Nat.succ_mul] at this
      omega
    rw [if_neg hcond]
    split_ifs with hno
    · rfl
    · push Not at hno
      have hne : zoneRef sp L rip (.data k) ≠
          zoneRef sp L rip (.data (sp.zoneOf (pos + BLOCK_SIZE - 1))) := fun e =>
        hk (Ref.data.inj (hok.inj _ _ hz e))
      exact clearTail_zone hsp (hok.zone _ hno.2.2).1 (sp.boff_lt _) (hok.zone _ hz).1 hne hj _

/-! ## `new_block` -/

/-- The blocks of a zone of the file itself are cleared: the map of the file is as it was. -/
theorem FileOk.zoneRef_clearTail (h : FileOk sp L rip) (hsp : sp.Ok)
    (hz : zoneRef sp L rip (.data k) = z) (hne : z ≠ NO_ZONE) (hi : i < 2 ^ sp.s_log_zone_size) :
    zoneRef sp (clearTail sp L z i) rip = zoneRef sp L rip := by
  have hhas : sp.HasZone z := hz ▸ (h.zone (.data k) (by rwa [hz])).1
  refine zoneRef_congr rfl rfl fun r hr hrz => ?_
  refine clearTail_zone hsp hhas hi (h.zone r hrz).1 (fun e => ?_) (Nat.two_pow_pos _) _
  have := h.inj r (.data k) hrz (e.trans hz.symm)
  rw [this] at hr
  exact absurd hr (by simp [Ref.indirect])

/-- A new zone of the file itself is cleared. -/
theorem Remapped.clear (h : Remapped sp L rip L' rip' data) (hsp : sp.Ok) (hz : data k = z)
    (hhas : sp.HasZone z) (hu : Fs.used sp L z = false) :
    Remapped sp L rip (clearTail sp L' z 0) rip' data := by
  have hpos := Nat.two_pow_pos sp.s_log_zone_size
  have hm := h.ok.zoneRef_clearTail (i := 0) hsp ((h.data k).trans hz) (hsp.zone_ne hhas) hpos
  refine ⟨h.ok.congr rfl hm fun r hr => ?_, h.inode, fun j => ?_, fun r hr => ?_, fun r hi h0 => ?_,
    fun x hx => ?_, ⟨fun x j hx hj hxu hind => ?_, fun dev b hb => ?_⟩⟩
  · rw [used_clearTail hsp hhas hpos (h.ok.zone r hr).1]
    exact (h.ok.zone r hr).2
  · rw [hm, h.data]
  · rw [hm, h.keeps r hr]
  · rw [hm]
    exact h.fresh r hi h0
  · rw [used_clearTail hsp hhas hpos hx, hm]
    exact h.used x hx
  · have hne : x ≠ z := fun e => by
      rw [e, hu] at hxu
      exact absurd hxu (by decide)
    rw [clearTail_zone hsp hhas hpos hx hne hj]
    exact h.frame.blocks x j hx hj hxu hind
  · rw [clearTail_low hsp hhas hpos (hb.imp id And.left)]
    exact h.frame.outside dev b hb

/-- What is in use when a zone has been put in use. -/
theorem taken_iff {x : ℕ} (hL : ZoneMapped sp L L' (taken sp L z)) (hx : sp.HasZone x) :
    Fs.used sp L' x = true ↔ x = z ∨ Fs.used sp L x = true := by
  rw [hL.used x hx]
  unfold taken
  by_cases hxz : x = z
  · simp [hxz]
  · simp [hxz]

/-- What entering zones does, when a zone had been put in use before. -/
theorem Remapped.of_taken (h : Remapped sp L' rip L'' rip' data) (hok : FileOk sp L rip) (hsp : sp.Ok)
    (hL : ZoneMapped sp L L' (taken sp L z)) (href : ∃ r, zoneRef sp L'' rip' r = z) :
    Remapped sp L rip L'' rip' data := by
  have hm := hok.zoneRef_zmap hsp hL
  have hused : ∀ x, sp.HasZone x → (Fs.used sp L' x = true ↔ x = z ∨ Fs.used sp L x = true) :=
    fun x hx => taken_iff hL hx
  refine ⟨h.ok, h.inode, h.data, fun r hr => ?_, fun r hi h0 => ?_, fun x hx => ?_,
    ⟨fun x j hx hj hxu hind => ?_, fun dev b hb => ?_⟩⟩
  · rw [h.keeps r (by rwa [hm]), hm]
  · rcases h.fresh r hi (by rwa [hm]) with h1 | h1
    · exact Or.inl h1
    · by_cases h2 : zoneRef sp L'' rip' r = NO_ZONE
      · exact Or.inl h2
      · refine Or.inr (Bool.eq_false_iff.mpr fun hu => ?_)
        rw [(hused _ (h.ok.zone r h2).1).mpr (Or.inr hu)] at h1
        exact absurd h1 (by decide)
  · rw [h.used x hx, hused x hx]
    constructor
    · rintro ((rfl | hu) | hr)
      · exact Or.inr href
      · exact Or.inl hu
      · exact Or.inr hr
    · rintro (hu | hr)
      · exact Or.inl (Or.inr hu)
      · exact Or.inr hr
  · rw [h.frame.blocks x j hx hj ((hused x hx).mpr (Or.inr hxu)) (by rwa [hm]),
      hL.area hsp (hsp.firstBlock_le hx hj)]
  · rw [h.frame.outside dev b hb, hL.blocks dev b (hb.imp id And.right)]

/-- What a zone that was put in use and put out of use again leaves. -/
theorem Remapped.of_freed {L₁ L₂ : Contents} (h : Remapped sp L₁ rip L₂ rip' data)
    (hok : FileOk sp L rip) (hsp : sp.Ok) (hL : ZoneMapped sp L L₁ (taken sp L z))
    (hu : Fs.used sp L z = false) (hnew : ∀ r, zoneRef sp L₂ rip' r ≠ z)
    (hL' : ZoneMapped sp L₂ L' fun x => if x = z then false else Fs.used sp L₂ x) :
    Remapped sp L rip L' rip' data := by
  have hm := hok.zoneRef_zmap hsp hL
  have hm' := h.ok.zoneRef_zmap hsp hL'
  have hused : ∀ x, sp.HasZone x → (Fs.used sp L₁ x = true ↔ x = z ∨ Fs.used sp L x = true) :=
    fun x hx => taken_iff hL hx
  have hused' : ∀ x, sp.HasZone x → (Fs.used sp L' x = true ↔ x ≠ z ∧ Fs.used sp L₂ x = true) := by
    intro x hx
    rw [hL'.used x hx]
    by_cases hxz : x = z
    · simp [hxz]
    · simp [hxz]
  have hold : ∀ x, Fs.used sp L x = true → x ≠ z := fun x hx e => by
    rw [e, hu] at hx
    exact absurd hx (by decide)
  refine ⟨h.ok.congr rfl hm' fun r hr => ?_, h.inode, fun j => ?_, fun r hr => ?_, fun r hi h0 => ?_,
    fun x hx => ?_, ⟨fun x j hx hj hxu hind => ?_, fun dev b hb => ?_⟩⟩
  · obtain ⟨hhas, hur⟩ := h.ok.zone r hr
    exact (hused' _ hhas).mpr ⟨hnew r, hur⟩
  · rw [hm', h.data]
  · rw [hm', h.keeps r (by rwa [hm]), hm]
  · rw [hm']
    rcases h.fresh r hi (by rwa [hm]) with h1 | h1
    · exact Or.inl h1
    · by_cases h2 : zoneRef sp L₂ rip' r = NO_ZONE
      · exact Or.inl h2
      · refine Or.inr (Bool.eq_false_iff.mpr fun hur => ?_)
        rw [(hused _ (h.ok.zone r h2).1).mpr (Or.inr hur)] at h1
        exact absurd h1 (by decide)
  · rw [hused' x hx, h.used x hx, hused x hx, hm']
    constructor
    · rintro ⟨hxz, (rfl | hxu) | hr⟩
      · exact absurd rfl hxz
      · exact Or.inl hxu
      · exact Or.inr hr
    · rintro (hxu | ⟨r, hr⟩)
      · exact ⟨hold x hxu, Or.inl (Or.inr hxu)⟩
      · exact ⟨hr ▸ hnew r, Or.inr ⟨r, hr⟩⟩
  · rw [hL'.area hsp (hsp.firstBlock_le hx hj),
      h.frame.blocks x j hx hj ((hused x hx).mpr (Or.inr hxu)) (by rwa [hm]),
      hL.area hsp (hsp.firstBlock_le hx hj)]
  · rw [hL'.blocks dev b (hb.imp id And.right), h.frame.outside dev b hb,
      hL.blocks dev b (hb.imp id And.right)]

/-- A new zone is cleared, unless it is at the end of the file. -/
theorem Mounted.clearNew (h : Mounted sp s L') (hh : Holds sp s.held) (hsp : sp.Ok)
    (hr : Remapped sp L rip L' rip' (Function.update (dataZones sp L rip) (sp.zoneOf position) z))
    (hz : sp.HasZone z) (hfree : zoneRef sp L rip (.data (sp.zoneOf position)) = NO_ZONE)
    (hu : used sp L z = false) :
    ∃ c L'', Fs.clearNew s.cache sp rip' position = some c ∧ Mounted sp ⟨c, s.held⟩ L'' ∧
      NewZone sp L rip position L'' rip' z := by
  have hdata := hr.data (sp.zoneOf position)
  have hsize : rip'.i_size = rip.i_size := by rw [hr.inode]
  rw [Function.update_self] at hdata
  unfold Fs.clearNew
  by_cases hend : position = rip.i_size
  · rw [if_neg (by rw [hsize]; exact not_not.mpr hend)]
    exact ⟨_, L', rfl, h, hr, hz, hfree, hu, fun hne => absurd hend hne⟩
  rw [if_pos (by rw [hsize]; exact hend)]
  obtain ⟨c, he, hm⟩ := h.clearZone hh hsp hr.ok position true
  rw [if_pos rfl] at hm
  by_cases hs : sp.s_log_zone_size = 0
  · have hsame : clearedZone sp L' rip' (position / (BLOCK_SIZE <<< sp.s_log_zone_size) *
        (BLOCK_SIZE <<< sp.s_log_zone_size)) = L' := if_pos (Or.inl hs)
    rw [hsame] at hm
    exact ⟨c, L', he, hm, hr, hz, hfree, hu, fun _ hne => absurd hs hne⟩
  · rw [clearedZone_start hs hdata (hsp.zone_ne hz)] at hm
    refine ⟨c, _, he, hm, hr.clear hsp (Function.update_self ..) hz hu, hz, hfree, hu,
      fun _ _ i hi => ?_⟩
    rw [clearTail_self hsp hz hi, if_pos (Nat.zero_le i)]

/-- What `new_block` finds for a position that has no zone: a block of a new zone. -/
def NewBlockNrResult (sp : SuperBlock) (held : Buf → ℕ) (L : Contents) (rip : Inode) (position : ℕ)
    (w : Written ℕ) : Prop :=
  ∃ L', Mounted sp ⟨w.cache, held⟩ L' ∧
    match w.res with
    | .error r => NoSpace (sp.zoneOf position) r ∧ Remapped sp L rip L' w.rip (dataZones sp L rip)
    | .ok b => ∃ z, NewZone sp L rip position L' w.rip z ∧
        b = zoneBlock z sp.s_log_zone_size (sp.boff position)

/-- A zone that was put in use is entered in the file, or put out of use again. -/
theorem Mounted.enterZone (h : Mounted sp s L') (hh : Holds sp s.held) (hsp : sp.Ok)
    (hok : FileOk sp L rip) (hL : ZoneMapped sp L L' (taken sp L z)) (hz : sp.HasZone z)
    (hfree : zoneRef sp L rip (.data (sp.zoneOf position)) = NO_ZONE) (hu : used sp L z = false)
    (hk : Placed sp L rip (sp.zoneOf position)) :
    ∃ w, Fs.enterZone s.cache sp rip position z = some w ∧
      NewBlockNrResult sp s.held L rip position w := by
  have hm := hok.zoneRef_zmap hsp hL
  have hok' : FileOk sp L' rip := hok.zmap hsp hL fun x hx => by
    unfold taken
    rw [hx]
    exact ite_self _
  have hw : Waits sp L' rip (sp.zoneOf position) z := by
    refine ⟨hz, (taken_iff hL hz).mpr (Or.inl rfl), ?_, ?_⟩
    · rwa [hm]
    · rw [hm]
      exact hok.not_ref hsp hz hu
  have hdz : dataZones sp L' rip = dataZones sp L rip := by
    unfold dataZones
    rw [hm]
  have hk' : Placed sp L' rip (sp.zoneOf position) := by
    unfold Placed
    rwa [hm]
  obtain ⟨w, he, L₂, hm₂, hres⟩ := h.writeMap hh hok' hsp hw hk'
  unfold Fs.enterZone
  rw [he, Option.bind_eq_bind, Option.bind_some]
  cases hwr : w.res with
  | error r =>
    rw [hwr, hdz] at hres
    obtain ⟨hr, hrem⟩ := hres
    obtain ⟨L₃, hm₃, hL₃⟩ := hm₂.freeZone hsp hz
    have hrem' : Remapped sp L' rip L₂ w.rip (dataZones sp L' rip) := by rwa [hdz]
    have hnew := (hw.remapped hrem' hsp).new
    exact ⟨_, rfl, L₃, hm₃, hr, hrem.of_freed hok hsp hL hu hnew hL₃⟩
  | ok u =>
    rw [hwr, hdz] at hres
    have href : zoneRef sp L₂ w.rip (.data (sp.zoneOf position)) = z := by
      rw [hres.data, Function.update_self]
    have hrem := hres.of_taken hok hsp hL ⟨_, href⟩
    obtain ⟨c, L₃, hc, hm₃, hnz⟩ := hm₂.clearNew hh hsp hrem hz hfree hu
    dsimp only at hc ⊢
    rw [hc, Option.bind_eq_bind, Option.bind_some]
    refine ⟨_, rfl, L₃, hm₃, z, hnz, ?_⟩
    rw [sp.mod_zone_size]

/-- `new_block` looks up no block for a position that has no zone. -/
theorem Mounted.newBlockNr (h : Mounted sp s L) (hh : Holds sp s.held) (hsp : sp.Ok)
    (hok : FileOk sp L rip) (hfree : zoneRef sp L rip (.data (sp.zoneOf position)) = NO_ZONE)
    (hk : Placed sp L rip (sp.zoneOf position)) :
    ∃ w, Fs.newBlockNr s.cache sp rip position = some w ∧
      NewBlockNrResult sp s.held L rip position w := by
  obtain ⟨c, he, hm⟩ := h.readMap hh (by rw [hok.dev]; exact hsp.dev) position
  have hno : blockAt sp L rip position = NO_BLOCK := if_pos hfree
  unfold Fs.newBlockNr
  rw [he, hno, Option.bind_eq_bind, Option.bind_some]
  obtain ⟨z, c', L', he', -, hm', hz⟩ := hm.allocZone hsp (newZoneNear sp rip)
  dsimp only at he' ⊢
  rw [if_neg (not_not.mpr rfl), he', Option.bind_some]
  rcases hz with ⟨rfl, hL⟩ | ⟨hz, hu, hL⟩
  · exact ⟨_, rfl, L', hm', Or.inl rfl, .of_zmap hok hsp hL⟩
  · dsimp only
    rw [if_neg (hsp.zone_ne hz)]
    exact hm'.enterZone hh hsp hok hL hz hfree hu hk

/-- `new_block` acquires a clear block for a position that has no zone, unless there is no space. -/
theorem Mounted.newBlock (h : Mounted sp s L) (hh : Holds sp s.held) (hsp : sp.Ok)
    (hok : FileOk sp L rip) (hfree : zoneRef sp L rip (.data (sp.zoneOf position)) = NO_ZONE)
    (hk : Placed sp L rip (sp.zoneOf position)) :
    ∃ w, Fs.newBlock s.cache sp rip position = some w ∧
      NewBlockResult sp s.held L rip position w := by
  obtain ⟨w, he, L', hm, hres⟩ := h.newBlockNr hh hsp hok hfree hk
  unfold Fs.newBlock
  rw [he, Option.bind_eq_bind, Option.bind_some]
  cases hwr : w.res with
  | error r =>
    rw [hwr] at hres
    exact ⟨_, rfl, hres.1, L', hm, hres.2⟩
  | ok b =>
    rw [hwr] at hres
    obtain ⟨z, hnz, rfl⟩ := hres
    obtain ⟨bp, c, hc, -, -, -, hw⟩ := hm.get_write hh hsp.dev
      (zoneBlock z sp.s_log_zone_size (sp.boff position)) .NO_READ (by decide)
    dsimp only at hc ⊢
    rw [hok.dev, hc, Option.bind_eq_bind, Option.bind_some]
    refine ⟨_, rfl, L', z, hnz, fun k => ?_, fun data => ?_⟩
    · show (zeroBlock c bp).b_data bp k = 0
      unfold zeroBlock writeBuf
      dsimp only
      rw [Function.update_self]
    · have := hw data
      unfold zeroBlock
      rwa [writeBuf_writeBuf]

end Minix.Fs
