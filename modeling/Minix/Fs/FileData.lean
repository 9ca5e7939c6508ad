import Minix.Fs.NewBlock

/-!
# The bytes of a file

`fileByte` is the byte of a file at a position, as the contents of the blocks have it: a position
without a zone has a zero. `Stored` says what it means that a block is stored in a file, for which a
zone may be new. The zones that were in use and are not of the file are left alone (`Grown`).
-/

namespace Minix.Fs

/-- The place of a position in its block. -/
def inBlock (p : ℕ) : Fin BLOCK_SIZE := ⟨p % BLOCK_SIZE, offset_lt p⟩

/-- The block of the device that a position of a file is in, when it has a zone. -/
def dataBlock (sp : SuperBlock) (L : Contents) (rip : Inode) (p : ℕ) : ℕ :=
  zoneBlock (zoneRef sp L rip (.data (sp.zoneOf p))) sp.s_log_zone_size (sp.boff p)

/-- The byte of a file at a position. -/
def fileByte (sp : SuperBlock) (L : Contents) (rip : Inode) (p : ℕ) : UInt8 :=
  if zoneRef sp L rip (.data (sp.zoneOf p)) = NO_ZONE then 0
  else L sp.s_dev (dataBlock sp L rip p) (inBlock p)

/-- A file has grown, or its contents have changed. -/
structure Grown (sp : SuperBlock) (L : Contents) (rip : Inode) (L' : Contents) (rip' : Inode) :
    Prop where
  ok : FileOk sp L' rip'
  inode : rip' = { rip with i_zone := rip'.i_zone }
  keeps : ∀ r, zoneRef sp L rip r ≠ NO_ZONE → zoneRef sp L' rip' r = zoneRef sp L rip r
  /-- New zones were not in use. -/
  fresh : ∀ r, zoneRef sp L rip r = NO_ZONE →
    zoneRef sp L' rip' r = NO_ZONE ∨ used sp L (zoneRef sp L' rip' r) = false
  used : ∀ x, sp.HasZone x →
    (used sp L' x = true ↔ used sp L x = true ∨ ∃ r, zoneRef sp L' rip' r = x)
  /-- The blocks of the other zones in use. -/
  blocks : ∀ x i, sp.HasZone x → i < 2 ^ sp.s_log_zone_size → Fs.used sp L x = true →
    (∀ r, zoneRef sp L rip r ≠ x) →
    L' sp.s_dev (zoneBlock x sp.s_log_zone_size i) = L sp.s_dev (zoneBlock x sp.s_log_zone_size i)
  /-- What is neither the data area nor the zone map. -/
  outside : ∀ dev b, dev ≠ sp.s_dev ∨
    b < sp.firstBlock ∧ (∀ j < sp.s_zmap.length, b ≠ sp.zmapBlock j) → L' dev b = L dev b

/-- A block is stored in a file, at a position. -/
structure Stored (sp : SuperBlock) (L : Contents) (rip : Inode) (position : ℕ) (data : Block)
    (L' : Contents) (rip' : Inode) : Prop where
  grown : Grown sp L rip L' rip'
  mapped : zoneRef sp L' rip' (.data (sp.zoneOf position)) ≠ NO_ZONE
  /-- The other zones of the file itself. -/
  zones : ∀ k, k ≠ sp.zoneOf position → zoneRef sp L' rip' (.data k) = zoneRef sp L rip (.data k)
  here : ∀ p, p / BLOCK_SIZE = position / BLOCK_SIZE → fileByte sp L' rip' p = data (inBlock p)
  /-- The other bytes, unless they are in the same new zone at the end of the file. -/
  others : ∀ p, p / BLOCK_SIZE ≠ position / BLOCK_SIZE →
    (zoneRef sp L rip (.data (sp.zoneOf position)) = NO_ZONE → sp.zoneOf p = sp.zoneOf position →
      position ≠ rip.i_size) → fileByte sp L' rip' p = fileByte sp L rip p

variable {sp : SuperBlock} {s : Session} {L L' L'' : Contents} {rip rip' rip'' : Inode}
  {i k z p position : ℕ} {data : Block} {dz : ℕ → ℕ}

theorem dataBlock_eq (h : zoneRef sp L rip (.data (sp.zoneOf p)) = z) :
    dataBlock sp L rip p = zoneBlock z sp.s_log_zone_size (sp.boff p) := by
  unfold dataBlock
  rw [h]

theorem fileByte_hole (h : zoneRef sp L rip (.data (sp.zoneOf p)) = NO_ZONE) :
    fileByte sp L rip p = 0 := if_pos h

theorem fileByte_mapped (h : zoneRef sp L rip (.data (sp.zoneOf p)) = z) (hz : z ≠ NO_ZONE) :
    fileByte sp L rip p =
      L sp.s_dev (zoneBlock z sp.s_log_zone_size (sp.boff p)) (inBlock p) := by
  unfold fileByte
  rw [if_neg (by rwa [h]), dataBlock_eq h]

/-- The bytes of a file depend on its zones and their blocks only. -/
theorem fileByte_congr
    (hz : zoneRef sp L' rip' (.data (sp.zoneOf p)) = zoneRef sp L rip (.data (sp.zoneOf p)))
    (hb : zoneRef sp L rip (.data (sp.zoneOf p)) ≠ NO_ZONE →
      L' sp.s_dev (dataBlock sp L rip p) = L sp.s_dev (dataBlock sp L rip p)) :
    fileByte sp L' rip' p = fileByte sp L rip p := by
  unfold fileByte
  rw [hz]
  split_ifs with h0
  · rfl
  · have : dataBlock sp L' rip' p = dataBlock sp L rip p := by
      unfold dataBlock
      rw [hz]
    rw [this, hb h0]

/-! ## Growing -/

/-- A zone that was in use and not of the file is not one of it later. -/
theorem Grown.not_ref (h : Grown sp L rip L' rip') {x : ℕ} (hx : x ≠ NO_ZONE)
    (hu : Fs.used sp L x = true) (hno : ∀ r, zoneRef sp L rip r ≠ x) (r : Ref) :
    zoneRef sp L' rip' r ≠ x := by
  intro e
  by_cases h0 : zoneRef sp L rip r = NO_ZONE
  · rcases h.fresh r h0 with h1 | h1
    · exact hx (e.symm.trans h1)
    · rw [e, hu] at h1
      exact absurd h1 (by decide)
  · exact hno r ((h.keeps r h0).symm.trans e)

theorem Grown.refl (h : FileOk sp L rip) (hsp : sp.Ok) : Grown sp L rip L rip where
  ok := h
  inode := rfl
  keeps _ _ := rfl
  fresh _ h0 := Or.inl h0
  used _ hx := ⟨Or.inl, fun e => e.elim id fun ⟨_, hr⟩ => h.used_of_ref hsp hx hr⟩
  blocks _ _ _ _ _ _ := rfl
  outside _ _ _ := rfl

theorem Grown.trans (h : Grown sp L rip L' rip') (h' : Grown sp L' rip' L'' rip'') (hsp : sp.Ok) :
    Grown sp L rip L'' rip'' where
  ok := h'.ok
  inode := by rw [h'.inode, h.inode]
  keeps r hr := by
    have hk := h.keeps r hr
    rw [h'.keeps r (by rw [hk]; exact hr), hk]
  fresh r h0 := by
    by_cases h0' : zoneRef sp L' rip' r = NO_ZONE
    · rcases h'.fresh r h0' with h1 | h1
      · exact Or.inl h1
      · by_cases h2 : zoneRef sp L'' rip'' r = NO_ZONE
        · exact Or.inl h2
        · -- What was not in use later was not in use before.
          refine Or.inr (Bool.eq_false_iff.mpr fun hu => ?_)
          rw [(h.used _ (h'.ok.zone r h2).1).mpr (Or.inl hu)] at h1
          exact absurd h1 (by decide)
    · rw [h'.keeps r h0']
      exact h.fresh r h0
  used x hx := by
    rw [h'.used x hx, h.used x hx]
    constructor
    · rintro ((hu | ⟨r, hr⟩) | hr)
      · exact Or.inl hu
      · refine Or.inr ⟨r, ?_⟩
        rw [h'.keeps r (by rw [hr]; exact hsp.zone_ne hx), hr]
      · exact Or.inr hr
    · rintro (hu | hr)
      · exact Or.inl (Or.inl hu)
      · exact Or.inr hr
  blocks x i hx hi hu hno := by
    have hu' := (h.used x hx).mpr (Or.inl hu)
    rw [h'.blocks x i hx hi hu' (h.not_ref (hsp.zone_ne hx) hu hno), h.blocks x i hx hi hu hno]
  outside dev b hb := (h'.outside dev b hb).trans (h.outside dev b hb)

/-- Entering zones is growing, if the new zones of the file itself were not in use. -/
theorem Remapped.grown (h : Remapped sp L rip L' rip' dz)
    (hfresh : ∀ k, zoneRef sp L rip (.data k) = NO_ZONE → dz k = NO_ZONE ∨ Fs.used sp L (dz k) = false) :
    Grown sp L rip L' rip' where
  ok := h.ok
  inode := h.inode
  keeps := h.keeps
  fresh r h0 := by
    cases r with
    | data k =>
      rw [h.data]
      exact hfresh k h0
    | single => exact h.fresh _ rfl h0
    | double => exact h.fresh _ rfl h0
    | leaf i => exact h.fresh _ rfl h0
  used := h.used
  blocks x i hx hi hu hno := h.frame.blocks x i hx hi hu fun r _ => hno r
  outside := h.frame.outside

/-- A new zone has been entered. -/
theorem NewZone.grown (h : NewZone sp L rip position L' rip' z) : Grown sp L rip L' rip' := by
  refine h.map.grown fun k hk => ?_
  by_cases hkz : k = sp.zoneOf position
  · rw [hkz, Function.update_self]
    exact Or.inr h.unused
  · rw [Function.update_of_ne hkz]
    exact Or.inl hk

/-! ## Storing a block -/

/-- A block of a zone of the file itself is set: its map is as it was. -/
theorem FileOk.zoneRef_setData (h : FileOk sp L rip) (hsp : sp.Ok)
    (hz : zoneRef sp L rip (.data k) = z) (hne : z ≠ NO_ZONE) (hi : i < 2 ^ sp.s_log_zone_size)
    (data : Block) :
    zoneRef sp (L.set sp.s_dev (zoneBlock z sp.s_log_zone_size i) data) rip = zoneRef sp L rip := by
  have hhas : sp.HasZone z := hz ▸ (h.zone (.data k) (by rwa [hz])).1
  refine zoneRef_congr rfl rfl fun r hr hrz => ?_
  rw [h.dev]
  refine set_zoneBlock hsp (h.zone r hrz).1 hhas (Nat.two_pow_pos _) hi (Or.inl fun e => ?_) _ _
  have := h.inj r (.data k) hrz (e.trans hz.symm)
  rw [this] at hr
  exact absurd hr (by simp [Ref.indirect])

/-- A block of a zone of the file itself is set. -/
theorem Grown.setData (h : FileOk sp L rip) (hsp : sp.Ok) (hz : zoneRef sp L rip (.data k) = z)
    (hne : z ≠ NO_ZONE) (hi : i < 2 ^ sp.s_log_zone_size) (data : Block) :
    Grown sp L rip (L.set sp.s_dev (zoneBlock z sp.s_log_zone_size i) data) rip := by
  have hm := h.zoneRef_setData hsp hz hne hi data
  have hhas : sp.HasZone z := hz ▸ (h.zone (.data k) (by rwa [hz])).1
  have hfirst := hsp.firstBlock_le hhas hi
  refine ⟨h.congr rfl hm fun r hr => ?_, rfl, fun r _ => by rw [hm], fun r h0 => ?_, fun x hx => ?_,
    fun x j hx hj _ hno => ?_, fun dev b hb => Contents.set_of_ne fun e => ?_⟩
  · rw [used_set hsp (h.zone r hr).1 hfirst]
    exact (h.zone r hr).2
  · rw [hm]
    exact Or.inl h0
  · rw [used_set hsp hx hfirst, hm]
    exact ⟨Or.inl, fun e => e.elim id fun ⟨_, hr⟩ => h.used_of_ref hsp hx hr⟩
  · exact set_zoneBlock hsp hx hhas hj hi (Or.inl fun e => hno _ (hz.trans e.symm)) _ _
  · rcases hb with hd | ⟨hlt, -⟩
    · exact hd e.1
    · omega

/-- The bytes of a file when a block of it is set. -/
theorem fileByte_setData (h : FileOk sp L rip) (hsp : sp.Ok)
    (hz : zoneRef sp L rip (.data (sp.zoneOf position)) = z) (hne : z ≠ NO_ZONE) (data : Block)
    (p : ℕ) :
    fileByte sp (L.set sp.s_dev (zoneBlock z sp.s_log_zone_size (sp.boff position)) data) rip p =
      if p / BLOCK_SIZE = position / BLOCK_SIZE then data (inBlock p) else fileByte sp L rip p := by
  have hhas : sp.HasZone z := hz ▸ (h.zone (.data _) (by rwa [hz])).1
  have hm := h.zoneRef_setData hsp hz hne (sp.boff_lt position) data
  by_cases hp : p / BLOCK_SIZE = position / BLOCK_SIZE
  · have hzone : sp.zoneOf p = sp.zoneOf position := by rw [sp.zoneOf_eq, sp.zoneOf_eq, hp]
    have hboff : sp.boff p = sp.boff position := by rw [sp.boff_eq, sp.boff_eq, hp]
    rw [if_pos hp, fileByte_mapped (by rw [hm, hzone, hz]) hne, hboff, Contents.set_self hsp.dev]
  · rw [if_neg hp]
    refine fileByte_congr (by rw [hm]) fun h0 => ?_
    refine set_zoneBlock hsp (h.zone _ h0).1 hhas (sp.boff_lt p) (sp.boff_lt position) ?_ _ _
    by_contra hsame
    push Not at hsame
    have hzone : sp.zoneOf p = sp.zoneOf position :=
      Ref.data.inj (h.inj _ _ h0 (hsame.1.trans hz.symm))
    exact hp (sp.block_eq hzone hsame.2)

/-- A block is stored in a zone that is there. -/
theorem Stored.old (h : FileOk sp L rip) (hsp : sp.Ok)
    (hz : zoneRef sp L rip (.data (sp.zoneOf position)) = z) (hne : z ≠ NO_ZONE) (data : Block) :
    Stored sp L rip position data
      (L.set sp.s_dev (zoneBlock z sp.s_log_zone_size (sp.boff position)) data) rip where
  grown := Grown.setData h hsp hz hne (sp.boff_lt position) data
  mapped := by
    rw [h.zoneRef_setData hsp hz hne (sp.boff_lt position) data, hz]
    exact hne
  zones k _ := by rw [h.zoneRef_setData hsp hz hne (sp.boff_lt position) data]
  here p hp := by rw [fileByte_setData h hsp hz hne, if_pos hp]
  others p hp _ := by rw [fileByte_setData h hsp hz hne, if_neg hp]

/-- The bytes of a file when a new zone has been entered. -/
theorem NewZone.fileByte (h : NewZone sp L rip position L' rip' z) (hok : FileOk sp L rip)
    (hsp : sp.Ok) (hp : sp.zoneOf p = sp.zoneOf position → position ≠ rip.i_size)
    (hb : p / BLOCK_SIZE ≠ position / BLOCK_SIZE) :
    Fs.fileByte sp L' rip' p = Fs.fileByte sp L rip p := by
  by_cases hzone : sp.zoneOf p = sp.zoneOf position
  · have hz : zoneRef sp L' rip' (.data (sp.zoneOf p)) = z := by
      rw [h.map.data, hzone, Function.update_self]
    -- There are other blocks in the zone.
    have hs : sp.s_log_zone_size ≠ 0 := by
      intro hs
      rw [sp.zoneOf_eq, sp.zoneOf_eq, hs, Nat.pow_zero, Nat.div_one, Nat.div_one] at hzone
      exact hb hzone
    rw [fileByte_mapped hz (hsp.zone_ne h.has), h.clear (hp hzone) hs _ (sp.boff_lt p),
      fileByte_hole (by rw [hzone]; exact h.free)]
  · have hz : zoneRef sp L' rip' (.data (sp.zoneOf p)) = zoneRef sp L rip (.data (sp.zoneOf p)) := by
      rw [h.map.data, Function.update_of_ne hzone]
      rfl
    refine fileByte_congr hz fun h0 => ?_
    obtain ⟨hhas, hu⟩ := hok.zone _ h0
    refine h.map.frame.blocks _ _ hhas (sp.boff_lt p) hu fun r hr e => ?_
    have := hok.inj _ _ h0 e.symm
    rw [← this] at hr
    exact absurd hr (by simp [Ref.indirect])

/-- A block is stored in a zone that is new. -/
theorem Stored.new (h : NewZone sp L rip position L' rip' z) (hok : FileOk sp L rip) (hsp : sp.Ok)
    (data : Block) :
    Stored sp L rip position data
      (L'.set sp.s_dev (zoneBlock z sp.s_log_zone_size (sp.boff position)) data) rip' := by
  have hz : zoneRef sp L' rip' (.data (sp.zoneOf position)) = z := by
    rw [h.map.data, Function.update_self]
  have hne := hsp.zone_ne h.has
  have hm := h.map.ok.zoneRef_setData hsp hz hne (sp.boff_lt position) data
  refine ⟨h.grown.trans (Grown.setData h.map.ok hsp hz hne (sp.boff_lt position) data) hsp, ?_,
    fun k hk => ?_, fun p hp => ?_, fun p hp hend => ?_⟩
  · rw [hm, hz]
    exact hne
  · rw [hm, h.map.data, Function.update_of_ne hk]
    rfl
  · rw [fileByte_setData h.map.ok hsp hz hne, if_pos hp]
  · rw [fileByte_setData h.map.ok hsp hz hne, if_neg hp]
    exact h.fileByte hok hsp (hend h.free) hp

end Minix.Fs
