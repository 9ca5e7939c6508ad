import Minix.Fs.FileMap

/-!
# Entering a zone in a file

`write_map` enters a zone in the map of a file, for which it may create a double and a single
indirect block. `Remapped` is what it does to the file and to everything else: the zone numbers that
are there stay, new indirect blocks are in zones that were not in use, and a block of a zone in use
is as it was unless the zone has an indirect block of the file.
-/

namespace Minix.Fs

/-- What is left alone when zones are entered in a file. -/
structure Framed (sp : SuperBlock) (L : Contents) (rip : Inode) (L' : Contents) : Prop where
  /-- The blocks of a zone in use, unless it has an indirect block of the file. -/
  blocks : ∀ x i, sp.HasZone x → i < 2 ^ sp.s_log_zone_size → used sp L x = true →
    (∀ r, r.indirect = true → zoneRef sp L rip r ≠ x) →
    L' sp.s_dev (zoneBlock x sp.s_log_zone_size i) = L sp.s_dev (zoneBlock x sp.s_log_zone_size i)
  /-- What is neither the data area nor the zone map. -/
  outside : ∀ dev b, dev ≠ sp.s_dev ∨
    b < sp.firstBlock ∧ (∀ j < sp.s_zmap.length, b ≠ sp.zmapBlock j) → L' dev b = L dev b

/-- What entering zones in a file does. `data` has the zone numbers of the file itself. -/
structure Remapped (sp : SuperBlock) (L : Contents) (rip : Inode) (L' : Contents) (rip' : Inode)
    (data : ℕ → ℕ) : Prop where
  ok : FileOk sp L' rip'
  inode : rip' = { rip with i_zone := rip'.i_zone }
  data : ∀ k, zoneRef sp L' rip' (.data k) = data k
  /-- The zone numbers that are there stay. -/
  keeps : ∀ r, zoneRef sp L rip r ≠ NO_ZONE → zoneRef sp L' rip' r = zoneRef sp L rip r
  /-- New indirect blocks are in zones that were not in use. -/
  fresh : ∀ r, r.indirect = true → zoneRef sp L rip r = NO_ZONE →
    zoneRef sp L' rip' r = NO_ZONE ∨ used sp L (zoneRef sp L' rip' r) = false
  used : ∀ x, sp.HasZone x →
    (used sp L' x = true ↔ used sp L x = true ∨ ∃ r, zoneRef sp L' rip' r = x)
  frame : Framed sp L rip L'

variable {sp : SuperBlock} {s : Session} {L L' L'' : Contents} {rip rip' rip'' : Inode} {r p : Ref}
  {e i j k z x : ℕ} {data data' : ℕ → ℕ}

/-- The zone numbers of the file itself. -/
def dataZones (sp : SuperBlock) (L : Contents) (rip : Inode) (k : ℕ) : ℕ := zoneRef sp L rip (.data k)

/-- The zones of a file are in use. -/
theorem FileOk.used_of_ref (h : FileOk sp L rip) (hsp : sp.Ok) (hx : sp.HasZone x)
    (hr : zoneRef sp L rip r = x) : Fs.used sp L x = true := by
  have := (h.zone r (by rw [hr]; exact hsp.zone_ne hx)).2
  rwa [hr] at this

theorem Remapped.refl (h : FileOk sp L rip) (hsp : sp.Ok) :
    Remapped sp L rip L rip (dataZones sp L rip) where
  ok := h
  inode := rfl
  data _ := rfl
  keeps _ _ := rfl
  fresh _ _ h0 := Or.inl h0
  used _ hx := ⟨Or.inl, fun e => e.elim id fun ⟨_, hr⟩ => h.used_of_ref hsp hx hr⟩
  frame := ⟨fun _ _ _ _ _ _ => rfl, fun _ _ _ => rfl⟩

/-- A zone that was in use is not one of the new indirect blocks. -/
theorem Remapped.not_indirect (h : Remapped sp L rip L' rip' data) (hx : x ≠ NO_ZONE)
    (hu : Fs.used sp L x = true) (hr : r.indirect = true) (hold : zoneRef sp L rip r ≠ x) :
    zoneRef sp L' rip' r ≠ x := by
  intro e
  by_cases h0 : zoneRef sp L rip r = NO_ZONE
  · rcases h.fresh r hr h0 with h1 | h1
    · exact hx (e.symm.trans h1)
    · rw [e, hu] at h1
      exact absurd h1 (by decide)
  · exact hold ((h.keeps r h0).symm.trans e)

theorem Remapped.trans (h : Remapped sp L rip L' rip' data) (h' : Remapped sp L' rip' L'' rip'' data')
    (hsp : sp.Ok) : Remapped sp L rip L'' rip'' data' where
  ok := h'.ok
  inode := by rw [h'.inode, h.inode]
  data := h'.data
  keeps r hr := by
    have hk := h.keeps r hr
    rw [h'.keeps r (by rw [hk]; exact hr), hk]
  fresh r hi h0 := by
    by_cases h0' : zoneRef sp L' rip' r = NO_ZONE
    · rcases h'.fresh r hi h0' with h1 | h1
      · exact Or.inl h1
      · by_cases h2 : zoneRef sp L'' rip'' r = NO_ZONE
        · exact Or.inl h2
        · -- What was not in use later was not in use before.
          refine Or.inr (Bool.eq_false_iff.mpr fun hu => ?_)
          have := (h.used _ (h'.ok.zone r h2).1).mpr (Or.inl hu)
          rw [h1] at this
          exact absurd this (by decide)
    · rw [h'.keeps r h0']
      exact h.fresh r hi h0
  used x hx := by
    rw [h'.used x hx, h.used x hx]
    constructor
    · rintro ((hu | ⟨r, hr⟩) | hr)
      · exact Or.inl hu
      · refine Or.inr ⟨r, ?_⟩
        rw [h'.keeps r (by rw [hr]; exact hsp.zone_ne hx), hr]
      · exact Or.inr hr
    · rintro (hu | hr)
      · exact Or.inl (Or.inl hu)
      · exact Or.inr hr
  frame := by
    refine ⟨fun x i hx hi hu hind => ?_, fun dev b hb =>
      (h'.frame.outside dev b hb).trans (h.frame.outside dev b hb)⟩
    have hu' := (h.used x hx).mpr (Or.inl hu)
    rw [h'.frame.blocks x i hx hi hu' fun r hr =>
      h.not_indirect (hsp.zone_ne hx) hu hr (hind r hr), h.frame.blocks x i hx hi hu hind]

/-! ## One zone number -/

/-- Which zones are in use is not in the data area. -/
theorem used_set (hsp : sp.Ok) (hx : sp.HasZone x) {b dev : ℕ} (hb : sp.firstBlock ≤ b)
    (new : Block) : used sp (L.set dev b new) x = used sp L x := by
  have hlt := hsp.zmap_lt (hsp.bit_lt hx).2
  unfold used mapBit
  rw [Contents.set_of_ne fun e => by omega]

/-- One zone number is entered. -/
theorem Remapped.of_update (h : FileOk sp L rip) (hsp : sp.Ok) {r₀ : Ref}
    (hrip : rip' = { rip with i_zone := rip'.i_zone })
    (hm : zoneRef sp L' rip' = Function.update (zoneRef sp L rip) r₀ z)
    (h0 : zoneRef sp L rip r₀ = NO_ZONE) (hz : sp.HasZone z) (hnew : ∀ r, zoneRef sp L rip r ≠ z)
    (hfresh : r₀.indirect = true → Fs.used sp L z = false)
    (hused : ∀ x, sp.HasZone x → Fs.used sp L' x = if x = z then true else Fs.used sp L x)
    (hframe : Framed sp L rip L') :
    Remapped sp L rip L' rip' fun k => Function.update (zoneRef sp L rip) r₀ z (.data k) where
  ok := by
    refine h.update (by rw [hrip]) hm hz hnew ?_ fun x hx hu => ?_
    · rw [hused z hz, if_pos rfl]
    · rw [hused x hx, hu]
      exact ite_self _
  inode := hrip
  data k := by rw [hm]
  keeps r hr := by
    rw [hm, Function.update_of_ne fun e => hr (by rw [e, h0])]
  fresh r hi hr := by
    rw [hm]
    by_cases hrr : r = r₀
    · rw [hrr, Function.update_self]
      exact Or.inr (hfresh (hrr ▸ hi))
    · rw [Function.update_of_ne hrr]
      exact Or.inl hr
  used x hx := by
    rw [hused x hx, hm]
    constructor
    · intro hu
      split_ifs at hu with hxz
      · exact Or.inr ⟨r₀, by rw [Function.update_self, hxz]⟩
      · exact Or.inl hu
    · rintro (hu | ⟨r, hr⟩)
      · rw [hu]
        exact ite_self _
      · by_cases hrr : r = r₀
        · rw [hrr, Function.update_self] at hr
          rw [if_pos hr.symm]
        · rw [Function.update_of_ne hrr] at hr
          rw [h.used_of_ref hsp hx hr]
          exact ite_self _
  frame := hframe

/-- What is said of the zones of the file itself. -/
theorem Remapped.congr_data (h : Remapped sp L rip L' rip' data) (hd : ∀ k, data k = data' k) :
    Remapped sp L rip L' rip' data' :=
  ⟨h.ok, h.inode, fun k => (h.data k).trans (hd k), h.keeps, h.fresh, h.used, h.frame⟩

/-- A zone that has just been put in use is not one of the file. -/
theorem FileOk.not_ref (h : FileOk sp L rip) (hsp : sp.Ok) (hz : sp.HasZone z)
    (hu : Fs.used sp L z = false) (r : Ref) : zoneRef sp L rip r ≠ z := by
  intro e
  rw [h.used_of_ref hsp hz e] at hu
  exact absurd hu (by decide)

/-- The map of a file when a zone has been put in use. -/
theorem FileOk.zoneRef_zmap {use : ℕ → Bool} (h : FileOk sp L rip) (hsp : sp.Ok)
    (hL : ZoneMapped sp L L' use) : zoneRef sp L' rip = zoneRef sp L rip :=
  zoneRef_congr rfl rfl fun r _ hr =>
    hL.area hsp (hsp.firstBlock_le (h.zone r hr).1 (Nat.two_pow_pos _))

/-- The file when zones have been put in use. -/
theorem FileOk.zmap {use : ℕ → Bool} (h : FileOk sp L rip) (hsp : sp.Ok)
    (hL : ZoneMapped sp L L' use) (hold : ∀ x, Fs.used sp L x = true → use x = true) :
    FileOk sp L' rip :=
  h.congr rfl (h.zoneRef_zmap hsp hL) fun r hr => by
    obtain ⟨hhas, hu⟩ := h.zone r hr
    rw [hL.used _ hhas]
    exact hold _ hu

/-- The inode with a zone number changed. -/
theorem setZone_eq (rip : Inode) (i : Fin NR_ZONE_NUMS) (z : ℕ) :
    rip.setZone i z = { rip with i_zone := (rip.setZone i z).i_zone } := rfl

/-- A zone of the file itself is entered in the inode. -/
theorem Remapped.root (h : FileOk sp L rip) (hsp : sp.Ok) (hk : k < NR_DZONE_NUM)
    (h0 : zoneRef sp L rip (.data k) = NO_ZONE) (hz : sp.HasZone z)
    (hu : Fs.used sp L z = true) (hnew : ∀ r, zoneRef sp L rip r ≠ z) :
    Remapped sp L rip L (rip.setZone ⟨k, hk.trans (by decide)⟩ z)
      (Function.update (dataZones sp L rip) k z) := by
  have hslot : (Ref.data k).slot = ⟨k, hk.trans (by decide)⟩ := dif_pos hk
  have hroot : (Ref.data k).parent = none := if_pos hk
  rw [← hslot]
  refine (Remapped.of_update h hsp (setZone_eq ..) (zoneRef_root hroot rfl) h0 hz hnew
    (fun e => absurd e (by simp [Ref.indirect])) (fun x _ => ?_)
    ⟨fun _ _ _ _ _ _ => rfl, fun _ _ _ => rfl⟩).congr_data fun j => ?_
  · split_ifs with hxz
    · rw [hxz, hu]
    · rfl
  · unfold dataZones Function.update
    simp only [Ref.data.injEq, eq_rec_constant]

/-- A zone of the file itself is entered in an indirect block. -/
theorem Remapped.entry (h : FileOk sp L rip) (hsp : sp.Ok) (hp : (Ref.data k).parent = some (p, e))
    (hpz : zoneRef sp L rip p ≠ NO_ZONE) (h0 : zoneRef sp L rip (.data k) = NO_ZONE)
    (hz : sp.HasZone z) (hu : Fs.used sp L z = true) (hnew : ∀ r, zoneRef sp L rip r ≠ z) :
    Remapped sp L rip (L.set sp.s_dev (zoneBlock (zoneRef sp L rip p) sp.s_log_zone_size 0)
        (setInd (L sp.s_dev (zoneBlock (zoneRef sp L rip p) sp.s_log_zone_size 0)) e z)) rip
      (Function.update (dataZones sp L rip) k z) := by
  have hpos := Nat.two_pow_pos sp.s_log_zone_size
  have hz16 : z < 65536 := lt_of_lt_of_le hz.2
    ((Nat.le_mul_of_pos_right _ hpos).trans hsp.small.le)
  have he : e < NR_INDIRECTS := by
    rcases Ref.parent_cases hp with ⟨-, e⟩ | ⟨-, he, -⟩ | ⟨i, -, he, -⟩
    · exact Ref.noConfusion e
    · exact he
    · exact he
  have hhas := (h.zone p hpz).1
  have hfirst := hsp.firstBlock_le hhas hpos
  have hm := h.zoneRef_entry hsp hp rfl hpz hz16 he
  rw [h.dev] at hm
  refine (Remapped.of_update h hsp rfl hm h0 hz hnew (fun e => absurd e (by simp [Ref.indirect]))
    (fun x hx => ?_) ⟨fun x i hx hi _ hind => ?_, fun dev b hb => ?_⟩).congr_data fun j => ?_
  · rw [used_set hsp hx hfirst]
    split_ifs with hxz
    · rw [hxz, hu]
    · rfl
  · exact set_zoneBlock hsp hx hhas hi hpos
      (Or.inl fun e => hind p (Ref.parent_indirect hp) e.symm) _ _
  · refine Contents.set_of_ne fun e => ?_
    rcases hb with hd | ⟨hlt, -⟩
    · exact hd e.1
    · omega
  · unfold dataZones Function.update
    simp only [Ref.data.injEq, eq_rec_constant]

/-- An indirect block is entered, in a zone that was not in use. -/
theorem Remapped.new_indirect (h : FileOk sp L rip) (hsp : sp.Ok) {r₀ : Ref}
    (hrip : rip' = { rip with i_zone := rip'.i_zone })
    (hr₀ : r₀.indirect = true) (h0 : zoneRef sp L rip r₀ = NO_ZONE) (hz : sp.HasZone z)
    (hu : Fs.used sp L z = false)
    (hm : zoneRef sp L' rip' = Function.update (zoneRef sp L rip) r₀ z)
    (hused : ∀ x, sp.HasZone x → Fs.used sp L' x = if x = z then true else Fs.used sp L x)
    (hframe : Framed sp L rip L') :
    Remapped sp L rip L' rip' (dataZones sp L rip) := by
  refine (Remapped.of_update h hsp hrip hm h0 hz (h.not_ref hsp hz hu) (fun _ => hu) hused
    hframe).congr_data fun j => ?_
  have hne : Ref.data j ≠ r₀ := fun e => by
    rw [← e] at hr₀
    exact absurd hr₀ (by simp [Ref.indirect])
  rw [Function.update_of_ne hne]
  rfl

/-- Which zones are in use, with one more. -/
def taken (sp : SuperBlock) (L : Contents) (z : ℕ) : ℕ → Bool := fun x =>
  if x = z then true else used sp L x

/-- The zone map is all that has changed, and no zone was put in use. -/
theorem Remapped.of_zmap (h : FileOk sp L rip) (hsp : sp.Ok)
    (hL : ZoneMapped sp L L' (Fs.used sp L)) : Remapped sp L rip L' rip (dataZones sp L rip) := by
  have hm := h.zoneRef_zmap hsp hL
  refine ⟨h.zmap hsp hL fun _ hu => hu, rfl, fun k => by rw [hm]; rfl, fun r _ => by rw [hm],
    fun r _ h0 => Or.inl (by rw [hm, h0]), fun x hx => ?_, ?_⟩
  · rw [hL.used x hx, hm]
    exact ⟨Or.inl, fun e => e.elim id fun ⟨r, hr⟩ => h.used_of_ref hsp hx hr⟩
  · exact ⟨fun x i hx hi _ _ => hL.area hsp (hsp.firstBlock_le hx hi),
      fun dev b hb => hL.blocks dev b (hb.imp id And.right)⟩

/-- A block of a new zone is written. -/
theorem Framed.of_new (hsp : sp.Ok) (hL : ZoneMapped sp L L' (taken sp L z)) (hz : sp.HasZone z)
    (hu : Fs.used sp L z = false) (new : Block) :
    Framed sp L rip (L'.set sp.s_dev (zoneBlock z sp.s_log_zone_size 0) new) := by
  have hpos := Nat.two_pow_pos sp.s_log_zone_size
  refine ⟨fun x i hx hi hxu _ => ?_, fun dev b hb => ?_⟩
  · have hne : x ≠ z := fun e => by
      rw [e, hu] at hxu
      exact absurd hxu (by decide)
    rw [set_zoneBlock hsp hx hz hi hpos (Or.inl hne), hL.area hsp (hsp.firstBlock_le hx hi)]
  · have := hsp.firstBlock_le hz hpos
    rw [Contents.set_of_ne fun e => ?_, hL.blocks dev b (hb.imp id And.right)]
    rcases hb with hd | ⟨hlt, -⟩
    · exact hd e.1
    · omega

/-- A clear indirect block is entered in the inode. -/
theorem Remapped.new_root (h : FileOk sp L rip) (hsp : sp.Ok) {r₀ : Ref} (hr₀ : r₀.parent = none)
    (hi : r₀.indirect = true) (h0 : zoneRef sp L rip r₀ = NO_ZONE)
    (hL : ZoneMapped sp L L' (taken sp L z)) (hz : sp.HasZone z) (hu : Fs.used sp L z = false) :
    Remapped sp L rip (L'.set sp.s_dev (zoneBlock z sp.s_log_zone_size 0) fun _ => 0)
      (rip.setZone r₀.slot z) (dataZones sp L rip) := by
  have hpos := Nat.two_pow_pos sp.s_log_zone_size
  have hm := h.zoneRef_zmap hsp hL
  have hok : FileOk sp L' rip := h.zmap hsp hL fun x hx => by
    unfold taken
    rw [hx]
    exact ite_self _
  have hnew := hok.zoneRef_new_root hsp hr₀ (by rw [hm, h0]) hz
    (by rw [hm]; exact h.not_ref hsp hz hu)
  rw [h.dev, hm] at hnew
  refine Remapped.new_indirect h hsp (setZone_eq ..) hi h0 hz hu hnew (fun x hx => ?_)
    (Framed.of_new hsp hL hz hu _)
  rw [used_set hsp hx (hsp.firstBlock_le hz hpos), hL.used x hx]
  rfl

/-- A clear indirect block is entered in the double indirect block. -/
theorem Remapped.new_leaf (h : FileOk sp L rip) (hsp : sp.Ok) (hi : i < NR_INDIRECTS)
    (h0 : zoneRef sp L rip (.leaf i) = NO_ZONE) (hd : zoneRef sp L rip .double ≠ NO_ZONE)
    (hL : ZoneMapped sp L L' (taken sp L z)) (hz : sp.HasZone z) (hu : Fs.used sp L z = false) :
    Remapped sp L rip ((L'.set sp.s_dev (zoneBlock (zoneRef sp L rip .double) sp.s_log_zone_size 0)
        (setInd (L' sp.s_dev (zoneBlock (zoneRef sp L rip .double) sp.s_log_zone_size 0)) i z)).set
        sp.s_dev (zoneBlock z sp.s_log_zone_size 0) fun _ => 0) rip (dataZones sp L rip) ∧
    zoneRef sp ((L'.set sp.s_dev (zoneBlock (zoneRef sp L rip .double) sp.s_log_zone_size 0)
        (setInd (L' sp.s_dev (zoneBlock (zoneRef sp L rip .double) sp.s_log_zone_size 0)) i z)).set
        sp.s_dev (zoneBlock z sp.s_log_zone_size 0) fun _ => 0) rip (.leaf i) = z := by
  have hpos := Nat.two_pow_pos sp.s_log_zone_size
  have hm := h.zoneRef_zmap hsp hL
  have hdz := (h.zone _ hd).1
  have hok : FileOk sp L' rip := h.zmap hsp hL fun x hx => by
    unfold taken
    rw [hx]
    exact ite_self _
  have hnew := hok.zoneRef_new_leaf hsp hi (by rw [hm, h0]) (by rw [hm]; exact hd) hz
    (by rw [hm]; exact h.not_ref hsp hz hu)
  rw [h.dev, hm] at hnew
  refine ⟨Remapped.new_indirect h hsp rfl rfl h0 hz hu hnew (fun x hx => ?_)
    ⟨fun x i hx hi hxu hind => ?_, fun dev b hb => ?_⟩, by rw [hnew, Function.update_self]⟩
  · rw [used_set hsp hx (hsp.firstBlock_le hz hpos), used_set hsp hx (hsp.firstBlock_le hdz hpos),
      hL.used x hx]
    rfl
  · have hne : x ≠ z := fun e => by
      rw [e, hu] at hxu
      exact absurd hxu (by decide)
    rw [set_zoneBlock hsp hx hz hi hpos (Or.inl hne),
      set_zoneBlock hsp hx hdz hi hpos (Or.inl (hind .double rfl).symm),
      hL.area hsp (hsp.firstBlock_le hx hi)]
  · have h₁ := hsp.firstBlock_le hz hpos
    have h₂ := hsp.firstBlock_le hdz hpos
    have hlow : ∀ c, sp.firstBlock ≤ c → ¬(dev = sp.s_dev ∧ b = c) := fun c hc e => by
      rcases hb with hd | ⟨hlt, -⟩
      · exact hd e.1
      · omega
    rw [Contents.set_of_ne (hlow _ h₁), Contents.set_of_ne (hlow _ h₂),
      hL.blocks dev b (hb.imp id And.right)]

/-! ## `write_map` -/

/-- The last of two changes of a block counts. -/
theorem Contents.set_set (L : Contents) (dev b : ℕ) (old new : Block) :
    (L.set dev b old).set dev b new = L.set dev b new := by
  unfold Contents.set
  split_ifs
  · rfl
  · simp only [Function.update_self, Function.update_idem]

/-- A block is set to what it has. -/
theorem Contents.set_same (L : Contents) (dev b : ℕ) : L.set dev b (L dev b) = L := by
  unfold Contents.set
  split_ifs
  · rfl
  · rw [Function.update_eq_self, Function.update_eq_self]

/-- Number of zones that a file can have. -/
abbrev MAX_ZONES : ℕ := NR_DZONE_NUM + NR_INDIRECTS + NR_INDIRECTS * NR_INDIRECTS

/-- The errors for a zone that a file cannot get: the device is full, or the zone has no place in
the map. -/
def NoSpace (k : ℕ) (r : ℤ) : Prop := r = ENOSPC ∨ r = EFBIG ∧ MAX_ZONES ≤ k

/-- A zone has a place in the map, or there is at least the double indirect block. -/
def Placed (sp : SuperBlock) (L : Contents) (rip : Inode) (k : ℕ) : Prop :=
  k < MAX_ZONES ∨ zoneRef sp L rip .double ≠ NO_ZONE

/-- What `write_map` leaves. -/
def MapResult (sp : SuperBlock) (held : Buf → ℕ) (L : Contents) (rip : Inode) (k z : ℕ)
    (w : Written Unit) : Prop :=
  ∃ L', Mounted sp ⟨w.cache, held⟩ L' ∧
    match w.res with
    | .ok _ => Remapped sp L rip L' w.rip (Function.update (dataZones sp L rip) k z)
    | .error r => NoSpace k r ∧ Remapped sp L rip L' w.rip (dataZones sp L rip)

/-- What `write_map` leaves, from what it leaves of a later state. -/
theorem MapResult.after {held : Buf → ℕ} {w : Written Unit} (h : MapResult sp held L' rip' k z w)
    (hr : Remapped sp L rip L' rip' (dataZones sp L rip)) (hsp : sp.Ok) :
    MapResult sp held L rip k z w := by
  have hd : dataZones sp L' rip' = dataZones sp L rip := funext hr.data
  obtain ⟨L'', hm, hw⟩ := h
  refine ⟨L'', hm, ?_⟩
  cases hres : w.res with
  | error r =>
    rw [hres] at hw
    dsimp only at hw ⊢
    rw [hd] at hw
    exact ⟨hw.1, hr.trans hw.2 hsp⟩
  | ok u =>
    rw [hres] at hw
    dsimp only at hw ⊢
    rw [hd] at hw
    exact hr.trans hw hsp

/-- A zone that waits to be entered in a file. -/
structure Waits (sp : SuperBlock) (L : Contents) (rip : Inode) (k z : ℕ) : Prop where
  has : sp.HasZone z
  used : Fs.used sp L z = true
  free : zoneRef sp L rip (.data k) = NO_ZONE
  new : ∀ r, zoneRef sp L rip r ≠ z

/-- It still waits when indirect blocks have been created. -/
theorem Waits.remapped (h : Waits sp L rip k z)
    (hr : Remapped sp L rip L' rip' (dataZones sp L rip)) (hsp : sp.Ok) : Waits sp L' rip' k z where
  has := h.has
  used := (hr.used z h.has).mpr (Or.inl h.used)
  free := (hr.data k).trans h.free
  new r := by
    cases r with
    | data j =>
      rw [hr.data j]
      exact h.new _
    | single => exact hr.not_indirect (hsp.zone_ne h.has) h.used rfl (h.new _)
    | double => exact hr.not_indirect (hsp.zone_ne h.has) h.used rfl (h.new _)
    | leaf i => exact hr.not_indirect (hsp.zone_ne h.has) h.used rfl (h.new _)

/-- The zone is entered in a single indirect block that is there. -/
theorem Mounted.writeSingle_old (h : Mounted sp s L) (hh : Holds sp s.held) (hok : FileOk sp L rip)
    (hsp : sp.Ok) (hw : Waits sp L rip k z) (hp : (Ref.data k).parent = some (p, e))
    (hpz : zoneRef sp L rip p ≠ NO_ZONE) :
    ∃ w, writeSingle s.cache sp rip (zoneRef sp L rip p) false e z = some w ∧
      MapResult sp s.held L rip k z w := by
  obtain ⟨c, he, hm⟩ := h.writeEntry hh hsp.dev
    (zoneBlock (zoneRef sp L rip p) sp.s_log_zone_size 0) false e z
  unfold writeSingle
  rw [if_neg hpz, hok.dev, he]
  exact ⟨_, rfl, _, hm, Remapped.entry hok hsp hp hpz hw.free hw.has hw.used hw.new⟩

/-- The zone is entered in a single indirect block that has been created, and is clear. -/
theorem Mounted.writeSingle_new (h : Mounted sp s L') (hh : Holds sp s.held) (hsp : sp.Ok) {z' : ℕ}
    (hr : Remapped sp L rip (L'.set sp.s_dev (zoneBlock z' sp.s_log_zone_size 0) fun _ => 0) rip'
      (dataZones sp L rip)) (hw : Waits sp L rip k z)
    (hp : (Ref.data k).parent = some (p, e)) (hz' : z' ≠ NO_ZONE)
    (hpz : zoneRef sp (L'.set sp.s_dev (zoneBlock z' sp.s_log_zone_size 0) fun _ => 0) rip' p = z') :
    ∃ w, writeSingle s.cache sp rip' z' true e z = some w ∧ MapResult sp s.held L rip k z w := by
  obtain ⟨c, he, hm⟩ := h.writeEntry hh hsp.dev (zoneBlock z' sp.s_log_zone_size 0) true e z
  have hw' := hw.remapped hr hsp
  have hent := Remapped.entry hr.ok hsp hp (by rw [hpz]; exact hz') hw'.free hw'.has hw'.used hw'.new
  rw [hpz, Contents.set_self hsp.dev, Contents.set_set] at hent
  unfold writeSingle
  rw [if_neg hz', hr.ok.dev, he]
  exact ⟨_, rfl, MapResult.after ⟨_, hm, hent⟩ hr hsp⟩

/-- An indirect block that the inode names, which is created if need be. -/
theorem Mounted.ownIndirect (h : Mounted sp s L) (hok : FileOk sp L rip) (hsp : sp.Ok) {r₀ : Ref}
    (hr₀ : r₀.parent = none) (hi : r₀.indirect = true) :
    ∃ z is_new rip' c L', Fs.ownIndirect s.cache sp rip r₀.slot = some (z, is_new, rip', c) ∧
      Mounted sp ⟨c, s.held⟩ L' ∧
      (z = NO_ZONE ∧ Remapped sp L rip L' rip' (dataZones sp L rip) ∨
        z ≠ NO_ZONE ∧ is_new = false ∧ rip' = rip ∧ L' = L ∧ zoneRef sp L rip r₀ = z ∨
        z ≠ NO_ZONE ∧ is_new = true ∧ zoneRef sp L rip r₀ = NO_ZONE ∧
          Remapped sp L rip (L'.set sp.s_dev (zoneBlock z sp.s_log_zone_size 0) fun _ => 0) rip'
            (dataZones sp L rip) ∧
          zoneRef sp (L'.set sp.s_dev (zoneBlock z sp.s_log_zone_size 0) fun _ => 0) rip' r₀ = z) := by
  have hroot : zoneRef sp L rip r₀ = rip.i_zone r₀.slot := zoneRef_of_root hr₀
  unfold Fs.ownIndirect
  by_cases h0 : rip.i_zone r₀.slot = NO_ZONE
  · obtain ⟨z, c, L', he, -, hm, hz⟩ := h.allocZone hsp (rip.i_zone 0)
    rw [if_neg (not_not.mpr h0), he]
    refine ⟨z, true, rip.setZone r₀.slot z, c, L', rfl, hm, ?_⟩
    rcases hz with ⟨rfl, hL⟩ | ⟨hz, hu, hL⟩
    · have hsame : rip.setZone r₀.slot NO_ZONE = rip := by
        unfold Inode.setZone
        rw [← h0, Function.update_eq_self]
      rw [hsame]
      exact Or.inl ⟨rfl, .of_zmap hok hsp hL⟩
    · have hr := Remapped.new_root hok hsp hr₀ hi (hroot.trans h0) hL hz hu
      refine Or.inr (Or.inr ⟨hsp.zone_ne hz, rfl, hroot.trans h0, hr, ?_⟩)
      rw [zoneRef_of_root hr₀]
      exact Function.update_self ..
  · rw [if_pos h0]
    exact ⟨_, _, _, _, L, rfl, h, Or.inr (Or.inl ⟨h0, rfl, rfl, rfl, hroot⟩)⟩

/-- The double indirect block is got, and cleared if it is new. -/
theorem Mounted.get_indirect (h : Mounted sp s L) (hh : Holds sp s.held) (hsp : sp.Ok) (b : ℕ)
    (is_new : Bool) :
    ∃ bp c, getBlock s.cache sp.s_dev b (if is_new then .NO_READ else .NORMAL) = some (bp, c) ∧
      (if is_new then zeroBlock c bp else c).b_dev bp = sp.s_dev ∧
      (if is_new then zeroBlock c bp else c).b_blocknr bp = b ∧
      Mounted sp ⟨if is_new then zeroBlock c bp else c,
          Function.update s.held bp (s.held bp + 1)⟩
        (if is_new then L.set sp.s_dev b fun _ => 0 else L) := by
  cases is_new with
  | true =>
    obtain ⟨bp, c, he, hd, hb, -, hw⟩ := h.get_write hh hsp.dev b .NO_READ (by decide)
    exact ⟨bp, c, he, hd, hb, hw _⟩
  | false =>
    obtain ⟨bp, c, he, hd, hb, -, hm⟩ := h.get hh hsp.dev b
    exact ⟨bp, c, he, hd, hb, hm⟩

/-- A buffer that has a block of the device has its contents. -/
theorem Mounted.data_eq (h : Mounted sp s L) (hsp : sp.Ok) {bp : Buf} {b : ℕ}
    (hd : s.cache.b_dev bp = sp.s_dev) (hb : s.cache.b_blocknr bp = b) :
    s.cache.b_data bp = L sp.s_dev b := by
  have := (h.faithful.block bp (by rw [hd]; exact hsp.dev) (Set.notMem_empty _)).1
  rwa [hd, hb] at this

/-- The part of `write_map` behind the double indirect block, which is in the buffer `bp`. -/
theorem Mounted.writeLeaf {c : Cache} {held : Buf → ℕ} {bp : Buf}
    (h : Mounted sp ⟨c, Function.update held bp (held bp + 1)⟩ L) (hh : Holds sp held)
    (hok : FileOk sp L rip) (hsp : sp.Ok) (hw : Waits sp L rip k z)
    (hp : (Ref.data k).parent = some (.leaf i, e)) (hi : i < NR_INDIRECTS)
    (hdz : zoneRef sp L rip .double ≠ NO_ZONE) (hd : c.b_dev bp = sp.s_dev)
    (hb : c.b_blocknr bp = zoneBlock (zoneRef sp L rip .double) sp.s_log_zone_size 0) :
    ∃ w, (dblIndirect c sp rip bp i).bind (fun r =>
        Fs.writeSingle (putBlock r.2.2 (some bp) INDIRECT_BLOCK) sp rip r.1 r.2.1 e z) = some w ∧
      MapResult sp held L rip k z w := by
  have hdata := h.data_eq hsp hd hb
  have hleaf : zoneRef sp L rip (.leaf i) = bInd (c.b_data bp) i := by
    rw [zoneRef_of_parent (p := .double) rfl, entry_of_ne hdz, hok.dev, hdata]
  unfold dblIndirect
  rw [← hleaf]
  by_cases h0 : zoneRef sp L rip (.leaf i) = NO_ZONE
  · obtain ⟨z', c', L', he, ⟨hlinks, hdev⟩, hm, hz'⟩ := h.allocZone hsp (rip.i_zone 0)
    rw [if_neg (not_not.mpr h0), he]
    have hd' : c'.b_dev bp = sp.s_dev := by rw [hdev]; exact hd
    have hb' : c'.b_blocknr bp = zoneBlock (zoneRef sp L rip .double) sp.s_log_zone_size 0 := by
      rw [hlinks]
      exact hb
    have hdata' := hm.data_eq hsp hd' hb'
    -- The buffer has the block with the new entry, when it is put.
    have hput : Mounted sp ⟨putBlock (writeBuf c' bp (setInd (c'.b_data bp) i z')) (some bp)
        INDIRECT_BLOCK, held⟩
        (L'.set sp.s_dev (zoneBlock (zoneRef sp L rip .double) sp.s_log_zone_size 0)
          (setInd (L' sp.s_dev (zoneBlock (zoneRef sp L rip .double) sp.s_log_zone_size 0)) i z')) := by
      have hm' := hm.write bp (setInd (c'.b_data bp) i z')
      dsimp only at hm' hdata'
      rw [hd', hb'] at hm'
      have := hm'.put indirect_plain
      rwa [← hdata']
    rcases hz' with ⟨rfl, hL⟩ | ⟨hz', hu, hL⟩
    · -- No space for the single indirect block: its entry is as it was.
      have hz0 : bInd (L' sp.s_dev (zoneBlock (zoneRef sp L rip .double) sp.s_log_zone_size 0)) i =
          NO_ZONE := by
        rw [hL.area hsp (hsp.firstBlock_le (hok.zone _ hdz).1 (Nat.two_pow_pos _)), ← hdata,
          ← hleaf, h0]
      have hsame := setInd_same
        (L' sp.s_dev (zoneBlock (zoneRef sp L rip .double) sp.s_log_zone_size 0)) hi
      rw [hz0] at hsame
      rw [hsame, Contents.set_same] at hput
      exact ⟨⟨.error ENOSPC, rip, _⟩, rfl, L', hput, Or.inl rfl, .of_zmap hok hsp hL⟩
    · obtain ⟨hr, hzr⟩ := Remapped.new_leaf hok hsp hi h0 hdz hL hz' hu
      exact hput.writeSingle_new hh hsp hr hw hp (hsp.zone_ne hz') hzr
  · rw [if_pos h0]
    exact (h.put indirect_plain).writeSingle_old hh hok hsp hw hp h0

/-- A zone of the file itself in the single indirect block. -/
theorem Ref.parent_single (hk : ¬k < NR_DZONE_NUM) (hi : k - NR_DZONE_NUM < NR_INDIRECTS) :
    (Ref.data k).parent = some (.single, k - NR_DZONE_NUM) := by
  rw [Ref.parent_data, if_neg hk, if_pos hi]

/-- A zone of the file itself in a single indirect block that the double one names. -/
theorem Ref.parent_leaf (hk : ¬k < NR_DZONE_NUM) (hi : ¬k - NR_DZONE_NUM < NR_INDIRECTS) :
    (Ref.data k).parent =
      some (.leaf ((k - NR_DZONE_NUM - NR_INDIRECTS) / NR_INDIRECTS),
        (k - NR_DZONE_NUM - NR_INDIRECTS) % NR_INDIRECTS) := by
  rw [Ref.parent_data, if_neg hk, if_neg hi]

/-- The part of `write_map` for the double indirect block, when it is there. -/
theorem Mounted.writeDouble_old (h : Mounted sp s L) (hh : Holds sp s.held) (hok : FileOk sp L rip)
    (hsp : sp.Ok) (hw : Waits sp L rip k z) (hi : i / NR_INDIRECTS < NR_INDIRECTS)
    (hp : (Ref.data k).parent = some (.leaf (i / NR_INDIRECTS), i % NR_INDIRECTS))
    (hdz : zoneRef sp L rip .double ≠ NO_ZONE) :
    ∃ w, writeDouble s.cache sp rip (zoneRef sp L rip .double) false i z = some w ∧
      MapResult sp s.held L rip k z w := by
  obtain ⟨bp, c, he, hd, hb, hm⟩ := h.get_indirect hh hsp
    (zoneBlock (zoneRef sp L rip .double) sp.s_log_zone_size 0) false
  obtain ⟨w, hl, hres⟩ := hm.writeLeaf hh hok hsp hw hp hi hdz hd hb
  refine ⟨w, ?_, hres⟩
  unfold writeDouble
  rw [if_neg hdz, if_neg (not_le.mpr hi), hok.dev, he]
  exact hl

/-- The part of `write_map` for the double indirect block, when it has been created. -/
theorem Mounted.writeDouble_new (h : Mounted sp s L') (hh : Holds sp s.held) (hsp : sp.Ok) {z' : ℕ}
    (hr : Remapped sp L rip (L'.set sp.s_dev (zoneBlock z' sp.s_log_zone_size 0) fun _ => 0) rip'
      (dataZones sp L rip)) (hw : Waits sp L rip k z) (hi : i / NR_INDIRECTS < NR_INDIRECTS)
    (hp : (Ref.data k).parent = some (.leaf (i / NR_INDIRECTS), i % NR_INDIRECTS))
    (hz' : z' ≠ NO_ZONE)
    (hdz : zoneRef sp (L'.set sp.s_dev (zoneBlock z' sp.s_log_zone_size 0) fun _ => 0) rip' .double =
      z') :
    ∃ w, writeDouble s.cache sp rip' z' true i z = some w ∧ MapResult sp s.held L rip k z w := by
  obtain ⟨bp, c, he, hd, hb, hm⟩ := h.get_indirect hh hsp (zoneBlock z' sp.s_log_zone_size 0) true
  simp only [if_true] at hd hb hm
  obtain ⟨w, hl, hres⟩ := hm.writeLeaf hh hr.ok hsp (hw.remapped hr hsp) hp hi
    (by rw [hdz]; exact hz') hd (by rw [hdz]; exact hb)
  refine ⟨w, ?_, hres.after hr hsp⟩
  unfold writeDouble
  rw [if_neg hz', if_neg (not_le.mpr hi), hr.ok.dev, he]
  exact hl

/-- The part of `write_map` for the double indirect block, when that has no place for the zone. -/
theorem Mounted.writeDouble_big (h : Mounted sp s L) (hok : FileOk sp L rip) (hsp : sp.Ok)
    (hi : ¬i / NR_INDIRECTS < NR_INDIRECTS) (hk : MAX_ZONES ≤ k)
    (hdz : zoneRef sp L rip .double ≠ NO_ZONE) :
    ∃ w, writeDouble s.cache sp rip (zoneRef sp L rip .double) false i z = some w ∧
      MapResult sp s.held L rip k z w := by
  refine ⟨⟨.error EFBIG, rip, s.cache⟩, ?_, L, h, Or.inr ⟨rfl, hk⟩, .refl hok hsp⟩
  unfold writeDouble
  rw [if_neg hdz, if_pos (not_lt.mp hi)]

/-- `write_map` enters a zone in the map of a file, unless it finds no space for an indirect block,
or no place. -/
theorem Mounted.writeMap (h : Mounted sp s L) (hh : Holds sp s.held) (hok : FileOk sp L rip)
    (hsp : sp.Ok) {position : ℕ} (hw : Waits sp L rip (sp.zoneOf position) z)
    (hk : Placed sp L rip (sp.zoneOf position)) :
    ∃ w, Fs.writeMap s.cache sp rip position z = some w ∧
      MapResult sp s.held L rip (sp.zoneOf position) z w := by
  unfold Fs.writeMap
  dsimp only
  show ∃ w, (if h : sp.zoneOf position < NR_DZONE_NUM then _ else _) = _ ∧ _
  by_cases hdir : sp.zoneOf position < NR_DZONE_NUM
  · rw [dif_pos hdir]
    exact ⟨_, rfl, L, h, Remapped.root hok hsp hdir hw.free hw.has hw.used hw.new⟩
  rw [dif_neg hdir]
  show ∃ w, (if sp.zoneOf position - NR_DZONE_NUM < NR_INDIRECTS then _ else _) = _ ∧ _
  by_cases hsingle : sp.zoneOf position - NR_DZONE_NUM < NR_INDIRECTS
  · have hp := Ref.parent_single hdir hsingle
    obtain ⟨z', is_new, rip', c, L', he, hm, hz'⟩ := h.ownIndirect hok hsp
      (show Ref.single.parent = none from rfl) rfl
    have he : Fs.ownIndirect s.cache sp rip 7 = some (z', is_new, rip', c) := he
    rw [if_pos hsingle, he]
    rcases hz' with ⟨rfl, hr⟩ | ⟨hz, rfl, rfl, rfl, hzr⟩ | ⟨hz, rfl, hzero, hr, hzr⟩
    · exact ⟨⟨.error ENOSPC, rip', c⟩, rfl, L', hm, Or.inl rfl, hr⟩
    · obtain ⟨w, hs, hres⟩ := hm.writeSingle_old hh hok hsp hw hp (by rwa [hzr])
      rw [hzr] at hs
      exact ⟨w, hs, hres⟩
    · exact hm.writeSingle_new hh hsp hr hw hp hz hzr
  · have hp := Ref.parent_leaf hdir hsingle
    have hi : (sp.zoneOf position - NR_DZONE_NUM - NR_INDIRECTS) / NR_INDIRECTS < NR_INDIRECTS ↔
        sp.zoneOf position < MAX_ZONES := by
      have hdir : ¬sp.zoneOf position < 7 := hdir
      have hsingle : ¬sp.zoneOf position - 7 < 512 := hsingle
      rw [Nat.div_lt_iff_lt_mul (by decide)]
      show sp.zoneOf position - 7 - 512 < 512 * 512 ↔ sp.zoneOf position < 7 + 512 + 512 * 512
      omega
    obtain ⟨z', is_new, rip', c, L', he, hm, hz'⟩ := h.ownIndirect hok hsp
      (show Ref.double.parent = none from rfl) rfl
    have he : Fs.ownIndirect s.cache sp rip 8 = some (z', is_new, rip', c) := he
    rw [if_neg hsingle, he]
    rcases hz' with ⟨rfl, hr⟩ | ⟨hz, rfl, rfl, rfl, hzr⟩ | ⟨hz, rfl, hzero, hr, hzr⟩
    · exact ⟨⟨.error ENOSPC, rip', c⟩, rfl, L', hm, Or.inl rfl, hr⟩
    · rw [← hzr] at hz ⊢
      by_cases hlt : sp.zoneOf position < MAX_ZONES
      · exact hm.writeDouble_old hh hok hsp hw (hi.mpr hlt) hp hz
      · exact hm.writeDouble_big hok hsp (mt hi.mp hlt) (not_lt.mp hlt) hz
    · have hlt := hk.resolve_right (not_not.mpr hzero)
      exact hm.writeDouble_new hh hsp hr hw (hi.mpr hlt) hp hz hzr

end Minix.Fs
