import Minix.Lib.Run
import Minix.Fs.ByteArray

/-!
# What is entered is found

`write_map` and `read_map` go down the same indirect blocks. In a run of zones that are allocated,
given back, entered in a file and looked up, the zone that was entered last at a position is the one
that is found there, and the others stay (`write_map_agrees`). When no zone is left for an indirect
block, the double indirect block may have been created in vain, but nothing that is found changes.
-/

namespace Minix.Fs

open Lib

variable {sp : SuperBlock} {s : Session} {L L' : Contents} {rip : Inode} {held : Buf → ℕ}
  {position pos z k : ℕ} {p : Ref} {e : ℕ}

/-! ## A zone in the place of another one -/

/-- A place of a zone of the file has a zone only if its indirect block is there. -/
theorem parent_ne (hp : (Ref.data k).parent = some (p, e))
    (hold : zoneRef sp L rip (.data k) ≠ NO_ZONE) : zoneRef sp L rip p ≠ NO_ZONE := by
  intro hno
  rw [zoneRef_of_parent hp, hno, entry_zero] at hold
  exact hold rfl

/-- What `write_map` leaves when it puts a zone in the place of another. -/
def Replaced (sp : SuperBlock) (held : Buf → ℕ) (L : Contents) (rip : Inode) (k z : ℕ)
    (w : Written Unit) : Prop :=
  w.res = .ok () ∧ ∃ L', Mounted sp ⟨w.cache, held⟩ L' ∧ FileOk sp L' w.rip ∧
    zoneRef sp L' w.rip = Function.update (zoneRef sp L rip) (.data k) z

/-- The entry of a single indirect block that is there. -/
theorem Mounted.replaceSingle (h : Mounted sp s L) (hh : Holds sp s.held) (hok : FileOk sp L rip)
    (hsp : sp.Ok) (hz : sp.HasZone z) (hu : used sp L z = true) (hnew : ∀ r, zoneRef sp L rip r ≠ z)
    (hp : (Ref.data k).parent = some (p, e)) (hpz : zoneRef sp L rip p ≠ NO_ZONE) :
    ∃ w, writeSingle s.cache sp rip (zoneRef sp L rip p) false e z = some w ∧
      Replaced sp s.held L rip k z w := by
  have hpos := Nat.two_pow_pos sp.s_log_zone_size
  have hz16 : z < 65536 := lt_of_lt_of_le hz.2
    ((Nat.le_mul_of_pos_right _ hpos).trans hsp.small.le)
  have he : e < NR_INDIRECTS := by
    rcases Ref.parent_cases hp with ⟨-, e⟩ | ⟨-, he, -⟩ | ⟨i, -, he, -⟩
    · exact Ref.noConfusion e
    · exact he
    · exact he
  have hfirst := hsp.firstBlock_le (hok.zone p hpz).1 hpos
  obtain ⟨c, hc, hm⟩ := h.writeEntry hh hsp.dev
    (zoneBlock (zoneRef sp L rip p) sp.s_log_zone_size 0) false e z
  have hmap := hok.zoneRef_entry hsp hp rfl hpz hz16 he
  rw [hok.dev] at hmap
  refine ⟨⟨.ok (), rip, c⟩, ?_, rfl, _, hm, ?_, hmap⟩
  · unfold writeSingle
    rw [if_neg hpz, hok.dev, hc]
    rfl
  · refine hok.update rfl hmap hz hnew ?_ fun x hx hux => ?_
    · rw [used_set hsp hz hfirst, hu]
    · rw [used_set hsp hx hfirst, hux]

/-- `write_map` at a position that has a zone. -/
theorem Mounted.replaceMap (h : Mounted sp s L) (hh : Holds sp s.held) (hok : FileOk sp L rip)
    (hsp : sp.Ok) (hz : sp.HasZone z) (hu : used sp L z = true) (hnew : ∀ r, zoneRef sp L rip r ≠ z)
    (hk : sp.zoneOf position < MAX_ZONES)
    (hold : zoneRef sp L rip (.data (sp.zoneOf position)) ≠ NO_ZONE) :
    ∃ w, Fs.writeMap s.cache sp rip position z = some w ∧
      Replaced sp s.held L rip (sp.zoneOf position) z w := by
  unfold Fs.writeMap
  dsimp only
  show ∃ w, (if h : sp.zoneOf position < NR_DZONE_NUM then _ else _) = _ ∧ _
  by_cases hdir : sp.zoneOf position < NR_DZONE_NUM
  · rw [dif_pos hdir]
    have hslot : (Ref.data (sp.zoneOf position)).slot = ⟨sp.zoneOf position, hdir.trans (by decide)⟩ :=
      dif_pos hdir
    have hmap : zoneRef sp L (rip.setZone (Ref.data (sp.zoneOf position)).slot z) =
        Function.update (zoneRef sp L rip) (.data (sp.zoneOf position)) z := zoneRef_root (if_pos hdir) rfl
    rw [hslot] at hmap
    exact ⟨_, rfl, rfl, L, h, hok.update rfl hmap hz hnew hu fun _ _ hux => hux, hmap⟩
  rw [dif_neg hdir]
  show ∃ w, (if sp.zoneOf position - NR_DZONE_NUM < NR_INDIRECTS then _ else _) = _ ∧ _
  by_cases hsingle : sp.zoneOf position - NR_DZONE_NUM < NR_INDIRECTS
  · have hp := Ref.parent_single hdir hsingle
    have hpz := parent_ne hp hold
    have hroot : zoneRef sp L rip .single = rip.i_zone 7 := rfl
    obtain ⟨w, hw, hres⟩ := h.replaceSingle hh hok hsp hz hu hnew hp hpz
    refine ⟨w, ?_, hres⟩
    rw [hroot] at hpz hw
    have hown : Fs.ownIndirect s.cache sp rip 7 = some (rip.i_zone 7, false, rip, s.cache) :=
      if_pos hpz
    rw [if_pos hsingle, hown]
    exact hw
  · have hp := Ref.parent_leaf hdir hsingle
    have hpz := parent_ne hp hold
    have hdz : zoneRef sp L rip .double ≠ NO_ZONE := by
      intro hno
      rw [zoneRef_of_parent (p := .double) rfl, hno, entry_zero] at hpz
      exact hpz rfl
    have hroot : zoneRef sp L rip .double = rip.i_zone 8 := rfl
    have hi : (sp.zoneOf position - NR_DZONE_NUM - NR_INDIRECTS) / NR_INDIRECTS < NR_INDIRECTS := by
      have hdir : ¬sp.zoneOf position < 7 := hdir
      have hk : sp.zoneOf position < 7 + 512 + 512 * 512 := hk
      rw [Nat.div_lt_iff_lt_mul (by decide)]
      show sp.zoneOf position - 7 - 512 < 512 * 512
      omega
    obtain ⟨bp, c, hget, hd, hb, hm⟩ := h.get_indirect hh hsp
      (zoneBlock (zoneRef sp L rip .double) sp.s_log_zone_size 0) false
    have hdata := hm.data_eq hsp hd hb
    have hleaf : bInd (c.b_data bp) ((sp.zoneOf position - NR_DZONE_NUM - NR_INDIRECTS) / NR_INDIRECTS) =
        zoneRef sp L rip (.leaf ((sp.zoneOf position - NR_DZONE_NUM - NR_INDIRECTS) / NR_INDIRECTS)) := by
      rw [zoneRef_of_parent (p := .double) rfl, entry_of_ne hdz, hok.dev]
      exact congrArg (bInd · _) hdata
    have hput : Mounted sp ⟨putBlock c (some bp) INDIRECT_BLOCK, s.held⟩ L := hm.put indirect_plain
    obtain ⟨w, hw, hres⟩ := hput.replaceSingle hh hok hsp hz hu hnew hp hpz
    refine ⟨w, ?_, hres⟩
    have hown : Fs.ownIndirect s.cache sp rip 8 =
        some (zoneRef sp L rip .double, false, rip, s.cache) := if_pos hdz
    have hdbl : dblIndirect c sp rip bp
        ((sp.zoneOf position - NR_DZONE_NUM - NR_INDIRECTS) / NR_INDIRECTS) =
        some (zoneRef sp L rip
          (.leaf ((sp.zoneOf position - NR_DZONE_NUM - NR_INDIRECTS) / NR_INDIRECTS)), false, c) := by
      unfold dblIndirect
      rw [hleaf, if_pos hpz]
    have hdouble : writeDouble s.cache sp rip (zoneRef sp L rip .double) false
        (sp.zoneOf position - NR_DZONE_NUM - NR_INDIRECTS) z = some w := by
      unfold writeDouble
      rw [if_neg hdz, if_neg (not_le.mpr hi), hok.dev, hget, Option.bind_eq_bind, Option.bind_some]
      dsimp only
      simp only [Bool.false_eq_true, if_false]
      rw [hdbl, Option.bind_eq_bind, Option.bind_some]
      exact hw
    rw [if_neg hsingle, hown]
    exact hdouble

/-! ## Runs -/

/-- A file and the cache. -/
structure MapState where
  cache : Cache
  rip : Inode

/-- The file is one of the device, which is mounted. -/
def IsMapped (sp : SuperBlock) (held : Buf → ℕ) (m : MapState) (L : Contents) : Prop :=
  Mounted sp ⟨m.cache, held⟩ L ∧ FileOk sp L m.rip

/-- A zone that is in use, but not for the file. -/
def Offered (sp : SuperBlock) (held : Buf → ℕ) (m : MapState) (z : ℕ) : Prop :=
  sp.HasZone z ∧ ∃ L, IsMapped sp held m L ∧ used sp L z = true ∧ ∀ r, zoneRef sp L m.rip r ≠ z

/-- What is done to files. -/
inductive MapAct
  | allocZone (near : ℕ)
  | freeZone (z : ℕ)
  | readMap (position : ℕ)
  | writeMap (position z : ℕ)

/-- A zone is allocated or given back, or a position is looked up or gets a zone. -/
inductive MapStep (sp : SuperBlock) (held : Buf → ℕ) (m : MapState) : MapAct → MapState → Prop
  | allocZone {near z : ℕ} {c : Cache} (he : allocZone m.cache sp near = some (z, c)) :
      MapStep sp held m (.allocZone near) ⟨c, m.rip⟩
  | freeZone {z : ℕ} (hz : Offered sp held m z) :
      MapStep sp held m (.freeZone z) ⟨freeZone m.cache sp z, m.rip⟩
  | readMap {position b : ℕ} {c : Cache}
      (he : readMap m.cache m.rip sp.s_log_zone_size position = some (b, c)) :
      MapStep sp held m (.readMap position) ⟨c, m.rip⟩
  | writeMap {position z : ℕ} {w : Written Unit} (hz : Offered sp held m z)
      (hk : sp.zoneOf position < MAX_ZONES) (he : writeMap m.cache sp m.rip position z = some w) :
      MapStep sp held m (.writeMap position z) ⟨w.cache, w.rip⟩

/-- What `read_map` returns. -/
def blockRead (sp : SuperBlock) (m : MapState) (position : ℕ) : Option ℕ :=
  (readMap m.cache m.rip sp.s_log_zone_size position).map Prod.fst

variable {m m' : MapState} {a : MapAct} {w : Written Unit}

theorem IsMapped.blockRead (h : IsMapped sp held m L) (hh : Holds sp held) (hsp : sp.Ok) (pos : ℕ) :
    blockRead sp m pos = some (blockAt sp L m.rip pos) := by
  have hdev : m.rip.i_dev ≠ NO_DEV := by
    rw [h.2.dev]
    exact hsp.dev
  obtain ⟨c, he, -⟩ := h.1.readMap hh hdev pos
  unfold Fs.blockRead
  rw [he]
  rfl

/-- What `write_map` leaves: the zone is entered at the position, or there was no space. -/
theorem IsMapped.writeMap (h : IsMapped sp held m L) (hh : Holds sp held) (hsp : sp.Ok)
    (hz : sp.HasZone z) (hu : used sp L z = true) (hnew : ∀ r, zoneRef sp L m.rip r ≠ z)
    (hk : sp.zoneOf position < MAX_ZONES) :
    ∃ w, Fs.writeMap m.cache sp m.rip position z = some w ∧ ∃ L', IsMapped sp held ⟨w.cache, w.rip⟩ L' ∧
      (w.res = .ok () ∧ dataZones sp L' w.rip =
          Function.update (dataZones sp L m.rip) (sp.zoneOf position) z ∨
        w.res = .error ENOSPC ∧ dataZones sp L' w.rip = dataZones sp L m.rip) := by
  obtain ⟨hm, hok⟩ := h
  have hh' : Holds sp (Session.mk m.cache held).held := hh
  by_cases hfree : zoneRef sp L m.rip (.data (sp.zoneOf position)) = NO_ZONE
  · obtain ⟨w, he, L', hm', hres⟩ := hm.writeMap hh' hok hsp ⟨hz, hu, hfree, hnew⟩ (Or.inl hk)
    refine ⟨w, he, L', ?_⟩
    cases hw : w.res with
    | ok u =>
      rw [hw] at hres
      exact ⟨⟨hm', hres.ok⟩, Or.inl ⟨rfl, funext hres.data⟩⟩
    | error r =>
      rw [hw] at hres
      obtain ⟨hno, hr⟩ := hres
      rcases hno with rfl | ⟨-, hbig⟩
      · exact ⟨⟨hm', hr.ok⟩, Or.inr ⟨rfl, funext hr.data⟩⟩
      · omega
  · obtain ⟨w, he, hw, L', hm', hok', hmap⟩ := hm.replaceMap hh' hok hsp hz hu hnew hk hfree
    refine ⟨w, he, L', ⟨hm', hok'⟩, Or.inl ⟨hw, funext fun k => ?_⟩⟩
    unfold dataZones Function.update
    rw [hmap]
    simp only [Function.update, Ref.data.injEq, eq_rec_constant]

/-- A file goes on to be one of the device. -/
theorem IsMapped.step (h : IsMapped sp held m L) (hh : Holds sp held) (hsp : sp.Ok)
    (hst : MapStep sp held m a m') : ∃ L', IsMapped sp held m' L' := by
  have hh' : Holds sp (Session.mk m.cache held).held := hh
  cases hst with
  | @allocZone near z c he =>
    obtain ⟨z', c', L', he', -, hm, hz⟩ := h.1.allocZone hsp near
    obtain ⟨rfl, rfl⟩ := Prod.mk.inj (Option.some.inj (he.symm.trans he'))
    rcases hz with ⟨-, hL⟩ | ⟨hz, hu, hL⟩
    · exact ⟨L', hm, h.2.zmap hsp hL fun _ hx => hx⟩
    · refine ⟨L', hm, h.2.zmap hsp hL fun x hx => ?_⟩
      rw [hx]
      exact ite_self _
  | @freeZone z hz =>
    obtain ⟨hhas, L₁, ⟨hm₁, hok₁⟩, hu, hnew⟩ := hz
    obtain ⟨L', hm, hL⟩ := hm₁.freeZone hsp hhas
    refine ⟨L', hm, hok₁.congr rfl (hok₁.zoneRef_zmap hsp hL) fun r hr => ?_⟩
    obtain ⟨hhas', hu'⟩ := hok₁.zone r hr
    rw [hL.used _ hhas', if_neg (hnew r), hu']
  | @readMap position b c he =>
    have hdev : m.rip.i_dev ≠ NO_DEV := by
      rw [h.2.dev]
      exact hsp.dev
    obtain ⟨c', he', hm⟩ := h.1.readMap hh' hdev position
    obtain ⟨-, rfl⟩ := Prod.mk.inj (Option.some.inj (he.symm.trans he'))
    exact ⟨L, hm, h.2⟩
  | @writeMap position z w hz hk he =>
    obtain ⟨hhas, L₁, hmap, hu, hnew⟩ := hz
    obtain ⟨w', he', L', hmap', -⟩ := hmap.writeMap hh hsp hhas hu hnew hk
    obtain rfl := Option.some.inj (he.symm.trans he')
    exact ⟨L', hmap'⟩

/-- The block of a position, when its zone is known. -/
theorem blockAt_congr {L' : Contents} {rip' : Inode}
    (hz : dataZones sp L' rip' (sp.zoneOf pos) = dataZones sp L rip (sp.zoneOf pos)) :
    blockAt sp L' rip' pos = blockAt sp L rip pos := by
  unfold dataZones at hz
  unfold blockAt
  rw [hz]

/-- A position is in its zone. -/
theorem boff_lt (sp : SuperBlock) (pos : ℕ) : sp.boff pos < 2 ^ sp.s_log_zone_size := by
  unfold SuperBlock.boff SuperBlock.zoneOf
  rw [Nat.shiftLeft_eq, Nat.shiftRight_eq_div_pow, Nat.mul_comm, ← Nat.mod_eq_sub]
  exact Nat.mod_lt _ (Nat.two_pow_pos _)

theorem blockAt_of_zone (hsp : sp.Ok) (hz : sp.HasZone z)
    (he : dataZones sp L rip (sp.zoneOf pos) = z) :
    blockAt sp L rip pos = z * 2 ^ sp.s_log_zone_size + sp.boff pos := by
  unfold dataZones at he
  unfold blockAt
  rw [he, if_neg (hsp.zone_ne hz), hsp.zoneBlock_eq hz (boff_lt sp pos)]

/-- In every run, `write_map` of a zone that is in use for nothing else either enters it, so that
`read_map` finds its blocks at all positions of the zone and what it found before at all others; or
there is no space for an indirect block, and `read_map` finds what it found before. -/
theorem write_map_agrees (hh : Holds sp held) (hsp : sp.Ok)
    (h : Reachable (fun m => ∃ L, IsMapped sp held m L) (MapStep sp held) m)
    (hz : Offered sp held m z) (hk : sp.zoneOf position < MAX_ZONES) :
    ∃ w, writeMap m.cache sp m.rip position z = some w ∧
      (∀ pos, sp.zoneOf pos < MAX_ZONES → blockRead sp m pos ≠ none) ∧
      (w.res = .ok () ∧ (∀ pos, sp.zoneOf pos < MAX_ZONES → blockRead sp ⟨w.cache, w.rip⟩ pos =
          if sp.zoneOf pos = sp.zoneOf position then some (z * 2 ^ sp.s_log_zone_size + sp.boff pos)
          else blockRead sp m pos) ∨
        w.res = .error ENOSPC ∧ ∀ pos, sp.zoneOf pos < MAX_ZONES →
          blockRead sp ⟨w.cache, w.rip⟩ pos = blockRead sp m pos) := by
  obtain ⟨L₀, h₀⟩ : ∃ L, IsMapped sp held m L :=
    h.invariant (P := fun m => ∃ L, IsMapped sp held m L) (fun _ => id)
      fun _ _ _ ⟨_, hm⟩ hst => hm.step hh hsp hst
  obtain ⟨hhas, L, hmap, hu, hnew⟩ := hz
  obtain ⟨w, he, L', hmap', hres⟩ := hmap.writeMap hh hsp hhas hu hnew hk
  refine ⟨w, he, fun pos _ => ?_, hres.imp (fun ⟨hw, hdata⟩ => ⟨hw, fun pos _ => ?_⟩)
    fun ⟨hw, hdata⟩ => ⟨hw, fun pos _ => ?_⟩⟩
  · rw [h₀.blockRead hh hsp]
    exact Option.some_ne_none _
  · rw [hmap'.blockRead hh hsp, hmap.blockRead hh hsp]
    have hzone := congrFun hdata (sp.zoneOf pos)
    split_ifs with hpos
    · rw [hpos, Function.update_self, ← hpos] at hzone
      rw [blockAt_of_zone hsp hhas hzone]
    · rw [Function.update_of_ne hpos] at hzone
      rw [blockAt_congr hzone]
  · rw [hmap'.blockRead hh hsp, hmap.blockRead hh hsp, blockAt_congr (congrFun hdata _)]

/-- The first zone of the small device is entered in the empty file behind the zones that the inode
has itself, so that a single indirect block is created. -/
theorem write_map_agrees_small : ∃ c w, writeMap c smallSuper (smallFile c).rip 8192 4 = some w ∧
    w.res = .ok () ∧ blockRead smallSuper ⟨w.cache, w.rip⟩ 8200 = some 4 ∧
    blockRead smallSuper ⟨w.cache, w.rip⟩ 9216 = blockRead smallSuper ⟨c, (smallFile c).rip⟩ 9216 := by
  have hrun : ((getBlock smallCache 1 3 .NORMAL).bind fun p =>
      (allocZone p.2 smallSuper 4).bind fun q =>
      (writeMap q.2 smallSuper (smallFile q.2).rip 8192 4).map fun w =>
        (p.1, q.1, decide (w.res = .ok ()))) = some (0, 4, true) := by
    decide +kernel
  simp only [Option.bind_eq_some_iff, Option.map_eq_some_iff, Prod.mk.injEq, decide_eq_true_eq] at hrun
  obtain ⟨⟨bp, c⟩, hc, ⟨z, c₁⟩, hz, w, hw, rfl, rfl, hres⟩ := hrun
  obtain ⟨-, L, hf⟩ := (smallFile_start hc).keeps
  have hsp := smallSuper_ok
  obtain ⟨z', c', L', he, -, hm, hcase⟩ := hf.mounted.allocZone hsp 4
  obtain ⟨rfl, rfl⟩ := Prod.mk.inj (Option.some.inj (hz.symm.trans he))
  rcases hcase with ⟨hno, -⟩ | ⟨hhas, hu, hL⟩
  · exact absurd hno (by decide)
  -- The zone that has just been allocated is in use, but not for the file.
  have hmap : IsMapped smallSuper smallHeld ⟨c₁, (smallFile c).rip⟩ L' := by
    refine ⟨hm, hf.ok.zmap hsp hL fun x hx => ?_⟩
    rw [hx]
    exact ite_self _
  have hoffer : Offered smallSuper smallHeld ⟨c₁, (smallFile c).rip⟩ 4 := by
    refine ⟨hhas, L', hmap, ?_, fun r => ?_⟩
    · rw [hL.used 4 hhas, if_pos rfl]
    · rw [hf.ok.zoneRef_zmap hsp hL]
      exact hf.ok.not_ref hsp hhas hu r
  obtain ⟨w', hw', -, hok | hfull⟩ := write_map_agrees smallHeld_holds hsp (Reachable.of_init ⟨L', hmap⟩)
    hoffer (show smallSuper.zoneOf 8192 < MAX_ZONES by decide)
  · obtain rfl := Option.some.inj (hw.symm.trans hw')
    refine ⟨c₁, w, hw, hres, ?_, ?_⟩
    · exact (hok.2 8200 (by decide)).trans (if_pos (by decide))
    · exact (hok.2 9216 (by decide)).trans (if_neg (by decide))
  · obtain rfl := Option.some.inj (hw.symm.trans hw')
    rw [hfull.1] at hres
    exact absurd hres (by simp)

end Minix.Fs
