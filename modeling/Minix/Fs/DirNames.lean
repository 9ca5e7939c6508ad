import Minix.Fs.DirMap
import Minix.Fs.InodeTable

/-!
# Directories of the inode table are those on the disk

A search of a directory in the inode table does what a search of its blocks does
(`IsDir.sameSearch`), and so do any number of them (`searchRun_same`). The slots are compared as far
as there are blocks: behind the last of them an entry means nothing.
-/

namespace Minix.Fs

/-- A directory of the inode table is one of a mounted device. -/
structure SameDir (sp : SuperBlock) (s_rd_only : Bool) (L : Contents) (dir : OwnedInode)
    (slots : ℕ) (s : Names) (rip : InodePtr) : Prop where
  rights : SameRights dir (s.inode rip).owned
  size : (s.inode rip).i_size = dir.i_size
  rd_only : rdOnly s (s.inode rip).i_dev = s_rd_only
  entry : ∀ k, k / NR_DIR_ENTRIES * NR_DIR_ENTRIES < slots →
    s.entries rip k = dirEntry sp L dir.toInode k

/-- A search has the same result in the inode table as on the disk, and leaves the same directory.
-/
def SameSearch (sp : SuperBlock) (held : Buf → ℕ) (s_rd_only : Bool) (rip : InodePtr)
    (flag : DirFlag) (res : Searched) (found : Found) : Prop :=
  found.r = res.r ∧ (flag = .LOOK_UP → found.r = OK → found.numb = res.numb) ∧
    ∃ L slots, IsDir sp held res.cache L res.ldir_ptr.toInode slots ∧
      SameDir sp s_rd_only L res.ldir_ptr slots found.names rip

/-- Searches of a directory, one after the other. -/
def searchRun (s_rd_only : Bool) (sp : SuperBlock) :
    Cache → OwnedInode → List DirAct → Option (List Searched)
  | _, _, [] => some []
  | c, dir, a :: acts =>
    (searchDir a.fp s_rd_only sp c dir a.string a.numb a.flag).bind fun res =>
      (searchRun s_rd_only sp res.cache res.ldir_ptr acts).map (res :: ·)

/-- The same searches in the inode table, each with what blocks are free. -/
def foundRun (rip : InodePtr) : Names → List (DirAct × (ℕ → Bool)) → List Found
  | _, [] => []
  | s, act :: acts =>
    let found := searchSlots { s with room := act.2 } act.1.fp rip act.1.string act.1.numb act.1.flag
    found :: foundRun rip found.names acts

variable {sp : SuperBlock} {held : Buf → ℕ} {s_rd_only : Bool} {c c' : Cache} {L : Contents}
  {dir : OwnedInode} {slots k k' j numb : ℕ} {s : Names} {rip : InodePtr} {flag : DirFlag}
  {string : Name} {fp : Caller} {entry entry' : ℕ → DirEntry} {res : Searched}

theorem hunt_congr (h : ∀ k < reach slots, entry k = entry' k) :
    hunt entry flag string slots = hunt entry' flag string slots := by
  cases hhunt : hunt entry' flag string slots with
  | none =>
    refine hunt_none.mpr fun k hk => ?_
    rw [h k hk]
    exact hunt_none.mp hhunt k hk
  | some k =>
    obtain ⟨hk, hwant, hbefore⟩ := hunt_some hhunt
    unfold hunt huntFrom
    rw [← List.range_eq_range']
    refine List.find?_range_eq_some.mpr ⟨by rwa [h k hk], List.mem_range.mpr hk, fun j hj => ?_⟩
    rw [h j (hj.trans hk), hbefore j hj]
    rfl

theorem SameDir.slots_eq (h : SameDir sp s_rd_only L dir slots s rip)
    (hd : IsDir sp held c L dir.toInode slots) : s.slots rip = slots := by
  unfold Names.slots
  rw [h.size, hd.size, Nat.mul_div_cancel_left _ (by decide)]
  exact Nat.mod_eq_of_lt hd.small

/-- The slots that are seen have blocks. -/
theorem seen_block (hs : slots < 65536) (hk : k < reach slots) :
    k / NR_DIR_ENTRIES * NR_DIR_ENTRIES < slots := by
  show k / 64 * 64 < slots
  rcases reach_cases hs with ⟨hr, -⟩ | ⟨hr, rfl⟩ <;> omega

theorem SameDir.hunt (h : SameDir sp s_rd_only L dir slots s rip) (hs : slots < 65536) :
    hunt (s.entries rip) flag string slots = hunt (dirEntry sp L dir.toInode) flag string slots :=
  hunt_congr fun k hk => h.entry k (seen_block hs hk)

theorem SameDir.forbidden (h : SameDir sp s_rd_only L dir slots s rip) (access : ℕ) :
    s.forbidden fp rip access = forbidden fp s_rd_only dir access false := by
  unfold Names.forbidden
  rw [h.rd_only, h.rights.forbidden]

/-- The entries that are left when those of a directory are changed. -/
theorem setEntries_entries (s : Names) (rip : InodePtr) (entry : ℕ → DirEntry) :
    (s.setEntries rip entry).entries rip = entry := by
  unfold Names.setEntries
  unfold Names.entries
  dsimp only
  rw [Function.update_self, Function.update_self]

/-- A search that is not allowed fails in the same way. -/
theorem SameDir.refused (h : SameDir sp s_rd_only L dir slots s rip)
    (hd : IsDir sp held c L dir.toInode slots) (hno : ¬MaySearch fp s_rd_only dir flag) :
    ∃ res, searchDir fp s_rd_only sp c dir string numb flag = some res ∧
      SameSearch sp held s_rd_only rip flag res (searchSlots s fp rip string numb flag) := by
  have hmode : (s.inode rip).i_mode = dir.i_mode := h.rights.mode
  unfold searchDir searchSlots
  rw [hmode, h.forbidden]
  by_cases htype : dir.i_mode &&& I_TYPE = I_DIRECTORY
  · have haccess : Fs.forbidden fp s_rd_only dir flag.bits false ≠ OK := fun e => hno ⟨htype, e⟩
    rw [if_neg (not_not.mpr htype), if_neg (not_not.mpr htype)]
    dsimp only
    rw [if_pos haccess, if_pos haccess]
    exact ⟨_, rfl, rfl, fun _ e => absurd e haccess, L, slots, hd, h⟩
  · rw [if_pos htype, if_pos htype]
    exact ⟨_, rfl, rfl, fun _ e => absurd e (show ENOTDIR ≠ OK by decide), L, slots, hd, h⟩

/-- A search that is allowed goes on with the entries. -/
theorem SameDir.allowed (h : SameDir sp s_rd_only L dir slots s rip)
    (ha : MaySearch fp s_rd_only dir flag) :
    searchSlots s fp rip string numb flag = searchEntries s rip string numb flag := by
  have hmode : (s.inode rip).i_mode = dir.i_mode := h.rights.mode
  unfold searchSlots
  rw [hmode, if_neg (not_not.mpr ha.type), h.forbidden]
  dsimp only
  rw [if_neg (not_not.mpr ha.access)]

theorem enterSlot_inode (s : Names) (rip : InodePtr) (string : Name) (numb j new_slots : ℕ) :
    ((enterSlot s rip string numb j new_slots).inode rip) = { s.inode rip with
      i_dirt := true
      i_size := if new_slots > s.slots rip then new_slots * DIR_ENTRY_SIZE
        else (s.inode rip).i_size } := Function.update_self ..

theorem enterSlot_entries (new_slots : ℕ) : (enterSlot s rip string numb j new_slots).entries rip =
    Function.update (s.entries rip) j ⟨numb, string⟩ := by
  have hdirs : (enterSlot s rip string numb j new_slots).dirs =
      (s.setEntries rip (Function.update (s.entries rip) j ⟨numb, string⟩)).dirs := rfl
  have hentries := setEntries_entries s rip (Function.update (s.entries rip) j ⟨numb, string⟩)
  unfold Names.entries at hentries ⊢
  rw [hdirs, enterSlot_inode]
  exact hentries

/-- An entry is made. -/
theorem SameDir.entered {s' : Names} {dir' : OwnedInode} {L' : Contents}
    (h : SameDir sp s_rd_only L dir slots s rip) (hd : IsDir sp held c L dir.toInode slots)
    (hinode : s'.inode = s.inode) (hsuper : s'.super_block = s.super_block)
    (hrights : SameRights dir dir') (hsize : dir'.i_size = DIR_ENTRY_SIZE * slotsWith slots k)
    (hentry : ∀ k', k' / NR_DIR_ENTRIES * NR_DIR_ENTRIES < slotsWith slots k →
      Function.update (s'.entries rip) j ⟨numb, string⟩ k' = dirEntry sp L' dir'.toInode k') :
    SameDir sp s_rd_only L' dir' (slotsWith slots k)
      (enterSlot s' rip string numb j (unshort (k + 1))) rip := by
  have hslots : s'.slots rip = slots := by
    unfold Names.slots
    rw [hinode]
    exact h.slots_eq hd
  have hslot := enterSlot_inode s' rip string numb j (unshort (k + 1))
  rw [hslots, hinode] at hslot
  refine ⟨⟨?_, ?_, ?_⟩, ?_, ?_, fun k' hk' => ?_⟩
  · rw [hrights.mode, ← h.rights.mode, hslot]
    rfl
  · rw [hrights.uid, ← h.rights.uid, hslot]
    rfl
  · rw [hrights.gid, ← h.rights.gid, hslot]
    rfl
  · rw [hslot, hsize]
    dsimp only
    rw [h.size]
    exact hd.size_with
  · have hrd : rdOnly (enterSlot s' rip string numb j (unshort (k + 1))) (s.inode rip).i_dev =
        rdOnly s (s.inode rip).i_dev := by
      have hsame : (enterSlot s' rip string numb j (unshort (k + 1))).super_block = s.super_block :=
        hsuper
      unfold rdOnly getSuper
      rw [hsame]
    rw [hslot]
    exact hrd.trans h.rd_only
  · rw [enterSlot_entries]
    exact hentry k' hk'

/-- An inode number is looked up. -/
theorem SameDir.lookUp (h : SameDir sp s_rd_only L dir slots s rip)
    (hd : IsDir sp held c L dir.toInode slots) (hh : Holds sp held) (hsp : sp.Ok)
    (ha : MaySearch fp s_rd_only dir .LOOK_UP) :
    ∃ res, searchDir fp s_rd_only sp c dir string numb .LOOK_UP = some res ∧
      SameSearch sp held s_rd_only rip .LOOK_UP res (searchSlots s fp rip string numb .LOOK_UP) := by
  obtain ⟨res, he, hdir, hd', hres⟩ := hd.lookUp hh hsp ha string numb
  refine ⟨res, he, ?_⟩
  rw [h.allowed ha]
  unfold searchEntries
  dsimp only
  rw [h.slots_eq hd, h.hunt hd.small]
  have hsame : ∃ L slots, IsDir sp held res.cache L res.ldir_ptr.toInode slots ∧
      SameDir sp s_rd_only L res.ldir_ptr slots s rip := by
    rw [hdir]
    exact ⟨L, slots, hd', h⟩
  cases hk : Fs.hunt (dirEntry sp L dir.toInode) .LOOK_UP string slots with
  | none =>
    rw [hk] at hres
    exact ⟨hres.symm, fun _ e => absurd e (show ENOENT ≠ OK by decide), hsame⟩
  | some k =>
    rw [hk] at hres
    refine ⟨hres.1.symm, fun _ _ => ?_, hsame⟩
    rw [hres.2, ← h.entry k (seen_block hd.small (hunt_lt hk))]

/-- An entry is erased. -/
theorem SameDir.delete (h : SameDir sp s_rd_only L dir slots s rip)
    (hd : IsDir sp held c L dir.toInode slots) (hh : Holds sp held) (hsp : sp.Ok)
    (ha : MaySearch fp s_rd_only dir .DELETE) :
    ∃ res, searchDir fp s_rd_only sp c dir string numb .DELETE = some res ∧
      SameSearch sp held s_rd_only rip .DELETE res (searchSlots s fp rip string numb .DELETE) := by
  obtain ⟨res, L', he, hdir, hd', hres⟩ := hd.delete hh hsp ha string numb
  refine ⟨res, he, ?_⟩
  rw [h.allowed ha]
  unfold searchEntries
  dsimp only
  rw [h.slots_eq hd, h.hunt hd.small]
  cases hk : Fs.hunt (dirEntry sp L dir.toInode) .DELETE string slots with
  | none =>
    rw [hk] at hres
    obtain ⟨hr, rfl⟩ := hres
    refine ⟨hr.symm, fun e => absurd e (by decide), L', slots, ?_, ?_⟩
    · rw [hdir]
      exact hd'
    · rw [hdir]
      exact h
  | some k =>
    rw [hk] at hres
    refine ⟨hres.1.symm, fun e => absurd e (by decide), L', slots, ?_, ?_⟩
    · rw [hdir]
      exact hd'
    · rw [hdir]
      refine ⟨h.rights, h.size, h.rd_only, fun k' hk' => ?_⟩
      rw [setEntries_entries, hres.2, ← h.entry k (seen_block hd.small (hunt_lt hk)),
        ← h.entry k' hk']
      exact Function.update_apply ..

/-- An entry is made in a block that is there. -/
theorem SameDir.enterString_slot (h : SameDir sp s_rd_only L dir slots s rip)
    (hd : IsDir sp held c L dir.toInode slots)
    (hk : EnteredAt (dirEntry sp L dir.toInode) string slots k) :
    enterString s rip string numb = (OK, enterSlot s rip string numb k (unshort (k + 1))) := by
  unfold enterString
  dsimp only
  rw [h.slots_eq hd, h.hunt hd.small]
  rcases hk with hhunt | ⟨hnone, rfl, hreach, hmod⟩
  · rw [hhunt]
  · rw [hnone]
    exact if_pos ⟨hreach, hmod⟩

/-- A block is asked for when there is no slot for an entry. -/
theorem SameDir.enterString_extend (h : SameDir sp s_rd_only L dir slots s rip)
    (hd : IsDir sp held c L dir.toInode slots)
    (hnone : Fs.hunt (dirEntry sp L dir.toInode) .ENTER string slots = none)
    (hreach : reach slots % NR_DIR_ENTRIES = 0) :
    enterString s rip string numb = extendDir s rip string numb := by
  unfold enterString
  dsimp only
  rw [h.slots_eq hd, h.hunt hd.small, hnone]
  exact if_neg fun hroom => hroom.2 (hroom.1 ▸ hreach)

/-- The slots of a directory that has grown have blocks if there was one for the new slot. -/
theorem grown_block (hs : slots < 65536) (hk : k < reach slots ∨ k = slots ∧ slots % 64 ≠ 0)
    (hk' : k' / NR_DIR_ENTRIES * NR_DIR_ENTRIES < slotsWith slots k) :
    k' / NR_DIR_ENTRIES * NR_DIR_ENTRIES < slots := by
  have hk' : k' / 64 * 64 < slotsWith slots k := hk'
  show k' / 64 * 64 < slots
  unfold slotsWith unshort at hk'
  rcases reach_cases hs with ⟨hr, hlt⟩ | ⟨hr, hslots⟩ <;> split_ifs at hk' <;> omega

/-- The first entry of a new block is made. -/
theorem SameDir.extended {dir' : OwnedInode} {L' : Contents}
    (h : SameDir sp s_rd_only L dir slots s rip) (hd : IsDir sp held c L dir.toInode slots)
    (hrights : SameRights dir dir') (hreach : reach slots % NR_DIR_ENTRIES = 0)
    (hroom : s.room 0 = true) (hd' : IsDir sp held c' L' dir'.toInode (slotsWith slots (reach slots)))
    (hentry : ∀ k', (k' / NR_DIR_ENTRIES = slots / NR_DIR_ENTRIES →
        dirEntry sp L' dir'.toInode k' =
          if k' = newBlockSlot slots then ⟨numb, string⟩ else ⟨0, fun _ => 0⟩) ∧
      (k' / NR_DIR_ENTRIES ≠ slots / NR_DIR_ENTRIES → k' < slots →
        dirEntry sp L' dir'.toInode k' = dirEntry sp L dir.toInode k')) :
    (extendDir s rip string numb).1 = OK ∧
      SameDir sp s_rd_only L' dir' (slotsWith slots (reach slots)) (extendDir s rip string numb).2
        rip := by
  unfold extendDir
  dsimp only
  rw [h.slots_eq hd, if_neg (extend_count hreach), if_pos hroom]
  refine ⟨rfl, ?_⟩
  rw [unshort_succ]
  refine h.entered hd rfl rfl hrights hd'.size fun k' hk' => ?_
  rw [setEntries_entries]
  obtain ⟨hhere, hother⟩ := hentry k'
  by_cases hblock : k' / NR_DIR_ENTRIES = slots / NR_DIR_ENTRIES
  · rw [hhere hblock]
    unfold newBlockSlot
    rw [Function.update_apply]
    split_ifs
    · rfl
    · rfl
  · have hk' : k' / 64 * 64 < slotsWith slots (reach slots) := hk'
    have hblock' : ¬k' / 64 = slots / 64 := hblock
    have hlt : k' < slots := by
      unfold slotsWith unshort at hk'
      rcases reach_cases hd.small with ⟨hr, -⟩ | ⟨hr, -⟩ <;> split_ifs at hk' <;> omega
    have hfirst : k' ≠ slots / NR_DIR_ENTRIES * NR_DIR_ENTRIES := by
      intro e
      have e : k' = slots / 64 * 64 := e
      omega
    rw [hother hblock hlt, Function.update_of_ne hfirst, if_neg hblock]
    refine h.entry k' (show k' / 64 * 64 < slots by omega)

/-- An entry is made, with room for a block if there is some on the disk. -/
theorem SameDir.enter (h : SameDir sp s_rd_only L dir slots s rip)
    (hd : IsDir sp held c L dir.toInode slots) (hh : Holds sp held) (hsp : sp.Ok)
    (ha : MaySearch fp s_rd_only dir .ENTER) (hnumb : numb < 65536) :
    ∃ res room, searchDir fp s_rd_only sp c dir string numb .ENTER = some res ∧
      SameSearch sp held s_rd_only rip .ENTER res
        (searchSlots { s with room := room } fp rip string numb .ENTER) := by
  obtain ⟨res, he, hres, hrights⟩ := hd.enter hh hsp ha string hnumb
  refine ⟨res, fun _ => decide (res.r = OK), he, ?_⟩
  have h' : SameDir sp s_rd_only L dir slots { s with room := fun _ => decide (res.r = OK) } rip :=
    ⟨h.rights, h.size, h.rd_only, h.entry⟩
  rw [h'.allowed ha]
  suffices hgoal : (enterString { s with room := fun _ => decide (res.r = OK) } rip string numb).1 =
      res.r ∧ ∃ L' slots', IsDir sp held res.cache L' res.ldir_ptr.toInode slots' ∧
        SameDir sp s_rd_only L' res.ldir_ptr slots'
          (enterString { s with room := fun _ => decide (res.r = OK) } rip string numb).2 rip from
    ⟨hgoal.1, fun e => absurd e (by decide), hgoal.2⟩
  cases hres with
  | @slot k L' hk hr hdir hentry =>
    rw [h'.enterString_slot hd hk]
    refine ⟨hr.symm, L', _, hdir, h'.entered hd rfl rfl hrights hdir.size fun k' hk' => ?_⟩
    have hseen : k < reach slots ∨ k = slots ∧ slots % 64 ≠ 0 := by
      rcases hk with hhunt | ⟨-, hks, -, hmod⟩
      · exact Or.inl (hunt_lt hhunt)
      · exact Or.inr ⟨hks, hmod⟩
    rw [hentry, ← h'.entry k' (grown_block hd.small hseen hk')]
    exact Function.update_apply ..
  | @block L' hnone hreach hr hdir hentry =>
    rw [h'.enterString_extend hd hnone hreach]
    obtain ⟨hok, hleft⟩ := h'.extended hd hrights hreach (decide_eq_true hr) hdir hentry
    exact ⟨hok.trans hr.symm, L', _, hdir, hleft⟩
  | @full L' hnone hhole hr hdir hentry =>
    have hmod : slots % NR_DIR_ENTRIES = 0 := by
      by_contra hmod
      rw [hd.size] at hhole
      exact hd.mapped_slot (Or.inr ⟨rfl, hmod⟩) hhole
    have hreach : reach slots % NR_DIR_ENTRIES = 0 := by
      have hmod : slots % 64 = 0 := hmod
      show reach slots % 64 = 0
      rcases reach_cases hd.small with ⟨hr, -⟩ | ⟨hr, -⟩ <;> omega
    have hno : ¬res.r = OK := by
      rw [hr]
      decide
    rw [h'.enterString_extend hd hnone hreach]
    have hout : extendDir { s with room := fun _ => decide (res.r = OK) } rip string numb =
        (ENOSPC, { s with
          room := fun _ => decide (res.r = OK)
          err_code := ENOSPC }) := by
      unfold extendDir
      dsimp only
      rw [h'.slots_eq hd, if_neg (extend_count hreach), if_neg]
      rw [decide_eq_true_eq]
      exact hno
    rw [hout]
    refine ⟨hr.symm, L', slots, hdir, ⟨?_, ?_, h.rd_only, fun k' hk' => ?_⟩⟩
    · exact ⟨h.rights.mode.trans hrights.mode.symm, h.rights.uid.trans hrights.uid.symm,
        h.rights.gid.trans hrights.gid.symm⟩
    · exact h.size.trans (hd.size.trans hdir.size.symm)
    · rw [hentry]
      exact h.entry k' hk'

/-- A search of a directory in the inode table does what a search of its blocks does, with room for
a new block if there is some on the disk. -/
theorem IsDir.sameSearch (hd : IsDir sp held c L dir.toInode slots) (hh : Holds sp held) (hsp : sp.Ok)
    (h : SameDir sp s_rd_only L dir slots s rip) (hnumb : numb < 65536) :
    ∃ res room, searchDir fp s_rd_only sp c dir string numb flag = some res ∧
      SameSearch sp held s_rd_only rip flag res
        (searchSlots { s with room := room } fp rip string numb flag) := by
  by_cases ha : MaySearch fp s_rd_only dir flag
  · cases flag with
    | LOOK_UP =>
      obtain ⟨res, he, hres⟩ := h.lookUp hd hh hsp ha
      exact ⟨res, s.room, he, hres⟩
    | DELETE =>
      obtain ⟨res, he, hres⟩ := h.delete hd hh hsp ha
      exact ⟨res, s.room, he, hres⟩
    | ENTER => exact h.enter hd hh hsp ha hnumb
  · obtain ⟨res, he, hres⟩ := h.refused hd ha
    exact ⟨res, s.room, he, hres⟩

/-- Any searches of a directory in the inode table do what they do in its blocks, with room for a new
block whenever there is some on the disk. -/
theorem searchRun_same {acts : List DirAct} (hd : IsDir sp held c L dir.toInode slots)
    (hh : Holds sp held) (hsp : sp.Ok) (h : SameDir sp s_rd_only L dir slots s rip)
    (hnumb : ∀ a ∈ acts, a.numb < 65536) :
    ∃ results rooms, searchRun s_rd_only sp c dir acts = some results ∧
      rooms.length = acts.length ∧
      List.Forall₂ (fun p found => SameSearch sp held s_rd_only rip p.1.flag p.2 found)
        (acts.zip results) (foundRun rip s (acts.zip rooms)) := by
  induction acts generalizing c L dir slots s with
  | nil => exact ⟨[], [], rfl, rfl, .nil⟩
  | cons a acts ih =>
    obtain ⟨res, room, hrun, hsame⟩ := @IsDir.sameSearch _ _ _ _ _ _ _ a.numb s rip a.flag a.string
      a.fp hd hh hsp h (hnumb a List.mem_cons_self)
    obtain ⟨L', slots', hd', h'⟩ := hsame.2.2
    obtain ⟨results, rooms, hrest, hlength, hall⟩ := ih hd' h' fun b hb =>
      hnumb b (List.mem_cons_of_mem a hb)
    refine ⟨res :: results, room :: rooms, ?_, congrArg (· + 1) hlength, .cons hsame hall⟩
    unfold searchRun
    rw [hrun, Option.bind_some, hrest]
    rfl

/-- The inode table has the directory `newDir` with three slots. -/
def newDirTable : Names where
  inode _ := ⟨⟨I_DIRECTORY ||| 0o777, 0, 0, 48, 2⟩, 1, 1, 1, false, false, false⟩
  super_block _ := ⟨1, false, none⟩
  fproc _ := ⟨⟨SU_UID, SU_UID, 0, 0⟩, none, none⟩
  err_code := OK
  disk _ _ := ⟨0, 0, 0, 0, 0⟩
  imap _ _ := true
  dirs _ _ := newDir
  room _ := false

/-- A name is entered, looked up and deleted. -/
def newDirActs : List DirAct :=
  [enterName 120, lookUpName 120, ⟨superUser, .DELETE, letter 120, 0⟩]

/-- The directory does the same in its blocks and in the table. -/
theorem newDirActs_same : ∃ c results rooms,
    searchRun false dirSuper c (dirInode 3) newDirActs = some results ∧
      List.Forall₂ (fun p found =>
        SameSearch dirSuper smallHeld false ⟨0, NR_INODES_pos⟩ p.1.flag p.2 found)
        (newDirActs.zip results) (foundRun ⟨0, NR_INODES_pos⟩ newDirTable (newDirActs.zip rooms)) := by
  have hget : (getBlock (bufPool { staticCache with io := [], disk := dirDisk newDir }) 1 3
      .NORMAL).map Prod.fst = some 0 := by
    decide +kernel
  obtain ⟨⟨_, c⟩, hc, rfl⟩ := Option.map_eq_some_iff.mp hget
  have hinum : ∀ k, (newDir k).d_inum < 65536 := by
    intro k
    unfold newDir
    split_ifs <;> decide
  have hsame : SameDir dirSuper false (dirDisk newDir) (dirInode 3) 3 newDirTable
      ⟨0, NR_INODES_pos⟩ := by
    refine ⟨⟨rfl, rfl, rfl⟩, rfl, by decide, fun k hk => (dirDisk_entry ?_ (hinum k)).symm⟩
    have hk : k / 64 * 64 < 3 := hk
    omega
  have hnumb : ∀ a ∈ newDirActs, a.numb < 65536 := by decide
  obtain ⟨results, rooms, hrun, -, hall⟩ := searchRun_same (dirDisk_dir (by decide) hc) dirHolds
    dirSuper_ok hsame hnumb
  exact ⟨c, results, rooms, hrun, hall⟩

end Minix.Fs
