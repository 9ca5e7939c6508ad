import Mathlib.Data.Set.Card
import Minix.Fs.ByteArray
import Minix.Fs.DirCalls

/-!
# A directory as a map from names to inode numbers

The names of a directory are those that have been entered and not deleted since. A search finds what
the history says, and a directory grows by a slot when a name is entered while all its slots are in
use (`directory_map`), with two exceptions. Deleting the empty name deletes another one. And when
there are 65535 names, the number of slots wraps before it is checked: a name more is not counted,
and with the next one the last names are lost (`directory_overflow`).
-/

namespace Minix.Fs

open Lib

/-- A directory with its history: the inode numbers of the names that have been entered and not
deleted since, and the number of slots that have been in use. -/
structure DirState where
  cache : Cache
  dir : OwnedInode
  names : List UInt8 → Option ℕ
  slots : ℕ

/-- A call of `search_dir`. -/
structure DirAct where
  fp : Caller
  flag : DirFlag
  string : Name
  numb : ℕ

/-- The number of names in a map. -/
noncomputable def nameCount (names : List UInt8 → Option ℕ) : ℕ := {n | names n ≠ none}.ncard

/-- What `search_dir` leaves of a directory. -/
def DirState.search (sp : SuperBlock) (s_rd_only : Bool) (s : DirState) (a : DirAct) :
    Option Searched :=
  searchDir a.fp s_rd_only sp s.cache s.dir a.string a.numb a.flag

/-- The names after a call that has succeeded or not. -/
def DirState.namesAfter (s : DirState) (a : DirAct) (r : ℤ) : List UInt8 → Option ℕ :=
  if r = OK then
    match a.flag with
    | .LOOK_UP => s.names
    | .ENTER => Function.update s.names (cName a.string) (some a.numb)
    | .DELETE => Function.update s.names (cName a.string) none
  else s.names

/-- The directory and its history after a call. -/
noncomputable def DirState.after (s : DirState) (a : DirAct) (res : Searched) : DirState where
  cache := res.cache
  dir := res.ldir_ptr
  names := s.namesAfter a res.r
  slots := max s.slots (nameCount (s.namesAfter a res.r))

/-- A call that the caller may make. It enters a name only if it is not there. -/
structure DirAct.Proper (s_rd_only : Bool) (s : DirState) (a : DirAct) : Prop where
  allowed : MaySearch a.fp s_rd_only s.dir a.flag
  absent : a.flag = .ENTER → s.names (cName a.string) = none
  numb : a.flag = .ENTER → a.numb ≠ 0 ∧ a.numb < 65536

/-- A call. -/
inductive DirStep (sp : SuperBlock) (s_rd_only : Bool) (s : DirState) : DirAct → DirState → Prop
  | mk {a : DirAct} {res : Searched} (h : s.search sp s_rd_only a = some res)
      (hp : a.Proper s_rd_only s) : DirStep sp s_rd_only s a (s.after a res)

/-- The calls that a directory can stand: there are not 65535 names when one more is entered, and
the empty name is not deleted while there is another one than `.` and `..` -/
def Bearable (s : DirState) (a : DirAct) : Prop :=
  match a.flag with
  | .LOOK_UP => True
  | .ENTER => nameCount s.names ≠ 65535
  | .DELETE => cName a.string ≠ [] ∨
      ∀ n, s.names n ≠ none → n = [] ∨ n = dotName ∨ n = dotDotName

/-- A call that the directory can stand. -/
def BearableStep (sp : SuperBlock) (s_rd_only : Bool) (s : DirState) (a : DirAct) (s' : DirState) :
    Prop := DirStep sp s_rd_only s a s' ∧ Bearable s a

/-- The entries in the slots of a directory are those of a map. -/
structure Lists (entry : ℕ → DirEntry) (slots : ℕ) (names : List UInt8 → Option ℕ) : Prop where
  find : ∀ n v, names n = some v ↔
    ∃ k < slots, (entry k).d_inum = v ∧ v ≠ 0 ∧ cName (entry k).d_name = n
  once : ∀ k k', k < slots → k' < slots → (entry k).d_inum ≠ 0 → (entry k').d_inum ≠ 0 →
    cName (entry k).d_name = cName (entry k').d_name → k = k'
  /-- The slots behind the end are free, in the last block that a directory can have. -/
  tail : 65472 < slots → ∀ k, slots ≤ k → k < 65536 → (entry k).d_inum = 0

/-- A directory of a mounted device. -/
structure DirStart (sp : SuperBlock) (held : Buf → ℕ) (s : DirState) : Prop where
  device : sp.Ok
  holds : Holds sp held
  dir : ∃ L, IsDir sp held s.cache L s.dir.toInode s.slots ∧
    Lists (dirEntry sp L s.dir.toInode) s.slots s.names

/-- What a call should do. -/
structure DirRight (s : DirState) (a : DirAct) (res : Searched) : Prop where
  lookUp : a.flag = .LOOK_UP → cName a.string ≠ [] →
    match s.names (cName a.string) with
    | some numb => res.r = OK ∧ res.numb = numb
    | none => res.r = ENOENT
  /-- The empty string is there if anything is but `.` and `..` -/
  empty : a.flag = .LOOK_UP → cName a.string = [] →
    ((∃ n, s.names n ≠ none ∧ n ≠ dotName ∧ n ≠ dotDotName) ∧ res.r = OK) ∨
      (¬∃ n, s.names n ≠ none ∧ n ≠ dotName ∧ n ≠ dotDotName) ∧ res.r = ENOENT
  /-- There may be no space for a new block, when no slot is free. -/
  enter : a.flag = .ENTER → res.r = OK ∨ res.r = ENOSPC ∧ nameCount s.names = s.slots
  delete : a.flag = .DELETE →
    s.names (cName a.string) ≠ none ∧ res.r = OK ∨
      s.names (cName a.string) = none ∧ res.r = ENOENT
  /-- The size is that of the slots that are or were in use. -/
  size : (s.after a res).dir.i_size = DIR_ENTRY_SIZE * (s.after a res).slots

variable {sp : SuperBlock} {held : Buf → ℕ} {s_rd_only : Bool} {s s' : DirState} {a : DirAct}
  {entry entry' : ℕ → DirEntry} {slots slots' k k' numb : ℕ} {names names' : List UInt8 → Option ℕ}
  {n : List UInt8} {flag : DirFlag} {string : Name} {L : Contents} {res : Searched}

/-- All slots are seen. -/
theorem lt_reach (hs : slots < 65536) (hk : k < slots) : k < reach slots := by
  rcases reach_cases hs with ⟨hr, -⟩ | ⟨hr, -⟩ <;> omega

/-- A slot that is seen and not free is one of the directory. -/
theorem Lists.slot_lt (h : Lists entry slots names) (hs : slots < 65536) (hk : k < reach slots)
    (hinum : (entry k).d_inum ≠ 0) : k < slots := by
  by_contra hle
  rcases reach_cases hs with ⟨hr, -⟩ | ⟨hr, rfl⟩
  · omega
  · exact hinum (h.tail (by decide) k (not_lt.mp hle) (hr ▸ hk))

/-! ## Names and slots -/

/-- The slots that are in use. -/
def liveSlots (entry : ℕ → DirEntry) (slots : ℕ) : Finset ℕ :=
  (Finset.range slots).filter fun k => (entry k).d_inum ≠ 0

/-- There are as many names as slots in use. -/
theorem Lists.nameCount_eq (h : Lists entry slots names) :
    nameCount names = (liveSlots entry slots).card := by
  have himage : {n | names n ≠ none} =
      ↑((liveSlots entry slots).image fun k => cName (entry k).d_name) := by
    ext n
    rw [Finset.coe_image, Set.mem_ofPred_eq, Option.ne_none_iff_exists']
    constructor
    · rintro ⟨v, hv⟩
      obtain ⟨k, hk, hinum, hne, hname⟩ := (h.find n v).mp hv
      refine ⟨k, ?_, hname⟩
      exact Finset.mem_filter.mpr ⟨Finset.mem_range.mpr hk, by rwa [hinum]⟩
    · rintro ⟨k, hk, hname⟩
      obtain ⟨hk, hne⟩ := Finset.mem_filter.mp hk
      exact ⟨_, (h.find n _).mpr ⟨k, Finset.mem_range.mp hk, rfl, hne, hname⟩⟩
  unfold nameCount
  rw [himage, Set.ncard_coe_finset, Finset.card_image_of_injOn]
  intro k hk k' hk' heq
  obtain ⟨hk, hne⟩ := Finset.mem_filter.mp hk
  obtain ⟨hk', hne'⟩ := Finset.mem_filter.mp hk'
  exact h.once k k' (Finset.mem_range.mp hk) (Finset.mem_range.mp hk') hne hne' heq

/-- There are no more names than slots. -/
theorem Lists.nameCount_le (h : Lists entry slots names) : nameCount names ≤ slots := by
  rw [h.nameCount_eq]
  exact (Finset.card_filter_le ..).trans (Finset.card_range slots).le

/-- There are as many names as slots when none is free. -/
theorem Lists.nameCount_full (h : Lists entry slots names)
    (hfull : ∀ k < slots, (entry k).d_inum ≠ 0) : nameCount names = slots := by
  rw [h.nameCount_eq]
  unfold liveSlots
  rw [Finset.filter_true_of_mem fun k hk => hfull k (Finset.mem_range.mp hk), Finset.card_range]

/-- A match is that of a name. -/
theorem Lists.hunt_match (h : Lists entry slots names) (hs : slots < 65536) (hflag : flag ≠ .ENTER)
    (hhunt : hunt entry flag string slots = some k) :
    k < slots ∧ (entry k).isMatch string = true ∧
      names (cName (entry k).d_name) = some (entry k).d_inum := by
  obtain ⟨hlt, hwant, -⟩ := hunt_some hhunt
  obtain ⟨hinum, hmatch⟩ := (wanted_match hflag).mp hwant
  have hk := h.slot_lt hs hlt hinum
  exact ⟨hk, hmatch, (h.find _ _).mpr ⟨k, hk, rfl, hinum, rfl⟩⟩

/-- There is no match if there is no name of one. -/
theorem Lists.hunt_no_match (h : Lists entry slots names) (hs : slots < 65536) (hflag : flag ≠ .ENTER)
    (hhunt : hunt entry flag string slots = none) (hn : names n ≠ none) :
    ∃ k < slots, cName (entry k).d_name = n ∧ (entry k).isMatch string = false := by
  obtain ⟨v, hv⟩ := Option.ne_none_iff_exists'.mp hn
  obtain ⟨k, hk, hinum, hne, hname⟩ := (h.find n v).mp hv
  refine ⟨k, hk, hname, Bool.eq_false_iff.mpr fun hmatch => ?_⟩
  have hno := hunt_none.mp hhunt k (lt_reach hs hk)
  rw [(wanted_match hflag).mpr ⟨by rwa [hinum], hmatch⟩] at hno
  exact Bool.noConfusion hno

/-! ## Entries that change -/

/-- A name is deleted. -/
theorem Lists.erase (h : Lists entry slots names) (hk : k < slots) (hinum : (entry k).d_inum ≠ 0)
    (hentry : ∀ k', entry' k' = if k' = k then (entry k).erase else entry k') :
    Lists entry' slots (Function.update names (cName (entry k).d_name) none) := by
  have hself : (entry' k).d_inum = 0 := by
    rw [hentry, if_pos rfl]
    rfl
  have hother : ∀ k', k' ≠ k → entry' k' = entry k' := fun k' hne => by rw [hentry, if_neg hne]
  have hne_of : ∀ k', (entry' k').d_inum ≠ 0 → k' ≠ k := fun k' hne e => hne (e ▸ hself)
  constructor
  · intro n v
    by_cases hn : n = cName (entry k).d_name
    · rw [hn, Function.update_self]
      constructor
      · exact nofun
      · rintro ⟨k', hk', hv, hv0, hname⟩
        have hne := hne_of k' (by rwa [hv])
        rw [hother k' hne] at hv hname
        exact absurd (h.once k' k hk' hk (by rwa [hv]) hinum hname) hne
    · rw [Function.update_of_ne hn, h.find n v]
      constructor
      · rintro ⟨k', hk', hv, hv0, hname⟩
        have hne : k' ≠ k := fun e => hn (by rw [← hname, e])
        exact ⟨k', hk', by rw [hother k' hne, hv], hv0, by rw [hother k' hne, hname]⟩
      · rintro ⟨k', hk', hv, hv0, hname⟩
        have hne := hne_of k' (by rwa [hv])
        rw [hother k' hne] at hv hname
        exact ⟨k', hk', hv, hv0, hname⟩
  · intro i j hi hj hi0 hj0 heq
    have hi' := hother i (hne_of i hi0)
    have hj' := hother j (hne_of j hj0)
    rw [hi'] at hi0 heq
    rw [hj'] at hj0 heq
    exact h.once i j hi hj hi0 hj0 heq
  · intro htail i hi hlt
    rw [hother i (by omega)]
    exact h.tail htail i hi hlt

/-- A name is entered, in a slot that was free or behind the others. -/
theorem Lists.enter (h : Lists entry slots names) (hk : k < slots ∧ slots' = slots ∨
      k = slots ∧ slots' = slots + 1)
    (hfree : k < slots → (entry k).d_inum = 0) (hnumb : numb ≠ 0)
    (habsent : names (cName string) = none) (hself : entry' k = ⟨numb, string⟩)
    (hother : ∀ k' < slots, k' ≠ k → entry' k' = entry k')
    (htail : 65472 < slots' → ∀ k', slots' ≤ k' → k' < 65536 → (entry' k').d_inum = 0) :
    Lists entry' slots' (Function.update names (cName string) (some numb)) := by
  have hlt : ∀ k', k' < slots' → k' ≠ k → k' < slots := by omega
  have hnew : ∀ k' < slots, (entry k').d_inum ≠ 0 → cName (entry k').d_name ≠ cName string := by
    intro k' hk' hinum e
    have := (h.find _ _).mpr ⟨k', hk', rfl, hinum, e⟩
    rw [habsent] at this
    exact nomatch this
  have hk' : k < slots' := by omega
  constructor
  · intro n v
    by_cases hn : n = cName string
    · rw [hn, Function.update_self, Option.some_inj]
      constructor
      · rintro rfl
        exact ⟨k, hk', by rw [hself], hnumb, by rw [hself]⟩
      · rintro ⟨i, hi, hv, hv0, hname⟩
        by_cases hik : i = k
        · rw [hik, hself] at hv
          exact hv
        · have hi' := hlt i hi hik
          rw [hother i hi' hik] at hv hname
          exact absurd hname (hnew i hi' (by rwa [hv]))
    · rw [Function.update_of_ne hn, h.find n v]
      constructor
      · rintro ⟨i, hi, hv, hv0, hname⟩
        have hik : i ≠ k := by
          intro e
          rw [e, hfree (e ▸ hi)] at hv
          exact hv0 hv.symm
        exact ⟨i, by omega, by rw [hother i hi hik, hv], hv0, by rw [hother i hi hik, hname]⟩
      · rintro ⟨i, hi, hv, hv0, hname⟩
        have hik : i ≠ k := by
          intro e
          rw [e, hself] at hname
          exact hn hname.symm
        have hi' := hlt i hi hik
        rw [hother i hi' hik] at hv hname
        exact ⟨i, hi', hv, hv0, hname⟩
  · intro i j hi hj hi0 hj0 heq
    by_cases hik : i = k
    · by_cases hjk : j = k
      · rw [hik, hjk]
      · have hj' := hlt j hj hjk
        rw [hother j hj' hjk] at hj0 heq
        rw [hik, hself] at heq
        exact absurd heq.symm (hnew j hj' hj0)
    · have hi' := hlt i hi hik
      rw [hother i hi' hik] at hi0 heq
      by_cases hjk : j = k
      · rw [hjk, hself] at heq
        exact absurd heq (hnew i hi' hi0)
      · have hj' := hlt j hj hjk
        rw [hother j hj' hjk] at hj0 heq
        exact h.once i j hi' hj' hi0 hj0 heq
  · exact htail

/-! ## Calls -/

/-- A directory of a mounted device, of which the entries are those of its history. -/
structure DirInv (sp : SuperBlock) (held : Buf → ℕ) (s : DirState) (L : Contents) : Prop where
  dir : IsDir sp held s.cache L s.dir.toInode s.slots
  lists : Lists (dirEntry sp L s.dir.toInode) s.slots s.names

/-- What a call does when it does what it should. -/
def CallRight (sp : SuperBlock) (held : Buf → ℕ) (s_rd_only : Bool) (s : DirState) (a : DirAct) :
    Prop :=
  ∃ res, s.search sp s_rd_only a = some res ∧ DirRight s a res ∧ ∃ L, DirInv sp held (s.after a res) L

/-- A directory is what its history says after a call. -/
theorem DirInv.after (hdir : IsDir sp held res.cache L res.ldir_ptr.toInode slots)
    (hlists : Lists (dirEntry sp L res.ldir_ptr.toInode) slots (s.namesAfter a res.r))
    (hslots : max s.slots (nameCount (s.namesAfter a res.r)) = slots) :
    DirInv sp held (s.after a res) L ∧
      (s.after a res).dir.i_size = DIR_ENTRY_SIZE * (s.after a res).slots := by
  have hs : (s.after a res).slots = slots := hslots
  constructor
  · constructor
    · rw [hs]
      exact hdir
    · rw [hs]
      exact hlists
  · rw [hs]
    exact hdir.size

/-- The number of slots that were in use stays when there are no more names than slots. -/
theorem Lists.max_slots (h : Lists entry slots names) : max slots (nameCount names) = slots :=
  max_eq_left h.nameCount_le

/-- Looking up a name does what it should. -/
theorem DirInv.lookUp (h : DirInv sp held s L) (hh : Holds sp held) (hsp : sp.Ok)
    (hp : a.Proper s_rd_only s) (hflag : a.flag = .LOOK_UP) : CallRight sp held s_rd_only s a := by
  have ha : MaySearch a.fp s_rd_only s.dir .LOOK_UP := hflag ▸ hp.allowed
  obtain ⟨res, he, hdir, hmount, hres⟩ := h.dir.lookUp hh hsp ha a.string a.numb
  have hnames : s.namesAfter a res.r = s.names := by
    unfold DirState.namesAfter
    rw [hflag]
    exact ite_self _
  obtain ⟨hinv, hsize⟩ : DirInv sp held (s.after a res) L ∧ _ :=
    DirInv.after (by rw [hdir]; exact hmount) (by rw [hdir, hnames]; exact h.lists)
      (by rw [hnames]; exact h.lists.max_slots)
  have hsearch : s.search sp s_rd_only a = some res := by
    unfold DirState.search
    rw [hflag]
    exact he
  have hne : (.LOOK_UP : DirFlag) ≠ .ENTER := by decide
  refine ⟨res, hsearch, ⟨fun _ hname => ?_, fun _ hempty => ?_, fun e => ?_, fun e => ?_, hsize⟩, L, hinv⟩
  · cases hhunt : hunt (dirEntry sp L s.dir.toInode) .LOOK_UP a.string s.slots with
    | some k =>
      rw [hhunt] at hres
      obtain ⟨-, hmatch, hfind⟩ := h.lists.hunt_match h.dir.small hne hhunt
      rw [(isMatch_name hname).mp hmatch] at hfind
      rw [hfind]
      exact hres
    | none =>
      rw [hhunt] at hres
      cases hfind : s.names (cName a.string) with
      | none => exact hres
      | some v =>
        obtain ⟨k, -, hk, hmatch⟩ := h.lists.hunt_no_match h.dir.small hne hhunt
          (n := cName a.string) (by rw [hfind]; exact nofun)
        rw [(isMatch_name hname).mpr hk] at hmatch
        exact Bool.noConfusion hmatch
  · cases hhunt : hunt (dirEntry sp L s.dir.toInode) .LOOK_UP a.string s.slots with
    | some k =>
      rw [hhunt] at hres
      obtain ⟨-, hmatch, hfind⟩ := h.lists.hunt_match h.dir.small hne hhunt
      obtain ⟨hdot, hdotdot⟩ := (isMatch_empty hempty).mp hmatch
      exact Or.inl ⟨⟨_, by rw [hfind]; exact nofun, hdot, hdotdot⟩, hres.1⟩
    | none =>
      rw [hhunt] at hres
      refine Or.inr ⟨?_, hres⟩
      rintro ⟨n, hn, hdot, hdotdot⟩
      obtain ⟨k, -, rfl, hmatch⟩ := h.lists.hunt_no_match h.dir.small hne hhunt hn
      rw [(isMatch_empty hempty).mpr ⟨hdot, hdotdot⟩] at hmatch
      exact Bool.noConfusion hmatch
  · exact absurd (hflag.symm.trans e) hne
  · exact absurd (hflag.symm.trans e) (by decide)

/-- What is deleted is the name itself. -/
theorem Bearable.delete (h : Bearable s a) (hflag : a.flag = .DELETE) {e : DirEntry}
    (hn : s.names (cName e.d_name) ≠ none) :
    e.isMatch a.string = true ↔ cName e.d_name = cName a.string := by
  unfold Bearable at h
  rw [hflag] at h
  by_cases hname : cName a.string = []
  · rw [isMatch_empty hname, hname]
    constructor
    · rintro ⟨hdot, hdotdot⟩
      rcases h with h | h
      · exact absurd hname h
      · rcases h _ hn with h | h | h
        · exact h
        · exact absurd h hdot
        · exact absurd h hdotdot
    · intro e
      rw [e]
      exact ⟨by decide, by decide⟩
  · exact isMatch_name hname

/-- Deleting a name does what it should. -/
theorem DirInv.delete (h : DirInv sp held s L) (hh : Holds sp held) (hsp : sp.Ok)
    (hp : a.Proper s_rd_only s) (hb : Bearable s a) (hflag : a.flag = .DELETE) :
    CallRight sp held s_rd_only s a := by
  have ha : MaySearch a.fp s_rd_only s.dir .DELETE := hflag ▸ hp.allowed
  obtain ⟨res, L', he, hdir, hmount, hres⟩ := h.dir.delete hh hsp ha a.string a.numb
  have hsearch : s.search sp s_rd_only a = some res := by
    unfold DirState.search
    rw [hflag]
    exact he
  have hne : (.DELETE : DirFlag) ≠ .ENTER := by decide
  cases hhunt : hunt (dirEntry sp L s.dir.toInode) .DELETE a.string s.slots with
  | some k =>
    rw [hhunt] at hres
    obtain ⟨hr, hentry⟩ := hres
    obtain ⟨hk, hmatch, hfind⟩ := h.lists.hunt_match h.dir.small hne hhunt
    have hsome : s.names (cName (dirEntry sp L s.dir.toInode k).d_name) ≠ none := by
      rw [hfind]
      exact nofun
    have hname := (hb.delete hflag hsome).mp hmatch
    have hinum : (dirEntry sp L s.dir.toInode k).d_inum ≠ 0 :=
      ((wanted_match hne).mp (hunt_some hhunt).2.1).1
    have hlists := h.lists.erase hk hinum hentry
    have hnames : s.namesAfter a res.r = Function.update s.names (cName a.string) none := by
      unfold DirState.namesAfter
      rw [if_pos hr, hflag]
    rw [hname, ← hnames] at hlists
    obtain ⟨hinv, hsize⟩ : DirInv sp held (s.after a res) L' ∧ _ :=
      DirInv.after (by rw [hdir]; exact hmount) (by rw [hdir]; exact hlists) hlists.max_slots
    refine ⟨res, hsearch, ⟨fun e => ?_, fun e => ?_, fun e => ?_, fun _ => ?_, hsize⟩, L', hinv⟩
    · exact absurd (hflag.symm.trans e) (by decide)
    · exact absurd (hflag.symm.trans e) (by decide)
    · exact absurd (hflag.symm.trans e) hne
    · rw [hname] at hsome
      exact Or.inl ⟨hsome, hr⟩
  | none =>
    rw [hhunt] at hres
    obtain ⟨hr, rfl⟩ := hres
    have hnames : s.namesAfter a res.r = s.names := by
      unfold DirState.namesAfter
      rw [if_neg (by rw [hr]; decide)]
    obtain ⟨hinv, hsize⟩ : DirInv sp held (s.after a res) L' ∧ _ :=
      DirInv.after (by rw [hdir]; exact hmount) (by rw [hdir, hnames]; exact h.lists)
        (by rw [hnames]; exact h.lists.max_slots)
    refine ⟨res, hsearch, ⟨fun e => ?_, fun e => ?_, fun e => ?_, fun _ => ?_, hsize⟩, L', hinv⟩
    · exact absurd (hflag.symm.trans e) (by decide)
    · exact absurd (hflag.symm.trans e) (by decide)
    · exact absurd (hflag.symm.trans e) hne
    · refine Or.inr ⟨?_, hr⟩
      by_contra hsome
      obtain ⟨k, -, hk, hmatch⟩ := h.lists.hunt_no_match h.dir.small hne hhunt hsome
      have := (hb.delete hflag (by rwa [hk])).mpr hk
      rw [this] at hmatch
      exact Bool.noConfusion hmatch

/-- There is a free slot when a name is entered in a directory of 65535 slots. -/
theorem DirInv.not_full (h : DirInv sp held s L) (hb : nameCount s.names ≠ 65535)
    (hfull : ∀ k < s.slots, (dirEntry sp L s.dir.toInode k).d_inum ≠ 0) :
    reach s.slots = s.slots ∧ s.slots < 65535 := by
  rw [h.lists.nameCount_full hfull] at hb
  rcases reach_cases h.dir.small with hr | ⟨-, hs⟩
  · exact hr
  · exact absurd hs hb

/-- The names when one has been entered. -/
theorem namesAfter_enter {r : ℤ} (hflag : a.flag = .ENTER) (hr : r = OK) :
    s.namesAfter a r = Function.update s.names (cName a.string) (some a.numb) := by
  unfold DirState.namesAfter
  rw [if_pos hr, hflag]

/-- Entering a name does what it should. -/
theorem DirInv.enter (h : DirInv sp held s L) (hh : Holds sp held) (hsp : sp.Ok)
    (hp : a.Proper s_rd_only s) (hb : Bearable s a) (hflag : a.flag = .ENTER) :
    CallRight sp held s_rd_only s a := by
  have ha : MaySearch a.fp s_rd_only s.dir .ENTER := hflag ▸ hp.allowed
  obtain ⟨hnumb, hlt⟩ := hp.numb hflag
  have habsent := hp.absent hflag
  have hcount : nameCount s.names ≠ 65535 := by
    unfold Bearable at hb
    rwa [hflag] at hb
  obtain ⟨res, he, hres, -⟩ := h.dir.enter hh hsp ha a.string hlt
  have hsearch : s.search sp s_rd_only a = some res := by
    unfold DirState.search
    rw [hflag]
    exact he
  have hnames : res.r = OK → s.namesAfter a res.r =
      Function.update s.names (cName a.string) (some a.numb) := namesAfter_enter hflag
  -- What is right of a call that has made an entry, of which the directory is as it should be.
  have hright : ∀ L' slots, IsDir sp held res.cache L' res.ldir_ptr.toInode slots →
      Lists (dirEntry sp L' res.ldir_ptr.toInode) slots (s.namesAfter a res.r) →
      max s.slots (nameCount (s.namesAfter a res.r)) = slots →
      (res.r = OK ∨ res.r = ENOSPC ∧ nameCount s.names = s.slots) →
      CallRight sp held s_rd_only s a := by
    intro L' slots hdir hlists hslots henter
    obtain ⟨hinv, hsize⟩ := DirInv.after hdir hlists hslots
    refine ⟨res, hsearch, ⟨fun e => ?_, fun e => ?_, fun _ => henter, fun e => ?_, hsize⟩, L', hinv⟩
    · exact absurd (hflag.symm.trans e) (by decide)
    · exact absurd (hflag.symm.trans e) (by decide)
    · exact absurd (hflag.symm.trans e) (by decide)
  have hlive : hunt (dirEntry sp L s.dir.toInode) .ENTER a.string s.slots = none →
      ∀ k < s.slots, (dirEntry sp L s.dir.toInode k).d_inum ≠ 0 := by
    intro hnone k hk hinum
    have hno := hunt_none.mp hnone k (lt_reach h.dir.small hk)
    rw [wanted_enter.mpr hinum] at hno
    exact Bool.noConfusion hno
  -- The directory has grown by a slot, since all the others are in use.
  have hgrown : ∀ L', res.r = OK →
      hunt (dirEntry sp L s.dir.toInode) .ENTER a.string s.slots = none →
      IsDir sp held res.cache L' res.ldir_ptr.toInode (s.slots + 1) →
      dirEntry sp L' res.ldir_ptr.toInode s.slots = ⟨a.numb, a.string⟩ →
      (∀ k < s.slots, dirEntry sp L' res.ldir_ptr.toInode k = dirEntry sp L s.dir.toInode k) →
      (65472 < s.slots + 1 → ∀ k, s.slots + 1 ≤ k → k < 65536 →
        (dirEntry sp L' res.ldir_ptr.toInode k).d_inum = 0) → CallRight sp held s_rd_only s a := by
    intro L' hr hnone hdir hself hother htail
    have hlists := h.lists.enter (Or.inr ⟨rfl, rfl⟩) (fun e => absurd e (lt_irrefl _)) hnumb habsent
      hself (fun k hk _ => hother k hk) htail
    rw [← hnames hr] at hlists
    have hnew : nameCount (s.namesAfter a res.r) = s.slots + 1 := by
      refine hlists.nameCount_full fun k hk => ?_
      by_cases hks : k = s.slots
      · rw [hks, hself]
        exact hnumb
      · have hk' : k < s.slots := by omega
        rw [hother k hk']
        exact hlive hnone k hk'
    exact hright L' _ hdir hlists (by rw [hnew]; omega) (Or.inl hr)
  cases hres with
  | @slot k L' hk hr hdir hentry =>
    rcases hk with hhunt | ⟨hnone, hks, hreach, hmod⟩
    · -- There is a free slot.
      obtain ⟨hk, hwant, hbefore⟩ := hunt_some hhunt
      have hfree := wanted_enter.mp hwant
      have hks : k < s.slots := by
        by_contra hle
        have hfull : ∀ j < s.slots, (dirEntry sp L s.dir.toInode j).d_inum ≠ 0 := by
          intro j hj hinum
          have hno := hbefore j (by omega)
          rw [wanted_enter.mpr hinum] at hno
          exact Bool.noConfusion hno
        have := (h.not_full hcount hfull).1
        omega
      have hsame : slotsWith s.slots k = s.slots := by
        have hsmall := h.dir.small
        unfold slotsWith unshort
        rw [if_neg (by omega)]
      rw [hsame] at hdir
      have hlists : Lists (dirEntry sp L' res.ldir_ptr.toInode) s.slots
          (Function.update s.names (cName a.string) (some a.numb)) :=
        h.lists.enter (Or.inl ⟨hks, rfl⟩) (fun _ => hfree) hnumb habsent
        (by rw [hentry, if_pos rfl]) (fun k' _ hne => by rw [hentry, if_neg hne])
        (fun hbig k' hle hlt' => by
          rw [hentry, if_neg (by omega)]
          exact h.lists.tail hbig k' hle hlt')
      rw [← hnames hr] at hlists
      exact hright L' _ hdir hlists hlists.max_slots (Or.inl hr)
    · -- There is room behind the other entries in their block.
      subst hks
      have hsmall := (h.not_full hcount (hlive hnone)).2
      have hone : slotsWith s.slots s.slots = s.slots + 1 := by
        unfold slotsWith unshort
        rw [if_pos (by omega)]
        omega
      rw [hone] at hdir
      refine hgrown L' hr hnone hdir (by rw [hentry, if_pos rfl])
        (fun k hk => by rw [hentry, if_neg (by omega)]) fun hbig k hle hlt' => ?_
      have hmod : s.slots % 64 ≠ 0 := hmod
      rw [hentry, if_neg (by omega)]
      exact h.lists.tail (by omega) k (by omega) hlt'
  | @block L' hnone hreach hr hdir hentry =>
    obtain ⟨hrs, hsmall⟩ := h.not_full hcount (hlive hnone)
    have hreach : reach s.slots % 64 = 0 := hreach
    have hone : slotsWith s.slots (reach s.slots) = s.slots + 1 := by
      unfold slotsWith unshort
      rw [hrs, if_pos (by omega)]
      omega
    have hslot : newBlockSlot s.slots = s.slots := by
      show s.slots / 64 * 64 = s.slots
      omega
    rw [hone] at hdir
    rw [hslot] at hentry
    refine hgrown L' hr hnone hdir (by rw [(hentry _).1 rfl, if_pos rfl]) (fun k hk => ?_)
      fun hbig k hle hlt' => ?_
    · refine (hentry k).2 (show k / 64 ≠ s.slots / 64 by omega) hk
    · rw [(hentry k).1 (show k / 64 = s.slots / 64 by omega), if_neg (by omega)]
  | @full L' hnone hhole hr hdir hentry =>
    have hsame : s.namesAfter a res.r = s.names := by
      unfold DirState.namesAfter
      rw [if_neg (by rw [hr]; decide)]
    have hlists : Lists (dirEntry sp L' res.ldir_ptr.toInode) s.slots (s.namesAfter a res.r) := by
      rw [hsame, funext hentry]
      exact h.lists
    exact hright L' _ hdir hlists hlists.max_slots
      (Or.inr ⟨hr, h.lists.nameCount_full (hlive hnone)⟩)

/-- Every call that the directory can stand does what it should. -/
theorem DirInv.call (h : DirInv sp held s L) (hh : Holds sp held) (hsp : sp.Ok)
    (hp : a.Proper s_rd_only s) (hb : Bearable s a) : CallRight sp held s_rd_only s a := by
  cases hflag : a.flag with
  | LOOK_UP => exact h.lookUp hh hsp hp hflag
  | ENTER => exact h.enter hh hsp hp hb hflag
  | DELETE => exact h.delete hh hsp hp hb hflag

/-- What every call keeps. -/
theorem DirInv.step (h : DirInv sp held s L) (hh : Holds sp held) (hsp : sp.Ok)
    (hst : BearableStep sp s_rd_only s a s') : ∃ L', DirInv sp held s' L' := by
  obtain ⟨hst, hb⟩ := hst
  cases hst with
  | @mk res he hp =>
    obtain ⟨res', he', -, hinv⟩ := h.call hh hsp hp hb
    obtain rfl := Option.some.inj (he.symm.trans he')
    exact hinv

/-- In every run of calls that the directory can stand, every such call does what it should of a map
from names to inode numbers, and the size of the directory is that of the slots that have been in
use. -/
theorem directory_map (hreach : Reachable (DirStart sp held) (BearableStep sp s_rd_only) s)
    (hp : a.Proper s_rd_only s) (hb : Bearable s a) :
    ∃ res, s.search sp s_rd_only a = some res ∧ DirRight s a res := by
  obtain ⟨s₀, as, hstart, hrun⟩ := hreach
  obtain ⟨L₀, hdir, hlists⟩ := hstart.dir
  obtain ⟨L, hinv⟩ : ∃ L, DirInv sp held s L := by
    refine hrun.invariant (P := fun s => ∃ L, DirInv sp held s L) ⟨L₀, hdir, hlists⟩ ?_
    rintro s a s' ⟨L, h⟩ hst
    exact h.step hstart.holds hstart.device hst
  obtain ⟨res, he, hright, -⟩ := hinv.call hstart.holds hstart.device hp hb
  exact ⟨res, he, hright⟩

/-! ## A device with a directory -/

/-- A device with zones of 1024 blocks. The only zone in use has the entries of a directory. -/
def dirSuper : SuperBlock where
  s_nzones := 3
  s_imap_blocks := 1
  s_firstdatazone := 1
  s_log_zone_size := 10
  s_max_size := 3 * BLOCK_SIZE * 1024
  s_zmap := [0]
  s_dev := 1

/-- The blocks of the device. -/
def dirDisk (entry : ℕ → DirEntry) : ℕ → ℕ → Block := fun _ b =>
  if b = 3 then setInd (fun _ => 0) 0 3
  else fun k => (entry (NR_DIR_ENTRIES * (b - 1024) + k / DIR_ENTRY_SIZE)).byte (k % DIR_ENTRY_SIZE)

/-- The inode of the directory. -/
def dirInode (slots : ℕ) : OwnedInode where
  i_mode := I_DIRECTORY ||| 0o777
  i_size := DIR_ENTRY_SIZE * slots
  i_zone := fun i => if i = 0 then 1 else NO_ZONE
  i_dev := 1
  i_seek := false
  i_uid := 0
  i_gid := 0

/-- The superuser. -/
def superUser : Caller := ⟨SU_UID, SU_UID, 0, 0⟩

theorem dirSuper_ok : dirSuper.Ok :=
  ⟨by decide, by decide, by decide, by decide, by decide, by decide, by decide⟩

theorem dirHolds : Holds dirSuper smallHeld := ⟨by decide, by decide, by decide⟩

/-- The directory has one zone. -/
theorem dirInode_zone (L : Contents) (r : Ref) :
    zoneRef dirSuper L (dirInode slots).toInode r = if r = .data 0 then 1 else NO_ZONE := by
  have hzone : ∀ i : Fin NR_ZONE_NUMS, (dirInode slots).i_zone i = if i = 0 then 1 else NO_ZONE :=
    fun _ => rfl
  have hnone : ∀ dev i, Fs.entry dirSuper L dev NO_ZONE i = NO_ZONE := fun _ _ => if_pos rfl
  cases r with
  | single => rfl
  | double => rfl
  | leaf i => exact hnone _ i
  | data k =>
    unfold zoneRef
    dsimp only
    split_ifs with h₁ h₂ h₂ h₃ h₃
    · rw [hzone, if_pos (Fin.ext (Ref.data.inj h₂))]
    · rw [hzone, if_neg fun e => h₂ (congrArg Ref.data (congrArg Fin.val e))]
    · exact absurd (Ref.data.inj h₃ ▸ (by decide : 0 < NR_DZONE_NUM)) h₁
    · exact hnone ..
    · exact absurd (Ref.data.inj h₃ ▸ (by decide : 0 < NR_DZONE_NUM)) h₁
    · show Fs.entry dirSuper L _ (Fs.entry dirSuper L _ NO_ZONE _) _ = NO_ZONE
      rw [hnone, hnone]

/-- The directory of the device, which may have any entries and up to 65535 slots. -/
theorem dirDisk_dir {entry : ℕ → DirEntry} {c : Cache} (hs : slots < 65536)
    (h : getBlock (bufPool { staticCache with io := [], disk := dirDisk entry }) 1 3 .NORMAL =
      some (0, c)) : IsDir dirSuper smallHeld c (dirDisk entry) (dirInode slots).toInode slots := by
  have hmap : dirDisk entry dirSuper.s_dev (dirSuper.zmapBlock 0) = setInd (fun _ => 0) 0 3 :=
    if_pos rfl
  have hused : used dirSuper (dirDisk entry) 1 = true := by
    show (bInd (dirDisk entry dirSuper.s_dev (dirSuper.zmapBlock 0)) 0).testBit 1 = true
    rw [hmap]
    decide
  refine ⟨static_mounted (by decide) rfl h, ⟨rfl, fun r hr => ?_, fun r r' hr heq => ?_⟩, rfl, hs,
    fun p hp => ?_⟩
  · rw [dirInode_zone] at hr ⊢
    split_ifs at hr ⊢
    · exact ⟨⟨by decide, by decide⟩, hused⟩
    · exact absurd rfl hr
  · rw [dirInode_zone] at hr heq
    rw [dirInode_zone] at heq
    split_ifs at hr heq with h₁ h₂
    · rw [h₁, h₂]
    · exact absurd heq (by decide)
    · exact absurd rfl hr
    · exact absurd rfl hr
  · have hp : p < 16 * slots := hp
    have hzone : dirSuper.zoneOf p = 0 := by
      rw [dirSuper.zoneOf_eq]
      show p / 1024 / 1024 = 0
      omega
    rw [dirInode_zone, hzone, if_pos rfl]
    decide

/-- The entries of the directory. -/
theorem dirDisk_entry {entry : ℕ → DirEntry} (hk : k < 65536) (hinum : (entry k).d_inum < 65536) :
    dirEntry dirSuper (dirDisk entry) (dirInode slots).toInode k = entry k := by
  refine entryOf_byte hinum fun x hx => ?_
  have hx : x < 16 := hx
  have hzone : dirSuper.zoneOf (DIR_ENTRY_SIZE * k + x) = 0 := by
    rw [dirSuper.zoneOf_eq]
    show (16 * k + x) / 1024 / 1024 = 0
    omega
  have href : zoneRef dirSuper (dirDisk entry) (dirInode slots).toInode
      (.data (dirSuper.zoneOf (DIR_ENTRY_SIZE * k + x))) = 1 := by
    rw [dirInode_zone, hzone, if_pos rfl]
  have hblock : zoneBlock 1 dirSuper.s_log_zone_size (dirSuper.boff (DIR_ENTRY_SIZE * k + x)) =
      1024 + k / 64 := by
    rw [dirSuper.boff_eq]
    show (1 <<< 10 + (16 * k + x) / 1024 % 1024) % 65536 = 1024 + k / 64
    omega
  rw [fileByte_mapped href (by decide), hblock]
  unfold dirDisk
  rw [if_neg (by omega)]
  have hindex : NR_DIR_ENTRIES * (1024 + k / 64 - 1024) +
      (inBlock (DIR_ENTRY_SIZE * k + x)).val / DIR_ENTRY_SIZE = k := by
    show 64 * (1024 + k / 64 - 1024) + (16 * k + x) % 1024 / 16 = k
    omega
  have hplace : (inBlock (DIR_ENTRY_SIZE * k + x)).val % DIR_ENTRY_SIZE = x := by
    show (16 * k + x) % 1024 % 16 = x
    omega
  rw [hindex, hplace]

/-- The names in the slots of a directory. -/
def namesOf (entry : ℕ → DirEntry) (slots : ℕ) (n : List UInt8) : Option ℕ :=
  ((List.range slots).find? fun k => (entry k).d_inum ≠ 0 ∧ cName (entry k).d_name = n).map
    fun k => (entry k).d_inum

/-- Slots with different names list them. -/
theorem lists_namesOf
    (honce : ∀ k k', k < slots → k' < slots → (entry k).d_inum ≠ 0 → (entry k').d_inum ≠ 0 →
      cName (entry k).d_name = cName (entry k').d_name → k = k')
    (htail : 65472 < slots → ∀ k, slots ≤ k → k < 65536 → (entry k).d_inum = 0) :
    Lists entry slots (namesOf entry slots) := by
  refine ⟨fun n v => ?_, honce, htail⟩
  unfold namesOf
  rw [Option.map_eq_some_iff]
  constructor
  · rintro ⟨k, hfind, rfl⟩
    obtain ⟨hk, hmem, -⟩ := List.find?_range_eq_some.mp hfind
    obtain ⟨hne, hname⟩ := of_decide_eq_true hk
    exact ⟨k, List.mem_range.mp hmem, rfl, hne, hname⟩
  · rintro ⟨k, hk, rfl, hne, hname⟩
    refine ⟨k, List.find?_range_eq_some.mpr ⟨decide_eq_true ⟨hne, hname⟩, List.mem_range.mpr hk,
      fun j hj => ?_⟩, rfl⟩
    rw [Bool.not_eq_true', decide_eq_false_iff_not]
    rintro ⟨hnej, hnamej⟩
    exact absurd (honce j k (hj.trans hk) hk hnej hne (hnamej.trans hname.symm)) (Nat.ne_of_lt hj)

/-- A name that no slot has is not there. -/
theorem namesOf_none (h : ∀ k < slots, (entry k).d_inum ≠ 0 → cName (entry k).d_name ≠ n) :
    namesOf entry slots n = none := by
  unfold namesOf
  rw [Option.map_eq_none_iff, List.find?_range_eq_none]
  intro k hk
  rw [Bool.not_eq_true', decide_eq_false_iff_not]
  exact fun ⟨hne, hname⟩ => h k hk hne hname

/-- A directory of the device, with its names. -/
def dirStart (entry : ℕ → DirEntry) (slots : ℕ) (c : Cache) : DirState where
  cache := c
  dir := dirInode slots
  names := namesOf entry slots
  slots := slots

theorem Lists.congr (h : Lists entry slots names) (hs : slots < 65536)
    (he : ∀ k < 65536, entry' k = entry k) : Lists entry' slots names := by
  have hlt : ∀ k < slots, entry' k = entry k := fun k hk => he k (hk.trans hs)
  refine ⟨fun n v => ?_, fun k k' hk hk' => ?_, fun hbig k hle hk => ?_⟩
  · rw [h.find n v]
    refine exists_congr fun k => and_congr_right fun hk => ?_
    rw [hlt k hk]
  · rw [hlt k hk, hlt k' hk']
    exact h.once k k' hk hk'
  · rw [he k hk]
    exact h.tail hbig k hle hk

theorem dirStart_start {c : Cache} (hlists : Lists entry slots (namesOf entry slots))
    (hs : slots < 65536) (hinum : ∀ k < 65536, (entry k).d_inum < 65536)
    (h : getBlock (bufPool { staticCache with io := [], disk := dirDisk entry }) 1 3 .NORMAL =
      some (0, c)) : DirStart dirSuper smallHeld (dirStart entry slots c) :=
  ⟨dirSuper_ok, dirHolds, _, dirDisk_dir hs h,
    hlists.congr hs fun k hk => dirDisk_entry hk (hinum k hk)⟩

/-- A name of one character. -/
def letter (ch : UInt8) : Name := fun j => if j.val = 0 then ch else 0

/-- A new directory of which a name has been deleted. -/
def newDir (k : ℕ) : DirEntry :=
  if k = 0 then ⟨1, letter 46⟩ else if k = 1 then ⟨1, fun j => if j.val < 2 then 46 else 0⟩
  else ⟨0, letter 97⟩

/-- The superuser may search the directory. -/
theorem superUser_may (slots : ℕ) (flag : DirFlag) :
    MaySearch superUser false (dirInode slots) flag := by
  have haccess : ∀ flag : DirFlag, forbidden superUser false (dirInode 0) flag.bits false = OK := by
    intro flag
    cases flag <;> decide
  have hrights : SameRights (dirInode 0) (dirInode slots) := ⟨rfl, rfl, rfl⟩
  exact hrights.may ⟨by decide, haccess flag⟩

/-- A name is entered in a new directory and looked up. -/
theorem directory_map_new : ∃ s, s.names [120] = some 5 ∧
    ∃ res, s.search dirSuper false ⟨superUser, .LOOK_UP, letter 120, 0⟩ = some res ∧
      DirRight s ⟨superUser, .LOOK_UP, letter 120, 0⟩ res := by
  have hget : (getBlock (bufPool { staticCache with io := [], disk := dirDisk newDir }) 1 3
      .NORMAL).map Prod.fst = some 0 := by
    decide +kernel
  obtain ⟨⟨_, c⟩, hc, rfl⟩ := Option.map_eq_some_iff.mp hget
  have hlists : Lists newDir 3 (namesOf newDir 3) :=
    lists_namesOf (fun k k' hk hk' => by
      have hall : ∀ k : Fin 3, ∀ k' : Fin 3, (newDir k).d_inum ≠ 0 → (newDir k').d_inum ≠ 0 →
          cName (newDir k).d_name = cName (newDir k').d_name → (k : ℕ) = k' := by decide
      exact hall ⟨k, hk⟩ ⟨k', hk'⟩) fun h => absurd h (by decide)
  have hinum : ∀ k < 65536, (newDir k).d_inum < 65536 := by
    intro k _
    unfold newDir
    split_ifs <;> decide
  have hstart := dirStart_start hlists (by decide) hinum hc
  obtain ⟨L, hdir, -⟩ := hstart.dir
  have hmay := superUser_may 3
  obtain ⟨res, he, hres, hrights⟩ := hdir.enter hstart.holds hstart.device (hmay _) (letter 120)
    (show 5 < 65536 by decide)
  have habsent : namesOf newDir 3 [120] = none := by decide
  have hp : DirAct.Proper false (dirStart newDir 3 c) ⟨superUser, .ENTER, letter 120, 5⟩ :=
    ⟨hmay _, fun _ => habsent, fun _ => by decide⟩
  have hcount : nameCount (dirStart newDir 3 c).names = 2 :=
    hlists.nameCount_eq.trans (by decide)
  have hb : Bearable (dirStart newDir 3 c) ⟨superUser, .ENTER, letter 120, 5⟩ :=
    show nameCount (dirStart newDir 3 c).names ≠ 65535 by rw [hcount]; decide
  have r₀ : Reachable (DirStart dirSuper smallHeld) (BearableStep dirSuper false) _ :=
    Reachable.of_init hstart
  obtain ⟨res', he', hright⟩ := directory_map r₀ hp hb
  obtain rfl : res' = res := Option.some.inj (he'.symm.trans he)
  have hr : res'.r = OK := by
    rcases hright.enter rfl with hr | ⟨-, hfull⟩
    · exact hr
    · exact absurd (hcount.symm.trans hfull) (show (2 : ℕ) ≠ 3 by decide)
  have r₁ := r₀.of_step ⟨DirStep.mk he' hp, hb⟩
  have hnames : (dirStart newDir 3 c).namesAfter ⟨superUser, .ENTER, letter 120, 5⟩ res'.r =
      Function.update (namesOf newDir 3) [120] (some 5) := namesAfter_enter rfl hr
  refine ⟨_, ?_, directory_map r₁ ⟨hrights.may (hmay _), nofun, nofun⟩ trivial⟩
  show (dirStart newDir 3 c).namesAfter ⟨superUser, .ENTER, letter 120, 5⟩ res'.r [120] = some 5
  rw [hnames, Function.update_self]

/-- A directory of which all the slots that are counted are in use. -/
def fullDir (k : ℕ) : DirEntry :=
  if k < 65535 then ⟨1, fun j =>
    if j.val = 0 then UInt8.ofNat (48 + k % 64)
    else if j.val = 1 then UInt8.ofNat (48 + k / 64 % 64)
    else if j.val = 2 then UInt8.ofNat (48 + k / 4096)
    else 0⟩
  else ⟨0, fun _ => 0⟩

/-- The names have three characters. -/
theorem cName_fullDir (hk : k < 65535) : cName (fullDir k).d_name =
    [UInt8.ofNat (48 + k % 64), UInt8.ofNat (48 + k / 64 % 64), UInt8.ofNat (48 + k / 4096)] := by
  have hne : ∀ n : ℕ, 0 < n → n < 256 → UInt8.ofNat n ≠ 0 := by
    intro n h0 hlt e
    have := congrArg UInt8.toNat e
    rw [UInt8.toNat_ofNat'] at this
    have : n % 256 = 0 := this
    omega
  have h0 := hne (48 + k % 64) (by omega) (by omega)
  have h1 := hne (48 + k / 64 % 64) (by omega) (by omega)
  have h2 := hne (48 + k / 4096) (by omega) (by omega)
  unfold cName fullDir
  rw [if_pos hk]
  simp [List.ofFn_succ, h0, h1, h2, -UInt8.ofNat_add]

/-- No name has one character. -/
theorem fullDir_long (hk : k < 65535) (ch : UInt8) : cName (fullDir k).d_name ≠ [ch] := by
  rw [cName_fullDir hk]
  exact fun e => List.cons_ne_nil _ _ (List.cons.inj e).2

theorem fullDir_lists : Lists fullDir 65535 (namesOf fullDir 65535) := by
  refine lists_namesOf (fun k k' hk hk' _ _ heq => ?_) fun _ k hle hk => ?_
  · rw [cName_fullDir hk, cName_fullDir hk'] at heq
    simp only [List.cons.injEq, and_true, ← UInt8.toNat_inj, UInt8.toNat_ofNat'] at heq
    omega
  · unfold fullDir
    rw [if_neg (by omega)]

/-- A name is entered behind 65535 others. -/
def enterName (ch : UInt8) : DirAct := ⟨superUser, .ENTER, letter ch, 1⟩

/-- A search for a name. -/
def lookUpName (ch : UInt8) : DirAct := ⟨superUser, .LOOK_UP, letter ch, 0⟩

/-- A name more than 65535 is not counted. -/
theorem full_enter {dir : OwnedInode} {res : Searched}
    (h : DirEntered dirSuper smallHeld L dir 65535 string numb res)
    (hfree : ∀ k < 65536, (dirEntry dirSuper L dir.toInode k).d_inum = 0 ↔ k = 65535) :
    res.r = OK ∧ ∃ L', IsDir dirSuper smallHeld res.cache L' res.ldir_ptr.toInode 65535 ∧
      ∀ k', dirEntry dirSuper L' res.ldir_ptr.toInode k' =
        if k' = 65535 then ⟨numb, string⟩ else dirEntry dirSuper L dir.toInode k' := by
  have hsome : ¬hunt (dirEntry dirSuper L dir.toInode) .ENTER string 65535 = none := by
    intro hnone
    have hno := hunt_none.mp hnone 65535 (by decide)
    rw [wanted_enter.mpr ((hfree _ (by decide)).mpr rfl)] at hno
    exact Bool.noConfusion hno
  cases h with
  | @slot k L' hk hr hdir hentry =>
    have hhunt := hk.resolve_right fun ⟨hnone, _⟩ => hsome hnone
    obtain ⟨hlt, hwant, -⟩ := hunt_some hhunt
    obtain rfl : k = 65535 := (hfree k hlt).mp (wanted_enter.mp hwant)
    have hcount : slotsWith 65535 65535 = 65535 := by decide
    rw [hcount] at hdir
    exact ⟨hr, L', hdir, hentry⟩
  | block hk => exact absurd hk hsome
  | full hk => exact absurd hk hsome

/-- With the next one, those in the last block are lost. -/
theorem full_wrap {dir : OwnedInode} {res : Searched} {c : Cache}
    (hdir : IsDir dirSuper smallHeld c L dir.toInode 65535)
    (h : DirEntered dirSuper smallHeld L dir 65535 string numb res)
    (hlive : ∀ k < 65536, (dirEntry dirSuper L dir.toInode k).d_inum ≠ 0) :
    res.r = OK ∧ ∃ L', IsDir dirSuper smallHeld res.cache L' res.ldir_ptr.toInode 65535 ∧
      ∀ k' < 65536, dirEntry dirSuper L' res.ldir_ptr.toInode k' =
        if k' = 65472 then ⟨numb, string⟩ else if k' / 64 = 1023 then ⟨0, fun _ => 0⟩
        else dirEntry dirSuper L dir.toInode k' := by
  cases h with
  | @slot k L' hk hr hdir' hentry =>
    rcases hk with hhunt | ⟨-, -, hreach, -⟩
    · obtain ⟨hlt, hwant, -⟩ := hunt_some hhunt
      exact absurd (wanted_enter.mp hwant) (hlive k hlt)
    · exact absurd hreach (by decide)
  | @block L' hk hreach hr hdir' hentry =>
    have hcount : slotsWith 65535 (reach 65535) = 65535 := by decide
    rw [hcount] at hdir'
    refine ⟨hr, L', hdir', fun k' hk' => ?_⟩
    obtain ⟨hhere, hother⟩ := hentry k'
    by_cases hlast : k' / 64 = 1023
    · rw [hhere hlast, if_pos hlast]
      rfl
    · rw [hother hlast (by omega), if_neg (by omega), if_neg hlast]
  | full hk hhole =>
    have hzone : ∀ p ≤ 16 * 65535, dirSuper.zoneOf p = 0 := by
      intro p hp
      rw [dirSuper.zoneOf_eq]
      show p / 1024 / 1024 = 0
      omega
    have hsize : dir.i_size = 16 * 65535 := hdir.size
    have hmapped := hdir.mapped 0 (by rw [hsize]; decide)
    rw [hzone 0 (by decide), ← hzone dir.i_size hsize.le] at hmapped
    exact absurd hhole hmapped

/-- In a directory of 65535 names that are not of one character, a name of one character is not
found after it and another one have been entered. -/
theorem DirStart.overflow (hstart : DirStart dirSuper smallHeld s)
    (hmay : ∀ flag, MaySearch superUser false s.dir flag)
    (hdir : IsDir dirSuper smallHeld s.cache L s.dir.toInode 65535)
    (hfree : ∀ k < 65536, (dirEntry dirSuper L s.dir.toInode k).d_inum = 0 ↔ k = 65535)
    (hlong : ∀ k < 65535, ∀ ch, cName (dirEntry dirSuper L s.dir.toInode k).d_name ≠ [ch])
    (habsent : ∀ ch, s.names [ch] = none) :
    ∃ s', Reachable (DirStart dirSuper smallHeld) (DirStep dirSuper false) s' ∧
      (lookUpName 120).Proper false s' ∧ s'.names [120] = some 1 ∧
      ∃ res, s'.search dirSuper false (lookUpName 120) = some res ∧ res.r = ENOENT := by
  -- The first name gets the slot behind the last one.
  obtain ⟨res₁, he₁, hres₁, hrights₁⟩ := hdir.enter dirHolds dirSuper_ok (hmay .ENTER) (letter 120)
    (show 1 < 65536 by decide)
  obtain ⟨hr₁, L₁, hd₁, hentry₁⟩ := full_enter hres₁ hfree
  have hlive₁ : ∀ k < 65536, (dirEntry dirSuper L₁ res₁.ldir_ptr.toInode k).d_inum ≠ 0 := by
    intro k hk
    rw [hentry₁]
    split_ifs with hk'
    · exact Nat.one_ne_zero
    · exact fun e => hk' ((hfree k hk).mp e)
  -- The last block is cleared for the second one.
  obtain ⟨res₂, he₂, hres₂, hrights₂⟩ := hd₁.enter dirHolds dirSuper_ok (hrights₁.may (hmay .ENTER))
    (letter 121) (show 1 < 65536 by decide)
  obtain ⟨hr₂, L₂, hd₂, hentry₂⟩ := full_wrap hd₁ hres₂ hlive₁
  have hmay₂ : MaySearch superUser false res₂.ldir_ptr .LOOK_UP :=
    hrights₂.may (hrights₁.may (hmay .LOOK_UP))
  obtain ⟨res, he, -, -, hlook⟩ := hd₂.lookUp dirHolds dirSuper_ok hmay₂ (letter 120) 0
  have hnames₁ : (s.after (enterName 120) res₁).names =
      Function.update s.names (cName (letter 120)) (some 1) :=
    namesAfter_enter (show (enterName 120).flag = .ENTER from rfl) hr₁
  have hnames₂ : ((s.after (enterName 120) res₁).after (enterName 121) res₂).names =
      Function.update (s.after (enterName 120) res₁).names (cName (letter 121)) (some 1) :=
    namesAfter_enter (show (enterName 121).flag = .ENTER from rfl) hr₂
  have hx : cName (letter 120) = [120] := by decide
  have hy : cName (letter 121) = [121] := by decide
  rw [hx] at hnames₁
  rw [hy] at hnames₂
  have habsent₁ : (s.after (enterName 120) res₁).names [121] = none := by
    rw [hnames₁, Function.update_of_ne (by decide), habsent]
  have s₁ : DirStep dirSuper false s (enterName 120) (s.after (enterName 120) res₁) :=
    .mk he₁ ⟨hmay .ENTER, fun _ => hx ▸ habsent 120, fun _ => by decide⟩
  have s₂ : DirStep dirSuper false (s.after (enterName 120) res₁) (enterName 121) _ :=
    .mk he₂ ⟨hrights₁.may (hmay .ENTER), fun _ => hy ▸ habsent₁, fun _ => by decide⟩
  refine ⟨_, ((Reachable.of_init hstart).of_step s₁).of_step s₂, ⟨hmay₂, nofun, nofun⟩, ?_, res, he, ?_⟩
  · rw [hnames₂, Function.update_of_ne (by decide), hnames₁, Function.update_self]
  · cases hhunt : hunt (dirEntry dirSuper L₂ res₂.ldir_ptr.toInode) .LOOK_UP (letter 120) 65535 with
    | none =>
      rw [hhunt] at hlook
      exact hlook
    | some k =>
      obtain ⟨hk, hwant, -⟩ := hunt_some hhunt
      have hk : k < 65536 := hk
      obtain ⟨hinum, hmatch⟩ := (wanted_match (by decide)).mp hwant
      have hname := (isMatch_name (show cName (letter 120) ≠ [] by decide)).mp hmatch
      rw [hx] at hname
      rw [hentry₂ k hk] at hinum hname
      split_ifs at hinum hname with hfirst hlast
      · exact absurd hname (by decide)
      · exact absurd rfl hinum
      · have hne : k ≠ 65535 := by
          rintro rfl
          exact hlast rfl
        rw [hentry₁, if_neg hne] at hname
        exact absurd hname (hlong k (by omega) 120)

/-- A name that has been entered and not deleted is not found. -/
theorem directory_overflow : ∃ s, Reachable (DirStart dirSuper smallHeld) (DirStep dirSuper false) s ∧
    (lookUpName 120).Proper false s ∧ s.names [120] = some 1 ∧
    ∃ res, s.search dirSuper false (lookUpName 120) = some res ∧ res.r = ENOENT := by
  have hget : (getBlock (bufPool { staticCache with io := [], disk := dirDisk fullDir }) 1 3
      .NORMAL).map Prod.fst = some 0 := by
    decide +kernel
  obtain ⟨⟨_, c⟩, hc, rfl⟩ := Option.map_eq_some_iff.mp hget
  have hinum : ∀ k < 65536, (fullDir k).d_inum = if k < 65535 then 1 else 0 := by
    intro k _
    unfold fullDir
    split_ifs <;> rfl
  have hsmall : ∀ k < 65536, (fullDir k).d_inum < 65536 := by
    intro k hk
    rw [hinum k hk]
    split_ifs <;> decide
  have hstart := dirStart_start fullDir_lists (by decide) hsmall hc
  have hmay : ∀ flag, MaySearch superUser false (dirStart fullDir 65535 c).dir flag :=
    superUser_may 65535
  have hdir : IsDir dirSuper smallHeld (dirStart fullDir 65535 c).cache (dirDisk fullDir)
      (dirStart fullDir 65535 c).dir.toInode 65535 := dirDisk_dir (by decide) hc
  have hentry : ∀ k < 65536, dirEntry dirSuper (dirDisk fullDir)
      (dirStart fullDir 65535 c).dir.toInode k = fullDir k :=
    fun k hk => dirDisk_entry hk (hsmall k hk)
  have hnone : ∀ slots ≤ 65535, ∀ ch, (dirStart fullDir slots c).names [ch] = none :=
    fun _ hle ch => namesOf_none fun k hk _ => fullDir_long (hk.trans_le hle) ch
  have habsent := hnone 65535 le_rfl
  generalize dirStart fullDir 65535 c = s at *
  refine hstart.overflow hmay hdir (fun k hk => ?_) (fun k hk ch => ?_) habsent
  · rw [hentry k hk, hinum k hk, ite_eq_right_iff]
    omega
  · rw [hentry k (by omega)]
    exact fullDir_long hk ch

end Minix.Fs
