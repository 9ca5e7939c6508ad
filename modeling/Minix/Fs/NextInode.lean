import Minix.Fs.Holding
import Minix.Fs.SearchErrors

/-!
# Where a name leads

A directory leads to an inode under a name, across the devices that are mounted (`Names.next`).
`advance` goes there, if the inode is in use already or a slot of the table is free for it
(`Tidy.advance_at`).
-/

namespace Minix.Fs

/-- The device and the number of an inode. -/
abbrev InodeKey : Type := ℕ × ℕ

def InodeSlot.key (slot : InodeSlot) : InodeKey := (slot.i_dev, slot.i_num)

/-- The slot of an inode that is in use. -/
def Names.slotOf (s : Names) (d : InodeKey) : Option InodePtr :=
  (List.finRange NR_INODES).find? fun rip =>
    (s.inode rip).i_count > 0 ∧ (s.inode rip).i_dev = d.1 ∧ (s.inode rip).i_num = d.2

/-- An inode as `forbidden` sees it, at present. -/
def Names.ownedAt (s : Names) (d : InodeKey) : OwnedInode :=
  InodeSlot.owned ⟨s.current d.1 d.2, d.1, d.2, 0, false, false, false⟩

/-- The number of slots of a directory, at present. -/
def Names.slotsAt (s : Names) (d : InodeKey) : ℕ :=
  unshort ((s.current d.1 d.2).i_size / DIR_ENTRY_SIZE)

/-- Whether a directory may be searched, at present. -/
def Names.MaySearchAt (s : Names) (fp : Caller) (d : InodeKey) : Prop :=
  (s.current d.1 d.2).i_mode &&& I_TYPE = I_DIRECTORY ∧
    Fs.forbidden fp (rdOnly s d.1) (s.ownedAt d) DirFlag.LOOK_UP.bits false = OK

instance (s : Names) (fp : Caller) (d : InodeKey) : Decidable (s.MaySearchAt fp d) :=
  inferInstanceAs (Decidable (_ ∧ _))

/-- The inode number that a directory has under a name, if it may be searched. -/
def Names.lookUp (s : Names) (fp : Caller) (d : InodeKey) (string : Name) : Option ℕ :=
  if s.MaySearchAt fp d then
    (hunt (s.dirs d.1 d.2) .LOOK_UP string (s.slotsAt d)).map fun k => (s.dirs d.1 d.2 k).d_inum
  else none

/-- The root directory that is mounted on an inode, or else the inode itself. -/
def Names.above (s : Names) (d : InodeKey) : InodeKey :=
  ((s.slotOf d).bind fun rip =>
    if (s.inode rip).i_mount then
      ((List.finRange NR_SUPERS).find? fun sp => (s.super_block sp).s_imount = some rip).map
        fun sp => ((s.super_block sp).s_dev, ROOT_INODE)
    else none).getD d

/-- The inode that a device is mounted on, if `..` leads out of it. -/
def Names.below (s : Names) (d : InodeKey) (numb : ℕ) (string : Name) : Option InodeKey :=
  if numb = ROOT_INODE ∧ d.2 = ROOT_INODE ∧ (List.ofFn string)[1]? = some dot then
    ((List.finRange NR_SUPERS).find? fun sp => sp.val ≠ 0 ∧ (s.super_block sp).s_dev = d.1).bind
      fun sp => (s.super_block sp).s_imount.map fun ip => (s.inode ip).key
  else none

/-- The inode that a directory leads to under a name. -/
def Names.next (s : Names) (fp : Caller) (d : InodeKey) (string : Name) : Option InodeKey :=
  (s.lookUp fp d string).bind fun numb =>
    (s.below d numb string).elim (some (s.above (d.1, numb))) fun up =>
      (s.lookUp fp up string).map fun numb => s.above (up.1, numb)

/-- The mounted devices are in order: an inode that is mounted on is in use, it is not a root
directory, and a super block has it; and a device in use, other than the root device, is mounted on
such an inode. -/
structure MountsOk (s : Names) : Prop where
  on : ∀ rip, (s.inode rip).i_mount = true → 0 < (s.inode rip).i_count ∧
    (s.inode rip).i_num ≠ ROOT_INODE ∧ ∃ sp, (s.super_block sp).s_imount = some rip
  device : ∀ sp, sp.val ≠ 0 → s.Live (s.super_block sp).s_dev →
    ∃ ip, (s.super_block sp).s_imount = some ip ∧ (s.inode ip).i_num ≠ ROOT_INODE

/-- An inode can be got: it is in use, or a slot is free. -/
def Names.Gettable (s : Names) (d : InodeKey) : Prop :=
  s.inUse d.1 d.2 ∨ ∃ rip, (s.inode rip).i_count = 0

/-- An inode is got. -/
def GotAt (res : Option InodePtr × Names) (d : InodeKey) : Prop :=
  ∃ rip, res.1 = some rip ∧ (res.2.inode rip).key = d

variable {s s' : Names} {l : List InodePtr} {rip ip : InodePtr} {dev numb : ℕ} {fp : Caller}
  {d : InodeKey} {string : Name}

/-! ## Slots -/

/-- An inode in use has its slot. -/
theorem Names.Unique.slotOf (h : s.Unique) (hrip : 0 < (s.inode rip).i_count) :
    s.slotOf (s.inode rip).key = some rip := by
  unfold Names.slotOf
  cases hfind : (List.finRange NR_INODES).find? fun a => (s.inode a).i_count > 0 ∧
      (s.inode a).i_dev = (s.inode rip).key.1 ∧ (s.inode a).i_num = (s.inode rip).key.2 with
  | none =>
    have hnot := List.find?_eq_none.mp hfind rip (List.mem_finRange rip)
    exact absurd (decide_eq_true ⟨hrip, rfl, rfl⟩) hnot
  | some a =>
    have ha := List.find?_some hfind
    obtain ⟨hcount, hdev, hnum⟩ := of_decide_eq_true ha
    rw [h a rip hcount hrip hdev hnum]

theorem slotOf_none : s.slotOf d = none ↔ ¬s.inUse d.1 d.2 := by
  unfold Names.slotOf
  rw [List.find?_eq_none]
  constructor
  · rintro h ⟨rip, hu⟩
    exact h rip (List.mem_finRange rip) (decide_eq_true hu)
  · intro h rip _ hmatch
    exact h ⟨rip, of_decide_eq_true hmatch⟩

theorem inUse_key (hrip : 0 < (s.inode rip).i_count) :
    s.inUse (s.inode rip).key.1 (s.inode rip).key.2 := ⟨rip, hrip, rfl, rfl⟩

/-! ## Getting -/

/-- What `get_inode` does: an inode in use has another user, or it is loaded into a free slot, or there
is none. -/
theorem getInode_cases (s : Names) (dev numb : ℕ) :
    (∃ rip, 0 < (s.inode rip).i_count ∧ (s.inode rip).key = (dev, numb) ∧
      getInode s dev numb = (some rip, dupInode s rip)) ∨
    ¬s.inUse dev numb ∧ ((∃ rip, (s.inode rip).i_count = 0 ∧
        getInode s dev numb = (some rip, loadInode s rip dev numb)) ∨
      (∀ rip, (s.inode rip).i_count ≠ 0) ∧
        getInode s dev numb = (none, { s with err_code := ENFILE })) := by
  unfold getInode
  dsimp only
  cases hfind : (List.finRange NR_INODES).find? fun rip => (s.inode rip).i_count > 0 ∧
      (s.inode rip).i_dev = dev ∧ (s.inode rip).i_num = numb with
  | some rip =>
    have hu := List.find?_some hfind
    obtain ⟨hcount, hdev, hnum⟩ := of_decide_eq_true hu
    exact .inl ⟨rip, hcount, Prod.ext hdev hnum, rfl⟩
  | none =>
    refine .inr ⟨?_, ?_⟩
    · rintro ⟨rip, hu⟩
      exact List.find?_eq_none.mp hfind rip (List.mem_finRange rip) (decide_eq_true hu)
    · cases hfree : (List.finRange NR_INODES).reverse.find? fun rip => (s.inode rip).i_count = 0 with
      | some rip =>
        have hzero := List.find?_some hfree
        exact .inl ⟨rip, of_decide_eq_true hzero, rfl⟩
      | none =>
        refine .inr ⟨fun rip hzero => ?_, rfl⟩
        exact List.find?_eq_none.mp hfree rip (List.mem_reverse.mpr (List.mem_finRange rip))
          (decide_eq_true hzero)

/-- An inode in use stays in its slot when another one is got. -/
theorem getInode_key (hrip : 0 < (s.inode rip).i_count) :
    ((getInode s dev numb).2.inode rip).key = (s.inode rip).key := by
  rcases getInode_cases s dev numb with ⟨a, -, -, hget⟩ | ⟨-, ⟨a, hzero, hget⟩ | ⟨-, hget⟩⟩
  · rw [hget]
    by_cases ha : rip = a
    · subst ha
      show ((s.setInode rip _).inode rip).key = _
      rw [Names.setInode_self]
      rfl
    · exact congrArg InodeSlot.key (Names.setInode_ne _ ha)
  · rw [hget]
    have ha : rip ≠ a := fun e => by
      rw [e] at hrip
      omega
    exact congrArg InodeSlot.key (Names.setInode_ne _ ha)
  · rw [hget]

/-- A slot is changed, but not what inode it has. -/
theorem setInode_key {a : InodePtr} {slot : InodeSlot} (h : slot.key = (s.inode a).key) :
    ((s.setInode a slot).inode rip).key = (s.inode rip).key := by
  by_cases ha : rip = a
  · rw [ha, Names.setInode_self, h]
  · rw [Names.setInode_ne _ ha]

theorem truncate_key (slot : InodeSlot) : slot.truncate.key = slot.key := by
  unfold InodeSlot.truncate
  split_ifs <;> rfl

theorem releaseInode_key {a : InodePtr} :
    ((releaseInode s a).inode rip).key = (s.inode rip).key := by
  have hwrite : ∀ t : Names, ((writeInode t a).inode rip).key = (t.inode rip).key :=
    fun t => setInode_key rfl
  have hclear : ∀ t : Names, ((t.setInode a { t.inode a with i_pipe := false }).inode rip).key =
      (t.inode rip).key := fun t => setInode_key rfl
  have htrunc : ((s.setInode a (s.inode a).truncate).inode rip).key = (s.inode rip).key :=
    setInode_key (truncate_key _)
  have hfree : ((freeInode (s.setInode a { (s.inode a).truncate with i_mode := I_NOT_ALLOC })
      (s.inode a).i_dev (s.inode a).i_num).inode rip).key = (s.inode rip).key :=
    setInode_key (truncate_key _)
  unfold releaseInode
  dsimp only
  split_ifs <;> simp only [hwrite, hclear, htrunc, hfree]

/-- An inode stays in its slot when one is put. -/
theorem putInode_key {a : Option InodePtr} : ((putInode s a).inode rip).key = (s.inode rip).key := by
  cases a with
  | none => rfl
  | some a =>
    have hless : ((s.setInode a { s.inode a with i_count := (s.inode a).i_count - 1 }).inode rip).key =
        (s.inode rip).key := setInode_key rfl
    unfold putInode
    dsimp only
    split_ifs
    · exact releaseInode_key.trans hless
    · exact hless

theorem not_gotAt_none : ¬GotAt (none, s) d := by
  rintro ⟨a, ha, -⟩
  exact Option.some_ne_none a ha.symm

/-- An inode is got if and only if it can be got. -/
theorem getInode_at : GotAt (getInode s dev numb) d ↔ d = (dev, numb) ∧ s.Gettable d := by
  rcases getInode_cases s dev numb with ⟨rip, hcount, hkey, hget⟩ |
    ⟨hnot, ⟨rip, hzero, hget⟩ | ⟨hfull, hget⟩⟩
  · have hslot : ((dupInode s rip).inode rip).key = (dev, numb) := by
      unfold dupInode
      rw [Names.setInode_self]
      exact hkey
    rw [hget]
    constructor
    · rintro ⟨a, ha, rfl⟩
      obtain rfl := Option.some.inj ha
      refine ⟨hslot, .inl ?_⟩
      rw [hslot, ← hkey]
      exact inUse_key hcount
    · rintro ⟨rfl, -⟩
      exact ⟨rip, rfl, hslot⟩
  · have hslot : ((loadInode s rip dev numb).inode rip).key = (dev, numb) := by
      unfold loadInode
      rw [Names.setInode_self]
      rfl
    rw [hget]
    constructor
    · rintro ⟨a, ha, rfl⟩
      obtain rfl := Option.some.inj ha
      exact ⟨hslot, .inr ⟨rip, hzero⟩⟩
    · rintro ⟨rfl, -⟩
      exact ⟨rip, rfl, hslot⟩
  · rw [hget]
    constructor
    · exact fun hat => absurd hat not_gotAt_none
    · rintro ⟨rfl, hu | ⟨rip, hzero⟩⟩
      · exact absurd hu hnot
      · exact absurd hzero (hfull rip)

/-! ## Looking up -/

/-- What an inode in use is to `forbidden`. -/
theorem Names.Unique.ownedAt (h : s.Unique) (hrip : 0 < (s.inode rip).i_count) :
    s.ownedAt (s.inode rip).key = (s.inode rip).owned := by
  have hcurrent := h.current hrip
  unfold Names.ownedAt InodeSlot.owned
  show OwnedInode.mk _ _ _ = _
  rw [show s.current (s.inode rip).key.1 (s.inode rip).key.2 = (s.inode rip).toDInode from hcurrent]
  rfl

/-- Whether a directory in use may be searched. -/
theorem Names.Unique.maySearchAt (fp : Caller) (h : s.Unique) (hrip : 0 < (s.inode rip).i_count) :
    s.MaySearchAt fp (s.inode rip).key ↔ (s.inode rip).i_mode &&& I_TYPE = I_DIRECTORY ∧
      s.forbidden fp rip DirFlag.LOOK_UP.bits = OK := by
  have hcurrent : s.current (s.inode rip).key.1 (s.inode rip).key.2 = (s.inode rip).toDInode :=
    h.current hrip
  unfold Names.MaySearchAt
  rw [h.ownedAt hrip, hcurrent]
  rfl

/-- A search of a directory in use looks a name up. -/
theorem Names.Unique.lookUp (fp : Caller) (string : Name) (h : s.Unique)
    (hrip : 0 < (s.inode rip).i_count) :
    s.lookUp fp (s.inode rip).key string =
      if (searchSlots s fp rip string 0 .LOOK_UP).r = OK then
        some (searchSlots s fp rip string 0 .LOOK_UP).numb
      else none := by
  have hcurrent : s.current (s.inode rip).key.1 (s.inode rip).key.2 = (s.inode rip).toDInode :=
    h.current hrip
  have hslots : s.slotsAt (s.inode rip).key = s.slots rip := by
    unfold Names.slotsAt Names.slots
    rw [hcurrent]
  have hmay := h.maySearchAt fp hrip
  unfold Names.lookUp
  rw [hslots]
  unfold searchSlots
  dsimp only
  by_cases htype : (s.inode rip).i_mode &&& I_TYPE = I_DIRECTORY
  · rw [if_neg (not_not.mpr htype)]
    by_cases hperm : s.forbidden fp rip DirFlag.LOOK_UP.bits = OK
    · rw [if_pos (hmay.mpr ⟨htype, hperm⟩), if_neg (not_not.mpr hperm)]
      unfold searchEntries
      dsimp only
      show (hunt (s.entries rip) .LOOK_UP string (s.slots rip)).map _ = _
      rcases Option.eq_none_or_eq_some (hunt (s.entries rip) .LOOK_UP string (s.slots rip)) with
        hhunt | ⟨k, hhunt⟩
      · simp only [hhunt]
        rfl
      · simp only [hhunt]
        rfl
    · rw [if_neg fun hs => hperm (hmay.mp hs).2, if_pos hperm, if_neg hperm]
  · rw [if_neg fun hs => htype (hmay.mp hs).1, if_pos htype]
    rfl

/-- A name leads nowhere if the search for it fails. -/
theorem Names.Unique.lookUp_none (h : s.Unique) (hrip : 0 < (s.inode rip).i_count)
    (hr : (searchSlots s fp rip string 0 .LOOK_UP).r ≠ OK) :
    s.next fp (s.inode rip).key string = none := by
  unfold Names.next
  rw [h.lookUp fp string hrip, if_neg hr]
  rfl

/-! ## Mounted devices -/

/-- What is not in use is not mounted on. -/
theorem above_unused (h : ¬s.inUse d.1 d.2) : s.above d = d := by
  unfold Names.above
  rw [slotOf_none.mpr h]
  rfl

/-- An inode in use that is not mounted on. -/
theorem Names.Unique.above_plain (h : s.Unique) (hrip : 0 < (s.inode rip).i_count)
    (hmount : (s.inode rip).i_mount = false) : s.above (s.inode rip).key = (s.inode rip).key := by
  unfold Names.above
  rw [h.slotOf hrip, Option.bind_some, if_neg (ne_true_of_eq_false hmount)]
  rfl

/-- The root directory that is mounted on an inode is in use, and is not mounted on. -/
theorem Tidy.above_root (ht : Tidy s) (hm : MountsOk s) (hmount : (s.inode rip).i_mount = true) :
    ∃ sp a, ((List.finRange NR_SUPERS).find? fun sp => (s.super_block sp).s_imount = some rip) = some sp ∧
      s.above (s.inode rip).key = ((s.super_block sp).s_dev, ROOT_INODE) ∧
      0 < (s.inode a).i_count ∧ (s.inode a).key = ((s.super_block sp).s_dev, ROOT_INODE) ∧
      (s.inode a).i_mount = false := by
  obtain ⟨hcount, -, sp₀, hsp₀⟩ := hm.on rip hmount
  cases hfind : (List.finRange NR_SUPERS).find? fun sp => (s.super_block sp).s_imount = some rip with
  | none =>
    have hnot := List.find?_eq_none.mp hfind sp₀ (List.mem_finRange sp₀)
    exact absurd (decide_eq_true hsp₀) hnot
  | some sp =>
    have hsp := List.find?_some hfind
    obtain ⟨a, ha, hdev, hnum⟩ := ht.root sp rip (of_decide_eq_true hsp) hmount
    refine ⟨sp, a, rfl, ?_, ha, Prod.ext hdev hnum, ?_⟩
    · unfold Names.above
      rw [ht.unique.slotOf hcount, Option.bind_some, if_pos hmount, hfind]
      rfl
    · exact Bool.eq_false_iff.mpr fun hon => (hm.on a hon).2.1 hnum

/-- An inode that is held is entered: the root directory takes its place that is mounted on it. -/
theorem Holding.enterMounted (ht : Tidy s) (hm : MountsOk s) (h : Holding s s' (rip :: l)) :
    ∃ res, Fs.enterMounted NR_SUPERS s' (some rip) = some res ∧
      GotAt res (s.above (s'.inode rip).key) := by
  by_cases hmount : (s.inode rip).i_mount = true
  · have hmount' : (s'.inode rip).i_mount = true := (h.mount rip).trans hmount
    obtain ⟨hcount, -, -⟩ := hm.on rip hmount
    obtain ⟨sp, a, hfind, habove, ha, hkey, hplain⟩ := ht.above_root hm hmount
    have hrip : (s'.inode rip).key = (s.inode rip).key :=
      Prod.ext (h.sameSlot hcount).1 (h.sameSlot hcount).2.1
    have hput := h.put
    have hget : getInode (putInode s' (some rip)) ((putInode s' (some rip)).super_block sp).s_dev
        ROOT_INODE = (some a, dupInode (putInode s' (some rip)) a) := by
      have hused : 0 < ((putInode s' (some rip)).inode a).i_count := by
        rw [hput.count]
        omega
      have hsame := hput.sameSlot ha
      have hdev : ((putInode s' (some rip)).inode a).i_dev =
          ((putInode s' (some rip)).super_block sp).s_dev := by
        rw [hput.super_block, hsame.1]
        exact congrArg Prod.fst hkey
      have hnum : ((putInode s' (some rip)).inode a).i_num = ROOT_INODE :=
        hsame.2.1.trans (congrArg Prod.snd hkey)
      rw [← hdev, ← hnum]
      exact hput.unique.get hused
    have hdup := @Holding.dup _ _ _ a hput (by
      rw [hput.count]
      omega)
    refine ⟨(some a, dupInode (putInode s' (some rip)) a), ?_, a, rfl, ?_⟩
    · show Fs.enterMounted (4 + 1) s' (some rip) = _
      unfold Fs.enterMounted
      rw [if_pos hmount', h.super_block, hfind, Option.bind_eq_bind, Option.bind_some]
      dsimp only
      rw [hget]
      unfold Fs.enterMounted
      rw [if_neg]
      rw [hdup.mount, hplain]
      exact Bool.false_ne_true
    · rw [hrip, habove, ← hkey]
      exact Prod.ext (hdup.sameSlot ha).1 (hdup.sameSlot ha).2.1
  · have hplain : (s.inode rip).i_mount = false := Bool.eq_false_iff.mpr hmount
    have hplain' : (s'.inode rip).i_mount = false := (h.mount rip).trans hplain
    refine ⟨(some rip, s'), ?_, rip, rfl, ?_⟩
    · show Fs.enterMounted (4 + 1) s' (some rip) = _
      unfold Fs.enterMounted
      rw [if_neg (ne_true_of_eq_false hplain')]
    · rcases h.used (h.pos List.mem_cons_self) with hcount | ⟨hzero, hmem⟩
      · have hkey : (s'.inode rip).key = (s.inode rip).key :=
          Prod.ext (h.sameSlot hcount).1 (h.sameSlot hcount).2.1
        rw [hkey, ht.unique.above_plain hcount hplain]
      · exact (above_unused (h.loaded rip hmem hzero).notUsed).symm

/-! ## While inodes are held -/

/-- What is held could be got. -/
theorem Holding.gettable (h : Holding s s' l) (hmem : rip ∈ l) : s.Gettable (s'.inode rip).key := by
  rcases h.used (h.pos hmem) with hcount | ⟨hzero, -⟩
  · have hsame := h.sameSlot hcount
    exact .inl ⟨rip, hcount, hsame.1.symm, hsame.2.1.symm⟩
  · exact .inr ⟨rip, hzero⟩

/-- The mounted devices stay in order while inodes are held. -/
theorem Holding.mountsOk (ht : Tidy s) (hm : MountsOk s) (h : Holding s s' l) : MountsOk s' where
  on rip hmount := by
    rw [h.mount] at hmount
    obtain ⟨hcount, hnum, sp, hsp⟩ := hm.on rip hmount
    refine ⟨?_, ?_, sp, ?_⟩
    · rw [h.count]
      omega
    · rw [(h.sameSlot hcount).2.1]
      exact hnum
    · rw [h.super_block]
      exact hsp
  device sp hsp hlive := by
    rw [h.super_block] at hlive ⊢
    have hbefore : s.Live (s.super_block sp).s_dev := by
      obtain ⟨a, ha, hdev⟩ := hlive
      have hbefore := h.live ha
      rwa [hdev] at hbefore
    obtain ⟨ip, himount, hnum⟩ := hm.device sp hsp hbefore
    refine ⟨ip, himount, ?_⟩
    rw [(h.sameSlot (ht.imount sp ip himount hbefore)).2.1]
    exact hnum

/-- A name is looked up as before. -/
theorem Holding.lookUp (ht : Tidy s) (h : Holding s s' l) :
    s'.lookUp fp d string = s.lookUp fp d string := by
  have hcurrent := h.current ht.unique d.1 d.2
  have hrd : rdOnly s' d.1 = rdOnly s d.1 := by
    unfold rdOnly
    rw [h.getSuper, h.super_block]
  have howned : s'.ownedAt d = s.ownedAt d := by
    unfold Names.ownedAt
    rw [hcurrent]
  have hmay : s'.MaySearchAt fp d ↔ s.MaySearchAt fp d := by
    unfold Names.MaySearchAt
    rw [hcurrent, hrd, howned]
  have hslots : s'.slotsAt d = s.slotsAt d := by
    unfold Names.slotsAt
    rw [hcurrent]
  unfold Names.lookUp
  rw [hslots, h.dirs]
  exact if_congr hmay rfl rfl

/-- The same inodes are mounted on. -/
theorem Holding.above (ht : Tidy s) (hm : MountsOk s) (h : Holding s s' l) :
    s'.above d = s.above d := by
  by_cases hu : s.inUse d.1 d.2
  · obtain ⟨rip, hcount, hdev, hnum⟩ := hu
    obtain rfl : (s.inode rip).key = d := Prod.ext hdev hnum
    have hcount' : 0 < (s'.inode rip).i_count := by
      rw [h.count]
      omega
    have hkey : (s'.inode rip).key = (s.inode rip).key :=
      Prod.ext (h.sameSlot hcount).1 (h.sameSlot hcount).2.1
    have hslot := h.unique.slotOf hcount'
    rw [hkey] at hslot
    unfold Names.above
    rw [hslot, ht.unique.slotOf hcount, Option.bind_some, Option.bind_some, h.mount, h.super_block]
  · rw [above_unused hu]
    by_cases hu' : s'.inUse d.1 d.2
    · obtain ⟨rip, hcount, hdev, hnum⟩ := hu'
      obtain rfl : (s'.inode rip).key = d := Prod.ext hdev hnum
      apply h.unique.above_plain hcount
      refine Bool.eq_false_iff.mpr fun hmount => hu ?_
      rw [h.mount] at hmount
      have hbefore := (hm.on rip hmount).1
      exact ⟨rip, hbefore, (h.sameSlot hbefore).1.symm, (h.sameSlot hbefore).2.1.symm⟩
    · exact above_unused hu'

/-- What is mounted on a root directory: nothing. -/
theorem Tidy.above_above (ht : Tidy s) (hm : MountsOk s) : s.above (s.above d) = s.above d := by
  by_cases hu : s.inUse d.1 d.2
  · obtain ⟨rip, hcount, hdev, hnum⟩ := hu
    obtain rfl : (s.inode rip).key = d := Prod.ext hdev hnum
    by_cases hmount : (s.inode rip).i_mount = true
    · obtain ⟨sp, a, -, habove, ha, hkey, hplain⟩ := ht.above_root hm hmount
      rw [habove, ← hkey, ht.unique.above_plain ha hplain]
    · rw [ht.unique.above_plain hcount (Bool.eq_false_iff.mpr hmount),
        ht.unique.above_plain hcount (Bool.eq_false_iff.mpr hmount)]
  · rw [above_unused hu, above_unused hu]

/-- `..` leads out of the same devices. -/
theorem Holding.below (ht : Tidy s) (h : Holding s s' l) (hlive : s.Live d.1) :
    s'.below d numb string = s.below d numb string := by
  unfold Names.below
  rw [h.super_block]
  refine ite_congr rfl (fun _ => ?_) fun _ => rfl
  cases hfind : (List.finRange NR_SUPERS).find? fun sp => sp.val ≠ 0 ∧
      (s.super_block sp).s_dev = d.1 with
  | none => rfl
  | some sp =>
    rw [Option.bind_some, Option.bind_some]
    have hsp := List.find?_some hfind
    obtain ⟨-, hdev⟩ := of_decide_eq_true hsp
    cases himount : (s.super_block sp).s_imount with
    | none => rfl
    | some ip =>
      have hip := ht.imount sp ip himount (hdev ▸ hlive)
      exact congrArg some (Prod.ext (h.sameSlot hip).1 (h.sameSlot hip).2.1)

/-- A directory leads where it led. -/
theorem Holding.next (ht : Tidy s) (hm : MountsOk s) (h : Holding s s' l) (hlive : s.Live d.1) :
    s'.next fp d string = s.next fp d string := by
  unfold Names.next
  simp only [h.lookUp ht, h.above ht hm, h.below ht hlive]

/-- When only inodes in use are held, the same ones can be got. -/
theorem Holding.gettable_iff (h : Holding s s' l) (hl : ∀ rip ∈ l, 0 < (s.inode rip).i_count) :
    s'.Gettable d ↔ s.Gettable d := by
  have hzero : ∀ rip, (s'.inode rip).i_count = 0 ↔ (s.inode rip).i_count = 0 := by
    intro rip
    rw [h.count]
    by_cases hmem : rip ∈ l
    · have := hl rip hmem
      omega
    · rw [List.count_eq_zero.mpr hmem, Nat.add_zero]
  have hused : s'.inUse d.1 d.2 ↔ s.inUse d.1 d.2 := by
    refine ⟨?_, h.inUse⟩
    rintro ⟨rip, hcount, hdev, hnum⟩
    have hbefore : 0 < (s.inode rip).i_count := by
      have := (hzero rip).not
      omega
    have hsame := h.sameSlot hbefore
    exact ⟨rip, hbefore, hsame.1.symm.trans hdev, hsame.2.1.symm.trans hnum⟩
  exact or_congr hused (exists_congr hzero)

/-! ## One step of a path -/

/-- A step of a path arrives at the inode that it leads to, if this can be got, or it finds the table
full. -/
structure Arrives (s : Names) (res : Option InodePtr × Names) (goal : Option InodeKey) : Prop where
  got : ∀ d, GotAt res d ↔ goal = some d ∧ s.Gettable d
  full : goal ≠ none → res.1 = none → res.2.err_code = ENFILE

/-- What is got under a name that does not lead out of the device. -/
theorem Tidy.advance_inside (fp : Caller) (fuel : ℕ) (ht : Tidy s) (hm : MountsOk s)
    (hrip : 0 < (s.inode rip).i_count) (hname : string 0 ≠ 0)
    (hin : ∀ r s₁, getInode s (s.inode rip).i_dev (searchSlots s fp rip string 0 .LOOK_UP).numb =
      (some r, s₁) → mountedRoot s₁ rip r string = none) :
    ∃ res, advance fp (fuel + 1) s (some rip) string = some res ∧ Arrives s res
      ((s.lookUp fp (s.inode rip).key string).map fun numb =>
        s.above ((s.inode rip).i_dev, numb)) := by
  unfold advance
  rw [if_neg hname, ht.unique.lookUp fp string hrip]
  dsimp only
  by_cases hok : (searchSlots s fp rip string 0 .LOOK_UP).r = OK
  · rw [if_neg (not_not.mpr hok), if_pos hok, Option.map_some]
    have hhold := ht.holding
    have hfound := hhold.found ht hrip hok
    have hget := hhold.get hfound (hhold.live hrip)
    generalize (searchSlots s fp rip string 0 .LOOK_UP).numb = numb at hin hget ⊢
    have hat := fun d => @getInode_at s (s.inode rip).i_dev numb d
    cases hgot : getInode s (s.inode rip).i_dev numb with
    | mk r s₁ =>
      rw [hgot] at hget hat
      cases r with
      | none =>
        refine ⟨(none, s₁), rfl, fun d => iff_of_false not_gotAt_none ?_, fun _ _ => ?_⟩
        swap
        · have herr := @getInode_err s (s.inode rip).i_dev numb (by rw [hgot])
          rwa [hgot] at herr
        rintro ⟨hd, hcan⟩
        obtain rfl := Option.some.inj hd
        have hnot : ¬s.Gettable ((s.inode rip).i_dev, numb) := fun hg =>
          not_gotAt_none ((hat _).mpr ⟨rfl, hg⟩)
        rw [above_unused fun hu => hnot (.inl hu)] at hcan
        exact hnot hcan
      | some r =>
        have hone : Holding s s₁ [r] := hget.1
        have hkey : (s₁.inode r).key = ((s.inode rip).i_dev, numb) :=
          Prod.ext (hget.2 r rfl).1 (hget.2 r rfl).2
        obtain ⟨res, he, hres⟩ := hone.enterMounted ht hm
        rw [hkey] at hres
        have hhold' := @WalkRule.enterMounted _ _ [] fp ht.walk _ (some r) _ hone he
        obtain ⟨a, ha, hka⟩ := hres
        refine ⟨res, ?_, fun d => ?_, fun _ hnone => ?_⟩
        · dsimp only
          rw [hin r s₁ hgot]
          exact he
        · constructor
          · rintro ⟨b, hb, hkb⟩
            obtain rfl : a = b := Option.some.inj (ha.symm.trans hb)
            rw [← hkb, hka]
            refine ⟨rfl, ?_⟩
            rw [← hka]
            exact hhold'.gettable (by rw [ha]; exact List.mem_cons_self)
          · rintro ⟨hd, -⟩
            exact ⟨a, ha, hka.trans (Option.some.inj hd)⟩
        · exact absurd (ha.symm.trans hnone) (Option.some_ne_none a)
  · rw [if_pos hok, if_neg hok]
    refine ⟨_, rfl, fun d => iff_of_false not_gotAt_none fun hd => ?_, fun h => absurd rfl h⟩
    exact Option.some_ne_none d hd.1.symm

/-- `string[1] == '.'` -/
theorem second_eq : (List.ofFn string)[1]? = some dot ↔ string 1 = dot := by
  rw [List.getElem?_ofFn, dif_pos (show 1 < NAME_MAX by decide)]
  exact Option.some_inj

/-- Out of which super block `..` leads, and where to. -/
theorem mountedRoot_below (string : Name) {r : InodePtr} {s₁ : Names} (ht : Tidy s) (hm : MountsOk s)
    (hrip : 0 < (s.inode rip).i_count) (h : Holding s s₁ l)
    (hkey : (s₁.inode r).key = ((s.inode rip).i_dev, numb)) :
    mountedRoot s₁ rip r string = none ∧ s.below (s.inode rip).key numb string = none ∨
      ∃ sp ip, mountedRoot s₁ rip r string = some sp ∧ numb = ROOT_INODE ∧
        (s.inode rip).i_num = ROOT_INODE ∧ (s.super_block sp).s_imount = some ip ∧
        0 < (s.inode ip).i_count ∧ (s.inode ip).i_num ≠ ROOT_INODE ∧
        s.below (s.inode rip).key numb string = some (s.inode ip).key := by
  have hdev : (s₁.inode r).i_dev = (s.inode rip).i_dev := congrArg Prod.fst hkey
  have hnum : (s₁.inode r).i_num = numb := congrArg Prod.snd hkey
  unfold mountedRoot Names.below
  rw [hdev, hnum, (h.sameSlot hrip).2.1, h.super_block]
  by_cases hroot : numb = ROOT_INODE ∧ (s.inode rip).i_num = ROOT_INODE ∧ string 1 = dot
  · rw [if_pos hroot, if_pos (by exact ⟨hroot.1, hroot.2.1, second_eq.mpr hroot.2.2⟩)]
    show ((List.finRange NR_SUPERS).find? fun sp => sp.val ≠ 0 ∧
        (s.super_block sp).s_dev = (s.inode rip).i_dev) = none ∧
      ((List.finRange NR_SUPERS).find? fun sp => sp.val ≠ 0 ∧
        (s.super_block sp).s_dev = (s.inode rip).i_dev).bind _ = none ∨ _
    cases hfind : (List.finRange NR_SUPERS).find? fun sp => sp.val ≠ 0 ∧
        (s.super_block sp).s_dev = (s.inode rip).i_dev with
    | none => exact .inl ⟨rfl, rfl⟩
    | some sp =>
      have hsp := List.find?_some hfind
      obtain ⟨hne, hsdev⟩ := of_decide_eq_true hsp
      have hlive : s.Live (s.super_block sp).s_dev := ⟨rip, hrip, hsdev.symm⟩
      obtain ⟨ip, himount, hip⟩ := hm.device sp hne hlive
      refine .inr ⟨sp, ip, rfl, hroot.1, hroot.2.1, himount, ht.imount sp ip himount hlive, hip, ?_⟩
      show ((List.finRange NR_SUPERS).find? fun sp => sp.val ≠ 0 ∧
        (s.super_block sp).s_dev = (s.inode rip).i_dev).bind _ = _
      rw [hfind, Option.bind_some, himount]
      rfl
  · rw [if_neg hroot,
      if_neg (by exact fun h => hroot ⟨h.1, h.2.1, second_eq.mp h.2.2⟩)]
    exact .inl ⟨rfl, rfl⟩

/-- Where a name leads that does not lead out of the device. -/
theorem next_inside
    (hbelow : ∀ numb, s.lookUp fp d string = some numb → s.below d numb string = none) :
    s.next fp d string = (s.lookUp fp d string).map fun numb => s.above (d.1, numb) := by
  unfold Names.next
  cases hlook : s.lookUp fp d string with
  | none => rfl
  | some numb =>
    rw [Option.bind_some, hbelow numb hlook]
    rfl

/-- `..` in the root directory of a mounted device is looked up in the directory that the device is
mounted on. -/
theorem Tidy.advance_out (ht : Tidy s) (hm : MountsOk s)
    (hname : string 0 ≠ 0) (hok : (searchSlots s fp rip string 0 .LOOK_UP).r = OK)
    {r : InodePtr} {s₁ : Names} (hone : Holding s s₁ [r])
    (hgot : getInode s (s.inode rip).i_dev (searchSlots s fp rip string 0 .LOOK_UP).numb =
      (some r, s₁)) {sp : Fin NR_SUPERS} (hroot : mountedRoot s₁ rip r string = some sp)
    (himount : (s.super_block sp).s_imount = some ip) (hip : 0 < (s.inode ip).i_count)
    (hplain : (s.inode ip).i_num ≠ ROOT_INODE) :
    ∃ res, advance fp mountFuel s (some rip) string = some res ∧ Arrives s res
      ((s.lookUp fp (s.inode ip).key string).map fun numb => s.above ((s.inode ip).i_dev, numb)) := by
  -- The root directory is put again, and the inode is got that the device is mounted on.
  have hput := hone.put
  have hip₁ : 0 < ((putInode s₁ (some r)).inode ip).i_count := by
    rw [hput.count]
    omega
  have hget := hput.unique.get hip₁
  set s₂ := dupInode (putInode s₁ (some r)) ip with hs₂
  have hheld : Holding s s₂ [ip] := hput.dup hip₁
  have hsame := hheld.sameSlot hip
  have hkey : (s₂.inode ip).key = (s.inode ip).key := Prod.ext hsame.1 hsame.2.1
  have hused := hheld.pos (List.mem_singleton_self ip)
  obtain ⟨res, he, hres⟩ := (hheld.tidy ht).advance_inside fp 4 (hheld.mountsOk ht hm) hused
    hname (by
      intro a s₃ ha
      have hnum := congrArg Prod.snd (@getInode_key s₂ ip (s₂.inode ip).i_dev
        (searchSlots s₂ fp ip string 0 .LOOK_UP).numb hused)
      rw [ha, hkey] at hnum
      exact if_neg fun hroot => hplain (hnum.symm.trans hroot.2.1))
  rw [hkey, hheld.lookUp ht, hsame.1, funext fun numb => hheld.above ht hm] at hres
  -- The loop on mounted devices is gone through once more, without effect.
  have hlast := ((@WalkRule.advance _ _ _ fp ht.walk _ _ _ _ hheld
    (fun a ha => Option.some.inj ha ▸ hused) he).perm List.perm_append_comm).put
  have hend : ∃ res', Fs.enterMounted NR_SUPERS (putInode res.2 (some ip)) res.1 = some res' ∧
      (∀ d, GotAt res' d ↔ GotAt res d) ∧
      (res'.1 = none → res.1 = none ∧ res'.2.err_code = res.2.err_code) := by
    cases hres₁ : res.1 with
    | none =>
      refine ⟨(none, putInode res.2 (some ip)), rfl, fun d => iff_of_false not_gotAt_none ?_,
        fun _ => ⟨rfl, putInode_err⟩⟩
      rintro ⟨a, ha, -⟩
      exact Option.some_ne_none a (ha.symm.trans hres₁)
    | some a =>
      rw [hres₁] at hlast
      obtain ⟨res', he', b, hb, hkb⟩ := Holding.enterMounted ht hm hlast
      rw [putInode_key] at hkb
      have hat : GotAt res (res.2.inode a).key := ⟨a, hres₁, rfl⟩
      have habove : s.above (res.2.inode a).key = (res.2.inode a).key := by
        obtain ⟨numb, -, hd⟩ := Option.map_eq_some_iff.mp ((hres.got _).mp hat).1
        rw [← hd, ht.above_above hm]
      rw [habove] at hkb
      refine ⟨res', he', fun d => ⟨?_, ?_⟩, fun hnone =>
        absurd (hb.symm.trans hnone) (Option.some_ne_none b)⟩
      · rintro ⟨c, hc, rfl⟩
        obtain rfl : b = c := Option.some.inj (hb.symm.trans hc)
        exact ⟨a, hres₁, hkb.symm⟩
      · rintro ⟨c, hc, rfl⟩
        obtain rfl : a = c := Option.some.inj (hres₁.symm.trans hc)
        exact ⟨b, hb, hkb⟩
  obtain ⟨res', he', hsame', hnone⟩ := hend
  refine ⟨res', ?_, fun d => ?_, fun hto hnot => ?_⟩
  case refine_2 =>
    rw [hsame', hres.got, hheld.gettable_iff fun a ha => List.mem_singleton.mp ha ▸ hip]
  case refine_3 =>
    obtain ⟨hres₁, herr⟩ := hnone hnot
    exact herr.trans (hres.full hto hres₁)
  show advance fp (5 + 1) s (some rip) string = _
  unfold advance
  rw [if_neg hname]
  dsimp only
  rw [if_neg (not_not.mpr hok), hgot]
  dsimp only
  rw [hroot]
  dsimp only
  rw [hput.super_block, himount, Option.bind_eq_bind, Option.bind_some, hget, Option.bind_eq_bind]
  dsimp only
  rw [he, Option.bind_some]
  exact he'

/-- What is got under a name: the inode that the directory leads to, if it can be got. -/
theorem Tidy.advance_at (fp : Caller) (ht : Tidy s) (hm : MountsOk s)
    (hrip : 0 < (s.inode rip).i_count) (hname : string 0 ≠ 0) :
    ∃ res, advance fp mountFuel s (some rip) string = some res ∧
      Arrives s res (s.next fp (s.inode rip).key string) := by
  by_cases hok : (searchSlots s fp rip string 0 .LOOK_UP).r = OK
  · have hlook := ht.unique.lookUp fp string hrip
    rw [if_pos hok] at hlook
    have hhold := ht.holding
    have hget := hhold.get (hhold.found ht hrip hok) (hhold.live hrip)
    cases hgot : getInode s (s.inode rip).i_dev (searchSlots s fp rip string 0 .LOOK_UP).numb with
    | mk got s₁ =>
      rw [hgot] at hget
      cases got with
      | none =>
        have hstep := ht.advance_inside fp 5 hm hrip hname (by
          intro a s₃ ha
          rw [hgot] at ha
          exact absurd (congrArg Prod.fst ha).symm (Option.some_ne_none a))
        rw [next_inside]
        · exact hstep
        · intro numb hnumb
          obtain rfl := Option.some.inj (hlook.symm.trans hnumb)
          -- The root directory itself would be in use.
          refine if_neg fun hroot => ?_
          have hself : (s.inode rip).key = ((s.inode rip).i_dev,
              (searchSlots s fp rip string 0 .LOOK_UP).numb) :=
            Prod.ext rfl (Eq.trans hroot.2.1 hroot.1.symm)
          have hat := getInode_at.mpr ⟨hself, .inl (inUse_key hrip)⟩
          rw [hgot] at hat
          exact not_gotAt_none hat
      | some r =>
        have hone : Holding s s₁ [r] := hget.1
        have hkey : (s₁.inode r).key = ((s.inode rip).i_dev,
            (searchSlots s fp rip string 0 .LOOK_UP).numb) :=
          Prod.ext (hget.2 r rfl).1 (hget.2 r rfl).2
        rcases mountedRoot_below string ht hm hrip hone hkey with
          ⟨hroot, hbelow⟩ | ⟨sp, ip, hroot, -, -, himount, hip, hplain, hbelow⟩
        · have hstep := ht.advance_inside fp 5 hm hrip hname (by
            intro a s₃ ha
            obtain ⟨ha₁, rfl⟩ := Prod.mk.inj (hgot.symm.trans ha)
            obtain rfl := Option.some.inj ha₁
            exact hroot)
          rw [next_inside]
          · exact hstep
          · intro numb hnumb
            obtain rfl := Option.some.inj (hlook.symm.trans hnumb)
            exact hbelow
        · have hstep := ht.advance_out hm hname hok hone hgot hroot himount hip hplain
          have hnext : s.next fp (s.inode rip).key string =
              (s.lookUp fp (s.inode ip).key string).map
                fun numb => s.above ((s.inode ip).i_dev, numb) := by
            unfold Names.next
            rw [hlook, Option.bind_some, hbelow]
            rfl
          rw [hnext]
          exact hstep
  · have hnone := @Names.Unique.lookUp_none _ _ _ string ht.unique hrip hok
    refine ⟨(none, { s with err_code := (searchSlots s fp rip string 0 .LOOK_UP).r }), ?_, fun d => ?_,
      fun hsome => absurd hnone hsome⟩
    · show advance fp (5 + 1) s (some rip) string = _
      unfold advance
      rw [if_neg hname]
      dsimp only
      rw [if_pos hok]
    · refine iff_of_false not_gotAt_none fun hd => ?_
      rw [hnone] at hd
      exact Option.some_ne_none d hd.1.symm

end Minix.Fs
