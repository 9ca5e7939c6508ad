import Mathlib.Data.List.Count
import Minix.Fs.Walk

/-!
# Inodes that are held

A search of a path gets inodes and puts them again. In a table in which everything is in order
(`Tidy`), it does no more than count their users: the disk, the maps and the inodes that are in use
stay as they are, and in the end the inode is held that is returned (`Holding.eatPath`).
-/

namespace Minix.Fs

/-- The inode is in use. -/
def Names.inUse (s : Names) (dev numb : ℕ) : Prop :=
  ∃ rip, 0 < (s.inode rip).i_count ∧ (s.inode rip).i_dev = dev ∧ (s.inode rip).i_num = numb

instance (s : Names) (dev numb : ℕ) : Decidable (s.inUse dev numb) :=
  inferInstanceAs (Decidable (∃ rip, 0 < (s.inode rip).i_count ∧ (s.inode rip).i_dev = dev ∧
    (s.inode rip).i_num = numb))

/-- What an inode is at present: what the table has if it is in use, and else what the disk has. -/
def Names.current (s : Names) (dev numb : ℕ) : DInode :=
  match (List.finRange NR_INODES).find? fun rip =>
    (s.inode rip).i_count > 0 ∧ (s.inode rip).i_dev = dev ∧ (s.inode rip).i_num = numb with
  | some rip => (s.inode rip).toDInode
  | none => s.disk dev numb

/-- An inode is once in the table. -/
def Names.Unique (s : Names) : Prop :=
  ∀ a b, 0 < (s.inode a).i_count → 0 < (s.inode b).i_count → (s.inode a).i_dev = (s.inode b).i_dev →
    (s.inode a).i_num = (s.inode b).i_num → a = b

/-- An inode of the device is in use. -/
def Names.Live (s : Names) (dev : ℕ) : Prop :=
  ∃ rip, 0 < (s.inode rip).i_count ∧ (s.inode rip).i_dev = dev

/-- An inode that has a name has a link, unless it is in use. -/
def Names.Linked (s : Names) (dev numb : ℕ) : Prop :=
  ¬s.inUse dev numb → (s.disk dev numb).i_nlinks ≠ 0

/-- The tables are in order, and the entries of directories on devices in use are of inodes that
have links. -/
structure Tidy (s : Names) : Prop where
  unique : s.Unique
  idle : ∀ rip, (s.inode rip).i_count = 0 → (s.inode rip).i_pipe = false
  dev : ∀ rip, 0 < (s.inode rip).i_count → (s.inode rip).i_dev ≠ NO_DEV
  super : ∀ rip, 0 < (s.inode rip).i_count → (getSuper s (s.inode rip).i_dev).isSome
  entry : ∀ dev numb k, s.Live dev → (s.current dev numb).i_mode &&& I_TYPE = I_DIRECTORY →
    k < reach (unshort ((s.current dev numb).i_size / DIR_ENTRY_SIZE)) →
    (s.dirs dev numb k).d_inum ≠ 0 → s.Linked dev (s.dirs dev numb k).d_inum
  imount : ∀ sp ip, (s.super_block sp).s_imount = some ip → s.Live (s.super_block sp).s_dev →
    0 < (s.inode ip).i_count
  root : ∀ sp ip, (s.super_block sp).s_imount = some ip → (s.inode ip).i_mount = true →
    s.inUse (s.super_block sp).s_dev ROOT_INODE

/-- The directories of a process are in use. -/
structure Fproc.Held (fp : Fproc) (s : Names) : Prop where
  rootdir : ∀ rip, fp.fp_rootdir = some rip → 0 < (s.inode rip).i_count
  workdir : ∀ rip, fp.fp_workdir = some rip → 0 < (s.inode rip).i_count

/-- A slot of the table has an inode that was not in use before. -/
structure Loaded (s : Names) (slot : InodeSlot) : Prop where
  disk : slot.toDInode = s.disk slot.i_dev slot.i_num
  clean : slot.i_dirt = false
  notUsed : ¬s.inUse slot.i_dev slot.i_num
  linked : slot.i_nlinks ≠ 0
  live : s.Live slot.i_dev

/-- The state is as before, except that the inodes `l` are held in addition. -/
structure Holding (s s' : Names) (l : List InodePtr) : Prop where
  super_block : s'.super_block = s.super_block
  disk : s'.disk = s.disk
  imap : s'.imap = s.imap
  dirs : s'.dirs = s.dirs
  count : ∀ rip, (s'.inode rip).i_count = (s.inode rip).i_count + l.count rip
  kept : ∀ rip, 0 < (s.inode rip).i_count →
    s'.inode rip = { s.inode rip with i_count := (s'.inode rip).i_count }
  idle : ∀ rip, (s.inode rip).i_count = 0 → (s'.inode rip).i_pipe = false
  mount : ∀ rip, (s'.inode rip).i_mount = (s.inode rip).i_mount
  loaded : ∀ rip ∈ l, (s.inode rip).i_count = 0 → Loaded s (s'.inode rip)
  unique : s'.Unique

variable {s s' s'' : Names} {l l' : List InodePtr} {rip rip' : InodePtr} {dev numb : ℕ}
  {fp : Caller}

/-! ## The inode at present -/

/-- An inode that is in use is what the table has. -/
theorem Names.Unique.current (h : s.Unique) (hrip : 0 < (s.inode rip).i_count) :
    s.current (s.inode rip).i_dev (s.inode rip).i_num = (s.inode rip).toDInode := by
  unfold Names.current
  cases hfind : (List.finRange NR_INODES).find? fun a => (s.inode a).i_count > 0 ∧
      (s.inode a).i_dev = (s.inode rip).i_dev ∧ (s.inode a).i_num = (s.inode rip).i_num with
  | none =>
    have hnot := List.find?_eq_none.mp hfind rip (List.mem_finRange rip)
    exact absurd (decide_eq_true ⟨hrip, rfl, rfl⟩) hnot
  | some a =>
    have ha := List.find?_some hfind
    obtain ⟨hcount, hdev, hnum⟩ := of_decide_eq_true ha
    rw [h a rip hcount hrip hdev hnum]

/-- An inode that is not in use is what the disk has. -/
theorem Names.current_disk (h : ¬s.inUse dev numb) : s.current dev numb = s.disk dev numb := by
  unfold Names.current
  cases hfind : (List.finRange NR_INODES).find? fun a => (s.inode a).i_count > 0 ∧
      (s.inode a).i_dev = dev ∧ (s.inode a).i_num = numb with
  | none => rfl
  | some a =>
    have ha := List.find?_some hfind
    exact absurd ⟨a, of_decide_eq_true ha⟩ h

/-! ## What is held -/

/-- At first nothing is held. -/
theorem Tidy.holding (h : Tidy s) : Holding s s [] where
  super_block := rfl
  disk := rfl
  imap := rfl
  dirs := rfl
  count _ := rfl
  kept _ _ := rfl
  idle := h.idle
  mount _ := rfl
  loaded _ hmem := absurd hmem List.not_mem_nil
  unique := h.unique

/-- The order in which inodes are held does not matter. -/
theorem Holding.perm (h : Holding s s' l) (hp : l.Perm l') : Holding s s' l' where
  super_block := h.super_block
  disk := h.disk
  imap := h.imap
  dirs := h.dirs
  count rip := by rw [h.count, hp.count_eq]
  kept := h.kept
  idle := h.idle
  mount := h.mount
  loaded rip hmem := h.loaded rip (hp.mem_iff.mpr hmem)
  unique := h.unique

/-- The variable `err_code` does not matter. -/
theorem Holding.setErr (h : Holding s s' l) (err_code : ℤ) :
    Holding s { s' with err_code := err_code } l where
  super_block := h.super_block
  disk := h.disk
  imap := h.imap
  dirs := h.dirs
  count := h.count
  kept := h.kept
  idle := h.idle
  mount := h.mount
  loaded := h.loaded
  unique := h.unique

/-- An inode that is held is in use. -/
theorem Holding.pos (h : Holding s s' l) (hmem : rip ∈ l) : 0 < (s'.inode rip).i_count := by
  have hcount := List.count_pos_iff.mpr hmem
  have := h.count rip
  omega

/-- What is in use stays in its slot. -/
theorem Holding.sameSlot (h : Holding s s' l) (hrip : 0 < (s.inode rip).i_count) :
    (s'.inode rip).i_dev = (s.inode rip).i_dev ∧ (s'.inode rip).i_num = (s.inode rip).i_num ∧
      (s'.inode rip).toDInode = (s.inode rip).toDInode := by
  rw [h.kept rip hrip]
  exact ⟨rfl, rfl, rfl⟩

/-- What was in use is in use. -/
theorem Holding.inUse (h : Holding s s' l) (hu : s.inUse dev numb) : s'.inUse dev numb := by
  obtain ⟨rip, hcount, hdev, hnum⟩ := hu
  obtain ⟨hd, hn, -⟩ := h.sameSlot hcount
  refine ⟨rip, ?_, hd.trans hdev, hn.trans hnum⟩
  have := h.count rip
  omega

/-- A slot in use has what was in use, or an inode that is held. -/
theorem Holding.used (h : Holding s s' l) (hrip : 0 < (s'.inode rip).i_count) :
    0 < (s.inode rip).i_count ∨ (s.inode rip).i_count = 0 ∧ rip ∈ l := by
  by_cases hzero : (s.inode rip).i_count = 0
  · refine .inr ⟨hzero, List.count_pos_iff.mp ?_⟩
    have := h.count rip
    omega
  · exact .inl (by omega)

/-- The inodes are at present what they were. -/
theorem Holding.current (h : Holding s s' l) (hu : s.Unique) (dev numb : ℕ) :
    s'.current dev numb = s.current dev numb := by
  by_cases hnow : s'.inUse dev numb
  · obtain ⟨rip, hcount, rfl, rfl⟩ := hnow
    rw [h.unique.current hcount]
    rcases h.used hcount with hpos | ⟨hzero, hmem⟩
    · obtain ⟨hd, hn, hdata⟩ := h.sameSlot hpos
      rw [hd, hn, hu.current hpos, hdata]
    · have hl := h.loaded rip hmem hzero
      rw [Names.current_disk hl.notUsed, hl.disk]
  · have hbefore : ¬s.inUse dev numb := fun hu => hnow (h.inUse hu)
    rw [Names.current_disk hnow, Names.current_disk hbefore, h.disk]

/-- The super block of a device is where it was. -/
theorem Holding.getSuper (h : Holding s s' l) (dev : ℕ) : getSuper s' dev = getSuper s dev := by
  unfold Fs.getSuper
  rw [h.super_block]

/-- An inode that is in use is on a device that was so before. -/
theorem Holding.live (h : Holding s s' l) (hused : 0 < (s'.inode rip).i_count) :
    s.Live (s'.inode rip).i_dev := by
  rcases h.used hused with hpos | ⟨hzero, hmem⟩
  · exact ⟨rip, hpos, (h.sameSlot hpos).1.symm⟩
  · exact (h.loaded rip hmem hzero).live

/-- A device that is in use has a super block. -/
theorem Tidy.onDevice (ht : Tidy s) (hlive : s.Live dev) :
    dev ≠ NO_DEV ∧ (Fs.getSuper s dev).isSome := by
  obtain ⟨rip, hpos, rfl⟩ := hlive
  exact ⟨ht.dev rip hpos, ht.super rip hpos⟩

/-- An inode that is in use is on a device. -/
theorem Holding.onDevice (h : Holding s s' l) (ht : Tidy s) (hused : 0 < (s'.inode rip).i_count) :
    (s'.inode rip).i_dev ≠ NO_DEV ∧ (Fs.getSuper s (s'.inode rip).i_dev).isSome :=
  ht.onDevice (h.live hused)

/-- An inode that is in use was so before, or has a link. -/
theorem Holding.linked (h : Holding s s' l) (hused : 0 < (s'.inode rip).i_count) :
    s.Linked (s'.inode rip).i_dev (s'.inode rip).i_num := by
  intro hnot
  rcases h.used hused with hpos | ⟨hzero, hmem⟩
  · obtain ⟨hd, hn, -⟩ := h.sameSlot hpos
    exact absurd ⟨rip, hpos, hd.symm, hn.symm⟩ hnot
  · have hl := h.loaded rip hmem hzero
    rw [← hl.disk]
    exact hl.linked

/-! ## Getting and putting -/

/-- A slot is changed, but not what inode it has. -/
structure SameInode (slot slot' : InodeSlot) : Prop where
  dev : slot'.i_dev = slot.i_dev
  num : slot'.i_num = slot.i_num
  count : slot'.i_count = slot.i_count

theorem SameInode.all {slot : InodeSlot} (h : SameInode (s.inode rip) slot) (a : InodePtr) :
    SameInode (s.inode a) ((s.setInode rip slot).inode a) := by
  by_cases ha : a = rip
  · subst ha
    rw [Names.setInode_self]
    exact h
  · rw [Names.setInode_ne _ ha]
    exact ⟨rfl, rfl, rfl⟩

/-- An inode is still once in the table. -/
theorem Names.Unique.setInode (h : s.Unique) {slot : InodeSlot}
    (hslot : SameInode (s.inode rip) slot) : (s.setInode rip slot).Unique := by
  intro a b ha hb hdev hnum
  have hsame := fun a => SameInode.all hslot a
  rw [(hsame a).count] at ha
  rw [(hsame b).count] at hb
  rw [(hsame a).dev, (hsame b).dev] at hdev
  rw [(hsame a).num, (hsame b).num] at hnum
  exact h a b ha hb hdev hnum

/-- The inodes are at present what they were, when only fields change that are not on the disk. -/
theorem Names.current_setInode {slot : InodeSlot} (hslot : SameInode (s.inode rip) slot)
    (hdata : slot.toDInode = (s.inode rip).toDInode) (dev numb : ℕ) :
    (s.setInode rip slot).current dev numb = s.current dev numb := by
  have hsame := fun a => SameInode.all hslot a
  have hall : ∀ a, ((s.setInode rip slot).inode a).toDInode = (s.inode a).toDInode := fun a => by
    by_cases ha : a = rip
    · subst ha
      rw [Names.setInode_self, hdata]
    · rw [Names.setInode_ne _ ha]
  unfold Names.current
  simp only [(hsame _).count, (hsame _).dev, (hsame _).num, hall]
  rfl

/-- Only one slot of the table is changed. -/
theorem Holding.setInode (h : Holding s s' l) {slot : InodeSlot}
    (hl : ∀ a ≠ rip, l'.count a = l.count a)
    (hcount : slot.i_count = (s.inode rip).i_count + l'.count rip)
    (hkept : 0 < (s.inode rip).i_count → slot = { s.inode rip with i_count := slot.i_count })
    (hidle : (s.inode rip).i_count = 0 → slot.i_pipe = false)
    (hmount : slot.i_mount = (s.inode rip).i_mount)
    (hloaded : (s.inode rip).i_count = 0 → rip ∈ l' → Loaded s slot)
    (hunique : 0 < slot.i_count → ∀ b ≠ rip, 0 < (s'.inode b).i_count →
      (s'.inode b).i_dev = slot.i_dev → (s'.inode b).i_num ≠ slot.i_num) :
    Holding s (s'.setInode rip slot) l' := by
  have hmem : ∀ a ≠ rip, a ∈ l' → a ∈ l := fun a ha hmem => by
    rw [← List.count_pos_iff, ← hl a ha]
    exact List.count_pos_iff.mpr hmem
  constructor
  case super_block => exact h.super_block
  case disk => exact h.disk
  case imap => exact h.imap
  case dirs => exact h.dirs
  case count =>
    intro a
    by_cases ha : a = rip
    · rw [ha, Names.setInode_self, hcount]
    · rw [Names.setInode_ne _ ha, hl a ha, h.count]
  case kept =>
    intro a hpos
    by_cases ha : a = rip
    · subst ha
      rw [Names.setInode_self]
      exact hkept hpos
    · rw [Names.setInode_ne _ ha]
      exact h.kept a hpos
  case idle =>
    intro a hzero
    by_cases ha : a = rip
    · subst ha
      rw [Names.setInode_self]
      exact hidle hzero
    · rw [Names.setInode_ne _ ha]
      exact h.idle a hzero
  case mount =>
    intro a
    by_cases ha : a = rip
    · rw [ha, Names.setInode_self, hmount]
    · rw [Names.setInode_ne _ ha, h.mount]
  case loaded =>
    intro a ha' hzero
    by_cases ha : a = rip
    · subst ha
      rw [Names.setInode_self]
      exact hloaded hzero ha'
    · rw [Names.setInode_ne _ ha]
      exact h.loaded a (hmem a ha ha') hzero
  case unique =>
    intro a b ha hb hdev hnum
    by_cases hra : a = rip
    · by_cases hrb : b = rip
      · rw [hra, hrb]
      · subst hra
        rw [Names.setInode_self] at ha hdev hnum
        rw [Names.setInode_ne _ hrb] at hb hdev hnum
        exact absurd hnum.symm (hunique ha b hrb hb hdev.symm)
    · rw [Names.setInode_ne _ hra] at ha hdev hnum
      by_cases hrb : b = rip
      · subst hrb
        rw [Names.setInode_self] at hb hdev hnum
        exact absurd hnum (hunique hb a hra ha hdev)
      · rw [Names.setInode_ne _ hrb] at hb hdev hnum
        exact h.unique a b ha hb hdev hnum

/-- Another user of an inode in use holds it. -/
theorem Holding.dup (h : Holding s s' l) (hrip : 0 < (s'.inode rip).i_count) :
    Holding s (dupInode s' rip) (rip :: l) := by
  apply h.setInode
  case hl => exact fun a ha => List.count_cons_of_ne (Ne.symm ha)
  case hcount => rw [List.count_cons_self, h.count, Nat.add_assoc]
  case hkept =>
    intro hpos
    rw [h.kept rip hpos]
  case hidle => exact h.idle rip
  case hmount => exact h.mount rip
  case hloaded =>
    intro hzero _
    -- It is not the first user, so that it is held already.
    rcases h.used hrip with hpos | ⟨-, hl⟩
    · exact absurd hzero (Nat.pos_iff_ne_zero.mp hpos)
    · have hload := h.loaded rip hl hzero
      exact ⟨hload.disk, hload.clean, hload.notUsed, hload.linked, hload.live⟩
  case hunique =>
    intro _ b hb hcount hdev hnum
    exact hb (h.unique b rip hcount hrip hdev hnum)

/-- An inode that is not in use is loaded into a free slot. -/
theorem Holding.load (h : Holding s s' l) (hfree : (s'.inode rip).i_count = 0)
    (hnot : ¬s'.inUse dev numb) (hlinked : s.Linked dev numb) (hlive : s.Live dev) :
    Holding s (loadInode s' rip dev numb) (rip :: l) := by
  have hzero : (s.inode rip).i_count = 0 ∧ l.count rip = 0 := by
    have := h.count rip
    omega
  have hunused : ¬s.inUse dev numb := fun hu => hnot (h.inUse hu)
  apply h.setInode
  case hl => exact fun a ha => List.count_cons_of_ne (Ne.symm ha)
  case hcount => rw [List.count_cons_self, hzero.1, hzero.2]
  case hkept => exact fun hpos => absurd hzero.1 (Nat.pos_iff_ne_zero.mp hpos)
  case hidle => exact h.idle rip
  case hmount => exact h.mount rip
  case hloaded =>
    intro _ _
    have hlink : (s'.disk dev numb).i_nlinks ≠ 0 := by
      rw [h.disk]
      exact hlinked hunused
    exact ⟨by rw [h.disk], rfl, hunused, hlink, hlive⟩
  case hunique => exact fun _ b _ hcount hd hn => hnot ⟨b, hcount, hd, hn⟩

/-- An inode that is got is held. If there is none, no slot is free. -/
theorem Holding.get (h : Holding s s' l) (hlinked : s.Linked dev numb) (hlive : s.Live dev) :
    Holding s (getInode s' dev numb).2 ((getInode s' dev numb).1.toList ++ l) ∧
      ∀ rip, (getInode s' dev numb).1 = some rip →
        ((getInode s' dev numb).2.inode rip).i_dev = dev ∧
          ((getInode s' dev numb).2.inode rip).i_num = numb := by
  unfold getInode
  dsimp only
  cases hfind : (List.finRange NR_INODES).find? fun rip => (s'.inode rip).i_count > 0 ∧
      (s'.inode rip).i_dev = dev ∧ (s'.inode rip).i_num = numb with
  | some rip =>
    have hu := List.find?_some hfind
    obtain ⟨hcount, hd, hn⟩ := of_decide_eq_true hu
    refine ⟨h.dup hcount, fun a ha => ?_⟩
    obtain rfl := Option.some.inj ha
    unfold dupInode
    rw [Names.setInode_self]
    exact ⟨hd, hn⟩
  | none =>
    have hnot : ¬s'.inUse dev numb := by
      rintro ⟨rip, hu⟩
      exact List.find?_eq_none.mp hfind rip (List.mem_finRange rip) (decide_eq_true hu)
    cases hfree : (List.finRange NR_INODES).reverse.find? fun rip => (s'.inode rip).i_count = 0 with
    | none => exact ⟨h.setErr ENFILE, fun a ha => nomatch ha⟩
    | some xp =>
      have hzero := List.find?_some hfree
      refine ⟨h.load (of_decide_eq_true hzero) hnot hlinked hlive, fun a ha => ?_⟩
      obtain rfl := Option.some.inj ha
      unfold loadInode
      rw [Names.setInode_self]
      exact ⟨rfl, rfl⟩

/-- An inode in use is got from its slot. -/
theorem Names.Unique.get (h : s.Unique) (hrip : 0 < (s.inode rip).i_count) :
    getInode s (s.inode rip).i_dev (s.inode rip).i_num = (some rip, dupInode s rip) := by
  unfold getInode
  dsimp only
  cases hfind : (List.finRange NR_INODES).find? fun a => (s.inode a).i_count > 0 ∧
      (s.inode a).i_dev = (s.inode rip).i_dev ∧ (s.inode a).i_num = (s.inode rip).i_num with
  | none =>
    have hnot := List.find?_eq_none.mp hfind rip (List.mem_finRange rip)
    exact absurd (decide_eq_true ⟨hrip, rfl, rfl⟩) hnot
  | some a =>
    have ha := List.find?_some hfind
    obtain ⟨hcount, hdev, hnum⟩ := of_decide_eq_true ha
    rw [h a rip hcount hrip hdev hnum]

/-- What is done with an inode that has a link, and is neither a pipe nor dirty. -/
theorem releaseInode_clean (hlinked : (s.inode rip).i_nlinks ≠ 0)
    (hpipe : (s.inode rip).i_pipe = false) (hclean : (s.inode rip).i_dirt = false) :
    releaseInode s rip = s := by
  have hself : s.setInode rip (s.inode rip) = s := by
    unfold Names.setInode
    rw [Function.update_eq_self]
  have hslot : { s.inode rip with i_pipe := false } = s.inode rip := by rw [← hpipe]
  unfold releaseInode
  dsimp only at hslot ⊢
  rw [if_neg hlinked, if_neg (ne_true_of_eq_false hpipe), hslot, hself,
    if_neg (ne_true_of_eq_false hclean)]

/-- An inode that is held is put. -/
theorem Holding.put (h : Holding s s' (rip :: l)) : Holding s (putInode s' (some rip)) l := by
  have hcount := h.count rip
  rw [List.count_cons_self] at hcount
  have hless : Holding s (s'.setInode rip { s'.inode rip with
      i_count := (s'.inode rip).i_count - 1 }) l := by
    apply h.setInode
    case hl => exact fun a ha => (List.count_cons_of_ne (Ne.symm ha)).symm
    case hcount => exact (Nat.sub_eq_of_eq_add hcount)
    case hkept =>
      intro hpos
      rw [h.kept rip hpos]
    case hidle => exact h.idle rip
    case hmount => exact h.mount rip
    case hloaded =>
      intro hzero hmem
      have hload := h.loaded rip (List.mem_cons_of_mem _ hmem) hzero
      exact ⟨hload.disk, hload.clean, hload.notUsed, hload.linked, hload.live⟩
    case hunique =>
      intro _ b hb hpos hdev hnum
      exact hb (h.unique b rip hpos (h.pos List.mem_cons_self) hdev hnum)
  unfold putInode
  dsimp only
  split_ifs with hlast
  · -- Nobody else uses it, so that it is as it was loaded.
    have hzero : (s.inode rip).i_count = 0 := by omega
    have hload := h.loaded rip List.mem_cons_self hzero
    have hidle := h.idle rip hzero
    rw [releaseInode_clean]
    · exact hless
    · rw [Names.setInode_self]
      exact hload.linked
    · rw [Names.setInode_self]
      exact hidle
    · rw [Names.setInode_self]
      exact hload.clean
  · exact hless

/-! ## Searching -/

/-- An inode that is in use is what the table has. -/
theorem Holding.data (h : Holding s s' l) (ht : Tidy s) (hused : 0 < (s'.inode rip).i_count) :
    (s'.inode rip).toDInode = s.current (s'.inode rip).i_dev (s'.inode rip).i_num := by
  rw [← h.current ht.unique, h.unique.current hused]

/-- What a search of a directory finds is an entry of it. -/
theorem searchSlots_found {string : Name} {numb : ℕ}
    (hr : (searchSlots s fp rip string numb .LOOK_UP).r = OK) :
    (s.inode rip).i_mode &&& I_TYPE = I_DIRECTORY ∧ ∃ k < reach (s.slots rip),
      (s.entries rip k).d_inum ≠ 0 ∧
        (searchSlots s fp rip string numb .LOOK_UP).numb = (s.entries rip k).d_inum := by
  unfold searchSlots at hr ⊢
  by_cases htype : (s.inode rip).i_mode &&& I_TYPE = I_DIRECTORY
  · rw [if_neg (not_not.mpr htype)] at hr ⊢
    dsimp only at hr ⊢
    by_cases hperm : s.forbidden fp rip DirFlag.LOOK_UP.bits = OK
    · rw [if_neg (not_not.mpr hperm)] at hr ⊢
      refine ⟨htype, ?_⟩
      unfold searchEntries at hr ⊢
      dsimp only at hr ⊢
      cases hhunt : hunt (s.entries rip) .LOOK_UP string (s.slots rip) with
      | none =>
        rw [hhunt] at hr
        exact nomatch hr
      | some k =>
        obtain ⟨hlt, hwant, -⟩ := hunt_some hhunt
        exact ⟨k, hlt, ((wanted_match (by decide)).mp hwant).1, rfl⟩
    · rw [if_pos hperm] at hr
      exact absurd hr hperm
  · rw [if_pos htype] at hr
    exact nomatch hr

/-- What a search of a directory in use finds has a link. -/
theorem Holding.found (h : Holding s s' l) (ht : Tidy s) (hused : 0 < (s'.inode rip).i_count)
    {string : Name} {numb : ℕ}
    (hr : (searchSlots s' fp rip string numb .LOOK_UP).r = OK) :
    s.Linked (s'.inode rip).i_dev (searchSlots s' fp rip string numb .LOOK_UP).numb := by
  obtain ⟨htype, k, hk, hne, hnumb⟩ := searchSlots_found hr
  have hdata := h.data ht hused
  unfold Names.slots at hk
  unfold Names.entries at hne hnumb
  rw [h.dirs] at hne hnumb
  rw [hnumb]
  apply ht.entry
  · exact h.live hused
  · rw [← hdata]
    exact htype
  · rw [← hdata]
    exact hk
  · exact hne

/-- Searches of paths keep what is held. -/
theorem Tidy.walk (ht : Tidy s) : WalkRule fp (Holding s) where
  perm h := h.perm
  setErr h := h.setErr
  pos h := h.pos
  dup h := h.dup
  put h := h.put
  again h hused := (h.get (h.linked hused) (h.live hused)).1
  found h hused hr := (h.get (h.found ht hused hr) (h.live hused)).1
  root := by
    intro s₁ l rip sp h hmount himount
    rw [h.mount] at hmount
    rw [h.super_block] at himount
    have hput := h.put
    have hused := ht.root sp rip himount hmount
    obtain ⟨a, hpos, hdev, -⟩ := id hused
    unfold GetKeeps
    rw [hput.super_block]
    exact (hput.get (fun hnot => absurd hused hnot) ⟨a, hpos, hdev⟩).1
  imount := by
    intro s₁ l rip sp ip h hdev himount
    have hlive := h.live (h.pos List.mem_cons_self)
    rw [← hdev, h.super_block] at hlive
    have hput := h.put
    rw [hput.super_block] at himount
    have hused := ht.imount sp ip himount hlive
    obtain ⟨hd, hn, -⟩ := hput.sameSlot hused
    unfold GetKeeps
    rw [hd, hn]
    exact (hput.get (fun hnot => absurd ⟨ip, hused, rfl, rfl⟩ hnot) ⟨ip, hused, rfl⟩).1

/-- The tables are in order while inodes are held. -/
theorem Holding.tidy (h : Holding s s' l) (ht : Tidy s) : Tidy s' := by
  have hlinked : ∀ dev numb, s.Linked dev numb → s'.Linked dev numb := by
    intro dev numb hl hnot
    rw [h.disk]
    exact hl fun hu => hnot (h.inUse hu)
  have hbefore : ∀ dev, s'.Live dev → s.Live dev := by
    rintro dev ⟨rip, hpos, rfl⟩
    exact h.live hpos
  constructor
  case unique => exact h.unique
  case idle =>
    intro rip hzero
    apply h.idle
    have := h.count rip
    omega
  case dev => exact fun rip hpos => (h.onDevice ht hpos).1
  case super =>
    intro rip hpos
    rw [h.getSuper]
    exact (h.onDevice ht hpos).2
  case entry =>
    intro dev numb k hlive htype hk hne
    rw [h.current ht.unique] at htype hk
    rw [h.dirs] at hne ⊢
    exact hlinked _ _ (ht.entry dev numb k (hbefore dev hlive) htype hk hne)
  case imount =>
    intro sp ip himount hlive
    rw [h.super_block] at himount hlive
    have hpos := ht.imount sp ip himount (hbefore _ hlive)
    have := h.count ip
    omega
  case root =>
    intro sp ip himount hmount
    rw [h.super_block] at himount ⊢
    rw [h.mount] at hmount
    exact h.inUse (ht.root sp ip himount hmount)

/-- The last directory of a path is held, if it is found. -/
theorem Holding.lastDir (ht : Tidy s) {fp : Fproc} (hfp : fp.Held s) {fs_call : FsCall}
    {path : List UInt8} {string : Name} {ld : LastDir}
    (hrun : lastDir s fp fs_call path string = some ld) : Holding s ld.names ld.rip.toList :=
  ht.walk.lastDir ht.holding hfp.rootdir hfp.workdir hrun

/-- The inode of a path is held, if it is found. -/
theorem Holding.eatPath (ht : Tidy s) {fp : Fproc} (hfp : fp.Held s) {fs_call : FsCall}
    {path : List UInt8} {res : Option InodePtr × Names}
    (hrun : eatPath s fp fs_call path = some res) : Holding s res.2 res.1.toList :=
  ht.walk.eatPath ht.holding hfp.rootdir hfp.workdir hrun

end Minix.Fs
