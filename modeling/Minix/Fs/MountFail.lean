import Minix.Fs.Mount
import Minix.Fs.PathNames
import Minix.Fs.Walk

/-!
# Mounts that fail

A mount that fails has got and put the same buffers and inodes, unless it comes to the bit maps and
they are refused for want of buffers: they count as loaded then, and `unload_bit_maps` puts the
pointers that `rw_super` has copied from the device (`wild_pointer_put`). `mount_harmless` tells when
a mount is harmless.
-/

namespace Minix.Fs

/-- What a mount that fails leaves as it was: the users of buffers and inodes, and the other super
blocks. The slot that it took is free again. -/
structure AsBefore (st st' : MountState) : Prop where
  b_count : st'.cache.b_count = st.cache.b_count
  bufs_in_use : st'.cache.bufs_in_use = st.cache.bufs_in_use
  i_count : ∀ rip, (st'.names.inode rip).i_count = (st.names.inode rip).i_count
  i_mount : ∀ rip, (st'.names.inode rip).i_mount = (st.names.inode rip).i_mount
  s_dev : ∀ sp, (st'.names.super_block sp).s_dev = (st.names.super_block sp).s_dev
  others : ∀ sp, freeSuper st.names ≠ some sp →
    st'.names.super_block sp = st.names.super_block sp ∧ st'.super sp = st.super sp

/-- A call that fails has left everything as it was, and it has not put a buffer that it had not got,
or followed a pointer that is not one to a buffer. -/
def FailsCleanly (st : MountState) : Except Fate (ℤ × MountState) → Prop
  | .ok (r, st') => r ≠ OK → AsBefore st st' ∧ st'.stray = false
  | .error (.panic stray) => stray = false
  | .error .wild => False
  | .error .stuck => True

/-- A mount is harmless if it fails. -/
def MountHarmless (A : Addresses) (st : MountState) (fp : Fproc) (call : MountCall) : Prop :=
  FailsCleanly st (doMount A st fp call)

/-- If a bit is cleared, the pointer to its map block leads to a buffer, when the first `i` and `z` map
blocks are loaded. -/
def Use.BitOk (A : Addresses) (d : SuperData) (i z : ℕ) : Use → Prop
  | .block _ => True
  | .imapBit b => b >>> BIT_MAP_SHIFT < i ∨ imapPtr A d (b >>> BIT_MAP_SHIFT) ≠ .other
  | .zmapBit b => b >>> BIT_MAP_SHIFT < z ∨ zmapPtr A d (b >>> BIT_MAP_SHIFT) ≠ .other

def BitsOk (A : Addresses) (d : SuperData) (i z : ℕ) (us : List Use) : Prop :=
  ∀ u ∈ us, u.BitOk A d i z

/-- Both inodes can be released when the first `i` and `z` map blocks are loaded. -/
def Mounting.Releases (A : Addresses) (m : Mounting) (call : MountCall) (i z : ℕ) : Prop :=
  BitsOk A (m.st.super m.sp) i z
    (call.release ++ rootUses (putInode m.st.names (some m.rip)) call m.root_ip)

/-- Whether the bit maps are refused for want of buffers. -/
def Mounting.refused (m : Mounting) : Bool :=
  mapsRefused m.st.cache.bufs_in_use (m.st.super m.sp)

/-- When the mount fails the inodes can be released, and when the bit maps are refused the device has no
pointers in the places of those to the map blocks that it names. -/
structure Mounting.Safe (A : Addresses) (m : Mounting) (call : MountCall) : Prop where
  failed : m.r ≠ OK → m.Releases A call 0 0
  refused : m.r = OK → m.refused = true → m.Releases A call 0 0 ∧
    ∀ p ∈ imapPtrs A (m.st.super m.sp) ++ zmapPtrs A (m.st.super m.sp), p = .nil
  conflict : m.r = OK → m.refused = false → mapsTooBig (m.st.super m.sp) = false →
    typesConflict m.st.names m.rip m.root_ip = true →
    m.Releases A call (m.st.super m.sp).s_imap_blocks (m.st.super m.sp).s_zmap_blocks

/-- No pointer from the device is followed in front of the bit maps that is not one to a buffer, and if
`do_mount` comes to the bit maps the mount is safe from there. -/
def MountSafe (A : Addresses) (st : MountState) (fp : Fproc) (call : MountCall) : Prop :=
  prepareMount A st fp call ≠ .error .wild ∧
    ∀ m, prepareMount A st fp call = .ok (.ready m) → m.Safe A call

/-- A system between two calls: its root device is mounted, the directories of the process are in use,
and buffers are held once, for bit maps, so that one is left. -/
structure MountStart (st : MountState) (fp : Fproc) : Prop where
  inv : CacheInv ⟨st.cache, st.cache.b_count⟩
  once : ∀ x, st.cache.b_count x ≤ 1
  left : (usedBufs st.cache.b_count).card < NR_BUFS
  root : st.root_dev ≠ NO_DEV ∧ ∃ sp, (st.names.super_block sp).s_dev = st.root_dev
  rootdir : ∀ rip, fp.fp_rootdir = some rip → 0 < (st.names.inode rip).i_count
  workdir : ∀ rip, fp.fp_workdir = some rip → 0 < (st.names.inode rip).i_count
  got : st.got = 0
  stray : st.stray = false

variable {A : Addresses} {st st' st'' st₀ : MountState} {fp : Fproc} {call : MountCall}
  {g : Buf → ℕ} {s s' : Names} {l l' : List InodePtr} {rip : InodePtr} {dev numb block block_type : ℕ}
  {bp : Buf} {only_search : Search} {d : SuperData} {m : Mounting} {sp : Fin NR_SUPERS} {r : ℤ}

/-! ## The users of inodes -/

/-- The users of the inodes are as before, except that the inodes `l` are held in addition. -/
structure Counted (s s' : Names) (l : List InodePtr) : Prop where
  super_block : s'.super_block = s.super_block
  count : ∀ rip, (s'.inode rip).i_count = (s.inode rip).i_count + l.count rip
  mount : ∀ rip, (s'.inode rip).i_mount = (s.inode rip).i_mount

theorem Counted.refl (s : Names) : Counted s s [] := ⟨rfl, fun _ => rfl, fun _ => rfl⟩

/-- One slot of the table has another count. -/
theorem Counted.setInode (h : Counted s s' l) {slot : InodeSlot}
    (hl : ∀ a ≠ rip, l'.count a = l.count a)
    (hcount : slot.i_count = (s.inode rip).i_count + l'.count rip)
    (hmount : slot.i_mount = (s'.inode rip).i_mount) : Counted s (s'.setInode rip slot) l' where
  super_block := h.super_block
  count a := by
    by_cases ha : a = rip
    · rw [ha, Names.setInode_self, hcount]
    · rw [Names.setInode_ne _ ha, hl a ha, h.count]
  mount a := by
    by_cases ha : a = rip
    · rw [ha, Names.setInode_self, hmount, h.mount]
    · rw [Names.setInode_ne _ ha, h.mount]

/-- The users of the inodes are the same, and the super blocks. -/
structure SameUsers (s s' : Names) : Prop where
  super_block : s'.super_block = s.super_block
  count : ∀ rip, (s'.inode rip).i_count = (s.inode rip).i_count
  mount : ∀ rip, (s'.inode rip).i_mount = (s.inode rip).i_mount

theorem SameUsers.refl (s : Names) : SameUsers s s := ⟨rfl, fun _ => rfl, fun _ => rfl⟩

theorem SameUsers.trans {s₁ s₂ s₃ : Names} (h : SameUsers s₁ s₂) (h' : SameUsers s₂ s₃) :
    SameUsers s₁ s₃ where
  super_block := h'.super_block.trans h.super_block
  count rip := (h'.count rip).trans (h.count rip)
  mount rip := (h'.mount rip).trans (h.mount rip)

theorem sameUsers_setInode {slot : InodeSlot} (hcount : slot.i_count = (s.inode rip).i_count)
    (hmount : slot.i_mount = (s.inode rip).i_mount) : SameUsers s (s.setInode rip slot) where
  super_block := rfl
  count a := by
    by_cases ha : a = rip
    · rw [ha, Names.setInode_self, hcount]
    · rw [Names.setInode_ne _ ha]
  mount a := by
    by_cases ha : a = rip
    · rw [ha, Names.setInode_self, hmount]
    · rw [Names.setInode_ne _ ha]

theorem sameUsers_writeInode (s : Names) (rip : InodePtr) : SameUsers s (writeInode s rip) := by
  have h := @sameUsers_setInode s rip { s.inode rip with i_dirt := false } rfl rfl
  exact ⟨h.super_block, h.count, h.mount⟩

theorem truncate_users (slot : InodeSlot) :
    slot.truncate.i_count = slot.i_count ∧ slot.truncate.i_mount = slot.i_mount := by
  unfold InodeSlot.truncate
  split_ifs <;> exact ⟨rfl, rfl⟩

/-- What is done with an inode that nobody uses any more makes no users. -/
theorem sameUsers_releaseInode (s : Names) (rip : InodePtr) : SameUsers s (releaseInode s rip) := by
  obtain ⟨hcount, hmount⟩ := truncate_users (s.inode rip)
  unfold releaseInode
  dsimp only
  have hfirst : SameUsers s (if (s.inode rip).i_nlinks = 0 then
      freeInode (s.setInode rip { (s.inode rip).truncate with i_mode := I_NOT_ALLOC })
        (s.inode rip).i_dev (s.inode rip).i_num
    else if (s.inode rip).i_pipe = true then s.setInode rip (s.inode rip).truncate else s) := by
    split_ifs
    · have h := @sameUsers_setInode s rip { (s.inode rip).truncate with i_mode := I_NOT_ALLOC }
        hcount hmount
      exact ⟨h.super_block, h.count, h.mount⟩
    · exact sameUsers_setInode hcount hmount
    · exact .refl s
  revert hfirst
  generalize (if (s.inode rip).i_nlinks = 0 then
      freeInode (s.setInode rip { (s.inode rip).truncate with i_mode := I_NOT_ALLOC })
        (s.inode rip).i_dev (s.inode rip).i_num
    else if (s.inode rip).i_pipe = true then s.setInode rip (s.inode rip).truncate else s) = s₁
  intro hfirst
  have hpipe := hfirst.trans (@sameUsers_setInode s₁ rip { s₁.inode rip with i_pipe := false } rfl rfl)
  split_ifs
  · exact hpipe.trans (sameUsers_writeInode _ rip)
  · exact hpipe

/-- Putting an inode changes its count, and nothing else that is counted. -/
theorem putInode_slot (s : Names) (rip a : InodePtr) :
    ((putInode s (some rip)).inode a).i_count =
      (if a = rip then (s.inode rip).i_count - 1 else (s.inode a).i_count) ∧
    ((putInode s (some rip)).inode a).i_mount = (s.inode a).i_mount ∧
    (putInode s (some rip)).super_block = s.super_block := by
  have hless : ∀ a, ((s.setInode rip { s.inode rip with
      i_count := (s.inode rip).i_count - 1 }).inode a).i_count =
        (if a = rip then (s.inode rip).i_count - 1 else (s.inode a).i_count) ∧
      ((s.setInode rip { s.inode rip with
        i_count := (s.inode rip).i_count - 1 }).inode a).i_mount = (s.inode a).i_mount := by
    intro a
    by_cases ha : a = rip
    · subst ha
      rw [Names.setInode_self, if_pos rfl]
      exact ⟨rfl, rfl⟩
    · rw [Names.setInode_ne _ ha, if_neg ha]
      exact ⟨rfl, rfl⟩
  unfold putInode
  dsimp only
  by_cases hlast : (s.inode rip).i_count = 1
  · rw [if_pos hlast]
    have h := sameUsers_releaseInode
      (s.setInode rip { s.inode rip with i_count := (s.inode rip).i_count - 1 }) rip
    exact ⟨(h.count a).trans (hless a).1, (h.mount a).trans (hless a).2, h.super_block⟩
  · rw [if_neg hlast]
    exact ⟨(hless a).1, (hless a).2, rfl⟩

/-- Getting an inode counts it. -/
theorem Counted.get (h : Counted s s' l) : GetKeeps (Counted s) s' l dev numb := by
  unfold GetKeeps getInode
  dsimp only
  cases hfind : (List.finRange NR_INODES).find? fun rip => (s'.inode rip).i_count > 0 ∧
      (s'.inode rip).i_dev = dev ∧ (s'.inode rip).i_num = numb with
  | some rip =>
    apply h.setInode
    case hl => exact fun a ha => List.count_cons_of_ne (Ne.symm ha)
    case hcount =>
      show (s'.inode rip).i_count + 1 = _
      rw [Option.toList_some, List.singleton_append, List.count_cons_self, h.count, Nat.add_assoc]
    case hmount => rfl
  | none =>
    cases hfree : (List.finRange NR_INODES).reverse.find? fun rip => (s'.inode rip).i_count = 0 with
    | none => exact ⟨h.super_block, h.count, h.mount⟩
    | some xp =>
      have hzero := List.find?_some hfree
      have hcount := h.count xp
      rw [of_decide_eq_true hzero] at hcount
      apply h.setInode
      case hl => exact fun a ha => List.count_cons_of_ne (Ne.symm ha)
      case hcount =>
        show 1 = _
        rw [Option.toList_some, List.singleton_append, List.count_cons_self]
        omega
      case hmount => rfl

/-- Putting an inode that is held discounts it. -/
theorem Counted.put (h : Counted s s' (rip :: l)) : Counted s (putInode s' (some rip)) l where
  super_block := (putInode_slot s' rip rip).2.2.trans h.super_block
  count a := by
    obtain ⟨hput, -, -⟩ := putInode_slot s' rip a
    have hcount := h.count a
    rw [hput]
    by_cases ha : a = rip
    · subst ha
      rw [if_pos rfl]
      rw [List.count_cons_self] at hcount
      omega
    · rw [if_neg ha, hcount, List.count_cons_of_ne (Ne.symm ha)]
  mount a := (putInode_slot s' rip a).2.1.trans (h.mount a)

/-- Searches of paths count the inodes. -/
theorem counted_walk (s : Names) (fp : Caller) : WalkRule fp (Counted s) where
  perm h hp := ⟨h.super_block, fun rip => by rw [h.count, hp.count_eq], h.mount⟩
  setErr h _ := ⟨h.super_block, h.count, h.mount⟩
  pos := by
    intro s' l rip h hmem
    have hpos := List.count_pos_iff.mpr hmem
    have := h.count rip
    omega
  dup := by
    intro s' l rip h _
    apply h.setInode
    case hl => exact fun a ha => List.count_cons_of_ne (Ne.symm ha)
    case hcount =>
      show (s'.inode rip).i_count + 1 = _
      rw [List.count_cons_self, h.count, Nat.add_assoc]
    case hmount => rfl
  put h := h.put
  again h _ := h.get
  found h _ _ := h.get
  root h _ _ := h.put.get
  imount h _ _ := h.put.get

/-! ## What the call has got -/

/-- The buffers and the inodes that `do_mount` uses besides what was in use before: `g` says how often
it has got a buffer, and `l` are the inodes. The other super blocks are as before. -/
structure Underway (st₀ : MountState) (g : Buf → ℕ) (l : List InodePtr) (st : MountState) : Prop where
  inv : CacheInv ⟨st.cache, fun x => st₀.cache.b_count x + g x⟩
  got : st.got = g
  stray : st.stray = false
  count : ∀ rip, (st.names.inode rip).i_count = (st₀.names.inode rip).i_count + l.count rip
  mount : ∀ rip, (st.names.inode rip).i_mount = (st₀.names.inode rip).i_mount
  root_dev : st.root_dev = st₀.root_dev
  others : ∀ sp, freeSuper st₀.names ≠ some sp →
    st.names.super_block sp = st₀.names.super_block sp ∧ st.super sp = st₀.super sp

/-- There is room for so many more buffers. -/
def HasRoom (st₀ : MountState) (g : Buf → ℕ) (n : ℕ) : Prop :=
  (usedBufs fun x => st₀.cache.b_count x + g x).card + n ≤ NR_BUFS ∧
    ∀ x, st₀.cache.b_count x + g x + n ≤ 255

/-- The tables of the file system are the same. -/
structure SameTables (st st' : MountState) : Prop where
  names : st'.names = st.names
  super : st'.super = st.super
  root_dev : st'.root_dev = st.root_dev

theorem SameTables.refl (st : MountState) : SameTables st st := ⟨rfl, rfl, rfl⟩

theorem SameTables.trans (h : SameTables st st') (h' : SameTables st' st'') : SameTables st st'' :=
  ⟨h'.names.trans h.names, h'.super.trans h.super, h'.root_dev.trans h.root_dev⟩

/-- The cache has changed, but not the tables. -/
theorem Underway.cache (h : Underway st₀ g l st) (hs : SameTables st st') {g' : Buf → ℕ}
    (hinv : CacheInv ⟨st'.cache, fun x => st₀.cache.b_count x + g' x⟩) (hgot : st'.got = g')
    (hstray : st'.stray = false) : Underway st₀ g' l st' where
  inv := hinv
  got := hgot
  stray := hstray
  count := by rw [hs.names]; exact h.count
  mount := by rw [hs.names]; exact h.mount
  root_dev := hs.root_dev.trans h.root_dev
  others := by rw [hs.names, hs.super]; exact h.others

/-- What a buffer is held is what it was held before, and what the call has got. -/
theorem held_update (h₀ g : Buf → ℕ) (bp : Buf) (n : ℕ) :
    Function.update (fun x => h₀ x + g x) bp (h₀ bp + n) =
      fun x => h₀ x + Function.update g bp n x := by
  funext x
  by_cases hx : x = bp
  · rw [hx, Function.update_self, Function.update_self]
  · rw [Function.update_of_ne hx, Function.update_of_ne hx]

/-- A block is got. -/
theorem Underway.get (h : Underway st₀ g l st) (hroom : HasRoom st₀ g 1) (dev block : ℕ)
    (only_search : Search) :
    ∃ bp st', st.get dev block only_search = .ok (bp, st') ∧
      Underway st₀ (Function.update g bp (g bp + 1)) l st' ∧ SameTables st st' := by
  obtain ⟨bp, c, he, hgot⟩ := getBlock_got h.inv hroom.1 dev block only_search
  have hinv := hgot.inv h.inv hroom
  dsimp only at hinv he
  rw [Nat.add_assoc, held_update] at hinv
  have hs : SameTables st { st with
      cache := c
      got := Function.update st.got bp (st.got bp + 1) } := ⟨rfl, rfl, rfl⟩
  refine ⟨bp, _, ?_, h.cache hs hinv ?_ h.stray, hs⟩
  · unfold MountState.get
    rw [he]
  · dsimp only
    rw [h.got]

/-- A buffer that the call has got is put. -/
theorem Underway.put (h : Underway st₀ g l st) (bp : Buf) (hg : 0 < g bp) (block_type : ℕ) :
    ∃ st', st.put (.buf bp) block_type = .ok st' ∧
      Underway st₀ (Function.update g bp (g bp - 1)) l st' ∧ SameTables st st' := by
  have hinv := @CacheInv.put _ bp h.inv (show 0 < st₀.cache.b_count bp + g bp by omega) block_type
  dsimp only at hinv
  rw [Nat.add_sub_assoc hg, held_update] at hinv
  have hs : SameTables st { st with
      cache := putBlock st.cache (some bp) block_type
      got := Function.update st.got bp (st.got bp - 1)
      stray := st.stray || decide (st.got bp = 0) } := ⟨rfl, rfl, rfl⟩
  refine ⟨_, rfl, h.cache hs hinv ?_ ?_, hs⟩
  · dsimp only
    rw [h.got]
  · have hpos : ¬g bp = 0 := by omega
    show (st.stray || decide (st.got bp = 0)) = false
    rw [h.stray, h.got, decide_eq_false hpos]
    rfl

/-- Writing buffers keeps the invariant of the cache. -/
theorem CacheInv.writes {c : Cache} {held : Buf → ℕ} (h : CacheInv ⟨c, held⟩)
    (ws : List (Buf × Block)) :
    CacheInv ⟨ws.foldl (fun c w => writeBuf c w.1 w.2) c, held⟩ := by
  induction ws generalizing c with
  | nil => exact h
  | cons w ws ih => exact ih (h.write w.1 w.2)

/-- Buffers are written. -/
theorem Underway.write (h : Underway st₀ g l st) (ws : List (Buf × Block)) :
    Underway st₀ g l { st with cache := ws.foldl (fun c w => writeBuf c w.1 w.2) st.cache } := by
  have hs : SameTables st { st with
      cache := ws.foldl (fun c w => writeBuf c w.1 w.2) st.cache } := ⟨rfl, rfl, rfl⟩
  exact h.cache hs (h.inv.writes ws) h.got h.stray

/-- A block is got and put again. -/
theorem Underway.useBlock (h : Underway st₀ g l st) (hroom : HasRoom st₀ g 1) (u : BlockUse) :
    ∃ st', st.useBlock u = .ok st' ∧ Underway st₀ g l st' ∧ SameTables st st' := by
  cases u with
  | block dev block only_search writes block_type =>
    obtain ⟨bp, st₁, he, h₁, hs₁⟩ := h.get hroom dev block only_search
    obtain ⟨st₂, he₂, h₂, hs₂⟩ := (h₁.write writes).put bp
      (by rw [Function.update_self]; exact Nat.succ_pos _) block_type
    rw [Function.update_self, Function.update_idem, Nat.add_sub_cancel, Function.update_eq_self] at h₂
    refine ⟨st₂, ?_, h₂, hs₁.trans ⟨hs₂.names, hs₂.super, hs₂.root_dev⟩⟩
    unfold MountState.useBlock
    dsimp only
    rw [he]
    exact he₂
  | write bp data => exact ⟨_, rfl, h.write [(bp, data)], ⟨rfl, rfl, rfl⟩⟩

/-- Blocks are got and put in order. -/
theorem Underway.useBlocks (h : Underway st₀ g l st) (hroom : HasRoom st₀ g 1) (us : List BlockUse) :
    ∃ st', us.foldlM MountState.useBlock st = .ok st' ∧ Underway st₀ g l st' ∧ SameTables st st' := by
  induction us generalizing st with
  | nil => exact ⟨st, rfl, h, .refl st⟩
  | cons u us ih =>
    obtain ⟨st₁, he₁, h₁, hs₁⟩ := h.useBlock hroom u
    obtain ⟨st₂, he₂, h₂, hs₂⟩ := ih h₁
    refine ⟨st₂, ?_, h₂, hs₁.trans hs₂⟩
    rw [List.foldlM_cons, he₁]
    exact he₂

/-! ## Clearing bits -/

/-- A super block as it was read, of which map blocks have been loaded. -/
structure HasMaps (st : MountState) (sp : Fin NR_SUPERS) (d : SuperData) (imap zmap : List Buf) :
    Prop where
  super : st.super sp = ⟨d.byte, imap, zmap⟩
  s_imap : d.s_imap = []
  s_zmap : d.s_zmap = []

theorem HasMaps.same {imap zmap : List Buf} (h : HasMaps st sp d imap zmap) (hs : SameTables st st') :
    HasMaps st' sp d imap zmap :=
  ⟨(congrFun hs.super sp).trans h.super, h.s_imap, h.s_zmap⟩

/-- A pointer that was loaded leads to a buffer, and the others lead where the device says. -/
theorem mapPtr_ne_other {d' : SuperData} (hbyte : d'.byte = d.byte) (loaded : List Buf)
    (offset i : ℕ) :
    mapPtr A d' loaded offset i ≠ .other ↔ i < loaded.length ∨ mapPtr A d [] offset i ≠ .other := by
  have hlong : d'.long = d.long := by
    funext k
    unfold SuperData.long SuperData.short
    rw [hbyte]
  unfold mapPtr
  rw [hlong, List.getElem?_nil]
  cases hl : loaded[i]? with
  | some bp =>
    have hlt : i < loaded.length := (List.getElem?_eq_some_iff.mp hl).1
    exact iff_of_true (by simp) (Or.inl hlt)
  | none =>
    have hle : ¬i < loaded.length := not_lt.mpr (List.getElem?_eq_none_iff.mp hl)
    exact (or_iff_right hle).symm

/-- A bit is cleared if the pointer leads to a buffer. -/
theorem Underway.clearBit (h : Underway st₀ g l st) (p : BufPtr) (b : ℕ) :
    (p ≠ .other ∧ ∃ st', clearBit st p b = .ok st' ∧ Underway st₀ g l st' ∧ SameTables st st') ∨
    (¬p ≠ .other ∧ Fs.clearBit st p b = .error .wild) := by
  cases p with
  | nil => exact Or.inl ⟨by decide, st, rfl, h, .refl st⟩
  | buf bp => exact Or.inl ⟨nofun, _, rfl, h.write [(bp, _)], ⟨rfl, rfl, rfl⟩⟩
  | other => exact Or.inr ⟨not_not.mpr rfl, rfl⟩

/-- A use of the cache is made, or follows a pointer that is not one to a buffer. -/
theorem Underway.use (h : Underway st₀ g l st) (hroom : HasRoom st₀ g 1) {imap zmap : List Buf}
    (hmaps : HasMaps st sp d imap zmap) (u : Use) :
    (u.BitOk A d imap.length zmap.length ∧
      ∃ st', u.run A sp st = .ok st' ∧ Underway st₀ g l st' ∧ SameTables st st') ∨
    (¬u.BitOk A d imap.length zmap.length ∧ u.run A sp st = .error .wild) := by
  have hbyte : (st.super sp).byte = d.byte := by rw [hmaps.super]
  cases u with
  | block u => exact Or.inl ⟨trivial, h.useBlock hroom u⟩
  | imapBit b =>
    have hok : imapPtr A (st.super sp) (b >>> BIT_MAP_SHIFT) ≠ .other ↔
        (Use.imapBit b).BitOk A d imap.length zmap.length := by
      unfold imapPtr
      rw [mapPtr_ne_other hbyte, congrArg SuperData.s_imap hmaps.super]
      show _ ↔ _ ∨ mapPtr A d d.s_imap _ _ ≠ _
      rw [hmaps.s_imap]
    rw [← hok]
    exact h.clearBit _ b
  | zmapBit b =>
    have hok : zmapPtr A (st.super sp) (b >>> BIT_MAP_SHIFT) ≠ .other ↔
        (Use.zmapBit b).BitOk A d imap.length zmap.length := by
      unfold zmapPtr
      rw [mapPtr_ne_other hbyte, congrArg SuperData.s_zmap hmaps.super]
      show _ ↔ _ ∨ mapPtr A d d.s_zmap _ _ ≠ _
      rw [hmaps.s_zmap]
    rw [← hok]
    exact h.clearBit _ b

/-- The uses of the cache are made, or one follows a pointer that is not one to a buffer. -/
theorem Underway.uses (h : Underway st₀ g l st) (hroom : HasRoom st₀ g 1) {imap zmap : List Buf}
    (hmaps : HasMaps st sp d imap zmap) (us : List Use) :
    (BitsOk A d imap.length zmap.length us ∧
      ∃ st', st.uses A sp us = .ok st' ∧ Underway st₀ g l st' ∧ SameTables st st') ∨
    (¬BitsOk A d imap.length zmap.length us ∧ st.uses A sp us = .error .wild) := by
  unfold MountState.uses BitsOk
  induction us generalizing st with
  | nil => exact Or.inl ⟨nofun, st, rfl, h, .refl st⟩
  | cons u us ih =>
    rw [List.forall_mem_cons, List.foldlM_cons]
    rcases h.use hroom hmaps u with ⟨hok, st₁, he, h₁, hs⟩ | ⟨hbad, he⟩
    · rw [he]
      rcases ih h₁ (hmaps.same hs) with ⟨hoks, st₂, he₂, h₂, hs₂⟩ | ⟨hbad, he₂⟩
      · exact Or.inl ⟨⟨hok, hoks⟩, st₂, he₂, h₂, hs.trans hs₂⟩
      · exact Or.inr ⟨fun hall => hbad hall.2, he₂⟩
    · rw [he]
      exact Or.inr ⟨fun hall => hbad hall.1, rfl⟩

/-! ## Giving back what was got -/

/-- The names are changed. -/
theorem Underway.names (h : Underway st₀ g l st) (hsuper : s.super_block = st.names.super_block)
    (hcount : ∀ rip, (s.inode rip).i_count = (st₀.names.inode rip).i_count + l'.count rip)
    (hmount : ∀ rip, (s.inode rip).i_mount = (st.names.inode rip).i_mount) :
    Underway st₀ g l' (st.withNames s) where
  inv := h.inv
  got := h.got
  stray := h.stray
  count := hcount
  mount rip := (hmount rip).trans (h.mount rip)
  root_dev := h.root_dev
  others a ha := by
    refine ⟨?_, (h.others a ha).2⟩
    show s.super_block a = _
    rw [hsuper]
    exact (h.others a ha).1

/-- An inode that was got is put. -/
theorem Underway.putInode (h : Underway st₀ g (rip :: l) st) :
    Underway st₀ g l (st.withNames (putInode st.names (some rip))) := by
  have hslot := putInode_slot st.names rip
  refine h.names (hslot rip).2.2 (fun a => ?_) fun a => (hslot a).2.1
  have hcount := h.count a
  rw [(hslot a).1]
  by_cases ha : a = rip
  · subst ha
    rw [List.count_cons_self] at hcount
    rw [if_pos rfl]
    omega
  · rw [if_neg ha, hcount, List.count_cons_of_ne (Ne.symm ha)]

/-- The inodes are written, which are used as before. -/
theorem sameUsers_syncInodes (s : Names) : SameUsers s (syncInodes s) := by
  unfold syncInodes
  generalize List.finRange NR_INODES = slots
  induction slots generalizing s with
  | nil => exact .refl s
  | cons rip slots ih =>
    rw [List.foldl_cons]
    refine SameUsers.trans ?_ (ih _)
    split_ifs
    · exact sameUsers_writeInode s rip
    · exact .refl s

/-- A device that is mounted is found. -/
theorem getSuper_isSome (h : (s.super_block sp).s_dev = dev) : ∃ a, getSuper s dev = some a := by
  refine Option.isSome_iff_exists.mp ?_
  unfold getSuper
  rw [List.find?_isSome]
  exact ⟨sp, List.mem_finRange sp, decide_eq_true h⟩

/-- `do_sync` leaves the users as they are. -/
theorem Underway.sync (h : Underway st₀ g l st) (hroom : HasRoom st₀ g 1)
    (hroot : (st.names.super_block sp).s_dev = st.root_dev) (us : List BlockUse) :
    ∃ st', syncAll st us = .ok st' ∧ Underway st₀ g l st' ∧
      st'.names.super_block = st.names.super_block ∧ st'.super = st.super := by
  obtain ⟨a, ha⟩ := getSuper_isSome hroot
  have hsame := sameUsers_syncInodes st.names
  have hcount rip := (hsame.count rip).trans (h.count rip)
  have hnames := h.names hsame.super_block hcount hsame.mount
  obtain ⟨st₁, he, h₁, hs₁⟩ := hnames.useBlocks hroom us
  obtain ⟨c, hc, hkept⟩ := syncBuffers_spec st₁.cache
  have hs₂ : SameTables st₁ { st₁ with cache := c } := ⟨rfl, rfl, rfl⟩
  refine ⟨{ st₁ with cache := c }, ?_, h₁.cache hs₂ (h₁.inv.kept hkept) h₁.got h₁.stray, ?_,
    hs₁.super.trans (st.withNames_super _)⟩
  · unfold syncAll
    rw [ha]
    show (_ >>= _) = _
    rw [he]
    show st₁.syncCache = _
    unfold MountState.syncCache
    rw [hc]
  · show st₁.names.super_block = _
    rw [hs₁.names]
    exact hsame.super_block

/-- The buffers of a list are put, which the call has got once each. -/
theorem Underway.putAll (bufs : List Buf) (block_type : ℕ) (g' : Buf → ℕ)
    (h : Underway st₀ (fun x => g' x + bufs.count x) l st) :
    ∃ st', st.putAll (bufs.map .buf) block_type = .ok st' ∧ Underway st₀ g' l st' ∧
      SameTables st st' := by
  unfold MountState.putAll
  induction bufs generalizing st with
  | nil => exact ⟨st, rfl, h, .refl st⟩
  | cons bp bufs ih =>
    rw [List.map_cons, List.foldlM_cons]
    obtain ⟨st₁, he, h₁, hs₁⟩ := h.put bp
      (by rw [List.count_cons_self]; omega) block_type
    have hless : Function.update (fun x => g' x + (bp :: bufs).count x) bp
        (g' bp + (bp :: bufs).count bp - 1) = fun x => g' x + bufs.count x := by
      funext x
      by_cases hx : x = bp
      · rw [hx, Function.update_self, List.count_cons_self]
        omega
      · rw [Function.update_of_ne hx, List.count_cons_of_ne (Ne.symm hx)]
    rw [hless] at h₁
    obtain ⟨st₂, he₂, h₂, hs₂⟩ := ih h₁
    exact ⟨st₂, by rw [he]; exact he₂, h₂, hs₁.trans hs₂⟩

/-! ## Loading the bit maps -/

/-- When a buffer is got there is room for one less. -/
theorem HasRoom.get {n : ℕ} (h : HasRoom st₀ g (n + 1)) (bp : Buf) :
    HasRoom st₀ (Function.update g bp (g bp + 1)) n := by
  have hsub : (usedBufs fun x => st₀.cache.b_count x + Function.update g bp (g bp + 1) x) ⊆
      insert bp (usedBufs fun x => st₀.cache.b_count x + g x) := by
    intro x hx
    rw [mem_usedBufs] at hx
    by_cases hb : x = bp
    · exact hb ▸ Finset.mem_insert_self ..
    · rw [Function.update_of_ne hb] at hx
      exact Finset.mem_insert_of_mem (mem_usedBufs.mpr hx)
  have hcard := (Finset.card_le_card hsub).trans (Finset.card_insert_le ..)
  refine ⟨by have := h.1; omega, fun x => ?_⟩
  have hx := h.2 x
  by_cases hb : x = bp
  · subst hb
    rw [Function.update_self]
    omega
  · rw [Function.update_of_ne hb]
    omega

theorem HasRoom.le {n k : ℕ} (h : HasRoom st₀ g n) (hk : k ≤ n) : HasRoom st₀ g k :=
  ⟨by have := h.1; omega, fun x => by have := h.2 x; omega⟩

/-- The blocks of a map are got. -/
theorem Underway.loadMap (dev : ℕ) {n k : ℕ} (b : ℕ) (h : Underway st₀ g l st)
    (hroom : HasRoom st₀ g (n + k)) :
    ∃ bufs st', loadMap dev n b st = .ok (bufs, st') ∧ bufs.length = n ∧
      Underway st₀ (fun x => g x + bufs.count x) l st' ∧ SameTables st st' ∧
      HasRoom st₀ (fun x => g x + bufs.count x) k := by
  induction n generalizing st g b with
  | zero => exact ⟨[], st, rfl, rfl, h, .refl st, hroom.le (by omega)⟩
  | succ n ih =>
    obtain ⟨bp, st₁, he, h₁, hs₁⟩ := h.get (hroom.le (by omega)) dev (unshort b) .NORMAL
    have hroom₁ := HasRoom.get (show HasRoom st₀ g (n + k + 1) from hroom.le (by omega)) bp
    obtain ⟨bufs, st₂, he₂, hlen, h₂, hs₂, hroom₂⟩ := ih (b + 1) h₁ hroom₁
    have hcount : (fun x => Function.update g bp (g bp + 1) x + bufs.count x) =
        fun x => g x + (bp :: bufs).count x := by
      funext x
      by_cases hx : x = bp
      · rw [hx, Function.update_self, List.count_cons_self]
        omega
      · rw [Function.update_of_ne hx, List.count_cons_of_ne (Ne.symm hx)]
    rw [hcount] at h₂ hroom₂
    refine ⟨bp :: bufs, st₂, ?_, congrArg Nat.succ hlen, h₂, hs₁.trans hs₂, hroom₂⟩
    unfold Fs.loadMap
    rw [he]
    show (Fs.loadMap dev n (b + 1) st₁ >>= fun x => Except.ok (bp :: x.1, x.2)) = _
    rw [he₂]
    rfl

/-- Bits of a map are set. -/
theorem Underway.markBusy (h : Underway st₀ g l st) (map : List Buf) (bits : ℕ) :
    Underway st₀ g l (markBusy st map bits) ∧ SameTables st (markBusy st map bits) := by
  unfold Fs.markBusy
  cases map.head? with
  | none => exact ⟨h, .refl st⟩
  | some bp =>
    have hinv := h.inv
    exact ⟨⟨⟨hinv.linked, hinv.in_use, hinv.count, hinv.bound, hinv.unique⟩, h.got, h.stray, h.count,
      h.mount, h.root_dev, h.others⟩, rfl, rfl, rfl⟩

/-- There is room for the bit maps, when they are not refused. -/
theorem room_of_not_refused {n : ℕ} (h : Underway st₀ 0 l st) (honce : ∀ x, st₀.cache.b_count x ≤ 1)
    (hrefused : mapsRefused st.cache.bufs_in_use d = false) (hbig : mapsTooBig d = false)
    (hn : n = d.s_imap_blocks + (d.s_zmap_blocks + 1)) : HasRoom st₀ 0 n := by
  unfold mapsRefused at hrefused
  unfold mapsTooBig I_MAP_SLOTS at hbig
  have huse := h.inv.in_use_eq
  dsimp only at huse
  rw [huse] at hrefused
  have hcard : (usedBufs fun x => st₀.cache.b_count x + (0 : Buf → ℕ) x).card ≤ NR_BUFS := by
    simpa using Finset.card_le_univ (usedBufs fun x => st₀.cache.b_count x + (0 : Buf → ℕ) x)
  have hslots : d.s_imap_blocks ≤ 8 ∧ d.s_zmap_blocks ≤ 8 := by
    have hle := of_decide_eq_false hbig
    have heq : ZMAP_SLOTS = 8 := rfl
    omega
  have hfew := of_decide_eq_false hrefused
  have hbufs : NR_BUFS = 30 := rfl
  refine ⟨by omega, fun x => ?_⟩
  have hx := honce x
  show st₀.cache.b_count x + 0 + n ≤ 255
  omega

/-- A super block of which nothing has been loaded. -/
theorem HasMaps.unloaded (h : HasMaps st sp d [] []) : st.super sp = d := by
  obtain ⟨byte, imap, zmap⟩ := d
  obtain ⟨hsuper, rfl, rfl⟩ := h
  exact hsuper

/-- What has been got when both maps are loaded. -/
def mapsGot (imap zmap : List Buf) : Buf → ℕ := fun x => zmap.count x + imap.count x

/-- The bit maps are loaded, when they are not refused and not too big. -/
theorem Underway.loadBitMaps (h : Underway st₀ 0 l st) (honce : ∀ x, st₀.cache.b_count x ≤ 1)
    (hsp : freeSuper st₀.names = some sp) (hmaps : HasMaps st sp d [] [])
    (hrefused : mapsRefused st.cache.bufs_in_use d = false) (hbig : mapsTooBig d = false) (dev : ℕ) :
    ∃ imap zmap st', loadBitMaps st sp dev = .ok (true, st') ∧ imap.length = d.s_imap_blocks ∧
      zmap.length = d.s_zmap_blocks ∧ Underway st₀ (mapsGot imap zmap) l st' ∧
      HasMaps st' sp d imap zmap ∧ st'.names = st.names ∧ HasRoom st₀ (mapsGot imap zmap) 1 := by
  have hroom := room_of_not_refused h honce hrefused hbig rfl
  obtain ⟨imap, st₁, he₁, hlen₁, h₁, hs₁, hroom₁⟩ := h.loadMap dev (SUPER_BLOCK + 1) hroom
  obtain ⟨zmap, st₂, he₂, hlen₂, h₂, hs₂, hroom₂⟩ :=
    h₁.loadMap dev (SUPER_BLOCK + 1 + d.s_imap_blocks) hroom₁
  have hg : (fun x => (fun x => (0 : Buf → ℕ) x + imap.count x) x + zmap.count x) =
      mapsGot imap zmap := by
    funext x
    show 0 + imap.count x + zmap.count x = zmap.count x + imap.count x
    omega
  rw [hg] at h₂ hroom₂
  obtain ⟨h₃, hs₃⟩ := h₂.markBusy imap 3
  obtain ⟨h₄, hs₄⟩ := h₃.markBusy zmap 1
  have hs := ((hs₁.trans hs₂).trans hs₃).trans hs₄
  refine ⟨imap, zmap, { Fs.markBusy (Fs.markBusy st₂ imap 3) zmap 1 with
    super := Function.update (Fs.markBusy (Fs.markBusy st₂ imap 3) zmap 1).super sp
      ⟨d.byte, imap, zmap⟩ }, ?_, hlen₁, hlen₂, ?_, ⟨Function.update_self .., hmaps.s_imap, hmaps.s_zmap⟩,
    hs.names, hroom₂⟩
  · unfold Fs.loadBitMaps
    rw [hmaps.unloaded]
    dsimp only
    rw [if_neg (by rw [hrefused]; decide), if_neg (by rw [hbig]; decide), he₁]
    show (Fs.loadMap dev d.s_zmap_blocks (SUPER_BLOCK + 1 + d.s_imap_blocks) st₁ >>= _) = _
    rw [he₂]
    rfl
  · refine ⟨h₄.inv, h₄.got, h₄.stray, h₄.count, h₄.mount, h₄.root_dev, fun a ha => ?_⟩
    obtain ⟨hblock, hsuper⟩ := h₄.others a ha
    have hne : a ≠ sp := fun e => ha (e ▸ hsp)
    exact ⟨hblock, (Function.update_of_ne hne ..).trans hsuper⟩

/-- The pointers to a map that has been loaded. -/
theorem mapPtr_loaded (A : Addresses) (d : SuperData) (loaded : List Buf) (offset : ℕ) :
    (List.range loaded.length).map (mapPtr A d loaded offset) = loaded.map .buf := by
  apply List.ext_getElem
  · rw [List.length_map, List.length_map, List.length_range]
  · intro i hi hi'
    rw [List.length_map] at hi'
    rw [List.getElem_map, List.getElem_map, List.getElem_range]
    unfold mapPtr
    rw [List.getElem?_eq_getElem hi']

/-- The bit maps are unloaded that have been loaded. -/
theorem Underway.unloadBitMaps {imap zmap : List Buf} (h : Underway st₀ (mapsGot imap zmap) l st)
    (hmaps : HasMaps st sp d imap zmap) (himap : imap.length = d.s_imap_blocks)
    (hzmap : zmap.length = d.s_zmap_blocks) :
    ∃ st', unloadBitMaps A st sp = .ok st' ∧ Underway st₀ 0 l st' ∧ SameTables st st' := by
  have hi : imapPtrs A (st.super sp) = imap.map .buf := by
    unfold imapPtrs
    rw [hmaps.super]
    exact himap ▸ mapPtr_loaded A _ imap IMAP_OFFSET
  have hz : zmapPtrs A (st.super sp) = zmap.map .buf := by
    unfold zmapPtrs
    rw [hmaps.super]
    exact hzmap ▸ mapPtr_loaded A _ zmap ZMAP_OFFSET
  obtain ⟨st₁, he₁, h₁, hs₁⟩ := Underway.putAll imap I_MAP_BLOCK (fun x => zmap.count x) h
  have hg : (fun x => zmap.count x) = fun x => (0 : Buf → ℕ) x + zmap.count x := by
    funext x
    exact (Nat.zero_add _).symm
  rw [hg] at h₁
  obtain ⟨st₂, he₂, h₂, hs₂⟩ := Underway.putAll zmap ZMAP_BLOCK 0 h₁
  refine ⟨st₂, ?_, h₂, hs₁.trans hs₂⟩
  unfold Fs.unloadBitMaps
  dsimp only
  rw [hi, hz, he₁]
  exact he₂

/-! ## Undoing a mount -/

theorem freeSuper_dev (h : freeSuper s = some sp) : (s.super_block sp).s_dev = NO_DEV := by
  unfold freeSuper at h
  have hfree := List.find?_some h
  exact of_decide_eq_true hfree

/-- The device number of the slot that was taken is changed. -/
theorem Underway.setDev (h : Underway st₀ g l st) (hsp : freeSuper st₀.names = some sp) (dev : ℕ) :
    Underway st₀ g l (st.setDev sp dev) where
  inv := h.inv
  got := h.got
  stray := h.stray
  count := h.count
  mount := h.mount
  root_dev := h.root_dev
  others a ha := by
    have hne : a ≠ sp := fun e => ha (e ▸ hsp)
    exact ⟨(Function.update_of_ne hne ..).trans (h.others a ha).1, (h.others a ha).2⟩

/-- When everything has been given back, it is as before. -/
theorem Underway.asBefore (h : Underway st₀ 0 [] st) (hinv : CacheInv ⟨st₀.cache, st₀.cache.b_count⟩)
    (hdev : ∀ sp, freeSuper st₀.names = some sp → (st.names.super_block sp).s_dev = NO_DEV) :
    AsBefore st₀ st where
  b_count := h.inv.count
  bufs_in_use := h.inv.in_use_eq.trans hinv.in_use_eq.symm
  i_count := h.count
  i_mount := h.mount
  s_dev sp := by
    by_cases hsp : freeSuper st₀.names = some sp
    · rw [hdev sp hsp, freeSuper_dev hsp]
    · rw [(h.others sp hsp).1]
  others := h.others

/-- The slot that was taken is free again, and everything is as before. -/
theorem Underway.asBefore_setDev (h : Underway st₀ 0 [] st)
    (hinv : CacheInv ⟨st₀.cache, st₀.cache.b_count⟩) (hsp : freeSuper st₀.names = some sp) :
    AsBefore st₀ (st.setDev sp NO_DEV) := by
  refine (h.setDev hsp NO_DEV).asBefore hinv fun a ha => ?_
  obtain rfl := Option.some.inj (hsp.symm.trans ha)
  show (Function.update st.names.super_block sp _ sp).s_dev = NO_DEV
  rw [Function.update_self]

/-- The root device is mounted throughout. -/
theorem Underway.root (h : Underway st₀ g l st) (hstart : MountStart st₀ fp) :
    ∃ sp, (st.names.super_block sp).s_dev = st.root_dev := by
  obtain ⟨hroot, sp, hsp⟩ := hstart.root
  refine ⟨sp, ?_⟩
  rw [h.root_dev, (h.others sp fun hfree => hroot (hsp.symm.trans (freeSuper_dev hfree))).1, hsp]

/-- Everything is written back, and the slot is free again. -/
theorem Underway.finish (h : Underway st₀ 0 [] st) (hstart : MountStart st₀ fp)
    (hroom : HasRoom st₀ 0 1) (hsp : freeSuper st₀.names = some sp) (us : List BlockUse) (dev : ℕ) :
    ∃ st', syncAll st us = .ok st' ∧
      AsBefore st₀ ({ st' with cache := invalidate st'.cache dev }.setDev sp NO_DEV) ∧
      st'.stray = false := by
  obtain ⟨a, ha⟩ := h.root hstart
  obtain ⟨st', he, h', -, -⟩ := h.sync hroom ha us
  have hs : SameTables st' { st' with cache := invalidate st'.cache dev } := ⟨rfl, rfl, rfl⟩
  exact ⟨st', he, (h'.cache hs (h'.inv.invalidate dev) h'.got h'.stray).asBefore_setDev hstart.inv hsp,
    h'.stray⟩

/-- The root inode is put, if there is one. -/
theorem Underway.putRoot {root_ip : Option InodePtr} (h : Underway st₀ g root_ip.toList st) :
    Underway st₀ g [] (st.withNames (Fs.putInode st.names root_ip)) := by
  cases root_ip with
  | none => exact h
  | some root => exact h.putInode

/-- Both inodes are returned, or a bit is cleared through a pointer that is not one to a buffer. -/
theorem Underway.releaseInodes {imap zmap : List Buf}
    (h : Underway st₀ g (m.rip :: m.root_ip.toList) m.st) (hroom : HasRoom st₀ g 1)
    (hmaps : HasMaps m.st m.sp d imap zmap) :
    (BitsOk A d imap.length zmap.length
        (call.release ++ rootUses (Fs.putInode m.st.names (some m.rip)) call m.root_ip) ∧
      ∃ st', releaseInodes A m call = .ok st' ∧ Underway st₀ g [] st' ∧
        HasMaps st' m.sp d imap zmap) ∨
    (¬BitsOk A d imap.length zmap.length
        (call.release ++ rootUses (Fs.putInode m.st.names (some m.rip)) call m.root_ip) ∧
      releaseInodes A m call = .error .wild) := by
  have hput := h.putInode
  have hmaps₀ : HasMaps (m.st.withNames (Fs.putInode m.st.names (some m.rip))) m.sp d imap zmap :=
    ⟨hmaps.super, hmaps.s_imap, hmaps.s_zmap⟩
  have happend : ∀ us us', BitsOk A d imap.length zmap.length (us ++ us') ↔
      BitsOk A d imap.length zmap.length us ∧ BitsOk A d imap.length zmap.length us' :=
    fun us us' => List.forall_mem_append
  rw [happend]
  unfold Fs.releaseInodes
  rcases hput.uses hroom hmaps₀ call.release with ⟨hok, st₁, he₁, h₁, hs₁⟩ | ⟨hbad, he₁⟩
  · rw [he₁]
    have hnames : st₁.names = Fs.putInode m.st.names (some m.rip) := hs₁.names
    rw [← hnames]
    rcases h₁.uses hroom (hmaps₀.same hs₁) (rootUses st₁.names call m.root_ip) with
      ⟨hok', st₂, he₂, h₂, hs₂⟩ | ⟨hbad, he₂⟩
    · have hmaps₂ := (hmaps₀.same hs₁).same hs₂
      refine Or.inl ⟨⟨hok, hok'⟩, st₂.withNames (Fs.putInode st₂.names m.root_ip), ?_, h₂.putRoot,
        hmaps₂.super, hmaps₂.s_imap, hmaps₂.s_zmap⟩
      show (st₁.uses A m.sp (rootUses st₁.names call m.root_ip) >>= _) = _
      rw [he₂]
      rfl
    · refine Or.inr ⟨fun hall => hbad hall.2, ?_⟩
      show (st₁.uses A m.sp (rootUses st₁.names call m.root_ip) >>= _) = _
      rw [he₂]
      rfl
  · rw [he₁]
    exact Or.inr ⟨fun hall => hbad hall.1, rfl⟩

theorem MountStart.room (h : MountStart st₀ fp) : HasRoom st₀ 0 1 := by
  refine ⟨h.left, fun x => ?_⟩
  have hx := h.once x
  show st₀.cache.b_count x + 0 + 1 ≤ 255
  omega

/-- Undoing a mount is harmless if the bits are cleared through pointers to buffers, when what was got
for the maps is put. -/
theorem undo_harmless {imap zmap : List Buf} {loaded : Bool} (hstart : MountStart st₀ fp)
    (hsp : freeSuper st₀.names = some m.sp) (h : Underway st₀ g (m.rip :: m.root_ip.toList) m.st)
    (hroom : HasRoom st₀ g 1) (hmaps : HasMaps m.st m.sp d imap zmap)
    (hunload : ∀ st, Underway st₀ g [] st → HasMaps st m.sp d imap zmap →
      ∃ st', releaseMaps A st m.sp loaded = .ok st' ∧ Underway st₀ 0 [] st') :
    FailsCleanly st₀ (undoMount A m call loaded r) ↔ BitsOk A d imap.length zmap.length
      (call.release ++ rootUses (Fs.putInode m.st.names (some m.rip)) call m.root_ip) := by
  unfold undoMount
  rcases @Underway.releaseInodes A st₀ call g d m imap zmap h hroom hmaps with
    ⟨hok, st₁, he₁, h₁, hmaps₁⟩ | ⟨hbad, he₁⟩
  · rw [he₁]
    obtain ⟨st₂, he₂, h₂⟩ := hunload st₁ h₁ hmaps₁
    obtain ⟨st₃, he₃, hbefore, hstray⟩ := h₂.finish hstart hstart.room hsp call.sync m.dev
    refine iff_of_true ?_ hok
    show FailsCleanly st₀ (releaseMaps A st₁ m.sp loaded >>= _)
    rw [he₂]
    show FailsCleanly st₀ (syncAll st₂ call.sync >>= _)
    rw [he₃]
    exact fun _ => ⟨hbefore, hstray⟩
  · rw [he₁]
    exact iff_of_false id hbad

/-! ## Pointers that were not loaded -/

/-- Once a buffer has been put that was not got, that stays so. -/
theorem putAll_stray (ps : List BufPtr) (block_type : ℕ) (h : st.stray = true) :
    st.putAll ps block_type = .error .wild ∨
      ∃ st', st.putAll ps block_type = .ok st' ∧ st'.stray = true := by
  unfold MountState.putAll
  induction ps generalizing st with
  | nil => exact Or.inr ⟨st, rfl, h⟩
  | cons p ps ih =>
    rw [List.foldlM_cons]
    cases p with
    | nil => exact ih h
    | buf bp => exact ih (by rw [h]; rfl)
    | other => exact Or.inl rfl

/-- When the call has got nothing, the pointers that it puts have to be nil. -/
theorem putAll_pointers (ps : List BufPtr) (block_type : ℕ) (hgot : st.got = 0) :
    ((∀ p ∈ ps, p = .nil) ∧ st.putAll ps block_type = .ok st) ∨
    ((¬∀ p ∈ ps, p = .nil) ∧ (st.putAll ps block_type = .error .wild ∨
      ∃ st', st.putAll ps block_type = .ok st' ∧ st'.stray = true)) := by
  induction ps with
  | nil => exact Or.inl ⟨nofun, rfl⟩
  | cons p ps ih =>
    rw [List.forall_mem_cons]
    cases p with
    | nil =>
      rcases ih with ⟨hnil, he⟩ | ⟨hbad, he⟩
      · exact Or.inl ⟨⟨rfl, hnil⟩, he⟩
      · exact Or.inr ⟨fun hall => hbad hall.2, he⟩
    | buf bp =>
      refine Or.inr ⟨nofun, ?_⟩
      have hstray : (st.stray || decide (st.got bp = 0)) = true := by
        rw [hgot]
        exact Bool.or_true _
      exact putAll_stray ps block_type hstray
    | other => exact Or.inr ⟨nofun, Or.inl rfl⟩

/-- Using blocks does not undo it that a buffer was put that was not got. -/
theorem useBlocks_stray (us : List BlockUse) (h : st.stray = true) :
    us.foldlM MountState.useBlock st = .error (.panic true) ∨
      ∃ st', us.foldlM MountState.useBlock st = .ok st' ∧ st'.stray = true := by
  induction us generalizing st with
  | nil => exact Or.inr ⟨st, rfl, h⟩
  | cons u us ih =>
    rw [List.foldlM_cons]
    cases u with
    | block dev block only_search writes block_type =>
      unfold MountState.useBlock MountState.get
      dsimp only
      cases getBlock st.cache dev block only_search with
      | none =>
        rw [h]
        exact Or.inl rfl
      | some x =>
        have hstray : (st.stray ||
            decide (Function.update st.got x.1 (st.got x.1 + 1) x.1 = 0)) = true := by
          rw [h]
          rfl
        exact ih hstray
    | write bp data => exact ih h

theorem sync_stray (us : List BlockUse) (h : st.stray = true) :
    syncAll st us = .error (.panic true) ∨ ∃ st', syncAll st us = .ok st' ∧ st'.stray = true := by
  unfold syncAll
  cases getSuper st.names st.root_dev with
  | none =>
    rw [h]
    exact Or.inl rfl
  | some a =>
    have hnames := (st.withNames_stray (syncInodes st.names)).trans h
    rcases useBlocks_stray us hnames with he | ⟨st', he, hstray⟩
    · exact Or.inl (by rw [he]; rfl)
    · obtain ⟨c, hc, -⟩ := syncBuffers_spec st'.cache
      refine Or.inr ⟨{ st' with cache := c }, ?_, hstray⟩
      rw [he]
      show st'.syncCache = _
      unfold MountState.syncCache
      rw [hc]

/-- Unloading maps that were not loaded puts the pointers that the device has in their places. -/
theorem unload_pointers (hgot : st.got = 0) (hd : st.super sp = d) :
    ((∀ p ∈ imapPtrs A d ++ zmapPtrs A d, p = .nil) ∧ unloadBitMaps A st sp = .ok st) ∨
    ((¬∀ p ∈ imapPtrs A d ++ zmapPtrs A d, p = .nil) ∧ (unloadBitMaps A st sp = .error .wild ∨
      ∃ st', unloadBitMaps A st sp = .ok st' ∧ st'.stray = true)) := by
  unfold unloadBitMaps
  rw [List.forall_mem_append, hd]
  dsimp only
  rcases putAll_pointers (imapPtrs A d) I_MAP_BLOCK hgot with ⟨himap, he⟩ | ⟨himap, he | ⟨st₁, he, h₁⟩⟩
  · rw [he]
    rcases putAll_pointers (zmapPtrs A d) ZMAP_BLOCK hgot with ⟨hzmap, he₂⟩ | ⟨hzmap, he₂⟩
    · exact Or.inl ⟨⟨himap, hzmap⟩, he₂⟩
    · exact Or.inr ⟨fun hall => hzmap hall.2, he₂⟩
  · rw [he]
    exact Or.inr ⟨fun hall => himap hall.1, Or.inl rfl⟩
  · rw [he]
    exact Or.inr ⟨fun hall => himap hall.1, putAll_stray (zmapPtrs A d) ZMAP_BLOCK h₁⟩

/-- When the maps are refused, they count as loaded. Undoing the mount is harmless then, if the device
has no pointers in their places. -/
theorem undo_refused (hstart : MountStart st₀ fp) (hsp : freeSuper st₀.names = some m.sp)
    (h : Underway st₀ 0 (m.rip :: m.root_ip.toList) m.st) (hmaps : HasMaps m.st m.sp d [] [])
    (hr : r ≠ OK) :
    FailsCleanly st₀ (undoMount A m call true r) ↔ BitsOk A d 0 0
        (call.release ++ rootUses (Fs.putInode m.st.names (some m.rip)) call m.root_ip) ∧
      ∀ p ∈ imapPtrs A d ++ zmapPtrs A d, p = .nil := by
  by_cases hnil : ∀ p ∈ imapPtrs A d ++ zmapPtrs A d, p = .nil
  · rw [and_iff_left hnil]
    refine undo_harmless hstart hsp h hstart.room hmaps fun st₁ h₁ hmaps₁ => ⟨st₁, ?_, h₁⟩
    show unloadBitMaps A st₁ m.sp = .ok st₁
    rcases @unload_pointers A st₁ d m.sp h₁.got hmaps₁.unloaded with ⟨-, he⟩ | ⟨hbad, -⟩
    · exact he
    · exact absurd hnil hbad
  · refine iff_of_false ?_ fun hboth => hnil hboth.2
    unfold undoMount
    rcases @Underway.releaseInodes A st₀ call 0 d m [] [] h hstart.room hmaps with
      ⟨-, st₁, he₁, h₁, hmaps₁⟩ | ⟨-, he₁⟩
    · rw [he₁]
      show ¬FailsCleanly st₀ (unloadBitMaps A st₁ m.sp >>= _)
      rcases @unload_pointers A st₁ d m.sp h₁.got hmaps₁.unloaded with ⟨hall, -⟩ | ⟨-, he | ⟨st₂, he, h₂⟩⟩
      · exact absurd hall hnil
      · rw [he]
        exact id
      · rw [he]
        show ¬FailsCleanly st₀ (syncAll st₂ call.sync >>= _)
        rcases sync_stray call.sync h₂ with he₂ | ⟨st₃, he₂, h₃⟩
        · rw [he₂]
          exact fun hclean => Bool.noConfusion hclean
        · rw [he₂]
          intro hclean
          have hstray : st₃.stray = false := (hclean hr).2
          exact Bool.noConfusion (h₃.symm.trans hstray)
    · rw [he₁]
      exact id

/-! ## From the bit maps on -/

/-- When `do_mount` comes to the bit maps it has got the two inodes, and nothing has been loaded. -/
structure Ready (st₀ : MountState) (m : Mounting) : Prop where
  underway : Underway st₀ 0 (m.rip :: m.root_ip.toList) m.st
  slot : freeSuper st₀.names = some m.sp
  maps : HasMaps m.st m.sp (m.st.super m.sp) [] []

/-- From the bit maps on a mount is harmless exactly when it is safe. -/
theorem finish_harmless (hstart : MountStart st₀ fp) (h : Ready st₀ m) :
    FailsCleanly st₀ (finishMount A m call) ↔ m.Safe A call := by
  obtain ⟨hway, hslot, hmaps⟩ := h
  unfold finishMount
  by_cases hr : m.r = OK
  · rw [if_neg (not_not.mpr hr)]
    by_cases hrefused : m.refused = true
    · have hload : loadBitMaps m.st m.sp m.dev = .ok (false, m.st) := by
        unfold loadBitMaps
        exact if_pos hrefused
      rw [hload]
      have hundo := @undo_refused A st₀ fp call _ m ENFILE hstart hslot hway hmaps (by decide)
      refine hundo.trans ⟨fun hsafe => ⟨absurd hr, fun _ _ => hsafe, fun _ hno => ?_⟩, fun hsafe => ?_⟩
      · exact absurd hrefused (by rw [hno]; decide)
      · exact hsafe.refused hr hrefused
    · have hno : m.refused = false := Bool.eq_false_iff.mpr hrefused
      by_cases hbig : mapsTooBig (m.st.super m.sp) = true
      · have hload : loadBitMaps m.st m.sp m.dev = .error (.panic m.st.stray) := by
          unfold loadBitMaps
          dsimp only
          rw [if_neg (by exact hrefused), if_pos hbig]
        rw [hload]
        refine iff_of_true hway.stray ⟨absurd hr, fun _ hyes => absurd hyes hrefused, ?_⟩
        exact fun _ _ hsmall => absurd hbig (by rw [hsmall]; decide)
      · have hsmall : mapsTooBig (m.st.super m.sp) = false := Bool.eq_false_iff.mpr hbig
        obtain ⟨imap, zmap, st₁, he, himap, hzmap, h₁, hmaps₁, hnames, hroom⟩ :=
          hway.loadBitMaps hstart.once hslot hmaps hno hsmall m.dev
        rw [he]
        show FailsCleanly st₀ (if typesConflict st₁.names m.rip m.root_ip = true then
          undoMount A { m with st := st₁ } call true ENOTDIR
          else .ok (OK, doneMount m st₁ call.rd_only)) ↔ _
        rw [hnames]
        by_cases hconflict : typesConflict m.st.names m.rip m.root_ip = true
        · have hundo := @undo_harmless A st₀ fp call _ _ { m with st := st₁ } ENOTDIR imap zmap true
            hstart hslot h₁ hroom hmaps₁ fun st₂ h₂ hmaps₂ => by
              obtain ⟨st₃, he₃, h₃, -⟩ := h₂.unloadBitMaps hmaps₂ himap hzmap
              exact ⟨st₃, he₃, h₃⟩
          rw [himap, hzmap] at hundo
          dsimp only at hundo
          rw [hnames] at hundo
          rw [if_pos hconflict]
          refine hundo.trans ⟨fun hok => ⟨absurd hr, fun _ hyes => absurd hyes hrefused, ?_⟩, ?_⟩
          · exact fun _ _ _ _ => hok
          · exact fun hsafe => hsafe.conflict hr hno hsmall hconflict
        · rw [if_neg hconflict]
          refine iff_of_true (absurd rfl) ⟨absurd hr, fun _ hyes => absurd hyes hrefused, ?_⟩
          exact fun _ _ _ hyes => absurd hyes hconflict
  · rw [if_pos hr]
    have hundo := @undo_harmless A st₀ fp call 0 _ m m.r [] [] false hstart hslot hway hstart.room
      hmaps fun st h _ => ⟨st, rfl, h⟩
    refine hundo.trans ⟨fun hok => ⟨fun _ => hok, fun he => absurd he hr, fun he => absurd he hr⟩,
      fun hsafe => hsafe.failed hr⟩

/-! ## Up to the bit maps -/

theorem MountStart.underway (h : MountStart st₀ fp) : Underway st₀ 0 [] st₀ where
  inv := h.inv
  got := h.got
  stray := h.stray
  count _ := rfl
  mount _ := rfl
  root_dev := rfl
  others _ _ := ⟨rfl, rfl⟩

/-- A search has got inodes. -/
theorem Underway.walk (h : Underway st₀ g l st) (hc : Counted st.names s l') :
    Underway st₀ g (l ++ l') (st.withNames s) := by
  refine h.names hc.super_block (fun rip => ?_) hc.mount
  rw [hc.count, h.count, List.count_append, Nat.add_assoc]

/-- The directories of the process are in use. -/
theorem Underway.eatPath (h : Underway st₀ g [] st) (hstart : MountStart st₀ fp) {path : List UInt8}
    {res : Option InodePtr × Names} (hrun : eatPath st.names fp .other path = some res) :
    Underway st₀ g res.1.toList (st.withNames res.2) ∧
      res.2.super_block = st.names.super_block := by
  have hused : ∀ rip, 0 < (st₀.names.inode rip).i_count → 0 < (st.names.inode rip).i_count := by
    intro rip hpos
    rw [h.count]
    exact hpos
  have hc := (counted_walk st.names fp.caller).eatPath (Counted.refl st.names)
    (fun rip hrip => hused rip (hstart.rootdir rip hrip))
    (fun rip hrip => hused rip (hstart.workdir rip hrip)) hrun
  exact ⟨h.walk hc, hc.super_block⟩

/-- The search for the special file leaves the users as they are. -/
theorem Underway.nameToDev (h : Underway st₀ g [] st) (hstart : MountStart st₀ fp) (path : List UInt8) :
    nameToDev st fp path = .error .stuck ∨
      ∃ dev st', nameToDev st fp path = .ok (dev, st') ∧ Underway st₀ g [] st' ∧
        st'.names.super_block = st.names.super_block := by
  unfold Fs.nameToDev
  cases hrun : Fs.eatPath st.names fp .other path with
  | none => exact Or.inl rfl
  | some res =>
    obtain ⟨hres, hsuper⟩ := h.eatPath hstart hrun
    obtain ⟨rip, s⟩ := res
    cases rip with
    | none => exact Or.inr ⟨_, _, rfl, hres, hsuper⟩
    | some rip =>
      dsimp only at hres hsuper ⊢
      split_ifs with htype
      · have herr : Underway st₀ g [rip] (st.withNames { s with err_code := ENOTBLK }) :=
          ⟨hres.inv, hres.got, hres.stray, hres.count, hres.mount, hres.root_dev, hres.others⟩
        refine Or.inr ⟨_, _, rfl, herr.putInode, ?_⟩
        exact (putInode_slot { s with err_code := ENOTBLK } rip rip).2.2.trans hsuper
      · refine Or.inr ⟨_, _, rfl, hres.putInode, ?_⟩
        exact (putInode_slot s rip rip).2.2.trans hsuper

/-- Reading the super block takes the free slot, and loads nothing. -/
theorem Underway.rwSuper (h : Underway st₀ g l st) (hroom : HasRoom st₀ g 1)
    (hsp : freeSuper st₀.names = some sp) (dev : ℕ) :
    ∃ st', rwSuper A st sp dev = .ok st' ∧ Underway st₀ g l st' ∧
      HasMaps st' sp (st'.super sp) [] [] := by
  obtain ⟨bp, st₁, he₁, h₁, -⟩ := h.get hroom dev SUPER_BLOCK .NORMAL
  obtain ⟨st₂, he₂, h₂, -⟩ := h₁.put bp
    (by rw [Function.update_self]; exact Nat.succ_pos _) ZUPER_BLOCK
  rw [Function.update_self, Function.update_idem, Nat.add_sub_cancel, Function.update_eq_self] at h₂
  have hsuper : (st₂.setSuper A sp dev (copySuper (st₁.cache.b_data bp) dev)).super sp =
      copySuper (st₁.cache.b_data bp) dev := Function.update_self ..
  refine ⟨st₂.setSuper A sp dev (copySuper (st₁.cache.b_data bp) dev), ?_, ?_, ?_⟩
  · unfold Fs.rwSuper
    rw [he₁]
    show (st₁.put (.buf bp) ZUPER_BLOCK >>= fun st =>
      Except.ok (st.setSuper A sp dev (copySuper (st₁.cache.b_data bp) dev))) = _
    rw [he₂]
    rfl
  · refine ⟨h₂.inv, h₂.got, h₂.stray, h₂.count, h₂.mount, h₂.root_dev, fun a ha => ?_⟩
    have hne : a ≠ sp := fun e => ha (e ▸ hsp)
    exact ⟨(Function.update_of_ne hne ..).trans (h₂.others a ha).1,
      (Function.update_of_ne hne ..).trans (h₂.others a ha).2⟩
  · rw [hsuper]
    exact ⟨hsuper, rfl, rfl⟩

/-- What `do_mount` comes to in front of the bit maps: it has failed and left everything as it was, or
it has got the two inodes. -/
def Prepares (st₀ : MountState) : Except Fate Prepared → Prop
  | .ok (.failed _ st) => AsBefore st₀ st ∧ st.stray = false
  | .ok (.ready m) => Ready st₀ m
  | .error (.panic stray) => stray = false
  | .error _ => True

/-- The root inode of the device is got. -/
theorem getRoot_spec (hstart : MountStart st₀ fp) (h : Underway st₀ 0 [rip] st)
    (hsp : freeSuper st₀.names = some sp) (hmaps : HasMaps st sp (st.super sp) [] []) (dev : ℕ) :
    ∃ m, getRoot st call sp dev rip = .ok m ∧ Ready st₀ m := by
  unfold getRoot
  by_cases hcheck : checkMountPoint (st.names.inode rip) = OK
  · dsimp only
    rw [if_neg (not_not.mpr hcheck)]
    have hget : Counted st.names (getInode st.names dev ROOT_INODE).2
        ((getInode st.names dev ROOT_INODE).1.toList ++ []) := (Counted.refl st.names).get
    rw [List.append_nil] at hget
    have hway := h.walk hget
    obtain ⟨st₁, he, h₁, hs₁⟩ := hway.useBlocks hstart.room call.rootRead
    have hmaps₁ : HasMaps st₁ sp (st₁.super sp) [] [] := by
      rw [hs₁.super]
      exact ⟨(congrFun hs₁.super sp).trans hmaps.super, hmaps.s_imap, hmaps.s_zmap⟩
    generalize getInode st.names dev ROOT_INODE = res at h₁ he
    obtain ⟨root_ip, s⟩ := res
    dsimp only at he ⊢
    rw [he]
    cases root_ip with
    | none => exact ⟨_, rfl, h₁, hsp, hmaps₁⟩
    | some root => exact ⟨_, rfl, h₁, hsp, hmaps₁⟩
  · exact ⟨_, if_pos hcheck, h, hsp, hmaps⟩

/-- The search for the file to be mounted on fails and leaves everything as it was, or both inodes are
got. -/
theorem getMountPoint_spec (hstart : MountStart st₀ fp) (h : Underway st₀ 0 [] st)
    (hsp : freeSuper st₀.names = some sp) (hmaps : HasMaps st sp (st.super sp) [] []) (dev : ℕ)
    (path : List UInt8) : Prepares st₀ (getMountPoint st fp call sp dev path) := by
  unfold getMountPoint
  cases hrun : eatPath st.names fp .other path with
  | none => exact trivial
  | some res =>
    obtain ⟨hres, -⟩ := h.eatPath hstart hrun
    obtain ⟨rip, s⟩ := res
    cases rip with
    | none => exact ⟨hres.asBefore_setDev hstart.inv hsp, hres.stray⟩
    | some rip =>
      have hmaps' : HasMaps (st.withNames s) sp (st.super sp) [] [] :=
        ⟨hmaps.super, hmaps.s_imap, hmaps.s_zmap⟩
      obtain ⟨m, hm, hready⟩ := @getRoot_spec _ st₀ fp call _ _ hstart hres hsp hmaps' dev
      dsimp only
      rw [hm]
      exact hready

theorem findMountPoint_spec (hstart : MountStart st₀ fp) (h : Underway st₀ 0 [] st)
    (hsp : freeSuper st₀.names = some sp) (hmaps : HasMaps st sp (st.super sp) [] []) (dev : ℕ) :
    Prepares st₀ (findMountPoint A st fp call sp dev) := by
  unfold findMountPoint
  cases call.name2 with
  | error e => exact ⟨h.asBefore_setDev hstart.inv hsp, h.stray⟩
  | ok path =>
    dsimp only
    rcases h.uses hstart.room hmaps call.search2 with ⟨-, st', he, h', hs⟩ | ⟨-, he⟩
    · rw [he]
      have hmaps' : HasMaps st' sp (st'.super sp) [] [] := by
        rw [hs.super]
        exact hmaps.same hs
      exact getMountPoint_spec hstart h' hsp hmaps' dev path
    · rw [he]
      exact trivial

/-- Reading the device fails and leaves everything as it was, or comes to the bit maps. -/
theorem readDevice_spec (hstart : MountStart st₀ fp) (h : Underway st₀ 0 [] st)
    (hsp : freeSuper st₀.names = some sp) (dev : ℕ) :
    Prepares st₀ (readDevice A st fp call sp dev) := by
  obtain ⟨st₁, he, h₁, hmaps⟩ := @Underway.rwSuper A st st₀ 0 [] sp h hstart.room hsp dev
  unfold readDevice
  rw [he]
  show Prepares st₀ (if ¬reasonable (st₁.super sp) = true then
    .ok (.failed EINVAL (st₁.setDev sp NO_DEV)) else findMountPoint A st₁ fp call sp dev)
  split_ifs
  · exact findMountPoint_spec hstart h₁ hsp hmaps dev
  · exact ⟨h₁.asBefore_setDev hstart.inv hsp, h₁.stray⟩

/-- When nothing has been taken, everything is as before. -/
theorem Underway.asBefore_same (h : Underway st₀ 0 [] st)
    (hinv : CacheInv ⟨st₀.cache, st₀.cache.b_count⟩)
    (hsuper : st.names.super_block = st₀.names.super_block) : AsBefore st₀ st := by
  refine h.asBefore hinv fun sp hsp => ?_
  rw [hsuper]
  exact freeSuper_dev hsp

theorem findSlot_spec (hstart : MountStart st₀ fp) (h : Underway st₀ 0 [] st)
    (hsuper : st.names.super_block = st₀.names.super_block) (dev : ℕ) :
    Prepares st₀ (findSlot A st fp call dev) := by
  have hsame := h.asBefore_same hstart.inv hsuper
  have hfree : freeSuper st.names = freeSuper st₀.names := by
    unfold freeSuper
    rw [hsuper]
  unfold findSlot
  split_ifs
  · exact ⟨hsame, h.stray⟩
  · exact ⟨hsame, h.stray⟩
  · cases hsp : freeSuper st.names with
    | none => exact ⟨hsame, h.stray⟩
    | some sp => exact readDevice_spec hstart h (hfree ▸ hsp) dev

theorem findDevice_spec (hstart : MountStart st₀ fp) (path : List UInt8) :
    Prepares st₀ (findDevice A st₀ fp call path) := by
  obtain ⟨st₁, he₁, h₁, hs₁⟩ := hstart.underway.useBlocks hstart.room call.search1
  unfold findDevice
  rw [he₁]
  show Prepares st₀ (nameToDev st₁ fp path >>= fun x => findSlot A x.2 fp call x.1)
  rcases h₁.nameToDev hstart path with he₂ | ⟨dev, st₂, he₂, h₂, hsuper⟩
  · rw [he₂]
    exact trivial
  · rw [he₂]
    rw [hs₁.names] at hsuper
    exact findSlot_spec hstart h₂ hsuper dev

/-- The part in front of the bit maps fails and leaves everything as it was, or comes to them. -/
theorem prepare_spec (hstart : MountStart st₀ fp) :
    Prepares st₀ (prepareMount A st₀ fp call) := by
  have hsame := hstart.underway.asBefore_same hstart.inv rfl
  unfold prepareMount
  split_ifs
  · exact ⟨hsame, hstart.stray⟩
  · cases call.name1 with
    | error e => exact ⟨hsame, hstart.stray⟩
    | ok path => exact findDevice_spec hstart path

/-- A mount that fails is harmless exactly when the bit maps of its device, if they are refused, have no
pointers in their places, and bits are cleared through pointers to buffers only. -/
theorem mount_harmless (hstart : MountStart st fp) :
    MountHarmless A st fp call ↔ MountSafe A st fp call := by
  have hprep := @prepare_spec A st fp call hstart
  unfold MountHarmless MountSafe doMount
  cases hrun : prepareMount A st fp call with
  | error e =>
    rw [hrun] at hprep
    cases e with
    | panic stray => exact iff_of_true hprep ⟨nofun, nofun⟩
    | wild => exact iff_of_false id fun hsafe => hsafe.1 rfl
    | stuck => exact iff_of_true trivial ⟨nofun, nofun⟩
  | ok p =>
    rw [hrun] at hprep
    cases p with
    | failed r st' => exact iff_of_true (fun _ => hprep) ⟨nofun, nofun⟩
    | ready m =>
      refine (finish_harmless hstart hprep).trans ⟨fun hsafe => ⟨nofun, fun m' hm => ?_⟩, fun hall => ?_⟩
      · obtain rfl := Prepared.ready.inj (Except.ok.inj hm)
        exact hsafe
      · exact hall.2 m rfl

/-! ## A device whose bit maps are refused -/

/-- The root directory has a special file `d` and a directory `m`. -/
def mountTree : Names where
  inode rip :=
    if rip.val = 0 then ⟨⟨I_DIRECTORY ||| 0o777, 0, 0, 32, 3⟩, 1, 1, 2, false, false, false⟩
    else ⟨⟨0, 0, 0, 0, 0⟩, 0, 0, 0, false, false, false⟩
  super_block sp :=
    if sp.val = 0 then ⟨1, false, some ⟨0, NR_INODES_pos⟩⟩ else ⟨NO_DEV, false, none⟩
  fproc _ := ⟨⟨SU_UID, SU_UID, 0, 0⟩, none, none⟩
  err_code := OK
  disk dev numb :=
    if dev = 1 ∧ numb = 2 then ⟨I_BLOCK_SPECIAL ||| 0o600, 0, 0, 0, 1⟩
    else ⟨I_DIRECTORY ||| 0o755, 0, 0, 32, 2⟩
  imap _ _ := true
  dirs _ _ k := if k = 0 then ⟨2, padded [100]⟩ else ⟨3, padded [109]⟩
  room _ := true

/-- A super block of 20 and 8 map blocks, with 4 in the place of the first pointer. -/
def manyMaps : Block := fun i =>
  if i.val = 1 ∨ i.val = 3 then 1
  else if i.val = 5 then 20
  else if i.val = 7 then 8
  else if i.val = 16 then 0x13
  else if i.val = 17 then 0x7F
  else if i.val = 21 then 4
  else 0

/-- The file system when device 2, on which that super block is, is going to be mounted. -/
def beforeMount : MountState where
  names := mountTree
  i_zone _ _ _ := 2
  cache := bufPool { staticCache with
    io := []
    disk := fun dev block => if dev = 2 ∧ block = SUPER_BLOCK then manyMaps else fun _ => 0 }
  super _ := ⟨fun _ => 0, [], []⟩
  root_dev := 1
  got := 0
  stray := false

/-- `mount("d", "m", 0)` -/
def mountCall : MountCall := ⟨.ok [100], .ok [109], false, [], [], [], [], [], []⟩

def tables : Addresses :=
  ⟨fun bp => 4096 + 1056 * bp.val, fun rip => 65536 + 64 * rip.val, fun _ => .nil⟩

/-- Whether a call has followed a pointer that is not one to a buffer. -/
def isWild {α : Type} : Except Fate α → Bool
  | .error .wild => true
  | _ => false

theorem isWild_not_clean {x : Except Fate (ℤ × MountState)} (h : isWild x = true) :
    ¬FailsCleanly st x := by
  unfold isWild at h
  split at h
  · exact id
  · exact absurd h (by decide)

theorem beforeMount_wild : isWild (doMount tables beforeMount rootProc mountCall) = true := by
  decide +kernel

theorem beforeMount_start : MountStart beforeMount rootProc where
  inv := CacheStart.inv ⟨_, fun _ => rfl, fun _ => rfl, rfl⟩
  once _ := Nat.zero_le 1
  left := by decide
  root := ⟨by decide, ⟨0, by decide⟩, rfl⟩
  rootdir rip h := by
    obtain rfl := Option.some.inj h
    decide
  workdir rip h := by
    obtain rfl := Option.some.inj h
    decide
  got := rfl
  stray := rfl

/-- A mount that fails can put a pointer that came from the device. -/
theorem wild_pointer_put :
    ¬∀ (A : Addresses) (st : MountState) (fp : Fproc) (call : MountCall),
      MountStart st fp → MountHarmless A st fp call :=
  fun h => isWild_not_clean beforeMount_wild (h tables beforeMount rootProc mountCall beforeMount_start)

/-- The mount of a device whose bit maps are refused is not safe. -/
theorem mount_harmless_manyMaps : ¬MountSafe tables beforeMount rootProc mountCall :=
  fun hsafe => isWild_not_clean beforeMount_wild ((mount_harmless beforeMount_start).mpr hsafe)

end Minix.Fs
