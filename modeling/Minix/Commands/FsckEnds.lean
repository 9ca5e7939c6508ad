import Mathlib.Data.Finset.Card
import Mathlib.Order.Interval.Finset.Nat
import Minix.Commands.Fsck

/-!
# The check of the tree comes to an end

A directory is descended only where its bit in `dirmap` is not set, and then the bit is set and
never cleared: with every level there is one directory less (`unset`), and so `descendtree` calls
itself no more often than there are inodes. The loops end because they count down.

An inode that is removed has its bit in `imap` cleared, but then it has no links on the disk, and is
not looked at again (`Once`). This holds where the chunks of directories are not written over inodes
(`Apart`).
-/

namespace Minix.Fsck

open Lib Function
open Lib.Comp (Holds)

variable {env : Env} {sb : Dsb} {depth ino zno : ℕ} {dp : DirStruct} {ip : DInode} {s s' : State}
  {c : Cursor}

/-- No block of a data zone is one of the inode list, as block numbers are computed. -/
def Apart (sb : Dsb) : Prop :=
  ∀ zno ino j, sb.s_firstdatazone ≤ zno → zno < sb.s_nzones → 1 ≤ ino → ino ≤ sb.s_ninodes →
    j < 2 ^ sb.s_log_zone_size.toNat →
    (zno * 2 ^ sb.s_log_zone_size.toNat + j) % 65536 ≠ blockOf (sb.inoaddr ino)

/-- There is such an inode. -/
def IsInode (sb : Dsb) (ino : ℕ) : Prop := 1 ≤ ino ∧ ino ≤ sb.s_ninodes

/-- The number of inodes that have not been found to be directories. -/
def unset (sb : Dsb) (s : State) : ℕ :=
  ((Finset.Icc 1 sb.s_ninodes).filter fun i => s.dirmap i = false).card

/-- The inode has no links on the disk. -/
def Cleared (sb : Dsb) (s : State) (ino : ℕ) : Prop :=
  ∀ b, s.dev (blockOf (sb.inoaddr ino)) = some b → b (sb.inoaddr ino % BLOCK_SIZE + 13) = 0

/-- The contents of no inode have been looked at twice, and they will not be. -/
structure Once (sb : Dsb) (s : State) : Prop where
  nodup : s.files.Nodup
  isInode : ∀ ino ∈ s.files, IsInode sb ino
  marked : ∀ ino ∈ s.files, s.imap ino = true ∨ s.dirmap ino = true ∨ Cleared sb s ino

/-- There are no more directories than the depth that is left. -/
structure Sound (sb : Dsb) (depth : ℕ) (s : State) : Prop where
  few : unset sb s ≤ depth
  once : Apart sb → Once sb s

/-- The program stops, but not because it goes on for too long. -/
def Stopped (sb : Dsb) (why : Why) (s : State) : Prop :=
  why ≠ .diverges ∧ (Apart sb → s.files.Nodup)

/-- A part of the program that leaves everything sound. -/
def Keeps {α : Type} (sb : Dsb) (depth : ℕ) (m : M α) : Prop :=
  Holds (Sound sb depth) m (fun _ => Sound sb depth) (Stopped sb)

theorem Sound.congr (h : Sound sb depth s) (hdev : s'.dev = s.dev) (himap : s'.imap = s.imap)
    (hdirmap : s'.dirmap = s.dirmap) (hfiles : s'.files = s.files) : Sound sb depth s' := by
  refine ⟨?_, fun ha => ⟨?_, ?_, ?_⟩⟩
  · rw [unset, hdirmap]
    exact h.few
  · rw [hfiles]
    exact (h.once ha).nodup
  · rw [hfiles]
    exact (h.once ha).isInode
  · rw [hfiles, himap, hdirmap]
    intro ino hino
    have hm := (h.once ha).marked ino hino
    rwa [Cleared, hdev]

theorem Sound.stopped (h : Sound sb depth s) {why : Why} (hwhy : why ≠ .diverges) :
    Stopped sb why s :=
  ⟨hwhy, fun ha => (h.once ha).nodup⟩

/-! ## Questions, counters and the stack -/

theorem keeps_pure {α : Type} (a : α) : Keeps sb depth (pure a) := Holds.pure fun _ h => h

theorem keeps_bind {α β : Type} {m : M α} {f : α → M β} (hm : Keeps sb depth m)
    (hf : ∀ a, Keeps sb depth (f a)) : Keeps sb depth (m >>= f) :=
  Holds.bind hm hf

theorem keeps_get {α : Type} {f : State → M α} (h : ∀ t, Keeps sb depth (f t)) :
    Keeps sb depth (Comp.get >>= f) :=
  Holds.get fun t => (h t).pre fun _ hs => hs.2

theorem keeps_fatal {α : Type} : Keeps sb depth (fatal : M α) :=
  Holds.stop fun _ h => h.stopped (by decide)

theorem keeps_ite {α : Type} {p : Prop} [Decidable p] {m m' : M α} (ht : p → Keeps sb depth m)
    (hf : ¬p → Keeps sb depth m') : Keeps sb depth (if p then m else m') :=
  Holds.ite ht hf

/-- Variables that nothing is said about may change. -/
theorem keeps_modify {f : State → State} (hdev : ∀ s, (f s).dev = s.dev)
    (himap : ∀ s, (f s).imap = s.imap) (hdirmap : ∀ s, (f s).dirmap = s.dirmap)
    (hfiles : ∀ s, (f s).files = s.files) : Keeps sb depth (Comp.modify f) :=
  Holds.modify fun s h => h.congr (hdev s) (himap s) (hdirmap s) (hfiles s)

theorem keeps_yes : Keeps sb depth (yes env) := by
  unfold yes
  refine keeps_ite (fun _ => keeps_pure _) fun _ => keeps_ite (fun _ => keeps_pure _) fun _ => ?_
  refine keeps_get fun t => keeps_bind ?_ fun _ => ?_
  · exact keeps_modify (fun _ => rfl) (fun _ => rfl) (fun _ => rfl) fun _ => rfl
  · cases env.answers t.asked with
    | yes => exact keeps_pure _
    | no => exact keeps_pure _
    | quit => exact Holds.stop fun _ h => h.stopped (by decide)

theorem keeps_addCount (n : Byte) : Keeps sb depth (addCount ino n) :=
  keeps_modify (fun _ => rfl) (fun _ => rfl) (fun _ => rfl) fun _ => rfl

theorem keeps_onTop (f : Stack → Stack) : Keeps sb depth (onTop f) :=
  keeps_modify (fun _ => rfl) (fun _ => rfl) (fun _ => rfl) fun _ => rfl

theorem keeps_remove : Keeps sb depth (Remove env dp) := by
  unfold Remove
  refine keeps_bind keeps_yes fun a => keeps_ite (fun _ => ?_) fun _ => keeps_pure _
  exact keeps_bind (keeps_addCount _) fun _ => keeps_pure _

theorem keeps_devread (offset : ℕ) : Keeps sb depth (devread offset) := by
  unfold devread
  refine keeps_get fun t => ?_
  cases t.dev (blockOf offset) with
  | none => exact keeps_fatal
  | some b => exact keeps_pure _

theorem keeps_chkdots (exp : ℕ) : Keeps sb depth (chkdots env dp exp) := by
  unfold chkdots
  refine keeps_ite (fun _ => ?_) fun _ => keeps_pure _
  refine keeps_bind keeps_yes fun a => keeps_ite (fun _ => ?_) fun _ => keeps_pure _
  exact keeps_bind (keeps_addCount _) fun _ => keeps_bind (keeps_addCount _) fun _ => keeps_pure _

theorem keeps_chkname : Keeps sb depth (chkname env dp) := by
  unfold chkname
  refine keeps_ite (fun _ => ?_) fun _ => keeps_pure _
  exact keeps_bind keeps_remove fun _ => keeps_pure _

/-! ## Directory entries -/

/-- How an inode that is no directory yet is descended. -/
def Descends (sb : Dsb) (depth : ℕ) (descend : DirStruct → M (Bool × DirStruct)) : Prop :=
  ∀ dp, IsInode sb dp.d_inum →
    Holds (fun s => Sound sb depth s ∧ s.dirmap dp.d_inum = false) (descend dp)
      (fun _ => Sound sb depth) (Stopped sb)

variable {descend : DirStruct → M (Bool × DirStruct)} {entry : DirStruct → M (Bool × DirStruct)}

theorem keeps_chklink (hd : Descends sb depth descend) (hino : IsInode sb dp.d_inum) :
    Keeps sb depth (chklink env descend ino dp) := by
  unfold chklink
  refine keeps_bind (keeps_addCount _) fun _ => keeps_ite (fun _ => ?_) fun _ => ?_
  · exact keeps_bind (keeps_onTop _) fun _ => keeps_chkdots _
  refine keeps_ite (fun _ => ?_) fun _ => ?_
  · exact keeps_bind (keeps_onTop _) fun _ => keeps_get fun t => keeps_chkdots _
  refine keeps_bind keeps_chkname fun ok => keeps_ite (fun _ => keeps_pure _) fun _ => ?_
  refine Holds.get fun t => Holds.ite (fun _ => ?_) fun hset => ?_
  · refine Holds.pre (P := Sound sb depth) ?_ fun _ hs => hs.2
    refine keeps_bind keeps_remove fun removed => ?_
    exact keeps_ite (fun _ => keeps_pure _) fun _ => keeps_pure _
  · -- An entry that is descended is one of no directory.
    refine (hd dp hino).pre fun s hs => ⟨hs.2, ?_⟩
    rw [hs.1]
    exact Bool.eq_false_iff.mpr hset

theorem keeps_chkentry (hd : Descends sb depth descend) :
    Keeps sb depth (chkentry env sb descend ino dp) := by
  unfold chkentry
  refine keeps_ite (fun _ => ?_) fun hrange => ?_
  · exact keeps_bind keeps_yes fun _ => keeps_ite (fun _ => keeps_pure _) fun _ => keeps_pure _
  have hino : IsInode sb dp.d_inum := by
    have hroot : ROOT_INODE = 1 := rfl
    constructor
    · omega
    · omega
  refine keeps_get fun t => keeps_ite (fun _ => ?_) fun _ => keeps_chklink hd hino
  refine keeps_bind keeps_remove fun removed => ?_
  exact keeps_ite (fun _ => keeps_pure _) fun _ => keeps_chklink hd hino

theorem keeps_chkentries (he : ∀ dp, Keeps sb depth (entry dp)) (dps : List DirStruct) (c : Cursor) :
    Keeps sb depth (chkentries env entry dps c) := by
  induction dps generalizing c with
  | nil => exact keeps_pure _
  | cons dp dps ih =>
    unfold chkentries
    refine keeps_bind (keeps_ite (fun _ => keeps_yes) fun _ => keeps_pure _) fun truncated => ?_
    refine keeps_ite (fun _ => keeps_pure _) fun _ => ?_
    refine keeps_bind (keeps_ite (fun _ => he dp) fun _ => keeps_pure _) fun r => ?_
    refine keeps_ite (fun _ => keeps_pure _) fun _ => ?_
    exact keeps_bind (ih _) fun rest => keeps_pure _

/-! ## What is written -/

/-- The block of a chunk of a directory is none of the inode list. -/
def Clear (sb : Dsb) (offset : ℕ) : Prop :=
  Apart sb → ∀ ino, IsInode sb ino → blockOf offset ≠ blockOf (sb.inoaddr ino)

theorem keeps_devwrite {offset : ℕ} (hclear : Clear sb offset) (buf : List Byte) :
    Keeps sb depth (devwrite env offset buf) := by
  unfold devwrite
  refine keeps_ite (fun _ => keeps_fatal) fun _ => Holds.get fun t => ?_
  cases hb : t.dev (blockOf offset) with
  | none => exact keeps_fatal.pre fun _ hs => hs.2
  | some b =>
    refine Holds.ite (fun _ => Holds.modify ?_) fun _ => keeps_fatal.pre fun _ hs => hs.2
    rintro s ⟨rfl, hs⟩
    refine ⟨hs.few, fun ha => ⟨(hs.once ha).nodup, (hs.once ha).isInode, ?_⟩⟩
    intro ino hino
    have hne := hclear ha ino ((hs.once ha).isInode ino hino)
    refine ((hs.once ha).marked ino hino).imp_right (Or.imp_right fun hzero => ?_)
    intro b' hb'
    have hsame : s.dev (blockOf (sb.inoaddr ino)) = some b' := (update_of_ne hne.symm _ _).symm.trans hb'
    exact hzero b' hsame

theorem keeps_writeBack {offset : ℕ} (hclear : Clear sb offset) (scan : Scan) :
    Keeps sb depth (writeBack env offset scan) :=
  keeps_ite (fun _ => keeps_devwrite hclear _) fun _ => keeps_pure _

/-! ## Zones -/

/-- A counter that has been lowered. -/
theorem int16_pred {r : ℕ} (hr : 0 < r) : int16 (int16 r - 1) = int16 (r - 1 : ℕ) := by
  rw [sub_eq_add_neg, int16_int16_add, ← sub_eq_add_neg]
  congr 1
  omega

/-- The loop over the chunks of a zone has as many turns left as its counter says. -/
theorem keeps_chkchunks (he : ∀ dp, Keeps sb depth (entry dp)) {turns r offset : ℕ} (hr : 0 < r)
    (hturns : r ≤ turns) (hclear : ∀ k < r, Clear sb (offset + DIRCHUNK * k)) (c : Cursor) :
    Keeps sb depth (chkchunks env entry turns (int16 r) offset c) := by
  induction turns generalizing r offset c with
  | zero => omega
  | succ turns ih =>
    unfold chkchunks
    refine keeps_bind (keeps_devread _) fun b => keeps_bind (keeps_chkentries he _ _) fun scan => ?_
    refine keeps_ite (fun _ => keeps_pure _) fun _ => ?_
    refine keeps_bind (keeps_writeBack (hclear 0 hr) scan) fun _ => ?_
    dsimp only
    rw [int16_pred hr]
    generalize hn : int16 (r - 1 : ℕ) = n
    refine keeps_ite (fun hmore => ?_) fun _ => keeps_pure _
    have hleft : r - 1 ≠ 0 := fun h0 => hmore.1 (by rw [← hn, h0]; rfl)
    rw [← hn]
    refine ih (Nat.pos_of_ne_zero hleft) (by omega) (fun k hk => ?_) _
    have hnext : offset + DIRCHUNK + DIRCHUNK * k = offset + DIRCHUNK * (k + 1) := by
      rw [Nat.mul_succ]
      omega
    rw [hnext]
    exact hclear (k + 1) (by omega)

/-- The loop over the chunks of an indirect zone. -/
theorem keeps_chkindirects {zones : List ℕ → Cursor → M (Bool × Cursor)}
    (hz : ∀ l c, Keeps sb depth (zones l c)) {turns r offset : ℕ} (hr : 0 < r)
    (hturns : r ≤ turns) (c : Cursor) :
    Keeps sb depth (chkindirects zones turns (int16 r) offset c) := by
  induction turns generalizing r offset c with
  | zero => omega
  | succ turns ih =>
    unfold chkindirects
    refine keeps_bind (keeps_devread _) fun b => keeps_bind (hz _ _) fun found => ?_
    refine keeps_ite (fun _ => keeps_pure _) fun _ => ?_
    dsimp only
    rw [int16_pred hr]
    generalize hn : int16 (r - 1 : ℕ) = n
    refine keeps_ite (fun hmore => ?_) fun _ => keeps_pure _
    have hleft : r - 1 ≠ 0 := fun h0 => hmore.1 (by rw [← hn, h0]; rfl)
    rw [← hn]
    exact ih (Nat.pos_of_ne_zero hleft) (by omega) _

/-- The number of chunks of a zone, in an `int` that counts down to 0. -/
theorem chunks_turns : ∀ l < 16,
    int16 (int16 ((1 * 2 ^ l % 65536 : ℕ) : ℤ) * (4 : ℕ)) = int16 (min (4 * 2 ^ l) 65536 : ℕ) := by
  decide

/-- A chunk of a data zone is in a block of it. -/
theorem clear_chunk (hlo : sb.s_firstdatazone ≤ zno) (hhi : zno < sb.s_nzones) {k : ℕ}
    (hk : k < 4 * 2 ^ sb.s_log_zone_size.toNat) : Clear sb (sb.zaddr zno + DIRCHUNK * k) := by
  intro ha ino hino
  have hblock : blockOf (sb.zaddr zno + DIRCHUNK * k) =
      (zno * 2 ^ sb.s_log_zone_size.toNat + k / 4) % 65536 := by
    have hsize : BLOCK_SIZE = 1024 := rfl
    have hchunk : DIRCHUNK = 256 := rfl
    rw [blockOf, Dsb.zaddr, Dsb.ztob, hsize, hchunk]
    generalize zno * 2 ^ sb.s_log_zone_size.toNat = z
    omega
  rw [hblock]
  exact ha zno ino (k / 4) hlo hhi hino.1 hino.2 (by omega)

theorem keeps_chkdirzone (he : ∀ dp, Keeps sb depth (entry dp)) (hlog : sb.s_log_zone_size < 16)
    (hlo : sb.s_firstdatazone ≤ zno) (hhi : zno < sb.s_nzones) (c : Cursor) :
    Keeps sb depth (chkdirzone env sb entry c zno) := by
  have hturns : int16 (sb.SCALE * (NR_DIR_ENTRIES / CDIRECT)) =
      int16 (min (4 * 2 ^ sb.s_log_zone_size.toNat) 65536 : ℕ) :=
    chunks_turns sb.s_log_zone_size.toNat (by omega)
  have hpos : 0 < 2 ^ sb.s_log_zone_size.toNat := Nat.two_pow_pos _
  unfold chkdirzone
  simp only [hturns]
  have hsome : 0 < min (4 * 2 ^ sb.s_log_zone_size.toNat) 65536 := by omega
  refine keeps_bind (keeps_chkchunks he hsome (min_le_right _ _) (fun k hk => ?_) c)
    fun r => keeps_pure _
  exact clear_chunk hlo hhi (lt_of_lt_of_le hk (min_le_left _ _))

/-- A zone is marked only if it is a data zone. -/
theorem markzone_spec : Holds (Sound sb depth) (markzone sb zno)
    (fun r s => Sound sb depth s ∧ (r = true → sb.s_firstdatazone ≤ zno ∧ zno < sb.s_nzones))
    (Stopped sb) := by
  unfold markzone
  refine Holds.ite (fun _ => Holds.pure fun s hs => ⟨hs, fun h => by cases h⟩) fun hrange => ?_
  refine Holds.get fun t => Holds.ite (fun _ => ?_) fun _ => ?_
  · exact Holds.pure fun s hs => ⟨hs.2, fun h => by cases h⟩
  · refine Holds.bind (Holds.modify fun s hs => ?_) fun _ => Holds.pure (P := Sound sb depth)
      fun s hs => ⟨hs, fun _ => by omega⟩
    exact hs.2.congr rfl rfl rfl rfl

variable {check : ℕ → Cursor → M (Bool × Cursor)}

theorem keeps_chkzone (level : ℕ) (hc : sb.s_firstdatazone ≤ zno → zno < sb.s_nzones →
    ∀ c, Keeps sb depth (check zno c)) : Keeps sb depth (chkzone sb check level zno c) := by
  unfold chkzone
  refine keeps_ite (fun _ => keeps_pure _) fun _ => ?_
  refine Holds.bind markzone_spec fun marked => Holds.ite (fun hm => ?_) fun _ => ?_
  · intro s hs
    obtain ⟨hlo, hhi⟩ := hs.2 hm
    exact hc hlo hhi c s hs.1
  · exact Holds.pure fun s hs => hs.1

theorem keeps_chkzones (level : ℕ) (hc : ∀ zno, sb.s_firstdatazone ≤ zno → zno < sb.s_nzones →
    ∀ c, Keeps sb depth (check zno c)) (zlist : List ℕ) (c : Cursor) :
    Keeps sb depth (chkzones sb check level zlist c) := by
  induction zlist generalizing c with
  | nil => exact keeps_pure _
  | cons zno zlist ih =>
    unfold chkzones
    refine keeps_ite (fun _ => ?_) fun _ => keeps_pure _
    exact keeps_bind (keeps_chkzone level (hc zno)) fun r => keeps_bind (ih _) fun _ => keeps_pure _

/-- Only the zones of a directory are looked into. -/
theorem keeps_zonechk (he : I_TYPE ip.i_mode = I_DIRECTORY → ∀ dp, Keeps sb depth (entry dp))
    (hlog : sb.s_log_zone_size < 16) (level : ℕ) (hlo : sb.s_firstdatazone ≤ zno)
    (hhi : zno < sb.s_nzones) (c : Cursor) :
    Keeps sb depth (zonechk env sb entry ip level zno c) := by
  induction level generalizing zno c with
  | zero =>
    unfold zonechk
    refine keeps_bind (keeps_ite (fun hdir => ?_) fun _ => keeps_pure _) fun r => ?_
    · exact keeps_chkdirzone (he hdir) hlog hlo hhi c
    · exact keeps_ite (fun _ => keeps_pure _) fun _ => keeps_pure _
  | succ level ih =>
    unfold zonechk
    have hfour : ((NR_INDIRECTS / CINDIR : ℕ) : ℤ) = int16 (4 : ℕ) := rfl
    rw [hfour]
    refine keeps_chkindirects (fun l c => ?_) (by decide) (by decide) c
    exact keeps_chkzones level (fun zno hlo hhi c => ih hlo hhi c) l c

/-! ## The contents of inodes -/

theorem Sound.mono (h : Sound sb depth s) : Sound sb (depth + 1) s :=
  ⟨Nat.le_succ_of_le h.few, h.once⟩

/-- A directory that is found is one less to be found. -/
theorem unset_mark (hino : IsInode sb ino) (hset : s.dirmap ino = false) :
    unset sb { s with dirmap := update s.dirmap ino true } + 1 = unset sb s := by
  have hmem : ino ∈ (Finset.Icc 1 sb.s_ninodes).filter fun i => s.dirmap i = false :=
    Finset.mem_filter.mpr ⟨Finset.mem_Icc.mpr hino, hset⟩
  have herase : ((Finset.Icc 1 sb.s_ninodes).filter fun i => update s.dirmap ino true i = false) =
      ((Finset.Icc 1 sb.s_ninodes).filter fun i => s.dirmap i = false).erase ino := by
    ext i
    rw [Finset.mem_erase, Finset.mem_filter, Finset.mem_filter]
    by_cases hi : i = ino
    · subst hi
      simp
    · simp [hi]
  rw [unset, unset, herase]
  exact Finset.card_erase_add_one hmem

/-- The contents are looked at for the first time, and a bit says so. -/
structure Fresh (sb : Dsb) (depth ino : ℕ) (s : State) : Prop where
  sound : Sound sb depth s
  unseen : Apart sb → ino ∉ s.files
  marked : s.imap ino = true ∨ s.dirmap ino = true

theorem chkfile_holds (he : I_TYPE ip.i_mode = I_DIRECTORY → ∀ dp, Keeps sb depth (entry dp))
    (hlog : sb.s_log_zone_size < 16) (hino : IsInode sb ino) :
    Holds (Fresh sb depth ino) (chkfile env sb entry ino ip) (fun _ => Sound sb depth)
      (Stopped sb) := by
  have hzones : ∀ level l c,
      Keeps sb depth (chkzones sb (zonechk env sb entry ip level) level l c) := fun level l c =>
    keeps_chkzones level (fun zno hlo hhi c => keeps_zonechk he hlog level hlo hhi c) l c
  unfold chkfile
  refine Holds.bind (Q := fun _ => Sound sb depth) (Holds.modify fun s hs => ?_) fun _ => ?_
  · refine ⟨hs.sound.few, fun ha => ⟨?_, ?_, ?_⟩⟩
    · exact List.nodup_append_comm.mp
        (List.nodup_cons.mpr ⟨hs.unseen ha, (hs.sound.once ha).nodup⟩)
    · intro i hi
      rcases List.mem_append.mp hi with hi | hi
      · exact (hs.sound.once ha).isInode i hi
      · rwa [List.mem_singleton.mp hi]
    · intro i hi
      rcases List.mem_append.mp hi with hi | hi
      · exact (hs.sound.once ha).marked i hi
      · rw [List.mem_singleton.mp hi]
        exact hs.marked.imp_right Or.inl
  · refine keeps_bind (hzones _ _ _) fun r => keeps_bind (hzones _ _ _) fun r1 => ?_
    exact keeps_bind (hzones _ _ _) fun r2 => keeps_pure _

/-- An inode that is no directory yet, and whose contents have not been looked at. -/
structure Unseen (sb : Dsb) (depth ino : ℕ) (s : State) : Prop where
  sound : Sound sb (depth + 1) s
  noDir : s.dirmap ino = false
  unseen : Apart sb → ino ∉ s.files

theorem chkdirectory_holds (hd : Descends sb depth descend) (hlog : sb.s_log_zone_size < 16)
    (hino : IsInode sb ino) :
    Holds (Unseen sb depth ino) (chkdirectory env sb descend ino ip)
      (fun _ => Sound sb (depth + 1)) (Stopped sb) := by
  unfold chkdirectory
  refine Holds.bind (Q := fun _ => Fresh sb depth ino) (Holds.modify fun s hs => ?_) fun _ => ?_
  · refine ⟨⟨?_, fun ha => ?_⟩, hs.unseen, Or.inr (update_self ..)⟩
    · have hfew := hs.sound.few
      have hless := unset_mark hino hs.noDir
      omega
    · have honce := hs.sound.once ha
      refine ⟨honce.nodup, honce.isInode, fun i hi => ?_⟩
      refine (honce.marked i hi).imp_right (Or.imp_left fun hset => ?_)
      by_cases hne : i = ino
      · rw [hne]
        exact update_self ..
      · exact (update_of_ne hne ..).trans hset
  · refine Holds.bind (chkfile_holds (fun _ dp => keeps_chkentry hd) hlog hino) fun ok => ?_
    exact Holds.get fun t => Holds.pure fun s hs => hs.2.mono

theorem chkmode_holds (hd : Descends sb depth descend) (hlog : sb.s_log_zone_size < 16)
    (hino : IsInode sb ino) :
    Holds (fun s => Unseen sb depth ino s ∧ s.imap ino = true) (chkmode env sb descend ino ip)
      (fun _ => Sound sb (depth + 1)) (Stopped sb) := by
  unfold chkmode
  refine Holds.ite (fun hreg => ?_) fun _ => Holds.ite (fun _ => ?_) fun _ => ?_
  · -- Entries are those of directories only.
    have hdir : I_TYPE ip.i_mode ≠ I_DIRECTORY := by rw [hreg]; decide
    refine (chkfile_holds (fun h => absurd h hdir) hlog hino).pre fun s hs => ?_
    exact ⟨hs.1.sound, hs.1.unseen, Or.inl hs.2⟩
  · exact (chkdirectory_holds hd hlog hino).pre fun s hs => hs.1
  · have hsame : ∀ b, Holds (fun s => Unseen sb depth ino s ∧ s.imap ino = true)
        (pure b : M Bool) (fun _ => Sound sb (depth + 1)) (Stopped sb) := fun b =>
      Holds.pure fun s hs => hs.1.sound
    exact Holds.ite (fun _ => hsame _) fun _ => Holds.ite (fun _ => hsame _) fun _ =>
      Holds.ite (fun _ => hsame _) fun _ => hsame _

/-- An inode that has not been visited: if it has links, its contents have not been looked at. -/
structure Unvisited (sb : Dsb) (depth ino : ℕ) (ip : DInode) (s : State) : Prop where
  sound : Sound sb (depth + 1) s
  noDir : s.dirmap ino = false
  unseen : Apart sb → ip.i_nlinks ≠ 0 → ino ∉ s.files

theorem chkinode_holds (hd : Descends sb depth descend) (hlog : sb.s_log_zone_size < 16)
    (hino : IsInode sb ino) :
    Holds (Unvisited sb depth ino ip) (chkinode env sb descend ino ip)
      (fun _ => Sound sb (depth + 1)) (Stopped sb) := by
  unfold chkinode
  refine Holds.ite (fun _ => ?_) fun _ => Holds.ite (fun _ => ?_) fun hlinks => ?_
  · exact Holds.stop fun s hs => hs.sound.stopped (by decide)
  · exact Holds.pure fun s hs => hs.sound
  refine Holds.bind (Q := fun _ s => Unseen sb depth ino s ∧ s.imap ino = true)
    (Holds.modify fun s hs => ?_) fun _ => ?_
  · refine ⟨⟨⟨hs.sound.few, fun ha => ?_⟩, hs.noDir, fun ha => hs.unseen ha hlinks⟩,
      update_self ..⟩
    have honce := hs.sound.once ha
    refine ⟨honce.nodup, honce.isInode, fun i hi => ?_⟩
    refine (honce.marked i hi).imp_left fun hset => ?_
    by_cases hne : i = ino
    · rw [hne]
      exact update_self ..
    · exact (update_of_ne hne ..).trans hset
  · refine Holds.bind (Q := fun _ s => Unseen sb depth ino s ∧ s.imap ino = true)
      (Holds.modify fun s hs => ?_) fun _ => chkmode_holds hd hlog hino
    exact ⟨⟨hs.1.sound.congr rfl rfl rfl rfl, hs.1.noDir, hs.1.unseen⟩, hs.2⟩

/-! ## Inodes that are removed -/

/-- The bit of an inode is clear, and the inode will be. -/
structure Removing (sb : Dsb) (depth ino : ℕ) (s : State) : Prop where
  few : unset sb s ≤ depth
  nodup : Apart sb → s.files.Nodup
  isInode : Apart sb → ∀ i ∈ s.files, IsInode sb i
  marked : Apart sb → ∀ i ∈ s.files, i ≠ ino →
    s.imap i = true ∨ s.dirmap i = true ∨ Cleared sb s i

/-- Zeros over zeros are zeros. -/
theorem overwrite_zero (b : Bytes) (start len : ℕ) {i : ℕ}
    (h : start ≤ i ∧ i < start + len ∨ b i = 0) :
    b.overwrite start (List.replicate len 0) i = 0 := by
  rw [Bytes.overwrite, List.length_replicate]
  split_ifs with hin
  · rw [List.getD_eq_getElem?_getD, List.getElem?_replicate, if_pos (by omega), Option.getD_some]
  · exact h.resolve_left hin

/-- An inode that is removed has no links, nor have those that had none. -/
theorem removing_devwrite : Holds (Removing sb depth ino)
    (devwrite env (sb.inoaddr ino) (List.replicate INODE_SIZE 0)) (fun _ => Sound sb depth)
    (Stopped sb) := by
  have hfatal : Holds (Removing sb depth ino) (fatal : M Unit) (fun _ => Sound sb depth)
      (Stopped sb) := Holds.stop fun s hs => ⟨by decide, hs.nodup⟩
  unfold devwrite
  refine Holds.ite (fun _ => hfatal) fun _ => Holds.get fun t => ?_
  cases hb : t.dev (blockOf (sb.inoaddr ino)) with
  | none => exact hfatal.pre fun _ hs => hs.2
  | some b =>
    refine Holds.ite (fun _ => Holds.modify ?_) fun _ => hfatal.pre fun _ hs => hs.2
    rintro s ⟨rfl, hs⟩
    refine ⟨hs.few, fun ha => ⟨hs.nodup ha, hs.isInode ha, fun i hi => ?_⟩⟩
    have hsize : INODE_SIZE = 32 := rfl
    by_cases hne : i = ino
    · subst hne
      refine Or.inr (Or.inr fun b' hb' => ?_)
      dsimp only at hb'
      rw [update_self] at hb'
      obtain rfl := Option.some.inj hb'
      exact overwrite_zero b _ _ (Or.inl (by omega))
    · refine (hs.marked ha i hi hne).imp_right (Or.imp_right fun hzero b' hb' => ?_)
      by_cases hblock : blockOf (sb.inoaddr i) = blockOf (sb.inoaddr ino)
      · -- The two inodes are in one block.
        dsimp only at hb'
        rw [hblock, update_self] at hb'
        obtain rfl := Option.some.inj hb'
        exact overwrite_zero b _ _ (Or.inr (hzero b (by rw [hblock, hb])))
      · exact hzero b' ((update_of_ne hblock ..).symm.trans hb')

theorem chkunvisited_holds (hd : Descends sb depth descend) (hlog : sb.s_log_zone_size < 16)
    (hino : IsInode sb ino) :
    Holds (Unvisited sb depth ino ip) (chkunvisited env sb descend ino ip)
      (fun _ => Sound sb (depth + 1)) (Stopped sb) := by
  unfold chkunvisited
  refine Holds.bind (chkinode_holds hd hlog hino) fun ok => ?_
  refine keeps_ite (fun _ => keeps_pure _) fun _ => keeps_bind keeps_yes fun remove => ?_
  refine keeps_ite (fun _ => ?_) fun _ => keeps_pure _
  refine keeps_bind (keeps_addCount _) fun _ => ?_
  refine Holds.bind (Q := fun _ => Removing sb (depth + 1) ino) (Holds.modify fun s hs => ?_)
    fun _ => Holds.bind removing_devwrite fun _ => keeps_pure _
  refine ⟨hs.few, fun ha => (hs.once ha).nodup, fun ha => (hs.once ha).isInode, ?_⟩
  intro ha i hi hne
  have hmarked := (hs.once ha).marked i hi
  exact hmarked.imp_left fun hset => (update_of_ne hne ..).trans hset

/-- What is read is what the disk has. -/
theorem devread_holds {P : State → Prop} {E : Why → State → Prop} (hE : ∀ s, P s → E .fatal s)
    (offset : ℕ) :
    Holds P (devread offset)
      (fun b s => P s ∧ ∃ block, s.dev (blockOf offset) = some block ∧
        b = fun i => block (offset % BLOCK_SIZE + i)) E := by
  unfold devread
  refine Holds.get fun t => ?_
  cases hb : t.dev (blockOf offset) with
  | none => exact Holds.stop fun s hs => hE s hs.2
  | some block =>
    refine Holds.pure ?_
    rintro s ⟨rfl, hs⟩
    exact ⟨hs, block, hb, rfl⟩

/-- An inode that has been looked at is visited, or a directory, or has no links. -/
theorem chkvisit_holds (hd : Descends sb depth descend) (hlog : sb.s_log_zone_size < 16)
    (hino : IsInode sb ino) (visited : Bool) :
    Holds (fun s => Sound sb (depth + 1) s ∧ s.dirmap ino = false ∧ s.imap ino = visited)
      (chkvisit env sb descend ino visited) (fun _ => Sound sb (depth + 1)) (Stopped sb) := by
  unfold chkvisit
  refine Holds.ite (fun _ => ?_) fun _ => Holds.pure fun s hs => hs.1
  refine Holds.bind (devread_holds (fun s hs => hs.1.stopped (by decide)) _) fun b =>
    Holds.ite (fun hnew => ?_) fun _ => Holds.pure fun s hs => hs.1.1
  refine (chkunvisited_holds hd hlog hino).pre ?_
  rintro s ⟨⟨hs, hdir, himap⟩, block, hblock, rfl⟩
  refine ⟨hs, hdir, fun ha hlinks hin => ?_⟩
  have hmarked := (hs.once ha).marked ino hin
  rw [himap, hdir] at hmarked
  have hclear : Cleared sb s ino := by
    refine (hmarked.resolve_left ?_).resolve_left Bool.false_ne_true
    exact fun h => by rw [h] at hnew; exact Bool.false_ne_true hnew
  exact hlinks (hclear block hblock)

/-! ## The tree -/

/-- There are no directories to be found when there is no depth left. -/
theorem descendtree_holds (hlog : sb.s_log_zone_size < 16) (depth : ℕ) :
    Descends sb depth (descendtree env sb depth) := by
  induction depth with
  | zero =>
    intro dp hino s hs
    have hmem : dp.d_inum ∈ (Finset.Icc 1 sb.s_ninodes).filter fun i => s.dirmap i = false :=
      Finset.mem_filter.mpr ⟨Finset.mem_Icc.mpr hino, hs.2⟩
    have hpos := Finset.card_pos.mpr ⟨_, hmem⟩
    exact absurd hs.1.few (by rw [unset]; omega)
  | succ depth ih =>
    intro dp hino
    unfold descendtree
    refine Holds.bind (Q := fun _ s => Sound sb (depth + 1) s ∧ s.dirmap dp.d_inum = false)
      (Holds.modify fun s hs => ⟨hs.1.congr rfl rfl rfl rfl, hs.2⟩) fun _ => ?_
    refine Holds.get fun t => ?_
    refine Holds.bind (Holds.pre (chkvisit_holds ih hlog hino _) ?_) fun removed => ?_
    · rintro s ⟨rfl, hs⟩
      exact ⟨hs.1, hs.2, rfl⟩
    · refine keeps_bind (keeps_modify (fun _ => rfl) (fun _ => rfl) (fun _ => rfl) fun _ => rfl)
        fun _ => ?_
      exact keeps_ite (fun _ => keeps_pure _) fun _ => keeps_pure _

/-- When the program starts, no inode has been looked at. -/
theorem sound_start (sb : Dsb) (dev : ℕ → Option Bytes) : Sound sb sb.s_ninodes (.start dev) where
  few := by
    have hcard : (Finset.Icc 1 sb.s_ninodes).card = sb.s_ninodes := by
      rw [Nat.card_Icc, Nat.add_sub_cancel]
    exact (Finset.card_filter_le _ _).trans hcard.le
  once _ := ⟨List.nodup_nil, fun _ h => absurd h List.not_mem_nil,
    fun _ h => absurd h List.not_mem_nil⟩

theorem chktree_holds (hsuper : getsuperOk sb = true) (hchk : chksuperOk sb = true)
    (dev : ℕ → Option Bytes) :
    Holds (fun s => s = .start dev) (chktree env sb) (fun _ => Sound sb sb.s_ninodes)
      (Stopped sb) := by
  have hlog : sb.s_log_zone_size < 16 := by
    simp only [chksuperOk, Bool.and_eq_true, decide_eq_true_eq] at hchk
    exact hchk.1.2
  have hroot : IsInode sb ROOT_INODE := by
    simp only [getsuperOk, Bool.and_eq_true, decide_eq_true_eq] at hsuper
    have hpos : sb.s_ninodes ≠ 0 := by
      intro h0
      rw [h0] at hsuper
      exact absurd hsuper.1.1.1.1.1.1.2 (by decide)
    exact ⟨le_rfl, Nat.pos_of_ne_zero hpos⟩
  unfold chktree
  refine Holds.bind (Holds.pre (descendtree_holds hlog sb.s_ninodes _ hroot) ?_) fun r => ?_
  · rintro s rfl
    exact ⟨sound_start sb dev, rfl⟩
  · exact keeps_ite (fun _ => keeps_pure _) fun _ => keeps_fatal

/-- What is in the super block keeps data zones and inodes apart. -/
def Separate (dev : ℕ → Option Bytes) : Prop := ∀ b, dev BLK_SUPER = some b → Apart (.read b)

/-- The super block is that of the disk. -/
theorem superBlock_holds (dev : ℕ → Option Bytes) :
    Holds (fun s => s = .start dev) superBlock
      (fun sb s => s = .start dev ∧ ∃ b, dev BLK_SUPER = some b ∧ sb = .read b)
      fun why s => why ≠ .diverges ∧ (Separate dev → s.files.Nodup) := by
  have hstart : ∀ s : State, s = .start dev →
      Why.fatal ≠ .diverges ∧ (Separate dev → s.files.Nodup) := by
    rintro s rfl
    exact ⟨by decide, fun _ => List.nodup_nil⟩
  refine Holds.bind (devread_holds hstart _) fun b => Holds.pure ?_
  rintro s ⟨rfl, block, hblock, rfl⟩
  have hzero : BLK_SUPER * BLOCK_SIZE % BLOCK_SIZE = 0 := rfl
  refine ⟨rfl, block, hblock, ?_⟩
  simp only [hzero, Nat.zero_add]

/-- A block that begins with these bytes. -/
def blockOfBytes (l : List Byte) : Bytes := fun i => l.getD i 0

/-- An image with this super block, inode list (of one block, at `ilist`) and root directory. -/
def image (super : List Byte) (ilist : ℕ) (inodes : List Byte) (root : ℕ) (entries : List Byte) :
    ℕ → Option Bytes := fun block =>
  some <| blockOfBytes <|
    if block = BLK_SUPER then super
    else if block = ilist then inodes
    else if block = root then entries
    else []

/-- 50000 zones of two blocks each, which block numbers of 16 bits do not reach. The only zone of
the directory `d` is 32773, and so is the block of the inodes. The file `x` is inode 3. -/
def wrappedImage : ℕ → Option Bytes :=
  image [0, 32, 0xC3, 0x50, 0, 1, 0, 7, 0, 6, 0, 1, 0, 1, 0, 0, 0x13, 0x7F] 10
    ([0x41, 0xED, 0, 0, 0, 0, 0, 64, 0, 0, 0, 0, 0, 2, 0, 6] ++ List.replicate 16 0 ++
      ([0x41, 0xED, 0, 0, 0, 0, 1, 0, 0, 0, 0, 0, 0, 1, 0x80, 5] ++ List.replicate 16 0) ++
      [0x81, 0xA4, 0, 0, 0, 0, 0x10, 0, 0, 0, 0, 0, 0, 1, 0, 0, 0, 3, 0x61]) 12
    ([0, 1, 0x2E] ++ List.replicate 13 0 ++ ([0, 1, 0x2E, 0x2E] ++ List.replicate 12 0) ++
      ([0, 2, 0x64] ++ List.replicate 13 0) ++ [0, 3, 0x78])

/-- The user says yes to the fourth question only. -/
def fourthYes : Env where
  repair := true
  automatic := false
  listing := false
  answers k := if k = 3 then .yes else .no
  writable _ := true

/-- A super block for 64 zones of one block each, behind the inode list. -/
def plainSuper : List Byte := [0, 32, 0, 64, 0, 1, 0, 1, 0, 5, 0, 0, 0, 1, 0, 0, 0x13, 0x7F]

/-- An image with this super block and a root directory in the first zone. -/
def plainImage : ℕ → Option Bytes :=
  image plainSuper 4 [0x41, 0xED, 0, 0, 0, 0, 0, 32, 0, 0, 0, 0, 0, 2, 0, 5] 5
    ([0, 1, 0x2E] ++ List.replicate 13 0 ++ [0, 1, 0x2E, 0x2E])

theorem apart_plainSuper : Apart (.read (blockOfBytes plainSuper)) := by
  have hinodes : (Dsb.read (blockOfBytes plainSuper)).s_ninodes = 32 := rfl
  have hzones : (Dsb.read (blockOfBytes plainSuper)).s_nzones = 64 := rfl
  have hfirst : (Dsb.read (blockOfBytes plainSuper)).s_firstdatazone = 5 := rfl
  have hlog : (Dsb.read (blockOfBytes plainSuper)).s_log_zone_size = 0 := by decide
  have hilist : (Dsb.read (blockOfBytes plainSuper)).BLK_ILIST = 4 := rfl
  have hisize : INODE_SIZE = 32 := rfl
  have hsize : BLOCK_SIZE = 1024 := rfl
  intro zno ino j hlo hhi hpos hino hj
  rw [hlog] at hj ⊢
  rw [blockOf, Dsb.inoaddr, hilist, hisize, hsize]
  simp only [Int.toNat_zero, pow_zero] at hj ⊢
  omega

end Minix.Fsck
