import Minix.Fs.FileCalls
import Minix.Lib.Run

/-!
# A regular file is a byte array

A regular file is read and written by any number of processes, through any number of open files,
from the time that it is created empty. Beside it there is the array of bytes that was written: a
byte has the last value that a write copied there, and zero if there was none. Between the calls
there is whatever activity leaves the blocks of the file alone, such as writes of other files
(`Grown.untouched`).
-/

namespace Minix.Fs

open Lib

/-- A regular file with those who use it, and what they have written. -/
structure Traced where
  cache : Cache
  rip : Inode
  filps : ℕ → Filp
  users : ℕ → User
  written : Bytes

/-- What happens to a file. -/
inductive FileAct
  /-- `read_write` by a process through an open file, with what it returns. -/
  | call (rw_flag : RwFlag) (proc fd : ℕ) (nbytes : ℤ) (buffer : ℕ) (r : ℤ)
  | lseek (fd : ℕ) (offset : ℤ) (whence : ℕ)
  | other

/-- The file, as a process uses it through an open file. -/
def Traced.openFile (t : Traced) (proc fd : ℕ) : OpenFile :=
  ⟨t.cache, t.rip, t.filps fd, t.users proc⟩

/-- The file, when a process has used it through an open file. -/
def Traced.after (t : Traced) (proc fd : ℕ) (o : OpenFile) (written : Bytes) : Traced :=
  ⟨o.cache, o.rip, Function.update t.filps fd o.filp, Function.update t.users proc o.user, written⟩

instance (sp : SuperBlock) (o : OpenFile) (n : ℤ) : Decidable (Accepted sp o n) :=
  decidable_of_iff (rwCheck o.filp .WRITING n = none ∧
    (o.filp.filp_pos : ℤ) ≤ sp.s_max_size - n.toNat) ⟨fun h => ⟨h.1, h.2⟩, fun h => ⟨h.1, h.2⟩⟩

/-- What has been written after a call: the bytes from where it began up to where the open file is.
-/
def writtenAfter (sp : SuperBlock) (o : OpenFile) (rw_flag : RwFlag) (n : ℤ) (buffer : ℕ)
    (o' : OpenFile) (f : Bytes) : Bytes :=
  if rw_flag = .WRITING ∧ Accepted sp o n then
    f.write (writeAt o.rip o.filp) o'.filp.filp_pos o.user.mem buffer
  else f

/-- The file is as it was, in the blocks of its zones. -/
structure Untouched (sp : SuperBlock) (L : Contents) (rip : Inode) (L' : Contents) : Prop where
  ok : FileOk sp L' rip
  blocks : ∀ r i, zoneRef sp L rip r ≠ NO_ZONE → i < 2 ^ sp.s_log_zone_size →
    L' sp.s_dev (zoneBlock (zoneRef sp L rip r) sp.s_log_zone_size i) =
      L sp.s_dev (zoneBlock (zoneRef sp L rip r) sp.s_log_zone_size i)

/-- The cache has been used for other things than the file. -/
def Elsewhere (sp : SuperBlock) (held : Buf → ℕ) (rip : Inode) (c c' : Cache) : Prop :=
  ∀ L, Mounted sp ⟨c, held⟩ L → FileOk sp L rip →
    ∃ L', Mounted sp ⟨c', held⟩ L' ∧ Untouched sp L rip L'

/-- A step of the users of a file, or of others. -/
inductive FileStep (sp : SuperBlock) (held : Buf → ℕ) : Traced → FileAct → Traced → Prop
  | call {t : Traced} {rw_flag : RwFlag} {i j : ℕ} {n : ℤ} {buffer : ℕ} {r : ℤ} {o' : OpenFile}
      (h : readWrite sp (t.openFile i j) rw_flag n buffer = some (r, o')) :
      FileStep sp held t (.call rw_flag i j n buffer r)
        (t.after i j o' (writtenAfter sp (t.openFile i j) rw_flag n buffer o' t.written))
  | lseek {t : Traced} {j : ℕ} {offset : ℤ} {whence : ℕ} :
      FileStep sp held t (.lseek j offset whence)
        (t.after 0 j (doLseek (t.openFile 0 j) offset whence).2 t.written)
  | other {t : Traced} {c : Cache} {filps : ℕ → Filp} {users : ℕ → User}
      (h : Elsewhere sp held t.rip t.cache c) :
      FileStep sp held t .other ⟨c, t.rip, filps, users, t.written⟩

/-- A file that has just been created. -/
structure FileStart (sp : SuperBlock) (held : Buf → ℕ) (t : Traced) : Prop where
  mounted : ∃ L, Mounted sp ⟨t.cache, held⟩ L
  mode : t.rip.i_mode &&& I_TYPE = I_REGULAR
  dev : t.rip.i_dev = sp.s_dev
  zones : ∀ i, t.rip.i_zone i = NO_ZONE
  size : t.rip.i_size = 0
  written : t.written.size = 0

/-- What keeps a write from doing harm, also if it fails. -/
structure Careful (sp : SuperBlock) (o : OpenFile) (n : ℤ) (buffer : ℕ) : Prop where
  room : RoomAtEnd sp o
  harmless : HarmlessWrite sp o n.toNat buffer

/-- A step in which writes do no harm. -/
def CarefulStep (sp : SuperBlock) (held : Buf → ℕ) (t : Traced) (act : FileAct) (t' : Traced) : Prop :=
  FileStep sp held t act t' ∧ match act with
    | .call .WRITING i j n buffer _ =>
      Accepted sp (t.openFile i j) n → Careful sp (t.openFile i j) n buffer
    | _ => True

/-- Nothing fails in a call: no copy and no allocation. It is no write beyond the greatest size. -/
def NoFailure (sp : SuperBlock) (t : Traced) : FileAct → Prop
  | .call rw_flag i j n _ r => (∀ e ∈ (t.users i).copies, e = OK) ∧ r ≠ ENOSPC ∧
      (rw_flag = .WRITING → Accepted sp (t.openFile i j) n →
        writeAt t.rip (t.filps j) + n.toNat ≤ sp.s_max_size)
  | _ => True

/-- A step in which nothing fails. -/
def NoFailureStep (sp : SuperBlock) (held : Buf → ℕ) (t : Traced) (act : FileAct) (t' : Traced) :
    Prop :=
  FileStep sp held t act t' ∧ NoFailure sp t act

/-- The end of the file is in the first block of a zone, or in one that it has. -/
def Roomy (sp : SuperBlock) (L : Contents) (rip : Inode) : Prop :=
  sp.boff rip.i_size = 0 ∨ zoneRef sp L rip (.data (sp.zoneOf rip.i_size)) ≠ NO_ZONE

/-- What a call does to an array of bytes: a read returns the bytes that there are, and a write
changes as many as it is asked to. -/
def ByteArrayCall (sp : SuperBlock) (t t' : Traced) : FileAct → Prop
  | .call .READING i j n buffer r => rwCheck (t.filps j) .READING n = none →
      ∃ k, k = min n.toNat (t.written.size - (t.filps j).filp_pos) ∧ r = k ∧
        (t'.filps j).filp_pos = (t.filps j).filp_pos + k ∧
        (t'.users i).mem = readMem t.written.byte (t.filps j).filp_pos ((t.filps j).filp_pos + k)
          (t.users i).mem buffer
  | .call .WRITING i j n buffer r => Accepted sp (t.openFile i j) n →
      r = n ∧ (t'.filps j).filp_pos = writeAt t.rip (t.filps j) + n.toNat ∧
        t'.written = t.written.write (writeAt t.rip (t.filps j))
          (writeAt t.rip (t.filps j) + n.toNat) (t.users i).mem buffer
  | _ => True

/-- A file is the array of the bytes that were written. -/
structure ByteArrayOk (sp : SuperBlock) (held : Buf → ℕ) (t : Traced) : Prop where
  size : t.rip.i_size = t.written.size
  returns : ∀ rw_flag i j n buffer, (∀ e ∈ (t.users i).copies, e = OK) →
    ∃ r o, readWrite sp (t.openFile i j) rw_flag n buffer = some (r, o)
  call : ∀ act t', NoFailureStep sp held t act t' → ByteArrayCall sp t t' act

variable {sp : SuperBlock} {L L' : Contents} {rip rip' : Inode} {held : Buf → ℕ} {c c' : Cache}
  {f : Bytes} {p : ℕ} {t t' : Traced} {act : FileAct} {i j buffer : ℕ} {n r : ℤ} {o o' : OpenFile}
  {rw_flag : RwFlag}

/-! ## Other activity -/

/-- The zones of a file that is left alone are as they were. -/
theorem Untouched.zoneRef (h : Untouched sp L rip L') (hok : FileOk sp L rip) :
    Fs.zoneRef sp L' rip = Fs.zoneRef sp L rip :=
  zoneRef_congr rfl rfl fun r _ hr => by
    rw [hok.dev]
    exact h.blocks r 0 hr (Nat.two_pow_pos _)

/-- The bytes of a file that is left alone are as they were. -/
theorem Untouched.fileByte (h : Untouched sp L rip L') (hok : FileOk sp L rip) (p : ℕ) :
    Fs.fileByte sp L' rip p = Fs.fileByte sp L rip p :=
  fileByte_congr (by rw [h.zoneRef hok]) fun h0 => h.blocks _ _ h0 (sp.boff_lt p)

/-- A write of another file leaves a file alone. -/
theorem Grown.untouched (h : Grown sp L rip L' rip') {rip₂ : Inode} (hok : FileOk sp L rip₂)
    (hne : ∀ r r₂, zoneRef sp L rip₂ r₂ ≠ NO_ZONE → zoneRef sp L rip r ≠ zoneRef sp L rip₂ r₂) :
    Untouched sp L rip₂ L' := by
  have hblocks : ∀ r i, zoneRef sp L rip₂ r ≠ NO_ZONE → i < 2 ^ sp.s_log_zone_size →
      L' sp.s_dev (zoneBlock (zoneRef sp L rip₂ r) sp.s_log_zone_size i) =
        L sp.s_dev (zoneBlock (zoneRef sp L rip₂ r) sp.s_log_zone_size i) := by
    intro r i h0 hi
    obtain ⟨hhas, hu⟩ := hok.zone r h0
    exact h.blocks _ i hhas hi hu fun r' => hne r' r h0
  have hm : zoneRef sp L' rip₂ = zoneRef sp L rip₂ := zoneRef_congr rfl rfl fun r _ hr => by
    rw [hok.dev]
    exact hblocks r 0 hr (Nat.two_pow_pos _)
  refine ⟨hok.congr rfl hm fun r hr => ?_, hblocks⟩
  obtain ⟨hhas, hu⟩ := hok.zone r hr
  exact (h.used _ hhas).mpr (Or.inl hu)

/-- A file that is left alone is the same array of bytes. -/
theorem IsFile.untouched (h : IsFile sp held c L rip f) (hm : Mounted sp ⟨c', held⟩ L')
    (hu : Untouched sp L rip L') : IsFile sp held c' L' rip f where
  mounted := hm
  ok := hu.ok
  size := h.size
  bytes := ⟨fun p hp => (hu.fileByte h.ok p).trans (h.bytes.front p hp),
    fun p hp ht => (hu.fileByte h.ok p).trans (h.bytes.tail p hp ht)⟩
  placed := h.placed.imp id fun hd => by rwa [hu.zoneRef h.ok]

/-! ## Calls -/

/-- `i_seek` has no part in what a file is. -/
theorem IsFile.seek (h : IsFile sp held c L rip f) (i_seek : Bool) :
    IsFile sp held c L { rip with i_seek := i_seek } f :=
  ⟨h.mounted, h.ok.congr rfl rfl fun r hr => (h.ok.zone r hr).2, h.size,
    ⟨h.bytes.front, h.bytes.tail⟩, h.placed⟩

/-- `lseek` changes the open file, and a flag of the inode. -/
theorem doLseek_file (o : OpenFile) (offset : ℤ) (whence : ℕ) :
    (doLseek o offset whence).2.cache = o.cache ∧ (doLseek o offset whence).2.user = o.user ∧
      ∃ i_seek, (doLseek o offset whence).2.rip = { o.rip with i_seek := i_seek } := by
  unfold doLseek
  dsimp only
  split
  · exact ⟨rfl, rfl, o.rip.i_seek, rfl⟩
  · split_ifs
    · exact ⟨rfl, rfl, o.rip.i_seek, rfl⟩
    · exact ⟨rfl, rfl, _, rfl⟩

/-- A call that is not accepted changes nothing. -/
theorem readWrite_refused (hm : Mounted sp ⟨o.cache, held⟩ L) (hspec : o.rip.blockSpec = false)
    (hno : rwCheck o.filp rw_flag n ≠ none ∨ rw_flag = .WRITING ∧ ¬Accepted sp o n) (buffer : ℕ) :
    ∃ r, readWrite sp o rw_flag n buffer = some (r, o) := by
  unfold readWrite
  cases hcheck : rwCheck o.filp rw_flag n with
  | some r => exact ⟨r, rfl⟩
  | none =>
    obtain ⟨rfl, hacc⟩ := hno.resolve_left (by rw [hcheck]; simp)
    have hbig : (o.filp.filp_pos : ℤ) > sp.s_max_size - n.toNat := by
      by_contra hle
      exact hacc ⟨hcheck, not_lt.mp hle⟩
    refine ⟨EFBIG, ?_⟩
    dsimp only
    rw [hm.clear_err]
    have hstart : rwStart o.cache sp o.rip o.filp .WRITING n.toNat = some (.error EFBIG) := by
      unfold rwStart writeStart
      rw [if_pos ⟨rfl, hspec⟩, if_pos hbig]
    rw [hstart]
    rfl

/-- The file is the array of bytes that was written. -/
def Keeps (sp : SuperBlock) (held : Buf → ℕ) (t : Traced) : Prop :=
  t.rip.regular = true ∧ ∃ L, IsFile sp held t.cache L t.rip t.written

/-- The mode of a file stays. -/
theorem regular_congr (h : rip'.i_mode = rip.i_mode) : rip'.regular = rip.regular := by
  unfold Inode.regular
  rw [h]

/-- A file that has just been created has no bytes. -/
theorem FileStart.keeps (h : FileStart sp held t) : Keeps sp held t := by
  obtain ⟨L, hm⟩ := h.mounted
  have hentry : ∀ e, entry sp L t.rip.i_dev NO_ZONE e = NO_ZONE := fun e => entry_zero
  have hz : ∀ r, zoneRef sp L t.rip r = NO_ZONE := by
    intro r
    induction r using Ref.parent_induction with
    | h r ih =>
      cases hr : r.parent with
      | none => rw [zoneRef_of_root hr, h.zones]
      | some q =>
        obtain ⟨p, e⟩ := q
        rw [zoneRef_of_parent hr, ih p e hr, entry_zero]
  have hzero : ∀ p, fileByte sp L t.rip p = 0 := fun p => fileByte_hole (hz _)
  refine ⟨?_, L, hm, ⟨h.dev, fun r hr => absurd (hz r) hr, fun r _ hr => absurd (hz r) hr⟩, ?_, ?_, ?_⟩
  · unfold Inode.regular
    exact decide_eq_true (Or.inl h.mode)
  · rw [h.written, h.size]
  · rw [h.size]
    exact ⟨fun p hp => absurd hp (Nat.not_lt_zero p), fun p _ _ => hzero p⟩
  · rw [h.size]
    left
    rw [sp.zoneOf_eq, Nat.zero_div, Nat.zero_div]
    decide

/-- What a call does to a file. -/
inductive CallDone (sp : SuperBlock) (held : Buf → ℕ) (L : Contents) (o : OpenFile) (f : Bytes)
    (n : ℤ) (buffer : ℕ) (o' : OpenFile) (L' : Contents) : RwFlag → ℤ → Prop
  | refused {rw_flag : RwFlag} {r : ℤ}
      (hno : rwCheck o.filp rw_flag n ≠ none ∨ rw_flag = .WRITING ∧ ¬Accepted sp o n)
      (ho : o' = o) (hL : L' = L) : CallDone sp held L o f n buffer o' L' rw_flag r
  | read {r : ℤ} {k : ℕ} (hcheck : rwCheck o.filp .READING n = none) (hL : L' = L)
      (h : ReadDone sp held L o f n.toNat buffer k r o') :
      CallDone sp held L o f n buffer o' L' .READING r
  | write {r : ℤ} {k : ℕ} (hacc : Accepted sp o n)
      (h : WriteDone sp held L o f n.toNat buffer k r o' L') :
      CallDone sp held L o f n buffer o' L' .WRITING r

/-- A call returns, when it is a write that does no harm or a read. -/
theorem IsFile.call (h : IsFile sp held o.cache L o.rip f) (hh : Holds sp held) (hsp : sp.Ok)
    (hsz : sp.Sized) (hreg : o.rip.regular = true) (rw_flag : RwFlag) (n : ℤ) (buffer : ℕ)
    (hcare : rw_flag = .WRITING → Accepted sp o n → Careful sp o n buffer) :
    ∃ r o' L', readWrite sp o rw_flag n buffer = some (r, o') ∧
      CallDone sp held L o f n buffer o' L' rw_flag r := by
  by_cases hno : rwCheck o.filp rw_flag n ≠ none ∨ rw_flag = .WRITING ∧ ¬Accepted sp o n
  · obtain ⟨r, he⟩ := readWrite_refused h.mounted (Inode.regular_blockSpec hreg) hno buffer
    exact ⟨r, o, L, he, .refused hno rfl rfl⟩
  · push Not at hno
    obtain ⟨hcheck, hacc⟩ := hno
    cases rw_flag with
    | READING =>
      obtain ⟨r, o', k, he, hdone⟩ := h.read hh hsp hreg hcheck buffer
      exact ⟨r, o', L, he, .read hcheck rfl hdone⟩
    | WRITING =>
      have hacc := hacc rfl
      have hcare := hcare rfl hacc
      obtain ⟨r, o', k, L', he, hdone⟩ := h.write hh hsp hsz hreg hacc hcare.room hcare.harmless
      exact ⟨r, o', L', he, .write hacc hdone⟩

/-- A file is the array of bytes that was written also behind a call. -/
theorem CallDone.file (hd : CallDone sp held L o f n buffer o' L' rw_flag r)
    (h : IsFile sp held o.cache L o.rip f) (hreg : o.rip.regular = true) :
    o'.rip.regular = true ∧
      IsFile sp held o'.cache L' o'.rip (writtenAfter sp o rw_flag n buffer o' f) := by
  unfold writtenAfter
  cases hd with
  | refused hno ho hL =>
    subst ho hL
    have hsame : ¬(rw_flag = .WRITING ∧ Accepted sp o' n) := by
      rintro ⟨rfl, hacc⟩
      rcases hno with hno | ⟨-, hno⟩
      · exact hno hacc.check
      · exact hno hacc
    rw [if_neg hsame]
    exact ⟨hreg, h⟩
  | read hcheck hL hdone =>
    subst hL
    rw [if_neg fun e => RwFlag.noConfusion e.1]
    refine ⟨?_, hdone.file⟩
    rw [regular_congr (by rw [hdone.rip])]
    exact hreg
  | write hacc hdone =>
    obtain ⟨rip₁, hg, hrip⟩ := hdone.grown
    rw [if_pos ⟨rfl, hacc⟩, hdone.filp]
    refine ⟨?_, hdone.file⟩
    rw [regular_congr (by rw [hrip, hg.inode])]
    exact hreg

/-- A step in which writes do no harm leaves the file the array of bytes that was written. -/
theorem Keeps.step (h : Keeps sp held t) (hh : Holds sp held) (hsp : sp.Ok)
    (hsz : sp.Sized) (hst : CarefulStep sp held t act t') : Keeps sp held t' := by
  obtain ⟨hst, hcare⟩ := hst
  obtain ⟨hreg, L, hf⟩ := h
  cases hst with
  | @call rw_flag i j n buffer r o' he =>
    have hf : IsFile sp held (t.openFile i j).cache L (t.openFile i j).rip t.written := hf
    obtain ⟨r', o₂, L', he', hdone⟩ := hf.call hh hsp hsz hreg rw_flag n buffer fun hw => by
        subst hw
        exact hcare
    obtain ⟨-, rfl⟩ := Prod.mk.inj (Option.some.inj (he'.symm.trans he))
    obtain ⟨hreg', hf'⟩ := hdone.file hf hreg
    exact ⟨hreg', L', hf'⟩
  | @lseek j offset whence =>
    obtain ⟨hc, -, i_seek, hrip⟩ := doLseek_file (t.openFile 0 j) offset whence
    have hrip' : (t.after 0 j (doLseek (t.openFile 0 j) offset whence).2 t.written).rip =
        { t.rip with i_seek := i_seek } := hrip
    have hcache : (t.after 0 j (doLseek (t.openFile 0 j) offset whence).2 t.written).cache =
        t.cache := hc
    unfold Keeps
    rw [hrip', hcache]
    exact ⟨hreg, L, hf.seek i_seek⟩
  | other helse =>
    obtain ⟨L', hm, hu⟩ := helse L hf.mounted hf.ok
    exact ⟨hreg, L', hf.untouched hm hu⟩

/-! ## Calls in which nothing fails -/

/-- What is left to be copied in the turns of the loop. -/
def Left (x x' : Xfer) : Prop := x'.user.copies <:+ x.user.copies ∧ x'.nbytes ≤ x.nbytes

/-- A turn of the loop leaves no more to be copied than there was. -/
theorem rwTurn_left {f_size : ℕ} {x x' : Xfer} {b : Bool}
    (h : rwTurn sp rw_flag f_size x = some (b, x')) : Left x x' := by
  unfold rwTurn at h
  split_ifs at h with hend
  · obtain ⟨-, rfl⟩ := Prod.mk.inj (Option.some.inj h)
    exact ⟨List.suffix_refl _, le_refl _⟩
  · rw [Option.bind_eq_bind, Option.bind_eq_some_iff] at h
    obtain ⟨x₁, hx₁, h⟩ := h
    have hchunk : x₁.user.copies <:+ x.user.copies ∧ x₁.nbytes = x.nbytes := by
      unfold rwChunk at hx₁
      rw [Option.bind_eq_bind, Option.bind_eq_some_iff] at hx₁
      obtain ⟨w, -, hx₁⟩ := hx₁
      split at hx₁
      · obtain rfl := Option.some.inj hx₁
        exact ⟨List.suffix_refl _, rfl⟩
      · obtain rfl := Option.some.inj hx₁
        cases rw_flag <;> exact ⟨List.tail_suffix _, rfl⟩
    obtain h := Option.some.inj h
    split_ifs at h
    · obtain ⟨-, rfl⟩ := Prod.mk.inj h
      exact ⟨hchunk.1, hchunk.2.le⟩
    · obtain ⟨-, rfl⟩ := Prod.mk.inj h
      exact ⟨hchunk.1, (Nat.sub_le _ _).trans hchunk.2.le⟩

/-- The turns of the loop leave no more to be copied than there was. -/
theorem WriteTurn.left {f_size : ℕ} {x x' : Xfer}
    (h : Relation.ReflTransGen (WriteTurn sp f_size) x x') : Left x x' := by
  induction h with
  | refl => exact ⟨List.suffix_refl _, le_refl _⟩
  | tail _ hturn ih =>
    obtain ⟨hcopies, hnbytes⟩ := rwTurn_left hturn
    exact ⟨hcopies.trans ih.1, hnbytes.trans ih.2⟩

/-- When no copy fails, no turn of the loop does harm. -/
theorem Harmless.of_copies {f_size : ℕ} {x : Xfer} (h : ∀ e ∈ x.user.copies, e = OK) :
    Harmless sp f_size x := by
  intro x' hx' _ hd
  exact hd.1 (h _ ((WriteTurn.left hx').1.subset (headD_mem hd.1)))

/-- A write of a file whose end has room does no harm when no copy fails. -/
theorem IsFile.careful (h : IsFile sp held o.cache L o.rip f) (hh : Holds sp held) (hsp : sp.Ok)
    (hroom : Roomy sp L o.rip) (hcopies : ∀ e ∈ o.user.copies, e = OK) : Careful sp o n buffer where
  room _ := hroom.imp id fun h0 => by
    obtain ⟨c, he, -⟩ := h.mounted.readMap hh (by rw [h.ok.dev]; exact hsp.dev) o.rip.i_size
    refine ⟨_, c, he, ?_⟩
    unfold blockAt
    rw [if_neg h0]
    exact hsp.block_ne (h.ok.zone _ h0).1 (sp.boff_lt _)
  harmless _ _ _ := Harmless.of_copies hcopies

/-- Where the end of a file has room, it has when the file has grown within a zone that it has. -/
theorem Roomy.write {k m : ℕ} (h : Roomy sp L o.rip) (hf : IsFile sp held o.cache L o.rip f)
    (hd : WriteDone sp held L o f m buffer k r o' L') (hk : 0 < k) : Roomy sp L' o'.rip := by
  obtain ⟨rip₁, hg, hrip⟩ := hd.grown
  have hz : zoneRef sp L' o'.rip = zoneRef sp L' rip₁ := by
    rw [hrip]
    rfl
  have hsize : o'.rip.i_size = max o.rip.i_size (writeAt o.rip o.filp + k) := by
    rw [← hd.file.size, ← hf.size]
    rfl
  rcases le_or_gt (writeAt o.rip o.filp + k) o.rip.i_size with hle | hlt
  · unfold Roomy
    rw [hsize, max_eq_left hle]
    refine h.imp id fun h0 => ?_
    rw [hz, hg.keeps _ h0]
    exact h0
  · rw [max_eq_right hlt.le] at hsize
    refine or_iff_not_imp_left.mpr fun hb => ?_
    have hlast := hd.last hk
    rw [← hsize, SuperBlock.zoneOf_pred hb] at hlast
    exact hlast

/-- The file is the array of bytes that was written, and its end has room. -/
def KeepsRoom (sp : SuperBlock) (held : Buf → ℕ) (t : Traced) : Prop :=
  t.rip.regular = true ∧ ∃ L, IsFile sp held t.cache L t.rip t.written ∧ Roomy sp L t.rip

/-- A write in which nothing fails is done in full. -/
theorem WriteDone.full {k m : ℕ} (hd : WriteDone sp held L o f m buffer k r o' L')
    (hsz : sp.Sized) (hcopies : ∀ e ∈ o.user.copies, e = OK) (hr : r ≠ ENOSPC)
    (hend : writeAt o.rip o.filp + m ≤ sp.s_max_size) : r = m ∧ k = m := by
  refine hd.result.resolve_right ?_
  rintro ⟨hne, ⟨p, hp, hno | ⟨-, hbig⟩⟩ | hmem⟩
  · exact hr hno
  · exact absurd (hsz.zoneOf_lt (hp.trans_le hend)) (not_lt.mpr hbig)
  · exact hne (hcopies _ hmem)

/-- A call in which nothing fails. -/
theorem KeepsRoom.call (h : KeepsRoom sp held t) (hh : Holds sp held) (hsp : sp.Ok) (hsz : sp.Sized)
    (he : readWrite sp (t.openFile i j) rw_flag n buffer = some (r, o'))
    (hok : NoFailure sp t (.call rw_flag i j n buffer r)) :
    KeepsRoom sp held
        (t.after i j o' (writtenAfter sp (t.openFile i j) rw_flag n buffer o' t.written)) ∧
      ByteArrayCall sp t
        (t.after i j o' (writtenAfter sp (t.openFile i j) rw_flag n buffer o' t.written))
        (.call rw_flag i j n buffer r) := by
  obtain ⟨hreg, L, hf, hroom⟩ := h
  obtain ⟨hcopies, hr, hend⟩ := hok
  have hf : IsFile sp held (t.openFile i j).cache L (t.openFile i j).rip t.written := hf
  have hcopies : ∀ e ∈ (t.openFile i j).user.copies, e = OK := hcopies
  obtain ⟨r', o₂, L', he', hdone⟩ := hf.call hh hsp hsz hreg rw_flag n buffer fun _ _ =>
    hf.careful hh hsp hroom hcopies
  obtain ⟨rfl, rfl⟩ := Prod.mk.inj (Option.some.inj (he'.symm.trans he))
  obtain ⟨hreg', hf'⟩ := hdone.file hf hreg
  have hfilp : (t.after i j o₂ (writtenAfter sp (t.openFile i j) rw_flag n buffer o₂
      t.written)).filps j = o₂.filp := Function.update_self ..
  have huser : (t.after i j o₂ (writtenAfter sp (t.openFile i j) rw_flag n buffer o₂
      t.written)).users i = o₂.user := Function.update_self ..
  cases hdone with
  | refused hno ho hL =>
    subst hL
    refine ⟨⟨hreg', L', hf', ?_⟩, ?_⟩
    · show Roomy sp L' o₂.rip
      rw [ho]
      exact hroom
    · cases rw_flag with
      | READING =>
        intro hcheck
        rcases hno with hno | ⟨hw, -⟩
        · exact absurd hcheck hno
        · exact RwFlag.noConfusion hw
      | WRITING =>
        intro hacc
        rcases hno with hno | ⟨-, hno⟩
        · exact absurd hacc.check hno
        · exact absurd hacc hno
  | @read _ k hcheck hL hd =>
    subst hL
    refine ⟨⟨hreg', L', hf', ?_⟩, fun _ => ?_⟩
    · show Roomy sp L' o₂.rip
      rw [hd.rip]
      exact hroom
    · obtain ⟨hrk, hk⟩ := hd.result.resolve_right fun e => e.1 (hcopies _ e.2)
      refine ⟨k, hk, hrk, ?_, ?_⟩
      · rw [hfilp, hd.filp]
        rfl
      · rw [huser, hd.mem]
        rfl
  | @write _ k hacc hd =>
    obtain ⟨hrn, hk⟩ := hd.full hsz hcopies hr (hend rfl hacc)
    have hpos := rwCheck_pos hacc.check
    refine ⟨⟨hreg', L', hf', hroom.write hf hd (by omega)⟩, fun _ => ⟨by omega, ?_, ?_⟩⟩
    · rw [hfilp, hd.filp, hk]
      rfl
    · show writtenAfter sp (t.openFile i j) .WRITING n buffer o₂ t.written = _
      unfold writtenAfter
      rw [if_pos ⟨rfl, hacc⟩, hd.filp, hk]
      rfl

/-- A step in which nothing fails. -/
theorem KeepsRoom.step (h : KeepsRoom sp held t) (hh : Holds sp held) (hsp : sp.Ok) (hsz : sp.Sized)
    (hst : NoFailureStep sp held t act t') : KeepsRoom sp held t' := by
  obtain ⟨hst, hok⟩ := hst
  cases hst with
  | call he => exact (h.call hh hsp hsz he hok).1
  | @lseek j offset whence =>
    obtain ⟨hreg, L, hf, hroom⟩ := h
    obtain ⟨hc, -, i_seek, hrip⟩ := doLseek_file (t.openFile 0 j) offset whence
    have hrip' : (t.after 0 j (doLseek (t.openFile 0 j) offset whence).2 t.written).rip =
        { t.rip with i_seek := i_seek } := hrip
    have hcache : (t.after 0 j (doLseek (t.openFile 0 j) offset whence).2 t.written).cache =
        t.cache := hc
    unfold KeepsRoom
    rw [hrip', hcache]
    exact ⟨hreg, L, hf.seek i_seek, hroom⟩
  | other helse =>
    obtain ⟨hreg, L, hf, hroom⟩ := h
    obtain ⟨L', hm, hu⟩ := helse L hf.mounted hf.ok
    refine ⟨hreg, L', hf.untouched hm hu, ?_⟩
    unfold Roomy
    rwa [hu.zoneRef hf.ok]

/-- A file that has just been created has room at its end. -/
theorem FileStart.keepsRoom (h : FileStart sp held t) : KeepsRoom sp held t := by
  obtain ⟨hreg, L, hf⟩ := h.keeps
  refine ⟨hreg, L, hf, Or.inl ?_⟩
  rw [h.size, sp.boff_eq]
  exact Nat.zero_mod _

/-- In every run in which nothing fails, a regular file is the array of the bytes that were written.
-/
theorem byte_array (hh : Holds sp held) (hsp : sp.Ok) (hsz : sp.Sized)
    (h : Reachable (FileStart sp held) (NoFailureStep sp held) t) : ByteArrayOk sp held t := by
  have hk : KeepsRoom sp held t := Reachable.invariant (P := KeepsRoom sp held) h
    (fun _ => FileStart.keepsRoom) fun _ _ _ hk hst => hk.step hh hsp hsz hst
  have ⟨hreg, L, hf, hroom⟩ := hk
  refine ⟨hf.size.symm, fun rw_flag i j n buffer hcopies => ?_, fun act t' hst => ?_⟩
  · have hf : IsFile sp held (t.openFile i j).cache L (t.openFile i j).rip t.written := hf
    obtain ⟨r, o, -, he, -⟩ := hf.call hh hsp hsz hreg rw_flag n buffer fun _ _ =>
      hf.careful hh hsp hroom hcopies
    exact ⟨r, o, he⟩
  · obtain ⟨hst, hok⟩ := hst
    cases hst with
    | call he => exact (hk.call hh hsp hsz he hok).2
    | lseek => trivial
    | other => trivial

/-! ## A small device -/

/-- A device of ten zones of one block, whose zone map is in the first buffer. -/
def smallSuper : SuperBlock where
  s_nzones := 10
  s_imap_blocks := 1
  s_firstdatazone := 4
  s_log_zone_size := 0
  s_max_size := MAX_ZONES * BLOCK_SIZE
  s_zmap := [0]
  s_dev := 1

/-- The zone map is held. -/
def smallHeld : Buf → ℕ := Function.update 0 0 1

/-- The small device: the first bit of its zone map is on, and its blocks are not clear. -/
def smallDisk : ℕ → ℕ → Block := fun _ b => if b = 3 then setInd (fun _ => 0) 0 1 else fun _ => 9

/-- The cache when the small device is mounted. -/
def smallCache : Cache := bufPool { staticCache with io := [], disk := smallDisk }

theorem smallSuper_ok : smallSuper.Ok :=
  ⟨by decide, by decide, by decide, by decide, by decide, by decide, by decide⟩

theorem smallSuper_sized : smallSuper.Sized := le_refl _

theorem smallHeld_holds : Holds smallSuper smallHeld := ⟨by decide, by decide, by decide⟩

/-- A device is mounted when its zone map is got, of which there is one block. -/
theorem static_mounted {sp : SuperBlock} {disk : ℕ → ℕ → Block} {c : Cache} (hdev : sp.s_dev ≠ NO_DEV)
    (hzmap : sp.s_zmap = [0])
    (h : getBlock (bufPool { staticCache with io := [], disk := disk }) sp.s_dev (sp.zmapBlock 0)
      .NORMAL = some (0, c)) : Mounted sp ⟨c, smallHeld⟩ disk := by
  have hstart : DiskStart ⟨⟨bufPool { staticCache with io := [], disk := disk }, 0⟩, ∅, disk⟩ :=
    ⟨⟨_, fun _ => rfl, fun _ => rfl, rfl⟩, ⟨by simp [bufPool], by simp [bufPool, staticCache]⟩, rfl,
      rfl⟩
  have hf := Faithful.of_reachable (Reachable.of_init hstart)
  have hroom : Room ⟨bufPool { staticCache with io := [], disk := disk }, 0⟩ :=
    ⟨show (usedBufs fun _ => 0).card < NR_BUFS by decide, fun _ => show 0 < 255 by decide⟩
  obtain ⟨bp, c', he, hdev', hb, -, hf'⟩ := hf.get hroom hdev (sp.zmapBlock 0)
  obtain ⟨rfl, rfl⟩ := Prod.mk.inj (Option.some.inj (h.symm.trans he))
  refine ⟨hf', (getBlock_got_of_eq hf.inv hroom he).err hf, fun j x hx => ?_⟩
  rw [hzmap] at hx
  cases j with
  | zero =>
    obtain rfl : (0 : Buf) = x := Option.some.inj hx
    exact ⟨hdev', hb⟩
  | succ j => exact absurd hx (by simp)

/-- The small device is mounted, when its zone map is got. -/
theorem small_mounted {c : Cache}
    (h : getBlock smallCache 1 3 .NORMAL = some (0, c)) :
    Mounted smallSuper ⟨c, smallHeld⟩ smallDisk :=
  static_mounted (by decide) rfl h

/-- An empty file on the small device, which processes have open at several positions. They have the
byte 7 everywhere in their memory, and the copies from process 1 fail. -/
def smallFile (c : Cache) : Traced where
  cache := c
  rip := ⟨I_REGULAR, 0, fun _ => NO_ZONE, 1, false⟩
  filps := fun j => ⟨R_BIT ||| W_BIT, 0, 1000 * (j % 4)⟩
  users := fun i => ⟨fun _ => 7, if i = 1 then [-14, -14, -14] else []⟩
  written := ⟨fun _ => 0, 0, fun _ _ => rfl⟩

theorem smallFile_start {c : Cache}
    (h : getBlock smallCache 1 3 .NORMAL = some (0, c)) :
    FileStart smallSuper smallHeld (smallFile c) :=
  ⟨⟨_, small_mounted h⟩, show I_REGULAR &&& I_TYPE = I_REGULAR by decide, rfl, fun _ => rfl, rfl, rfl⟩

/-- A process writes the small file. -/
def Traced.wrote (t : Traced) (i j : ℕ) (n : ℤ) (o : OpenFile) : Traced :=
  t.after i j o (writtenAfter smallSuper (t.openFile i j) .WRITING n 0 o t.written)

/-- Three bytes are written behind a hole, and read with what is in front of them. -/
theorem byte_array_small : ∃ t, t.rip.i_size = 2003 ∧ (t.users 2).mem 999 = 0 ∧
    (t.users 2).mem 1000 = 7 ∧ ByteArrayOk smallSuper smallHeld t := by
  have hrun : ((getBlock smallCache 1 3 .NORMAL).bind fun p =>
      (readWrite smallSuper ((smallFile p.2).openFile 0 2) .WRITING 3 0).bind fun w =>
      (readWrite smallSuper (((smallFile p.2).wrote 0 2 3 w.2).openFile 2 1) .READING 1500 0).bind
        fun v => some (p.1, w.1, v.1, decide (v.2.rip.i_size = 2003 ∧ v.2.user.mem 999 = 0 ∧
          v.2.user.mem 1000 = 7))) = some (0, 3, 1003, true) := by
    decide +kernel
  simp only [Option.bind_eq_some_iff, Option.some.injEq, Prod.mk.injEq, decide_eq_true_eq] at hrun
  obtain ⟨⟨_, c⟩, hc, ⟨_, o₁⟩, h₁, ⟨_, o₂⟩, h₂, rfl, rfl, rfl, hsize, hhole, hbyte⟩ := hrun
  have hstart := smallFile_start hc
  have s₁ : NoFailureStep smallSuper smallHeld (smallFile c) _ _ :=
    ⟨.call h₁, fun e he => absurd he List.not_mem_nil, by decide, fun _ _ =>
      show (if 0 &&& O_APPEND ≠ 0 then 0 else 2000) + 3 ≤ MAX_ZONES * BLOCK_SIZE by decide⟩
  have s₂ : NoFailureStep smallSuper smallHeld ((smallFile c).wrote 0 2 3 o₁) _ _ :=
    ⟨.call h₂, fun e he => absurd he List.not_mem_nil, by decide, fun h => RwFlag.noConfusion h⟩
  have r₂ := ((Reachable.of_init hstart).of_step s₁).of_step s₂
  refine ⟨_, hsize, ?_, ?_, byte_array smallHeld_holds smallSuper_ok smallSuper_sized r₂⟩
  · exact hhole
  · exact hbyte

end Minix.Fs
