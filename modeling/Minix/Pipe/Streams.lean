import Minix.Lib.Flow
import Minix.Pipe.Apart

/-!
# The bytes in a pipe

The bytes of a pipe that have been written and not yet read are at the end of its file (`Holds`). A
read that begins at the first of them takes them from the front, also when it is the last one that
the pipe holds and its positions are reset (`Holds.read`); a write that begins at the end of the
file appends to them (`Holds.write`).
-/

namespace Minix.Pipe

open Lib
open Kernel (NR_PROCS)

variable {s s' : FsState} {who fp : ProcNr} {f fil : FilpNr} {rip ip : Ino} {k : Outside}
  {fd : Fin OPEN_MAX} {fild : ℤ} {buffer : ℕ → UInt8} {rw_flag : RwFlag} {unread : List UInt8}

/-! ## Bytes from an address on -/

section Bytes

variable {g g' : ℕ → UInt8} {start m n : ℕ}

@[simp] theorem length_bytesAt : (bytesAt g start n).length = n := by
  simp [bytesAt]

theorem bytesAt_congr (h : ∀ i < n, g' (start + i) = g (start + i)) :
    bytesAt g' start n = bytesAt g start n :=
  List.map_congr_left fun i hi => h i (List.mem_range.mp hi)

theorem bytesAt_add : bytesAt g start (m + n) = bytesAt g start m ++ bytesAt g (start + m) n := by
  unfold bytesAt
  rw [List.range_add, List.map_append, List.map_map]
  congr 1
  refine List.map_congr_left fun i _ => ?_
  rw [Function.comp_apply, Nat.add_assoc]

theorem take_bytesAt (h : m ≤ n) : (bytesAt g start n).take m = bytesAt g start m := by
  obtain ⟨d, rfl⟩ := Nat.exists_eq_add_of_le h
  rw [bytesAt_add, List.take_left' length_bytesAt]

theorem drop_bytesAt (h : m ≤ n) :
    (bytesAt g start n).drop m = bytesAt g (start + m) (n - m) := by
  obtain ⟨d, rfl⟩ := Nat.exists_eq_add_of_le h
  rw [bytesAt_add, List.drop_left' length_bytesAt, Nat.add_sub_cancel_left]

end Bytes

/-- The bytes that have not been read are the last ones of the file. -/
structure Holds (ip : Inode) (unread : List UInt8) : Prop where
  length : unread.length ≤ ip.i_size
  bytes : bytesAt ip.bytes (ip.i_size - unread.length) unread.length = unread

theorem Holds.nil (ip : Inode) : Holds ip [] := ⟨Nat.zero_le _, rfl⟩

/-- A file without bytes holds none. -/
theorem Holds.eq_nil {ip : Inode} (h : Holds ip unread) (hsize : ip.i_size = 0) : unread = [] :=
  List.eq_nil_of_length_eq_zero (Nat.le_zero.mp (hsize ▸ h.length))

theorem Holds.same {ip ip' : Inode} (h : Holds ip unread) (hs : SameBytes ip ip') : Holds ip' unread := by
  refine ⟨?_, ?_⟩
  · rw [hs.i_size]
    exact h.length
  · rw [hs.i_size, hs.bytes]
    exact h.bytes

section Access

variable {ip : Inode} {position n : ℕ}

/-- What a read finds that begins at the first byte that has not been read, or behind the end. -/
theorem Holds.front (h : Holds ip unread) (hpos : position < ip.i_size →
    position + unread.length = ip.i_size) (n : ℕ) :
    bytesAt ip.bytes position (min n (ip.i_size - position)) =
      unread.take (min n (ip.i_size - position)) := by
  by_cases hin : position < ip.i_size
  · have hstart : ip.i_size - unread.length = position := by
      have := hpos hin
      omega
    have hlen : ip.i_size - position = unread.length := by
      have := hpos hin
      omega
    have hbytes := h.bytes
    rw [hstart] at hbytes
    calc bytesAt ip.bytes position (min n (ip.i_size - position))
        = (bytesAt ip.bytes position unread.length).take (min n (ip.i_size - position)) :=
          (take_bytesAt (by omega)).symm
      _ = unread.take (min n (ip.i_size - position)) := by rw [hbytes]
  · have hzero : ip.i_size - position = 0 := by omega
    rw [hzero, Nat.min_zero]
    rfl

/-- The last bytes are left when others have been read. -/
theorem Holds.drop (h : Holds ip unread) (n : ℕ) : Holds ip (unread.drop n) := by
  have hle := h.length
  by_cases hn : n ≤ unread.length
  · have hlen : (unread.drop n).length = unread.length - n := List.length_drop
    refine ⟨by omega, ?_⟩
    have hstart : ip.i_size - (unread.length - n) = ip.i_size - unread.length + n := by omega
    rw [hlen, hstart]
    calc bytesAt ip.bytes (ip.i_size - unread.length + n) (unread.length - n)
        = (bytesAt ip.bytes (ip.i_size - unread.length) unread.length).drop n :=
          (drop_bytesAt hn).symm
      _ = unread.drop n := by rw [h.bytes]
  · rw [List.drop_of_length_le (by omega)]
    exact .nil ip

/-- Bytes that are written at the end of the file are appended. -/
theorem Holds.append (h : Holds ip unread) (n : ℕ) (buffer : ℕ → UInt8) :
    Holds { ip with bytes := writeBytes ip.bytes ip.i_size ip.i_size n buffer, i_size := ip.i_size + n }
      (unread ++ bytesAt buffer 0 n) := by
  have hle := h.length
  have hold : bytesAt (writeBytes ip.bytes ip.i_size ip.i_size n buffer)
      (ip.i_size - unread.length) unread.length = unread := by
    refine (bytesAt_congr fun i hi => ?_).trans h.bytes
    unfold writeBytes
    rw [if_neg (by omega), if_neg (by omega)]
  have hnew : bytesAt (writeBytes ip.bytes ip.i_size ip.i_size n buffer) ip.i_size n =
      bytesAt buffer 0 n := by
    refine List.map_congr_left fun i hi => ?_
    have hi := List.mem_range.mp hi
    unfold writeBytes
    rw [if_pos (by omega), Nat.add_sub_cancel_left, Nat.zero_add]
  refine ⟨?_, ?_⟩
  · rw [List.length_append, length_bytesAt]
    change unread.length + n ≤ ip.i_size + n
    omega
  · rw [List.length_append, length_bytesAt]
    change bytesAt (writeBytes ip.bytes ip.i_size ip.i_size n buffer)
      (ip.i_size + n - (unread.length + n)) (unread.length + n) = _
    rw [Nat.add_sub_add_right, bytesAt_add, Nat.sub_add_cancel hle, hold, hnew]

end Access

/-! ## Transfers -/

theorem findFilp_congr (h : s'.filp = s.filp) (rip : Ino) (bits : Mode) :
    findFilp s' rip bits = findFilp s rip bits := by
  unfold findFilp
  rw [h]

theorem findFilp_open {bits : Mode} (h : findFilp s rip bits = some f) :
    OpenOn s f rip ∧ (s.filp f).filp_mode.meets bits = true := by
  have hf := List.find?_some h
  simp only [Bool.and_eq_true, bne_iff_ne, beq_iff_eq] at hf
  exact ⟨hf.1, hf.2⟩

@[simp] theorem record_inode (s : FsState) (e : PipeEvent) : (s.record e).inode = s.inode := rfl

theorem history_cons_of_concerns {e : PipeEvent} (he : e.concerns rip = true) :
    (s.record e).history rip = e :: s.history rip :=
  List.filter_cons_of_pos he

/-- An open file with another position. -/
def Filp.at (f : Filp) (n : ℕ) : Filp := { f with filp_pos := n }

/-- The pipe has been read to its end, so that its positions are reset. -/
def Drained (ip : Inode) (position : ℕ) : Prop := ip.i_pipe = true ∧ ip.i_size ≤ position

/-- So many bytes have been read with the open file, from the position on. -/
structure HasRead (rip : Ino) (who : ProcNr) (f : FilpNr) (position n : ℕ) (s s' : FsState) :
    Prop where
  tables : SameTables s s'
  history : s'.history rip = .read who rip (bytesAt (s.inode rip).bytes position n) :: s.history rip
  bytes : (s'.inode rip).bytes = (s.inode rip).bytes
  drained : Drained (s.inode rip) (position + n) → (s'.inode rip).i_size = 0 ∧ ∀ x, s'.filp x =
    if x = f ∨ findFilp s rip Mode.W = some x then (s.filp x).at 0 else s.filp x
  left : ¬Drained (s.inode rip) (position + n) → (s'.inode rip).i_size = (s.inode rip).i_size ∧
    ∀ x, s'.filp x = if x = f then (s.filp x).at (position + n) else s.filp x

/-- So many bytes have been written with the open file, from the position on. -/
structure HasWritten (rip : Ino) (who : ProcNr) (f : FilpNr) (position n : ℕ) (buffer : ℕ → UInt8)
    (s s' : FsState) : Prop where
  tables : SameTables s s'
  history : s'.history rip = .wrote who rip (bytesAt buffer 0 n) :: s.history rip
  bytes : (s'.inode rip).bytes =
    writeBytes (s.inode rip).bytes (s.inode rip).i_size position n buffer
  i_size : (s'.inode rip).i_size = max (s.inode rip).i_size (position + n)
  filp : ∀ x, s'.filp x = if x = f then (s.filp x).at (position + n) else s.filp x

/-- Positions are all that changes of open files. -/
theorem HasRead.mode {position n : ℕ} (h : HasRead rip who f position n s s') (x : FilpNr) :
    (s'.filp x).filp_mode = (s.filp x).filp_mode := by
  by_cases hdrained : Drained (s.inode rip) (position + n)
  · rw [(h.drained hdrained).2]
    split_ifs <;> rfl
  · rw [(h.left hdrained).2]
    split_ifs <;> rfl

theorem HasWritten.mode {position n : ℕ} (h : HasWritten rip who f position n buffer s s')
    (x : FilpNr) : (s'.filp x).filp_mode = (s.filp x).filp_mode := by
  rw [h.filp]
  split_ifs <;> rfl

theorem hasRead {f_size position n : ℕ} (hio : k.io = none) :
    HasRead rip who f position (min n (f_size - position)) s
      (transfer k s who f rip .READING f_size position n buffer).2 ∧
    (transfer k s who f rip .READING f_size position n buffer).1 = min n (f_size - position) := by
  have htables : SameTables s (transfer k s who f rip .READING f_size position n buffer).2 :=
    Inert.transfer.tables
  unfold transfer moved at htables ⊢
  simp only [hio] at htables ⊢
  generalize min n (f_size - position) = m at htables ⊢
  generalize hs₁ : s.record (.read who rip (bytesAt (s.inode rip).bytes position m)) = s₁ at htables ⊢
  have hinode : s₁.inode = s.inode := by rw [← hs₁]; rfl
  have hfilp : s₁.filp = s.filp := by rw [← hs₁]; rfl
  have hhistory : s₁.history rip =
      .read who rip (bytesAt (s.inode rip).bytes position m) :: s.history rip := by
    rw [← hs₁]
    exact history_cons_of_concerns (beq_self_eq_true rip)
  unfold rwEnd at htables ⊢
  rw [if_pos rfl] at htables ⊢
  dsimp only at htables ⊢
  by_cases hdrained : Drained (s.inode rip) (position + m)
  · have hcond : (s₁.inode rip).i_pipe = true ∧ (s₁.inode rip).i_size ≤ position + m := by
      rw [hinode]
      exact hdrained
    rw [if_pos hcond] at htables ⊢
    have hwf : findFilp (s₁.setInode rip fun ip => { ip with i_size := 0 }) rip Mode.W =
        findFilp s rip Mode.W := findFilp_congr hfilp rip Mode.W
    rw [hwf] at htables ⊢
    cases hfind : findFilp s rip Mode.W with
    | none =>
      rw [hfind] at htables
      refine ⟨⟨htables, hhistory, ?_, fun _ => ⟨?_, fun x => ?_⟩, fun hno => absurd hdrained hno⟩, rfl⟩
      · rw [setFilp_inode, setInode_inode, if_pos rfl, hinode]
      · rw [setFilp_inode, setInode_inode, if_pos rfl]
      · rw [setFilp_filp, setInode_filp, hfilp, hfind]
        simp only [reduceCtorEq, or_false]
        rfl
    | some wf =>
      rw [hfind] at htables
      refine ⟨⟨htables, hhistory, ?_, fun _ => ⟨?_, fun x => ?_⟩, fun hno => absurd hdrained hno⟩, rfl⟩
      · rw [setFilp_inode, setFilp_inode, setInode_inode, if_pos rfl, hinode]
      · rw [setFilp_inode, setFilp_inode, setInode_inode, if_pos rfl]
      · rw [setFilp_filp, setFilp_filp, setInode_filp, hfilp, hfind]
        by_cases hxf : x = f
        · rw [if_pos hxf, if_pos (Or.inl hxf)]
          split_ifs <;> rfl
        · by_cases hxw : x = wf
          · rw [if_neg hxf, if_pos hxw, if_pos (Or.inr (congrArg some hxw.symm))]
            rfl
          · rw [if_neg hxf, if_neg hxw, if_neg]
            rintro (h | h)
            · exact hxf h
            · exact hxw (Option.some.inj h).symm
  · have hcond : ¬((s₁.inode rip).i_pipe = true ∧ (s₁.inode rip).i_size ≤ position + m) := by
      rw [hinode]
      exact hdrained
    rw [if_neg hcond] at htables ⊢
    refine ⟨⟨htables, hhistory, ?_, fun h => absurd h hdrained, fun _ => ⟨?_, fun x => ?_⟩⟩, rfl⟩
    · rw [setFilp_inode, hinode]
    · rw [setFilp_inode, hinode]
    · rw [setFilp_filp, hfilp]
      rfl

/-- What has been read is taken from the front. -/
theorem Holds.read {position m : ℕ} (h : Holds (s.inode rip) unread)
    (hr : HasRead rip who f position (min m ((s.inode rip).i_size - position)) s s')
    (hpos : position < (s.inode rip).i_size → position + unread.length = (s.inode rip).i_size)
    (hpipe : (s.inode rip).i_pipe = true → position < (s.inode rip).i_size) :
    Holds (s'.inode rip) (unread.drop (min m ((s.inode rip).i_size - position))) := by
  by_cases hdrained : Drained (s.inode rip) (position + min m ((s.inode rip).i_size - position))
  · have hin := hpipe hdrained.1
    have hlen := hpos hin
    have hend := hdrained.2
    rw [List.drop_of_length_le (by omega)]
    exact .nil _
  · obtain ⟨htype, -, hpipe⟩ := hr.tables.inode rip
    exact (h.drop _).same ⟨htype, hpipe, (hr.left hdrained).1, hr.bytes⟩

/-- What has been written at the end of the file is appended. -/
theorem Holds.write {n : ℕ} (h : Holds (s.inode rip) unread)
    (hw : HasWritten rip who f (s.inode rip).i_size n buffer s s') :
    Holds (s'.inode rip) (unread ++ bytesAt buffer 0 n) := by
  obtain ⟨htype, -, hpipe⟩ := hw.tables.inode rip
  have hsize : (s'.inode rip).i_size = (s.inode rip).i_size + n := by
    rw [hw.i_size]
    exact max_eq_right (Nat.le_add_right _ _)
  exact (h.append n buffer).same ⟨htype, hpipe, hsize, hw.bytes⟩

/-- A file that is not a device is written. -/
theorem hasWritten {position n : ℕ} (hio : k.io = none)
    (htype : (s.inode rip).i_type ≠ .I_CHAR_SPECIAL ∧ (s.inode rip).i_type ≠ .I_BLOCK_SPECIAL) :
    HasWritten rip who f position n buffer s
      (transfer k s who f rip .WRITING (s.inode rip).i_size position n buffer).2 ∧
    (transfer k s who f rip .WRITING (s.inode rip).i_size position n buffer).1 = n := by
  have htables : SameTables s
      (transfer k s who f rip .WRITING (s.inode rip).i_size position n buffer).2 :=
    Inert.transfer.tables
  unfold transfer moved at htables ⊢
  simp only [hio, if_neg htype.2, min_self] at htables ⊢
  generalize hs₁ : (s.setInode rip fun ip =>
    { ip with bytes := writeBytes ip.bytes ip.i_size position n buffer }).record
      (.wrote who rip (bytesAt buffer 0 n)) = s₁ at htables ⊢
  have hinode : s₁.inode rip = { s.inode rip with
      bytes := writeBytes (s.inode rip).bytes (s.inode rip).i_size position n buffer } := by
    rw [← hs₁, record_inode, setInode_inode, if_pos rfl]
  have hfilp : s₁.filp = s.filp := by rw [← hs₁]; rfl
  have hhistory : s₁.history rip = .wrote who rip (bytesAt buffer 0 n) :: s.history rip := by
    rw [← hs₁]
    exact history_cons_of_concerns (beq_self_eq_true rip)
  unfold rwEnd at htables ⊢
  rw [if_pos rfl] at htables ⊢
  dsimp only at htables ⊢
  by_cases hgrows : (s.inode rip).i_size < position + n
  · have hcond : (s₁.inode rip).i_type ≠ .I_CHAR_SPECIAL ∧ (s₁.inode rip).i_type ≠ .I_BLOCK_SPECIAL ∧
        (s.inode rip).i_size < position + n := by
      rw [hinode]
      exact ⟨htype.1, htype.2, hgrows⟩
    rw [if_pos hcond] at htables ⊢
    refine ⟨⟨htables, hhistory, ?_, ?_, fun x => ?_⟩, rfl⟩
    · rw [setFilp_inode, setInode_inode, if_pos rfl, hinode]
    · rw [setFilp_inode, setInode_inode, if_pos rfl, max_eq_right hgrows.le]
    · rw [setFilp_filp, setInode_filp, hfilp]
      rfl
  · have hcond : ¬((s₁.inode rip).i_type ≠ .I_CHAR_SPECIAL ∧
        (s₁.inode rip).i_type ≠ .I_BLOCK_SPECIAL ∧ (s.inode rip).i_size < position + n) :=
      fun h => hgrows h.2.2
    rw [if_neg hcond] at htables ⊢
    refine ⟨⟨htables, hhistory, ?_, ?_, fun x => ?_⟩, rfl⟩
    · rw [setFilp_inode, hinode]
    · rw [setFilp_inode, hinode, max_eq_left (not_lt.mp hgrows)]
    · rw [setFilp_filp, hfilp]
      rfl

/-! ## read and write -/

/-- Where an access begins. -/
def startsAt (s : FsState) (f : FilpNr) (rw_flag : RwFlag) : ℕ :=
  if rw_flag = .WRITING ∧ (s.filp f).filp_flags.O_APPEND then (s.inode (s.filp f).filp_ino).i_size
  else (s.filp f).filp_pos

/-- What `pipe_check` finds feasible now. -/
def Feasible (s : FsState) (rip : Ino) (position n : ℕ) : RwFlag → Prop
  | .READING => position < (s.inode rip).i_size
  | .WRITING => n ≤ PIPE_SIZE ∧ (findFilp s rip Mode.R).isSome ∧ position + n ≤ PIPE_SIZE

theorem pipeCheck_feasible {oflags : OFlags} {n position : ℕ}
    (h : ¬(pipeCheck s fp fd buffer rip rw_flag oflags n position).1 ≤ 0) :
    Feasible s rip position n rw_flag := by
  unfold pipeCheck at h
  cases rw_flag with
  | READING =>
    dsimp only at h
    by_cases hempty : (s.inode rip).i_size ≤ position
    · rw [if_pos hempty] at h
      by_cases hw : (findFilp s rip Mode.W).isSome = true
      · by_cases hblock : oflags.O_NONBLOCK = true
        · simp only [if_pos hw, if_pos hblock] at h
          exact absurd (by decide : EAGAIN ≤ 0) h
        · simp only [if_pos hw, if_neg hblock] at h
          exact absurd le_rfl h
      · rw [if_neg hw] at h
        exact absurd le_rfl h
    · exact not_le.mp hempty
  | WRITING =>
    dsimp only at h
    by_cases hbig : PIPE_SIZE < n
    · rw [if_pos hbig] at h
      exact absurd (by decide : EFBIG ≤ 0) h
    · rw [if_neg hbig] at h
      by_cases hnone : (findFilp s rip Mode.R).isNone = true
      · rw [if_pos hnone] at h
        exact absurd (by decide : EPIPE ≤ 0) h
      · rw [if_neg hnone] at h
        by_cases hfull : PIPE_SIZE < position + n
        · rw [if_pos hfull] at h
          by_cases hblock : oflags.O_NONBLOCK = true
          · rw [if_pos hblock] at h
            exact absurd (by decide : EAGAIN ≤ 0) h
          · rw [if_neg hblock] at h
            exact absurd le_rfl h
        · exact ⟨not_lt.mp hbig, by simpa [Option.isSome_iff_ne_none] using hnone, not_lt.mp hfull⟩

/-- What an access needs that moves bytes. -/
structure Moves (k : Outside) (s : FsState) (f : FilpNr) (rip : Ino) (rw_flag : RwFlag)
    (nbytes : ℤ) : Prop where
  positive : 0 < nbytes
  mode : (s.filp f).filp_mode.meets rw_flag.bit = true
  feasible : (s.inode rip).i_pipe = true → Feasible s rip (startsAt s f rw_flag) nbytes.toNat rw_flag
  fits : rw_flag = .WRITING → (s.filp f).filp_pos + nbytes.toNat ≤ k.s_max_size

/-- A file that is not a device is read or written: either nothing happens to it, or bytes are
moved. -/
theorem readWrite_cases (k : Outside) (rw_flag : RwFlag) (nbytes : ℤ) (buffer : ℕ → UInt8)
    (hf : getFilp s who (userFd who fild) = some (fd, f)) (hino : (s.filp f).filp_ino = rip)
    (htype : (s.inode rip).i_type ≠ .I_CHAR_SPECIAL ∧ (s.inode rip).i_type ≠ .I_BLOCK_SPECIAL) :
    (SameFiles s (readWrite k s who rw_flag fild nbytes buffer).2 ∧
        (readWrite k s who rw_flag fild nbytes buffer).1 ≤ 0) ∨
      Moves k s f rip rw_flag nbytes ∧ ∃ s₁, SameFiles s s₁ ∧
        readWrite k s who rw_flag fild nbytes buffer = transfer k s₁ who f rip rw_flag
          (s₁.inode rip).i_size (startsAt s f rw_flag) nbytes.toNat buffer := by
  have hsize : fSize (s.inode rip) = (s.inode rip).i_size := if_neg fun h => htype.2 h.1
  have hrefused : ∀ r : ℤ, r ≤ 0 → SameFiles s (r, s).2 ∧ (r, s).1 ≤ 0 := fun r hr => ⟨.refl s, hr⟩
  unfold readWrite
  by_cases hneg : nbytes < 0
  · rw [if_pos hneg]
    exact Or.inl (hrefused _ (by decide))
  rw [if_neg hneg, hf]
  dsimp only
  by_cases hmode : (s.filp f).filp_mode.meets rw_flag.bit = false
  · rw [if_pos hmode]
    exact Or.inl (hrefused _ (by decide))
  rw [if_neg hmode]
  by_cases hzero : nbytes = 0
  · rw [if_pos hzero]
    exact Or.inl (hrefused _ le_rfl)
  rw [if_neg hzero]
  by_cases hpos : MAX_FILE_POS < (s.filp f).filp_pos
  · rw [if_pos hpos]
    exact Or.inl (hrefused _ (by decide))
  rw [if_neg hpos, hino, if_neg htype.1]
  have hwrites : (rw_flag = .WRITING ∧ (s.inode rip).i_type ≠ .I_BLOCK_SPECIAL) ↔
      rw_flag = .WRITING := and_iff_left htype.2
  have hstart : startsAt s f rw_flag = if rw_flag = .WRITING ∧ (s.filp f).filp_flags.O_APPEND then
      (s.inode rip).i_size else (s.filp f).filp_pos := by
    unfold startsAt
    rw [hino]
  unfold rwFile
  simp only [hwrites, hsize, ← hstart]
  by_cases hbig : rw_flag = .WRITING ∧ k.s_max_size < (s.filp f).filp_pos + nbytes.toNat
  · rw [if_pos hbig]
    exact Or.inl (hrefused _ (by decide))
  rw [if_neg hbig]
  have hmoves : ((s.inode rip).i_pipe = true →
      Feasible s rip (startsAt s f rw_flag) nbytes.toNat rw_flag) →
      Moves k s f rip rw_flag nbytes := fun hfeasible =>
    ⟨by omega, by simpa using hmode, hfeasible, fun hw => not_lt.mp fun h => hbig ⟨hw, h⟩⟩
  by_cases hpipe : (s.inode rip).i_pipe = true
  · rw [if_pos hpipe]
    have hcheck : SameFiles s (pipeCheck s who fd buffer rip rw_flag (s.filp f).filp_flags
        nbytes.toNat (startsAt s f rw_flag)).2 := .pipeCheck
    by_cases hstop : (pipeCheck s who fd buffer rip rw_flag (s.filp f).filp_flags nbytes.toNat
        (startsAt s f rw_flag)).1 ≤ 0
    · rw [if_pos hstop]
      exact Or.inl ⟨hcheck, hstop⟩
    · rw [if_neg hstop]
      refine Or.inr ⟨hmoves fun _ => pipeCheck_feasible hstop, _, hcheck, ?_⟩
      rw [hcheck.inode]
  · rw [if_neg hpipe]
    exact Or.inr ⟨hmoves fun h => absurd h hpipe, s, .refl s, rfl⟩

end Minix.Pipe
