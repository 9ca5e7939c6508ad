import Minix.Fs.ByteArray

/-!
# Writes that fail

A copy from a user may fail at any chunk of a write. As long as the writes of a run do no harm
(`Careful`), a file is the array of the bytes that were copied, whatever fails (`failed_writes`). A
write that does harm is one of a full block that is not in the cache: the block is not read in, and
the buffer is marked as dirty although nothing was copied into it (`failed_write_damages`).
-/

namespace Minix.Fs

open Lib

/-- What a call does to an array of bytes when it may fail: a read returns bytes that there are, and
a write changes those that were copied. -/
def FailingCall (sp : SuperBlock) (t t' : Traced) : FileAct → Prop
  | .call .READING i j n buffer r => rwCheck (t.filps j) .READING n = none →
      ∃ k ≤ min n.toNat (t.written.size - (t.filps j).filp_pos),
        (t'.filps j).filp_pos = (t.filps j).filp_pos + k ∧
        (t'.users i).mem = readMem t.written.byte (t.filps j).filp_pos ((t.filps j).filp_pos + k)
          (t.users i).mem buffer ∧
        (r = k ∧ k = min n.toNat (t.written.size - (t.filps j).filp_pos) ∨
          r ≠ OK ∧ r ∈ (t.users i).copies)
  | .call .WRITING i j n buffer r => Accepted sp (t.openFile i j) n →
      ∃ k ≤ n.toNat, (t'.filps j).filp_pos = writeAt t.rip (t.filps j) + k ∧
        t'.written = t.written.write (writeAt t.rip (t.filps j)) (writeAt t.rip (t.filps j) + k)
          (t.users i).mem buffer ∧
        (r = n ∧ k = n.toNat ∨ r ≠ OK ∧ (r = ENOSPC ∨ r = EFBIG ∨ r ∈ (t.users i).copies))
  | _ => True

/-- A file is the array of the bytes that were copied. -/
structure FailedWriteOk (sp : SuperBlock) (held : Buf → ℕ) (t : Traced) : Prop where
  size : t.rip.i_size = t.written.size
  returns : ∀ rw_flag i j n buffer, (rw_flag = .WRITING → Accepted sp (t.openFile i j) n →
    Careful sp (t.openFile i j) n buffer) →
      ∃ r o, readWrite sp (t.openFile i j) rw_flag n buffer = some (r, o)
  call : ∀ act t', CarefulStep sp held t act t' → FailingCall sp t t' act

variable {sp : SuperBlock} {L L' : Contents} {rip : Inode} {held : Buf → ℕ} {c c' : Cache}
  {f : Bytes} {t t' : Traced} {act : FileAct} {i j buffer : ℕ} {n r : ℤ} {o o' : OpenFile}
  {rw_flag : RwFlag}

/-- What a call that does no harm does to the array of bytes. -/
theorem Keeps.call (h : Keeps sp held t) (hh : Holds sp held) (hsp : sp.Ok) (hsz : sp.Sized)
    (he : readWrite sp (t.openFile i j) rw_flag n buffer = some (r, o'))
    (hcare : rw_flag = .WRITING → Accepted sp (t.openFile i j) n →
      Careful sp (t.openFile i j) n buffer) :
    FailingCall sp t (t.after i j o' (writtenAfter sp (t.openFile i j) rw_flag n buffer o' t.written))
      (.call rw_flag i j n buffer r) := by
  obtain ⟨hreg, L, hf⟩ := h
  have hf : IsFile sp held (t.openFile i j).cache L (t.openFile i j).rip t.written := hf
  obtain ⟨r', o₂, L', he', hdone⟩ := hf.call hh hsp hsz hreg rw_flag n buffer hcare
  obtain ⟨rfl, rfl⟩ := Prod.mk.inj (Option.some.inj (he'.symm.trans he))
  have hfilp : (t.after i j o₂ (writtenAfter sp (t.openFile i j) rw_flag n buffer o₂
      t.written)).filps j = o₂.filp := Function.update_self ..
  have huser : (t.after i j o₂ (writtenAfter sp (t.openFile i j) rw_flag n buffer o₂
      t.written)).users i = o₂.user := Function.update_self ..
  cases hdone with
  | refused hno ho hL =>
    cases rw_flag with
    | READING =>
      intro hcheck
      rcases hno with hno | ⟨hw, -⟩
      · exact absurd hcheck hno
      · exact RwFlag.noConfusion hw
    | WRITING =>
      intro hacc
      rcases hno with hno | ⟨-, hno⟩
      · exact absurd hacc.check hno
      · exact absurd hacc hno
  | @read _ k hcheck hL hd =>
    refine fun _ => ⟨k, hd.le, ?_, ?_, hd.result⟩
    · rw [hfilp, hd.filp]
      rfl
    · rw [huser, hd.mem]
      rfl
  | @write _ k hacc hd =>
    have hpos := rwCheck_pos hacc.check
    refine fun _ => ⟨k, hd.le, ?_, ?_, ?_⟩
    · rw [hfilp, hd.filp]
      rfl
    · show writtenAfter sp (t.openFile i j) .WRITING n buffer o₂ t.written = _
      unfold writtenAfter
      rw [if_pos ⟨rfl, hacc⟩, hd.filp]
      rfl
    · refine hd.result.imp (fun ⟨hr, hk⟩ => ⟨by omega, hk⟩) fun ⟨hne, hcause⟩ => ⟨hne, ?_⟩
      rcases hcause with ⟨-, -, hfull | ⟨hbig, -⟩⟩ | hmem
      · exact Or.inl hfull
      · exact Or.inr (Or.inl hbig)
      · exact Or.inr (Or.inr hmem)

/-- In every run whose writes do no harm, a regular file is the array of the bytes that were copied,
whatever copies fail. -/
theorem failed_writes (hh : Holds sp held) (hsp : sp.Ok) (hsz : sp.Sized)
    (h : Reachable (FileStart sp held) (CarefulStep sp held) t) : FailedWriteOk sp held t := by
  have hk : Keeps sp held t := Reachable.invariant (P := Keeps sp held) h
    (fun _ => FileStart.keeps) fun _ _ _ hk hst => hk.step hh hsp hsz hst
  have ⟨hreg, L, hf⟩ := hk
  refine ⟨hf.size.symm, fun rw_flag i j n buffer hcare => ?_, fun act t' hst => ?_⟩
  · have hf : IsFile sp held (t.openFile i j).cache L (t.openFile i j).rip t.written := hf
    obtain ⟨r, o, -, he, -⟩ := hf.call hh hsp hsz hreg rw_flag n buffer hcare
    exact ⟨r, o, he⟩
  · obtain ⟨hst, hcare⟩ := hst
    cases hst with
    | @call rw_flag i j n buffer r o' he =>
      refine hk.call hh hsp hsz he fun hw => ?_
      subst hw
      exact hcare
    | lseek => trivial
    | other => trivial

/-! ## A write that does harm -/

/-- The cache has been used to look up numbers in blocks. -/
theorem Elsewhere.indirEntries (hh : Holds sp held) {dev : ℕ} (hdev : dev ≠ NO_DEV) {bs : List ℕ}
    (h : bs.foldlM (fun c b => (indirEntry c dev b 0).map Prod.snd) c = some c') :
    Elsewhere sp held rip c c' := by
  intro L hm hok
  refine ⟨L, ?_, hok, fun _ _ _ _ => rfl⟩
  induction bs generalizing c with
  | nil =>
    obtain rfl := Option.some.inj h
    exact hm
  | cons b bs ih =>
    obtain ⟨c₁, he, hm₁⟩ := hm.indirEntry hh hdev b 0
    dsimp only at he hm₁
    rw [List.foldlM_cons, he] at h
    exact ih h hm₁

/-- A block is written and leaves the cache. It is written again by a process whose copy fails, and
has then what was in another block. -/
theorem failed_write_damages : ∃ t₀ t₁ t₂ t₃ t₄ : Traced,
    FileStart smallSuper smallHeld t₀ ∧
    FileStep smallSuper smallHeld t₀ (.call .WRITING 0 0 1024 0 1024) t₁ ∧
    FileStep smallSuper smallHeld t₁ .other t₂ ∧
    FileStep smallSuper smallHeld t₂ (.call .WRITING 1 4 1024 0 (-14)) t₃ ∧
    (t₃.filps 4).filp_pos = (t₂.filps 4).filp_pos ∧ t₃.written.byte 0 = 7 ∧
    FileStep smallSuper smallHeld t₃ (.call .READING 2 8 1 0 1) t₄ ∧ (t₄.users 2).mem 0 = 9 := by
  have hrun : ((getBlock smallCache 1 3 .NORMAL).bind fun p =>
      (readWrite smallSuper ((smallFile p.2).openFile 0 0) .WRITING 1024 0).bind fun w =>
      ((List.range' 100 30).foldlM (fun c b => (indirEntry c 1 b 0).map Prod.snd) w.2.cache).bind
        fun c =>
      (readWrite smallSuper ({ (smallFile p.2).wrote 0 0 1024 w.2 with cache := c }.openFile 1 4)
        .WRITING 1024 0).bind fun v =>
      (readWrite smallSuper (({ (smallFile p.2).wrote 0 0 1024 w.2 with cache := c }.wrote 1 4 1024
        v.2).openFile 2 8) .READING 1 0).bind fun u =>
      some (p.1, w.1, v.1, u.1, decide (v.2.filp.filp_pos = 0 ∧
        ({ (smallFile p.2).wrote 0 0 1024 w.2 with cache := c }.wrote 1 4 1024 v.2).written.byte 0 = 7 ∧
        u.2.user.mem 0 = 9))) = some (0, 1024, -14, 1, true) := by
    decide +kernel
  simp only [Option.bind_eq_some_iff, Option.some.injEq, Prod.mk.injEq, decide_eq_true_eq] at hrun
  obtain ⟨⟨_, c⟩, hc, ⟨_, o₁⟩, h₁, c₂, h₂, ⟨_, o₃⟩, h₃, ⟨_, o₄⟩, h₄, rfl, rfl, rfl, rfl, hpos, hbyte,
    hdamage⟩ := hrun
  have s₂ : FileStep smallSuper smallHeld ((smallFile c).wrote 0 0 1024 o₁) .other
      { (smallFile c).wrote 0 0 1024 o₁ with cache := c₂ } :=
    .other (Elsewhere.indirEntries smallHeld_holds (by decide) h₂)
  exact ⟨_, _, _, _, _, smallFile_start hc, .call h₁, s₂, .call h₃, hpos, hbyte, .call h₄, hdamage⟩

/-- A write of less than a block does no harm. -/
theorem Harmless.of_short {f_size : ℕ} {x : Xfer} (h : x.nbytes < BLOCK_SIZE) :
    Harmless sp f_size x := by
  intro x' hx' _ hd
  have hle := (WriteTurn.left hx').2
  have hchunk : chunkSize .WRITING f_size x' ≤ x'.nbytes := by
    unfold chunkSize
    dsimp only
    split_ifs <;> omega
  have := hd.2.1
  omega

/-- A short write fails, and does no harm. -/
theorem failed_writes_short : ∃ t, t.rip.i_size = 0 ∧ t.rip.i_zone 0 ≠ NO_ZONE ∧
    (t.users 1).copies = [-14, -14] ∧ FailedWriteOk smallSuper smallHeld t := by
  have hrun : ((getBlock smallCache 1 3 .NORMAL).bind fun p =>
      (readWrite smallSuper ((smallFile p.2).openFile 1 0) .WRITING 3 0).bind fun w =>
      some (p.1, w.1, decide (w.2.rip.i_size = 0 ∧ w.2.rip.i_zone 0 ≠ NO_ZONE ∧
        w.2.user.copies = [-14, -14]))) = some (0, -14, true) := by
    decide +kernel
  simp only [Option.bind_eq_some_iff, Option.some.injEq, Prod.mk.injEq, decide_eq_true_eq] at hrun
  obtain ⟨⟨_, c⟩, hc, ⟨_, o₁⟩, h₁, rfl, rfl, hsize, hzone, hcopies⟩ := hrun
  have s₁ : CarefulStep smallSuper smallHeld (smallFile c) _ _ :=
    ⟨.call h₁, fun _ => ⟨fun _ => Or.inl (show smallSuper.boff 0 = 0 by decide), fun _ _ _ =>
      Harmless.of_short (show 3 < BLOCK_SIZE by decide)⟩⟩
  have r₁ := (Reachable.of_init (smallFile_start hc)).of_step s₁
  exact ⟨_, hsize, hzone, hcopies, failed_writes smallHeld_holds smallSuper_ok smallSuper_sized r₁⟩

end Minix.Fs
