import Minix.Fs.Accounts

/-!
# The greatest size of a file

`read_write` checks that a write does not make a file too big by the position of the open file,
before it takes the end of the file instead for `O_APPEND`. As long as an appending write fits where
it begins (`Fits`), no file gets too big and `write_map` is not asked for a zone that it has no
place for, whatever others do with the file through their own open files (`size_limit`).
-/

namespace Minix.Fs

open Lib

/-- A regular file with those who use it. -/
structure Shared where
  cache : Cache
  rip : Inode
  filps : ℕ → Filp
  users : ℕ → User

/-- What happens to a file that is shared. -/
inductive SharedAct
  | call (rw_flag : RwFlag) (proc fd : ℕ) (nbytes : ℤ) (buffer : ℕ)
  | lseek (fd : ℕ) (offset : ℤ) (whence : ℕ)
  | setfl (fd addr : ℕ)
  | other

def Shared.openFile (t : Shared) (proc fd : ℕ) : OpenFile :=
  ⟨t.cache, t.rip, t.filps fd, t.users proc⟩

def Shared.after (t : Shared) (proc fd : ℕ) (o : OpenFile) : Shared :=
  ⟨o.cache, o.rip, Function.update t.filps fd o.filp, Function.update t.users proc o.user⟩

/-- Set file status flags: `F_SETFL` of `do_fcntl`. -/
def setFlags (f : Filp) (addr : ℕ) : Filp :=
  let fl := O_NONBLOCK ||| O_APPEND
  { f with filp_flags := f.filp_flags &&& (65535 ^^^ fl) ||| addr &&& fl }

/-- A step of those who use a file, or of others. Files are opened and closed, and the blocks of
other files come and go, in `other`. -/
inductive SharedStep (sp : SuperBlock) : Shared → SharedAct → Shared → Prop
  | call {t : Shared} {rw_flag : RwFlag} {i j : ℕ} {n : ℤ} {buffer : ℕ} {r : ℤ} {o' : OpenFile}
      (h : readWrite sp (t.openFile i j) rw_flag n buffer = some (r, o')) :
      SharedStep sp t (.call rw_flag i j n buffer) (t.after i j o')
  | lseek {t : Shared} {j : ℕ} {offset : ℤ} {whence : ℕ} :
      SharedStep sp t (.lseek j offset whence) (t.after 0 j (doLseek (t.openFile 0 j) offset whence).2)
  | setfl {t : Shared} {j addr : ℕ} :
      SharedStep sp t (.setfl j addr)
        { t with filps := Function.update t.filps j (setFlags (t.filps j) addr) }
  | other {t : Shared} {c : Cache} {filps : ℕ → Filp} {users : ℕ → User} :
      SharedStep sp t .other ⟨c, t.rip, filps, users⟩

/-- A write that is accepted fits where it begins. -/
def Fits (sp : SuperBlock) (o : OpenFile) (n : ℤ) : Prop :=
  Accepted sp o n → writeAt o.rip o.filp + n.toNat ≤ sp.s_max_size

/-- A step in which a write fits. -/
def FittingStep (sp : SuperBlock) (t : Shared) (act : SharedAct) (t' : Shared) : Prop :=
  SharedStep sp t act t' ∧ match act with
    | .call .WRITING i j n _ => Fits sp (t.openFile i j) n
    | _ => True

/-- The loop of a write comes to a position, for which it may need a new zone. -/
def WritesAt (sp : SuperBlock) (o : OpenFile) (n : ℤ) (buffer position : ℕ) : Prop :=
  ∃ c x, rwStart { o.cache with rdwt_err := OK } sp o.rip o.filp .WRITING n.toNat =
      some (.ok (writeAt o.rip o.filp, c)) ∧
    Relation.ReflTransGen (WriteTurn sp (fileSize o.rip))
      (rwXfer o c (writeAt o.rip o.filp) n.toNat buffer) x ∧ x.nbytes ≠ 0 ∧ x.position = position

/-- A regular file that is not too big. -/
structure WithinLimit (sp : SuperBlock) (t : Shared) : Prop where
  regular : t.rip.regular = true
  size : t.rip.i_size ≤ sp.s_max_size

/-- A file is within its limit, and `write_map` has a place for what the next write asks for. -/
structure SizeLimit (sp : SuperBlock) (t : Shared) : Prop where
  size : t.rip.i_size ≤ sp.s_max_size
  mapped : ∀ i j n buffer position, Accepted sp (t.openFile i j) n → Fits sp (t.openFile i j) n →
    WritesAt sp (t.openFile i j) n buffer position → sp.zoneOf position < MAX_ZONES

variable {sp : SuperBlock} {t t' : Shared} {act : SharedAct} {o : OpenFile} {n : ℤ}
  {buffer position f_size : ℕ} {x x' : Xfer}

/-- The end of what is to be written stays where it is. -/
theorem WriteTurn.end_eq (h : WriteTurn sp f_size x x') (hr : x.r = OK) :
    x'.r = OK ∧ x'.position + x'.nbytes = x.position + x.nbytes := by
  obtain ⟨m, hacc, _, hok⟩ := rwTurn_accounted hr h
  have hpos := hacc.position
  have hnb := hacc.nbytes
  exact ⟨hok rfl, by omega⟩

/-- The loop of a write stays in front of its end. -/
theorem WritesAt.lt (h : WritesAt sp o n buffer position) :
    position < writeAt o.rip o.filp + n.toNat := by
  obtain ⟨c, x, _, hrun, hn, rfl⟩ := h
  have hend : x.r = OK ∧ x.position + x.nbytes = writeAt o.rip o.filp + n.toNat := by
    clear hn
    induction hrun with
    | refl => exact ⟨rfl, rfl⟩
    | tail _ hturn ih =>
      obtain ⟨hr, heq⟩ := ih
      obtain ⟨hr', heq'⟩ := WriteTurn.end_eq hturn hr
      exact ⟨hr', heq'.trans heq⟩
  omega

/-- A call leaves a file within its limit, if a write fits. -/
theorem WithinLimit.call {rw_flag : RwFlag} {i j : ℕ} {r : ℤ} {o' : OpenFile}
    (h : WithinLimit sp t) (hfits : rw_flag = .WRITING → Fits sp (t.openFile i j) n)
    (he : readWrite sp (t.openFile i j) rw_flag n buffer = some (r, o')) :
    WithinLimit sp (t.after i j o') := by
  have hreg : (t.openFile i j).rip.regular = true := h.regular
  by_cases hno : Refused sp (t.openFile i j) rw_flag n
  · obtain ⟨_, hsame⟩ := hno.unchanged (Inode.regular_blockSpec hreg) he
    have hrip : (t.after i j o').rip = t.rip := congrArg OpenFile.rip hsame
    exact ⟨by rw [hrip]; exact h.regular, by rw [hrip]; exact h.size⟩
  · obtain ⟨k, hk⟩ := readWrite_moved hreg hno he
    refine ⟨readWrite_regular hreg hno he, ?_⟩
    show o'.rip.i_size ≤ _
    rw [hk.size]
    cases rw_flag with
    | READING => exact h.size
    | WRITING =>
      have hfits := hfits rfl ((not_refused hno).2 rfl)
      have hle := hk.le
      have hmax : writeAt (t.openFile i j).rip (t.openFile i j).filp + k ≤ sp.s_max_size := by omega
      exact max_le h.size hmax

theorem WithinLimit.step (h : WithinLimit sp t) (hst : FittingStep sp t act t') :
    WithinLimit sp t' := by
  obtain ⟨hst, hfits⟩ := hst
  cases hst with
  | @call rw_flag i j n buffer r o' he =>
    refine h.call ?_ he
    rintro rfl
    exact hfits
  | @lseek j offset whence =>
    obtain ⟨_, _, i_seek, hrip⟩ := doLseek_file (t.openFile 0 j) offset whence
    have hrip' : (t.after 0 j (doLseek (t.openFile 0 j) offset whence).2).rip =
        { t.rip with i_seek := i_seek } := hrip
    exact ⟨by rw [hrip']; exact h.regular, by rw [hrip']; exact h.size⟩
  | setfl => exact ⟨h.regular, h.size⟩
  | other => exact ⟨h.regular, h.size⟩

/-- As long as writes fit where they begin, a file stays within the greatest size of its file
system, and no zone is asked for that has no place in its map. -/
theorem size_limit (hsz : sp.Sized)
    (h : Reachable (WithinLimit sp) (FittingStep sp) t) : SizeLimit sp t := by
  have hw : WithinLimit sp t := Reachable.invariant (P := WithinLimit sp) h (fun _ h => h)
    fun _ _ _ h hst => h.step hst
  refine ⟨hw.size, fun i j n buffer position hacc hfits hat => ?_⟩
  exact hsz.zoneOf_lt (hat.lt.trans_le (hfits hacc))

/-! ## Near the limit -/

/-- An empty file on the small device, open at twenty bytes in front of the greatest size and, to
append, at its beginning. -/
def nearLimit (c : Cache) : Shared where
  cache := c
  rip := ⟨I_REGULAR, 0, fun _ => NO_ZONE, 1, false⟩
  filps j := if j = 0 then ⟨W_BIT, 0, MAX_ZONES * BLOCK_SIZE - 20⟩ else ⟨W_BIT, O_APPEND, 0⟩
  users _ := ⟨fun _ => 7, []⟩

theorem nearLimit_within (c : Cache) : WithinLimit smallSuper (nearLimit c) := by
  constructor
  · show decide (I_REGULAR &&& I_TYPE = I_REGULAR ∨ I_REGULAR &&& I_TYPE = I_NAMED_PIPE) = true
    decide
  · exact Nat.zero_le _

/-- Ten bytes are written near the limit, and ten bytes are appended to them. -/
theorem size_limit_reached : ∃ t, t.rip.i_size = smallSuper.s_max_size ∧ SizeLimit smallSuper t := by
  have hrun : ((getBlock smallCache 1 3 .NORMAL).bind fun p =>
      (readWrite smallSuper ((nearLimit p.2).openFile 0 0) .WRITING 10 0).bind fun w =>
      (readWrite smallSuper (((nearLimit p.2).after 0 0 w.2).openFile 0 1) .WRITING 10 0).bind
        fun v => some (w.1, w.2.rip.i_size, v.1, v.2.rip.i_size)) =
      some (10, 268966902, 10, 268966912) := by
    decide +kernel
  simp only [Option.bind_eq_some_iff, Option.some.injEq, Prod.mk.injEq] at hrun
  obtain ⟨⟨_, c⟩, _, ⟨_, o₁⟩, h₁, ⟨_, o₂⟩, h₂, rfl, hsize, rfl, hsize'⟩ := hrun
  have s₁ : FittingStep smallSuper (nearLimit c) _ _ := ⟨.call h₁, fun _ =>
    show (if 0 &&& O_APPEND ≠ 0 then 0 else MAX_ZONES * BLOCK_SIZE - 20) + 10 ≤
      MAX_ZONES * BLOCK_SIZE by decide⟩
  have s₂ : FittingStep smallSuper ((nearLimit c).after 0 0 o₁) _ _ := ⟨.call h₂, fun _ => by
    show (if O_APPEND &&& O_APPEND ≠ 0 then o₁.rip.i_size else 0) + 10 ≤ _
    rw [if_pos (by decide), hsize]
    decide⟩
  exact ⟨_, hsize', size_limit smallSuper_sized
    (((Reachable.of_init (nearLimit_within c)).of_step s₁).of_step s₂)⟩

/-- Twenty bytes are appended instead: the check lets them pass, and a zone is asked for that has no
place. -/
theorem size_limit_passed :
    ¬∀ sp t, sp.Sized → Reachable (WithinLimit sp) (SharedStep sp) t → t.rip.i_size ≤ sp.s_max_size ∧
      ∀ i j n buffer position, Accepted sp (t.openFile i j) n →
        WritesAt sp (t.openFile i j) n buffer position → sp.zoneOf position < MAX_ZONES := by
  intro h
  have hrun : ((getBlock smallCache 1 3 .NORMAL).bind fun p =>
      (readWrite smallSuper ((nearLimit p.2).openFile 0 0) .WRITING 10 0).bind fun w =>
      (rwTurn smallSuper .WRITING (fileSize w.2.rip) (rwXfer
        (((nearLimit p.2).after 0 0 w.2).openFile 0 1) { w.2.cache with rdwt_err := OK }
        w.2.rip.i_size 20 0)).bind fun v =>
      some (w.1, w.2.rip.i_size, v.1, v.2.position, v.2.nbytes)) =
      some (10, 268966902, true, 268966912, 10) := by
    decide +kernel
  simp only [Option.bind_eq_some_iff, Option.some.injEq, Prod.mk.injEq] at hrun
  obtain ⟨⟨_, c⟩, _, ⟨_, o₁⟩, h₁, ⟨_, x⟩, hturn, rfl, hsize, rfl, hpos, hnb⟩ := hrun
  have s₁ : SharedStep smallSuper (nearLimit c) _ _ := .call h₁
  have hmapped := (h smallSuper _ smallSuper_sized
    ((Reachable.of_init (nearLimit_within c)).of_step s₁)).2 0 1 20 0 268966912
  have hacc : Accepted smallSuper (((nearLimit c).after 0 0 o₁).openFile 0 1) 20 :=
    ⟨show rwCheck ⟨W_BIT, O_APPEND, 0⟩ .WRITING 20 = none by decide,
      show (0 : ℤ) ≤ (MAX_ZONES * BLOCK_SIZE : ℕ) - (20 : ℕ) by decide⟩
  have hreg := ((nearLimit_within c).call (fun _ _ => by
    show (if 0 &&& O_APPEND ≠ 0 then 0 else MAX_ZONES * BLOCK_SIZE - 20) + 10 ≤
      MAX_ZONES * BLOCK_SIZE
    decide) h₁).regular
  -- Nothing is cleared, since the write begins at the end of the file.
  have hstart : rwStart { o₁.cache with rdwt_err := OK } smallSuper o₁.rip ⟨W_BIT, O_APPEND, 0⟩
      .WRITING 20 = some (.ok (o₁.rip.i_size, { o₁.cache with rdwt_err := OK })) := by
    have hspec : o₁.rip.blockSpec = false := Inode.regular_blockSpec hreg
    unfold rwStart writeStart
    rw [if_pos ⟨rfl, hspec⟩, if_neg (by decide)]
    dsimp only
    rw [if_pos (show O_APPEND &&& O_APPEND ≠ 0 by decide), if_neg (lt_irrefl _)]
  have hbegin : writeAt (((nearLimit c).after 0 0 o₁).openFile 0 1).rip
      (((nearLimit c).after 0 0 o₁).openFile 0 1).filp = o₁.rip.i_size :=
    if_pos (show O_APPEND &&& O_APPEND ≠ 0 by decide)
  have hat : WritesAt smallSuper (((nearLimit c).after 0 0 o₁).openFile 0 1) 20 0 268966912 := by
    refine ⟨{ o₁.cache with rdwt_err := OK }, x, ?_, .single ?_, ?_, hpos⟩
    · rw [hbegin]
      exact hstart
    · rw [hbegin]
      exact hturn
    · rw [hnb]
      decide
  exact absurd (hmapped hacc hat) (by decide)

end Minix.Fs
