import Minix.Fs.ByteArray

/-!
# What a transfer accounts for

Whatever a driver, the zone map and the copies do, a call of `read_write` leaves the position of the
open file, the size of the file and its result in accord with what has been transferred
(`readWrite_accounts`). The inode changes in its zones only while the loop runs, and an error that
is reported is a negative number: each function below the loop has a lemma that says so.
-/

namespace Minix.Fs

/-- No error is reported, but a negative one. -/
def ErrKept (c c' : Cache) : Prop := c'.rdwt_err = c.rdwt_err ∨ c'.rdwt_err < 0

/-- The zones of an inode may be others. -/
def SameFile (rip rip' : Inode) : Prop := rip' = { rip with i_zone := rip'.i_zone }

/-- What a function that can fail leaves of the inode and the cache. -/
structure Leaves {α : Type} (rip : Inode) (c : Cache) (w : Written α) : Prop where
  rip : SameFile rip w.rip
  err : ErrKept c w.cache
  neg : ∀ r, w.res = .error r → r < 0

variable {c c' c'' : Cache} {rip rip' rip'' : Inode} {sp : SuperBlock} {dev b scale z i position : ℕ}
  {bp : Buf} {only_search : Search} {α : Type} {w : Written α}

theorem ErrKept.refl : ErrKept c c := .inl rfl

theorem ErrKept.of_eq (h : c'.rdwt_err = c.rdwt_err) : ErrKept c c' := .inl h

theorem ErrKept.trans (h : ErrKept c c') (h' : ErrKept c' c'') : ErrKept c c'' := by
  obtain h' | h' := h'
  · unfold ErrKept
    rw [h']
    exact h
  · exact .inr h'

theorem ErrKept.put (h : ErrKept c c') {bp : Option Buf} {block_type : ℕ} :
    ErrKept c (putBlock c' bp block_type) :=
  h.trans (.of_eq (putBlock_err c' bp block_type))

theorem SameFile.refl : SameFile rip rip := rfl

theorem SameFile.trans (h : SameFile rip rip') (h' : SameFile rip' rip'') : SameFile rip rip'' := by
  unfold SameFile at *
  rw [h', h]

theorem SameFile.size (h : SameFile rip rip') : rip'.i_size = rip.i_size := by rw [h]

theorem SameFile.regular (h : SameFile rip rip') : rip'.regular = rip.regular := by rw [h]; rfl

/-- It returns, with a value. -/
theorem Leaves.ok {v : α} (h : ErrKept c c') : Leaves rip c ⟨.ok v, rip, c'⟩ := ⟨.refl, h, nofun⟩

/-- It fails, with an error number. -/
theorem Leaves.error {r : ℤ} (h : ErrKept c c') (hr : r < 0) :
    Leaves (α := α) rip c ⟨.error r, rip, c'⟩ :=
  ⟨.refl, h, fun _ e => Except.error.inj e ▸ hr⟩

theorem Leaves.trans (hrip : SameFile rip rip') (herr : ErrKept c c') (h : Leaves rip' c' w) :
    Leaves rip c w :=
  ⟨hrip.trans h.rip, herr.trans h.err, h.neg⟩

/-! ## Blocks and zones -/

theorem rwBlock_err {rw_flag : RwFlag} : ErrKept c (rwBlock c bp rw_flag) := by
  cases rw_flag with
  | WRITING => exact .of_eq (rwBlock_writing_err c bp)
  | READING =>
    unfold rwBlock
    dsimp only
    split_ifs
    · unfold rwDevice
      dsimp only
      split_ifs
      · exact .refl
      · -- The driver has returned a negative number, or nothing at all.
        right
        show (if _ ≥ 0 then END_OF_FILE else _) < 0
        split_ifs with hr
        · decide
        · exact not_le.mp hr
    · exact .refl

theorem getBlock_err (h : getBlock c dev b only_search = some (bp, c')) : ErrKept c c' := by
  unfold getBlock at h
  split at h
  · cases h
  · cases h
    exact .refl
  · obtain ⟨⟨bp', links⟩, _, h⟩ := Option.bind_eq_some_iff.mp h
    obtain ⟨links', _, h⟩ := Option.bind_eq_some_iff.mp h
    obtain ⟨c₁, hclean, h⟩ := Option.bind_eq_some_iff.mp h
    cases h
    have hfill : ErrKept c₁ (fillBuf c₁ bp dev b only_search) := by
      unfold fillBuf
      dsimp only
      split
      · exact @rwBlock_err (assignBuf c₁ bp dev b only_search) bp .READING
      · exact .refl
    have hclean := cleanTaken_err hclean
    have hcleaned : ErrKept c c₁ := .inl hclean
    exact hcleaned.trans hfill

theorem indirEntry_err (h : indirEntry c dev b i = some (z, c')) : ErrKept c c' := by
  obtain ⟨⟨bp, c₁⟩, hget, h⟩ := Option.bind_eq_some_iff.mp h
  cases h
  exact (getBlock_err hget).put

theorem readSingle_err {excess boff : ℕ} (h : readSingle c dev scale z excess boff = some (b, c')) :
    ErrKept c c' := by
  unfold readSingle at h
  split at h
  · cases h
    exact .refl
  · obtain ⟨⟨z', c₁⟩, hentry, h⟩ := Option.bind_eq_some_iff.mp h
    cases h
    exact indirEntry_err hentry

theorem readMap_err (h : readMap c rip scale position = some (b, c')) : ErrKept c c' := by
  unfold readMap at h
  dsimp only at h
  split at h
  · cases h
    exact .refl
  split at h
  · exact readSingle_err h
  split at h
  · cases h
    exact .refl
  · obtain ⟨⟨z', c₁⟩, hentry, h⟩ := Option.bind_eq_some_iff.mp h
    exact (indirEntry_err hentry).trans (readSingle_err h)

theorem allocBlock_err {map_ptr : List Buf} {map_bits n w : ℕ}
    (h : allocBlock c map_ptr map_bits n b w = some (z, c')) : c'.rdwt_err = c.rdwt_err := by
  induction n generalizing b w with
  | zero =>
    cases h
    rfl
  | succ n ih =>
    unfold allocBlock at h
    split at h
    · cases h
    split at h
    · cases h
      rfl
    · exact ih h

theorem allocZone_err (h : allocZone c sp z = some (b, c')) : ErrKept c c' := by
  obtain ⟨⟨bit, c₁⟩, halloc, h⟩ := Option.bind_eq_some_iff.mp h
  cases h
  exact .of_eq (allocBlock_err halloc)

theorem freeZone_err : (freeZone c sp z).rdwt_err = c.rdwt_err := by
  unfold freeZone freeBit
  split
  · rfl
  · dsimp only
    split <;> rfl

/-! ## New zones -/

theorem writeEntry_err {is_new : Bool} {new_zone : ℕ}
    (h : writeEntry c dev b is_new i new_zone = some c') : ErrKept c c' := by
  obtain ⟨⟨bp, c₁⟩, hget, h⟩ := Option.bind_eq_some_iff.mp h
  cases h
  refine (ErrKept.trans (getBlock_err hget) ?_).put
  split <;> exact .refl

theorem ownIndirect_kept {j : Fin NR_ZONE_NUMS} {new : Bool}
    (h : ownIndirect c sp rip j = some (z, new, rip', c')) : SameFile rip rip' ∧ ErrKept c c' := by
  unfold ownIndirect at h
  split at h
  · cases h
    exact ⟨.refl, .refl⟩
  · obtain ⟨⟨z', c₁⟩, halloc, h⟩ := Option.bind_eq_some_iff.mp h
    cases h
    exact ⟨rfl, allocZone_err halloc⟩

theorem dblIndirect_err {new : Bool} (h : dblIndirect c sp rip bp i = some (z, new, c')) :
    ErrKept c c' := by
  unfold dblIndirect at h
  split at h
  · cases h
    exact .refl
  · obtain ⟨⟨z', c₁⟩, halloc, h⟩ := Option.bind_eq_some_iff.mp h
    cases h
    exact (allocZone_err halloc).trans (.of_eq rfl)

theorem writeSingle_kept {new_ind : Bool} {excess new_zone : ℕ} {w : Written Unit}
    (h : writeSingle c sp rip z new_ind excess new_zone = some w) : Leaves rip c w := by
  unfold writeSingle at h
  split at h
  · cases h
    exact .error .refl (by decide)
  · obtain ⟨c₁, hentry, h⟩ := Option.bind_eq_some_iff.mp h
    cases h
    exact .ok (writeEntry_err hentry)

theorem writeDouble_kept {new_dbl : Bool} {excess new_zone : ℕ} {w : Written Unit}
    (h : writeDouble c sp rip z new_dbl excess new_zone = some w) : Leaves rip c w := by
  unfold writeDouble at h
  split at h
  · cases h
    exact .error .refl (by decide)
  split at h
  · cases h
    exact .error .refl (by decide)
  · obtain ⟨⟨bp, c₁⟩, hget, h⟩ := Option.bind_eq_some_iff.mp h
    obtain ⟨⟨z', new_ind, c₂⟩, hdbl, h⟩ := Option.bind_eq_some_iff.mp h
    have hzero : ErrKept c₁ (if new_dbl then zeroBlock c₁ bp else c₁) := by
      split <;> exact .refl
    have herr := (getBlock_err hget).trans (hzero.trans (dblIndirect_err hdbl))
    exact .trans .refl herr.put (writeSingle_kept h)

theorem writeMap_kept {new_zone : ℕ} {w : Written Unit}
    (h : writeMap c sp rip position new_zone = some w) : Leaves rip c w := by
  unfold writeMap at h
  dsimp only at h
  split at h
  · cases h
    exact ⟨rfl, .refl, nofun⟩
  split at h
  · obtain ⟨⟨z, new_ind, rip₁, c₁⟩, hown, h⟩ := Option.bind_eq_some_iff.mp h
    obtain ⟨hrip, herr⟩ := ownIndirect_kept hown
    exact .trans hrip herr (writeSingle_kept h)
  · obtain ⟨⟨z, new_dbl, rip₁, c₁⟩, hown, h⟩ := Option.bind_eq_some_iff.mp h
    obtain ⟨hrip, herr⟩ := ownIndirect_kept hown
    exact .trans hrip herr (writeDouble_kept h)

/-! ## New blocks -/

theorem clearBlock_err (h : clearBlock c dev b = some c') : ErrKept c c' := by
  obtain ⟨⟨bp, c₁⟩, hget, h⟩ := Option.bind_eq_some_iff.mp h
  cases h
  have herr := getBlock_err hget
  have hzero : ErrKept c (zeroBlock c₁ bp) := herr
  exact hzero.put

theorem clearBlocks_err {blo bhi : ℕ} (h : clearBlocks c dev blo bhi = some c') : ErrKept c c' := by
  unfold clearBlocks at h
  split at h
  · cases h
  · generalize List.range' blo (bhi + 1 - blo) = bs at h
    induction bs generalizing c with
    | nil =>
      cases h
      exact .refl
    | cons b bs ih =>
      obtain ⟨c₁, hclear, h⟩ := Option.bind_eq_some_iff.mp h
      exact (clearBlock_err hclear).trans (ih h)

theorem clearZone_err {flag : Bool} (h : clearZone c sp rip position flag = some c') :
    ErrKept c c' := by
  unfold clearZone at h
  dsimp only at h
  generalize (if flag = true then _ else _ : ℕ) = pos at h
  split at h
  · cases h
    exact .refl
  · obtain ⟨⟨blo, c₁⟩, hread, h⟩ := Option.bind_eq_some_iff.mp h
    dsimp only at h
    split at h
    · cases h
      exact readMap_err hread
    · exact (readMap_err hread).trans (clearBlocks_err h)

theorem enterZone_kept {w : Written ℕ} (h : enterZone c sp rip position z = some w) :
    Leaves rip c w := by
  obtain ⟨v, hmap, h⟩ := Option.bind_eq_some_iff.mp h
  obtain ⟨hrip, herr, hneg⟩ := writeMap_kept hmap
  dsimp only at h
  split at h
  · next r hres =>
    cases h
    refine ⟨hrip, herr.trans (.of_eq freeZone_err), ?_⟩
    intro r' e
    exact hneg r' (hres.trans (congrArg Except.error (Except.error.inj e)))
  · obtain ⟨c₁, hclear, h⟩ := Option.bind_eq_some_iff.mp h
    cases h
    refine ⟨hrip, herr.trans ?_, nofun⟩
    unfold clearNew at hclear
    split at hclear
    · exact clearZone_err hclear
    · cases hclear
      exact .refl

theorem newBlockNr_kept {w : Written ℕ} (h : newBlockNr c sp rip position = some w) :
    Leaves rip c w := by
  obtain ⟨⟨b, c₁⟩, hread, h⟩ := Option.bind_eq_some_iff.mp h
  have hread := readMap_err hread
  dsimp only at h
  split at h
  · cases h
    exact .ok hread
  · obtain ⟨⟨z, c₂⟩, halloc, h⟩ := Option.bind_eq_some_iff.mp h
    have herr := hread.trans (allocZone_err halloc)
    dsimp only at h
    split at h
    · cases h
      exact .error herr (by decide)
    · exact .trans .refl herr (enterZone_kept h)

theorem newBlock_kept {w : Written Buf} (h : newBlock c sp rip position = some w) : Leaves rip c w := by
  obtain ⟨v, hnr, h⟩ := Option.bind_eq_some_iff.mp h
  obtain ⟨hrip, herr, hneg⟩ := newBlockNr_kept hnr
  dsimp only at h
  split at h
  · next r hres =>
    cases h
    exact ⟨hrip, herr, fun r' e => hneg r' (hres.trans (congrArg Except.error (Except.error.inj e)))⟩
  · obtain ⟨⟨bp, c₁⟩, hget, h⟩ := Option.bind_eq_some_iff.mp h
    cases h
    exact ⟨hrip, herr.trans ((getBlock_err hget).trans (.of_eq rfl)), nofun⟩

/-! ## Reading ahead -/

section Ahead

variable {e : Readahead} {a a' : Ahead} {block : ℕ}

theorem enqueue_err (h : enqueue e a block = some a') : ErrKept a.cache a'.cache := by
  unfold enqueue at h
  split at h
  · obtain ⟨⟨bp, c₁⟩, hget, h⟩ := Option.bind_eq_some_iff.mp h
    have herr := getBlock_err hget
    cases h
    split
    · exact herr
    · exact herr.put
  · cases h
    exact .refl

theorem aheadNext_err (h : aheadNext e a = some a') : ErrKept a.cache a'.cache := by
  obtain ⟨⟨block, c₁⟩, hblock, h⟩ := Option.bind_eq_some_iff.mp h
  have herr : ErrKept a.cache c₁ := by
    unfold aheadBlock at hblock
    split at hblock
    · cases hblock
      exact .refl
    · exact readMap_err hblock
  refine herr.trans ?_
  unfold aheadFetch at h
  dsimp only at h
  split at h
  · split at h
    · cases h
      exact .refl
    · have henq := enqueue_err h
      exact henq
  · have henq := enqueue_err h
    exact henq

theorem aheadLoop_err {n : ℕ} (h : aheadLoop e n a = some a') : ErrKept a.cache a'.cache := by
  induction n generalizing a with
  | zero => cases h
  | succ n ih =>
    unfold aheadLoop at h
    split at h
    · cases h
    · cases h
      exact .refl
    next a₁ hturn =>
      refine ErrKept.trans ?_ (ih h)
      unfold aheadTurn at hturn
      split at hturn
      · cases hturn
      split at hturn
      · obtain ⟨a₂, hnext, e⟩ := Option.map_eq_some_iff.mp hturn
        cases e
        have herr := aheadNext_err hnext
        exact herr
      split at hturn
      · cases hturn
      · obtain ⟨a₂, hnext, e⟩ := Option.map_eq_some_iff.mp hturn
        cases e
        have herr := aheadNext_err hnext
        exact herr

theorem rahead_err {baseblock bytes_ahead : ℕ}
    (h : rahead c rip scale baseblock position bytes_ahead = some (bp, c')) : ErrKept c c' := by
  obtain ⟨⟨bp', c₁⟩, hget, h⟩ := Option.bind_eq_some_iff.mp h
  have herr := getBlock_err hget
  dsimp only at h
  split at h
  · cases h
    exact herr
  · obtain ⟨a, hloop, h⟩ := Option.bind_eq_some_iff.mp h
    obtain ⟨c₂, hscatter, h⟩ := Option.bind_eq_some_iff.mp h
    have hahead : ErrKept c₁ a.cache := aheadLoop_err hloop
    exact ((herr.trans hahead).trans (.of_eq (rwScattered_err hscatter))).trans (getBlock_err h)

end Ahead

/-! ## Chunks -/

section Loop

variable {rw_flag : RwFlag} {x x' : Xfer} {off chunk left n f_size : ℕ}

theorem chunkBuf_kept {w : Written Buf}
    (h : chunkBuf c sp rip position off chunk left rw_flag = some w) : Leaves rip c w := by
  obtain ⟨⟨b, c₁⟩, hblock, h⟩ := Option.bind_eq_some_iff.mp h
  have herr : ErrKept c c₁ := by
    unfold chunkBlock at hblock
    split at hblock
    · cases hblock
      exact .refl
    · exact readMap_err hblock
  refine .trans .refl herr ?_
  dsimp only at h
  split at h
  · cases rw_flag with
    | READING =>
      obtain ⟨⟨bp, c₂⟩, hget, h⟩ := Option.bind_eq_some_iff.mp h
      have herr := getBlock_err hget
      cases h
      exact .ok herr
    | WRITING => exact newBlock_kept h
  · cases rw_flag with
    | READING =>
      obtain ⟨⟨bp, c₂⟩, hget, h⟩ := Option.bind_eq_some_iff.mp h
      cases h
      exact .ok (rahead_err hget)
    | WRITING =>
      obtain ⟨⟨bp, c₂⟩, hget, h⟩ := Option.bind_eq_some_iff.mp h
      cases h
      exact .ok (getBlock_err hget)

/-- Copies that are to come succeed, or return an error number. -/
def Signed (copies : List ℤ) : Prop := ∀ e ∈ copies, e ≤ 0

/-- What the loop leaves alone: it transfers bytes, each of which is counted once. -/
structure Accounted (n : ℕ) (x x' : Xfer) : Prop extends Progress n x x' where
  rip : SameFile x.rip x'.rip
  err : ErrKept x.cache x'.cache

theorem Accounted.refl : Accounted 0 x x := ⟨.refl x, .refl, .refl⟩

theorem Accounted.trans {m : ℕ} {x'' : Xfer} (h : Accounted n x x') (h' : Accounted m x' x'') :
    Accounted (n + m) x x'' :=
  ⟨h.toProgress.trans h'.toProgress, h.rip.trans h'.rip, h.err.trans h'.err⟩

/-- A chunk is transferred, or not: nothing is counted yet. -/
theorem rwChunk_accounted (h : rwChunk sp rw_flag x off chunk = some x') :
    Accounted 0 x x' ∧ (Signed x.user.copies → x'.r ≤ 0) := by
  obtain ⟨w, hbuf, h⟩ := Option.bind_eq_some_iff.mp h
  obtain ⟨hrip, herr, hneg⟩ := chunkBuf_kept hbuf
  dsimp only at h
  split at h
  · next r hres =>
    cases h
    exact ⟨⟨⟨rfl, rfl, rfl, List.suffix_refl _⟩, hrip, herr⟩, fun _ => (hneg r hres).le⟩
  · next bp hres =>
    cases h
    have hclear : ErrKept x.cache (clearAtEnd w.cache w.rip bp x.position off chunk rw_flag) := by
      unfold clearAtEnd
      split <;> exact herr
    have hhead : Signed x.user.copies → x.user.copies.headD OK ≤ 0 := by
      intro hcopies
      by_cases hok : x.user.copies.headD OK = OK
      · rw [hok]
        decide
      · exact hcopies _ (headD_mem hok)
    cases rw_flag with
    | READING =>
      exact ⟨⟨⟨rfl, rfl, rfl, List.tail_suffix _⟩, hrip, hclear.put⟩, hhead⟩
    | WRITING =>
      refine ⟨⟨⟨rfl, rfl, rfl, List.tail_suffix _⟩, hrip, ErrKept.put ?_⟩, hhead⟩
      exact hclear

/-- A chunk is no longer than what is left. -/
theorem chunkSize_le : chunkSize rw_flag f_size x ≤ x.nbytes := by
  unfold chunkSize
  dsimp only
  split <;> omega

/-- A turn that goes on counts the bytes of its chunk, and one that does not counts none. -/
theorem rwTurn_accounted {b : Bool} (hr : x.r = OK)
    (h : rwTurn sp rw_flag f_size x = some (b, x')) :
    ∃ n, Accounted n x x' ∧ (Signed x.user.copies → x'.r ≤ 0) ∧ (b = true → x'.r = OK) := by
  unfold rwTurn at h
  split at h
  · cases h
    exact ⟨0, .refl, fun _ => hr.le, nofun⟩
  · obtain ⟨x₁, hchunk, h⟩ := Option.bind_eq_some_iff.mp h
    obtain ⟨hacc, hle⟩ := rwChunk_accounted hchunk
    split at h
    · cases h
      exact ⟨0, hacc, hle, nofun⟩
    next hgo =>
      cases h
      have hbound : chunkSize rw_flag f_size x ≤ x₁.nbytes := by
        have hn := hacc.nbytes
        have := @chunkSize_le rw_flag x f_size
        omega
      have hone : Accounted (chunkSize rw_flag f_size x) x₁ (x₁.advance (chunkSize rw_flag f_size x)) :=
        ⟨⟨rfl, (Nat.sub_add_cancel hbound).symm, rfl, List.suffix_refl _⟩, .refl, .refl⟩
      have hok : x₁.r = OK := not_not.mp (not_or.mp hgo).1
      exact ⟨_, hacc.trans hone, hle, fun _ => hok⟩

theorem rwLoop_accounted {m : ℕ} (hr : x.r = OK) (h : rwLoop sp rw_flag f_size m x = some x') :
    ∃ n, Accounted n x x' ∧ (Signed x.user.copies → x'.r ≤ 0) := by
  induction m generalizing x with
  | zero =>
    cases h
    exact ⟨0, .refl, fun _ => hr.le⟩
  | succ m ih =>
    unfold rwLoop at h
    split at h
    · cases h
      exact ⟨0, .refl, fun _ => hr.le⟩
    split at h
    · cases h
    · next x₁ hturn =>
      cases h
      obtain ⟨n, hacc, hle, _⟩ := rwTurn_accounted hr hturn
      exact ⟨n, hacc, hle⟩
    · next x₁ hturn =>
      obtain ⟨n, hacc, _, hok⟩ := rwTurn_accounted hr hturn
      obtain ⟨n', hacc', hle⟩ := ih (hok rfl) h
      exact ⟨n + n', hacc.trans hacc', fun hcopies => hle fun e he => hcopies e (hacc.copies.mem he)⟩

/-- A result that is no error is the number of bytes that have been counted. -/
theorem rwResult_counts (hr : x.r ≤ 0) (herr : x.cache.rdwt_err ≤ 0) (h : 0 ≤ rwResult x) :
    rwResult x = x.cum_io := by
  unfold rwResult at h ⊢
  dsimp only at h ⊢
  by_cases hend : x.cache.rdwt_err = END_OF_FILE
  · simp only [if_pos hend]
    split <;> rfl
  · simp only [if_neg hend] at h ⊢
    by_cases hquiet : x.cache.rdwt_err = OK
    · rw [if_neg (not_not.mpr hquiet)] at h ⊢
      by_cases hok : x.r = OK
      · rw [if_pos hok]
      · rw [if_neg hok] at h
        exact absurd (le_antisymm hr h) hok
    · rw [if_pos hquiet] at h ⊢
      rw [if_neg hquiet] at h
      exact absurd (le_antisymm herr h) hquiet

end Loop

/-! ## The calls -/

/-- Where a transfer begins. -/
def startAt (o : OpenFile) : RwFlag → ℕ
  | .READING => o.filp.filp_pos
  | .WRITING => writeAt o.rip o.filp

/-- The size of a file when `k` bytes have been transferred. -/
def sizeAfter (o : OpenFile) (rw_flag : RwFlag) (k : ℕ) : ℕ :=
  match rw_flag with
  | .READING => o.rip.i_size
  | .WRITING => max o.rip.i_size (startAt o .WRITING + k)

/-- The bytes of a file when `k` bytes have been transferred. -/
def bytesAfter (o : OpenFile) (rw_flag : RwFlag) (buffer k : ℕ) (f : Bytes) : Bytes :=
  match rw_flag with
  | .READING => f
  | .WRITING => f.write (startAt o .WRITING) (startAt o .WRITING + k) o.user.mem buffer

/-- The memory of the caller when `k` bytes have been transferred. -/
def memAfter (o : OpenFile) (rw_flag : RwFlag) (buffer k : ℕ) (f : Bytes) : ℕ → UInt8 :=
  match rw_flag with
  | .READING => readMem f.byte (startAt o .READING) (startAt o .READING + k) o.user.mem buffer
  | .WRITING => o.user.mem

/-- A file on a mounted device whose drivers serve their requests, and a call that does no harm. -/
structure Sound (sp : SuperBlock) (held : Buf → ℕ) (L : Contents) (f : Bytes) (o : OpenFile)
    (rw_flag : RwFlag) (n : ℤ) (buffer : ℕ) : Prop where
  file : IsFile sp held o.cache L o.rip f
  holds : Holds sp held
  super : sp.Ok
  sized : sp.Sized
  careful : rw_flag = .WRITING → Accepted sp o n → Careful sp o n buffer

/-- A call that is refused, or has nothing to do. -/
def Refused (sp : SuperBlock) (o : OpenFile) (rw_flag : RwFlag) (n : ℤ) : Prop :=
  rwCheck o.filp rw_flag n ≠ none ∨ rw_flag = .WRITING ∧ ¬Accepted sp o n

/-- A call has transferred `k` bytes. -/
structure Moved (o : OpenFile) (rw_flag : RwFlag) (n r : ℤ) (o' : OpenFile) (k : ℕ) : Prop where
  le : k ≤ n.toNat
  filp : o'.filp = { o.filp with filp_pos := startAt o rw_flag + k }
  size : o'.rip.i_size = sizeAfter o rw_flag k
  result : Signed o.user.copies → 0 ≤ r → r = k

section Calls

variable {o o' : OpenFile} {rw_flag : RwFlag} {n r : ℤ} {buffer : ℕ} {held : Buf → ℕ} {L : Contents}
  {f : Bytes}

theorem rwCheck_le (h : rwCheck o.filp rw_flag n = some r) : r ≤ 0 := by
  unfold rwCheck at h
  dsimp only at h
  split_ifs at h <;> cases h <;> decide

theorem not_refused (h : ¬Refused sp o rw_flag n) :
    rwCheck o.filp rw_flag n = none ∧ (rw_flag = .WRITING → Accepted sp o n) := by
  obtain ⟨hcheck, hacc⟩ := not_or.mp h
  exact ⟨not_not.mp hcheck, fun hw => not_not.mp fun hno => hacc ⟨hw, hno⟩⟩

/-- A call that is refused changes nothing. -/
theorem Refused.unchanged (hno : Refused sp o rw_flag n) (hspec : o.rip.blockSpec = false)
    (h : readWrite sp o rw_flag n buffer = some (r, o')) :
    r ≤ 0 ∧ o' = { o with cache := { o.cache with rdwt_err := o'.cache.rdwt_err } } := by
  unfold readWrite at h
  cases hcheck : rwCheck o.filp rw_flag n with
  | some e =>
    rw [hcheck] at h
    cases h
    exact ⟨rwCheck_le hcheck, rfl⟩
  | none =>
    rw [hcheck] at h
    obtain hne | ⟨rfl, hacc⟩ := hno
    · exact absurd hcheck hne
    · have hbig : (o.filp.filp_pos : ℤ) > sp.s_max_size - n.toNat := by
        by_contra hle
        exact hacc ⟨hcheck, not_lt.mp hle⟩
      have hstart : rwStart { o.cache with rdwt_err := OK } sp o.rip o.filp .WRITING n.toNat =
          some (.error EFBIG) := by
        unfold rwStart writeStart
        rw [if_pos ⟨rfl, hspec⟩, if_pos hbig]
      dsimp only at h
      rw [hstart, Option.bind_eq_bind, Option.bind_some] at h
      cases h
      exact ⟨by decide, rfl⟩

/-- A transfer begins where it should, when no error has been reported but a negative one. -/
theorem rwStart_accounted (hspec : o.rip.blockSpec = false) (hno : ¬Refused sp o rw_flag n)
    {res : Except ℤ (ℕ × Cache)} (h : rwStart c sp o.rip o.filp rw_flag n.toNat = some res) :
    ∃ c', res = .ok (startAt o rw_flag, c') ∧ ErrKept c c' := by
  unfold rwStart at h
  cases rw_flag with
  | READING =>
    rw [if_neg fun e => RwFlag.noConfusion e.1] at h
    cases h
    exact ⟨c, rfl, .refl⟩
  | WRITING =>
    rw [if_pos ⟨rfl, hspec⟩] at h
    have hsmall := ((not_refused hno).2 rfl).small
    unfold writeStart at h
    rw [if_neg (not_lt.mpr hsmall)] at h
    change (if writeAt o.rip o.filp > o.rip.i_size then _ else _) = _ at h
    by_cases hhole : writeAt o.rip o.filp > o.rip.i_size
    · rw [if_pos hhole] at h
      obtain ⟨c₁, hclear, h⟩ := Option.bind_eq_some_iff.mp h
      cases h
      exact ⟨c₁, rfl, clearZone_err hclear⟩
    · rw [if_neg hhole] at h
      cases h
      exact ⟨c, rfl, .refl⟩

/-- A call of a regular file that is not refused accounts for what it has transferred. -/
theorem readWrite_moved (hreg : o.rip.regular = true) (hno : ¬Refused sp o rw_flag n)
    (h : readWrite sp o rw_flag n buffer = some (r, o')) : ∃ k, Moved o rw_flag n r o' k := by
  have hspec := Inode.regular_blockSpec hreg
  unfold readWrite at h
  rw [(not_refused hno).1] at h
  obtain ⟨res, hstart, h⟩ := Option.bind_eq_some_iff.mp h
  obtain ⟨c, rfl, hc⟩ := rwStart_accounted hspec hno hstart
  obtain ⟨x, hloop, h⟩ := Option.bind_eq_some_iff.mp h
  cases h
  obtain ⟨k, hacc, hr⟩ := rwLoop_accounted rfl hloop
  have hpos : x.position = startAt o rw_flag + k := hacc.position
  have hio : x.cum_io = 0 + k := hacc.cum_io
  have hnb : n.toNat = x.nbytes + k := hacc.nbytes
  have hsize : x.rip.i_size = o.rip.i_size := hacc.rip.size
  have hreg' : x.rip.regular = true := hacc.rip.regular.trans hreg
  have herr : x.cache.rdwt_err ≤ 0 := by
    obtain h₁ | h₁ := hc.trans hacc.err
    · rw [h₁]
      exact le_refl _
    · exact h₁.le
  refine ⟨k, by omega, by rw [hpos], ?_, ?_⟩
  · unfold rwUpdate
    dsimp only
    rw [fileSize_regular hreg, hsize, hpos]
    cases rw_flag with
    | READING => exact if_neg fun e => RwFlag.noConfusion e.1
    | WRITING =>
      unfold sizeAfter
      by_cases hlt : startAt o .WRITING + k > o.rip.i_size
      · rw [if_pos ⟨rfl, .inl hreg', hlt⟩, max_eq_right hlt.le]
      · rw [if_neg fun e => hlt e.2.2, max_eq_left (not_lt.mp hlt)]
  · intro hcopies hle
    rw [rwResult_counts (hr hcopies) herr hle, hio, Nat.zero_add]

/-- A regular file stays one. -/
theorem readWrite_regular (hreg : o.rip.regular = true) (hno : ¬Refused sp o rw_flag n)
    (h : readWrite sp o rw_flag n buffer = some (r, o')) : o'.rip.regular = true := by
  unfold readWrite at h
  rw [(not_refused hno).1] at h
  obtain ⟨res, hstart, h⟩ := Option.bind_eq_some_iff.mp h
  obtain ⟨c, rfl, _⟩ := rwStart_accounted (Inode.regular_blockSpec hreg) hno hstart
  obtain ⟨x, hloop, h⟩ := Option.bind_eq_some_iff.mp h
  cases h
  obtain ⟨k, hacc, _⟩ := rwLoop_accounted rfl hloop
  exact hacc.rip.regular.trans hreg

/-- What is transferred is what is counted. -/
theorem Sound.bytes {k : ℕ} (hs : Sound sp held L f o rw_flag n buffer)
    (hreg : o.rip.regular = true) (hno : ¬Refused sp o rw_flag n)
    (h : readWrite sp o rw_flag n buffer = some (r, o')) (hk : Moved o rw_flag n r o' k) :
    (∃ L', IsFile sp held o'.cache L' o'.rip (bytesAfter o rw_flag buffer k f)) ∧
      o'.user.mem = memAfter o rw_flag buffer k f := by
  obtain ⟨hcheck, hacc⟩ := not_refused hno
  -- The position tells how much has been transferred.
  have hpos : ∀ m, o'.filp = { o.filp with filp_pos := startAt o rw_flag + m } → m = k := by
    intro m hm
    have hfilp := congrArg Filp.filp_pos (hm.symm.trans hk.filp)
    dsimp only at hfilp
    omega
  cases rw_flag with
  | READING =>
    obtain ⟨r', o₁, m, he, hdone⟩ := hs.file.read hs.holds hs.super hreg hcheck buffer
    cases he.symm.trans h
    obtain rfl := hpos m hdone.filp
    exact ⟨⟨L, hdone.file⟩, hdone.mem⟩
  | WRITING =>
    have hacc := hacc rfl
    have hcare := hs.careful rfl hacc
    obtain ⟨r', o₁, m, L', he, hdone⟩ := hs.file.write hs.holds hs.super hs.sized hreg hacc
      hcare.room hcare.harmless
    cases he.symm.trans h
    obtain rfl := hpos m hdone.filp
    exact ⟨⟨L', hdone.file⟩, hdone.mem⟩

/-- What `read_write` accounts for. -/
structure Accounts (sp : SuperBlock) (o : OpenFile) (rw_flag : RwFlag) (n : ℤ) (buffer : ℕ) :
    Prop where
  returns : ∀ held L f, Sound sp held L f o rw_flag n buffer →
    ∃ r o', readWrite sp o rw_flag n buffer = some (r, o')
  refused : ∀ r o', readWrite sp o rw_flag n buffer = some (r, o') → Refused sp o rw_flag n →
    r ≤ 0 ∧ o' = { o with cache := { o.cache with rdwt_err := o'.cache.rdwt_err } }
  moved : ∀ r o', readWrite sp o rw_flag n buffer = some (r, o') → ¬Refused sp o rw_flag n →
    ∃ k, Moved o rw_flag n r o' k ∧ ∀ held L f, Sound sp held L f o rw_flag n buffer →
      (∃ L', IsFile sp held o'.cache L' o'.rip (bytesAfter o rw_flag buffer k f)) ∧
        o'.user.mem = memAfter o rw_flag buffer k f

/-- A read or a write of a regular file accounts for what it has transferred, wherever it fails. -/
theorem read_write_accounts (hreg : o.rip.regular = true) :
    Accounts sp o rw_flag n buffer where
  returns held L f hs := by
    obtain ⟨r, o', L', he, _⟩ := hs.file.call hs.holds hs.super hs.sized hreg rw_flag n buffer
      hs.careful
    exact ⟨r, o', he⟩
  refused r o' h hno := hno.unchanged (Inode.regular_blockSpec hreg) h
  moved r o' h hno := by
    obtain ⟨k, hk⟩ := readWrite_moved hreg hno h
    exact ⟨k, hk, fun held L f hs => hs.bytes hreg hno h hk⟩

end Calls

/-- The small file, and a process of which the first copy succeeds and the second one fails. -/
def failingSecond (c : Cache) : OpenFile :=
  { (smallFile c).openFile 0 0 with user := ⟨fun _ => 7, [OK, -14]⟩ }

theorem failingSecond_regular (c : Cache) : (failingSecond c).rip.regular = true := by
  show decide (I_REGULAR &&& I_TYPE = I_REGULAR ∨ I_REGULAR &&& I_TYPE = I_NAMED_PIPE) = true
  decide

theorem failingSecond_copies (c : Cache) : Signed (failingSecond c).user.copies := by
  show ∀ e ∈ [OK, -14], e ≤ 0
  decide

/-- The first block is written. The call fails, and accounts for the block. -/
theorem read_write_second : ∃ c o', readWrite smallSuper (failingSecond c) .WRITING 1100 0 =
      some (-14, o') ∧ o'.filp.filp_pos = 1024 ∧ o'.rip.i_size = 1024 ∧
    Accounts smallSuper (failingSecond c) .WRITING 1100 0 := by
  have hrun : ((getBlock smallCache 1 3 .NORMAL).bind fun p =>
      (readWrite smallSuper (failingSecond p.2) .WRITING 1100 0).bind fun w =>
      some (w.1, w.2.filp.filp_pos, w.2.rip.i_size)) = some (-14, 1024, 1024) := by
    decide +kernel
  simp only [Option.bind_eq_some_iff, Option.some.injEq, Prod.mk.injEq] at hrun
  obtain ⟨⟨_, c⟩, hc, ⟨_, o'⟩, he, rfl, hpos, hsize⟩ := hrun
  exact ⟨c, o', he, hpos, hsize, read_write_accounts (failingSecond_regular c)⟩

/-- A negative result does not mean that the position and the size are what they were. -/
theorem read_write_keeps_position :
    ¬∀ sp o rw_flag n buffer r o', o.rip.regular = true → Signed o.user.copies →
      readWrite sp o rw_flag n buffer = some (r, o') →
      (0 ≤ r → (o'.filp.filp_pos : ℤ) = o.filp.filp_pos + r) ∧
        (r < 0 → o'.filp.filp_pos = o.filp.filp_pos ∧ o'.rip.i_size = o.rip.i_size) := by
  intro h
  have hrun : ((getBlock smallCache 1 3 .NORMAL).bind fun p =>
      (readWrite smallSuper (failingSecond p.2) .WRITING 1100 0).bind fun w =>
      some (w.1, w.2.filp.filp_pos)) = some (-14, 1024) := by
    decide +kernel
  simp only [Option.bind_eq_some_iff, Option.some.injEq, Prod.mk.injEq] at hrun
  obtain ⟨⟨_, c⟩, hc, ⟨_, o'⟩, he, rfl, hpos⟩ := hrun
  have hsame := ((h smallSuper (failingSecond c) .WRITING 1100 0 (-14) o' (failingSecond_regular c)
    (failingSecond_copies c) he).2 (by decide)).1
  rw [hpos] at hsame
  exact absurd hsame (show (1024 : ℕ) ≠ 1000 * (0 % 4) by decide)

end Minix.Fs
