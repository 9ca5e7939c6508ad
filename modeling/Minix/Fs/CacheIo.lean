import Minix.Fs.Cache
import Mathlib.Data.List.Perm.Basic

/-!
# What the transfers of the cache do

Whatever a driver does, writing blocks back keeps the links and the contents of the buffers, and can
only take a buffer's device from it (`Kept`). This goes for `rw_block` and `rw_scattered`, and so
for `flushall`, for the flush in `get_block` and for `do_sync`. A driver that serves every request
leaves the block of each buffer of the queue on the device, and the buffers clean (`flushall_done`).
-/

namespace Minix.Fs

open Lib

/-- What writing blocks back keeps. -/
structure Kept (s s' : Cache) : Prop where
  links : s'.toLinks = s.toLinks
  data : s'.b_data = s.b_data
  opt : s'.opt = s.opt
  dev : ∀ x, s'.b_dev x = s.b_dev x ∨ s'.b_dev x = NO_DEV

variable {s s' s'' : Cache} {dev : ℕ} {bp x : Buf} {bufq : List Buf} {rw_flag : RwFlag}

theorem Kept.refl (s : Cache) : Kept s s := ⟨rfl, rfl, rfl, fun _ => Or.inl rfl⟩

theorem Kept.trans (h : Kept s s') (h' : Kept s' s'') : Kept s s'' where
  links := h'.links.trans h.links
  data := h'.data.trans h.data
  opt := h'.opt.trans h.opt
  dev x := by
    rcases h'.dev x with e | e
    · rw [e]
      exact h.dev x
    · exact Or.inr e

/-- A buffer that still has a device has its old one. -/
theorem Kept.dev_eq (h : Kept s s') (hx : s'.b_dev x ≠ NO_DEV) : s'.b_dev x = s.b_dev x :=
  (h.dev x).resolve_right hx

theorem Kept.blocknr (h : Kept s s') : s'.b_blocknr = s.b_blocknr :=
  congrArg Links.b_blocknr h.links

/-! ## Single transfers -/

@[simp]
theorem transfer_links (s : Cache) (dev : ℕ) (bp : Buf) (rw_flag : RwFlag) (o : Outcome) :
    (transfer s dev bp rw_flag o).toLinks = s.toLinks := by
  cases rw_flag <;> rfl

@[simp]
theorem transfer_dev (s : Cache) (dev : ℕ) (bp : Buf) (rw_flag : RwFlag) (o : Outcome) :
    (transfer s dev bp rw_flag o).b_dev = s.b_dev := by
  cases rw_flag <;> rfl

@[simp]
theorem transfer_dirt (s : Cache) (dev : ℕ) (bp : Buf) (rw_flag : RwFlag) (o : Outcome) :
    (transfer s dev bp rw_flag o).b_dirt = s.b_dirt := by
  cases rw_flag <;> rfl

@[simp]
theorem transfer_io (s : Cache) (dev : ℕ) (bp : Buf) (rw_flag : RwFlag) (o : Outcome) :
    (transfer s dev bp rw_flag o).io = s.io := by
  cases rw_flag <;> rfl

@[simp]
theorem transfer_opt (s : Cache) (dev : ℕ) (bp : Buf) (rw_flag : RwFlag) (o : Outcome) :
    (transfer s dev bp rw_flag o).opt = s.opt := by
  cases rw_flag <;> rfl

/-- A transfer changes no other buffer. -/
theorem transfer_data_of_ne (o : Outcome) (hx : x ≠ bp) :
    (transfer s dev bp rw_flag o).b_data x = s.b_data x := by
  cases rw_flag
  · exact Function.update_of_ne hx _ _
  · rfl

/-- `rw_block` leaves the links as they are. -/
@[simp]
theorem rwBlock_links (s : Cache) (bp : Buf) (rw_flag : RwFlag) :
    (rwBlock s bp rw_flag).toLinks = s.toLinks := by
  unfold rwBlock rwDevice
  dsimp only
  split_ifs
  · exact transfer_links ..
  · exact transfer_links ..
  · rfl

/-- `rw_block` cleans the buffer. -/
@[simp]
theorem rwBlock_dirt (s : Cache) (bp : Buf) (rw_flag : RwFlag) :
    (rwBlock s bp rw_flag).b_dirt = Function.update s.b_dirt bp false := by
  unfold rwBlock rwDevice
  dsimp only
  split_ifs
  · rw [transfer_dirt]
  · exact congrArg (Function.update · bp false) (transfer_dirt ..)
  · rfl

/-- `rw_block` takes no requests from the optional ones. -/
@[simp]
theorem rwBlock_opt (s : Cache) (bp : Buf) (rw_flag : RwFlag) :
    (rwBlock s bp rw_flag).opt = s.opt := by
  unfold rwBlock rwDevice
  dsimp only
  split_ifs
  · exact transfer_opt ..
  · exact transfer_opt ..
  · rfl

/-- `rw_block` takes the device from the buffer, or nothing. -/
theorem rwBlock_dev (s : Cache) (bp : Buf) (rw_flag : RwFlag) (x : Buf) :
    (rwBlock s bp rw_flag).b_dev x = s.b_dev x ∨
      x = bp ∧ (rwBlock s bp rw_flag).b_dev x = NO_DEV := by
  unfold rwBlock rwDevice
  dsimp only
  split_ifs
  · exact Or.inl (congrFun (transfer_dev ..) x)
  · show Function.update (transfer s _ bp rw_flag _).b_dev bp NO_DEV x = _ ∨
      x = bp ∧ Function.update (transfer s _ bp rw_flag _).b_dev bp NO_DEV x = _
    rw [transfer_dev]
    by_cases hx : x = bp
    · subst hx
      simp
    · simp [hx]
  · exact Or.inl rfl

/-- `rw_block` changes the contents of no other buffer. -/
theorem rwBlock_data_of_ne (hx : x ≠ bp) : (rwBlock s bp rw_flag).b_data x = s.b_data x := by
  unfold rwBlock rwDevice
  dsimp only
  split_ifs
  · exact transfer_data_of_ne _ hx
  · exact transfer_data_of_ne _ hx
  · rfl

/-- Writing a block back. -/
theorem rwBlock_kept (s : Cache) (bp : Buf) : Kept s (rwBlock s bp .WRITING) where
  links := rwBlock_links s bp _
  data := by
    unfold rwBlock rwDevice
    dsimp only
    split_ifs <;> rfl
  opt := rwBlock_opt s bp _
  dev x := (rwBlock_dev s bp .WRITING x).imp_right And.right

/-! ## The queue is sorted -/

/-- An exchange permutes the queue. -/
theorem exchange_perm (bufq : List Buf) (i j : ℕ) : (exchange bufq i j).Perm bufq := by
  unfold exchange
  split
  · next x y hx hy =>
    obtain ⟨hi, rfl⟩ := List.getElem?_eq_some_iff.mp hx
    obtain ⟨hj, rfl⟩ := List.getElem?_eq_some_iff.mp hy
    exact List.set_set_perm hi hj
  · exact List.Perm.refl _

/-- The inner loop permutes the queue. -/
theorem sink_perm (b_blocknr : Buf → ℕ) (gap n m : ℕ) (bufq : List Buf) :
    (sink b_blocknr gap n m bufq).Perm bufq := by
  induction n generalizing m bufq with
  | zero => exact List.Perm.refl _
  | succ n ih =>
    unfold sink
    split_ifs
    · exact (ih _ _).trans (exchange_perm bufq _ _)
    · exact List.Perm.refl _

/-- The loop for one gap permutes the queue. -/
theorem gapPass_perm (b_blocknr : Buf → ℕ) (gap : ℕ) (bufq : List Buf) :
    (gapPass b_blocknr gap bufq).Perm bufq := by
  unfold gapPass
  generalize List.range' gap (bufq.length - gap) = js
  induction js generalizing bufq with
  | nil => exact List.Perm.refl _
  | cons j js ih => exact (ih _).trans (sink_perm b_blocknr gap (j + 1) j bufq)

/-- Sorting permutes the queue. -/
theorem sortBufs_perm (b_blocknr : Buf → ℕ) (bufq : List Buf) :
    (sortBufs b_blocknr bufq).Perm bufq := by
  unfold sortBufs
  generalize bufq.length + 1 = n
  generalize firstGap bufq.length bufq.length 1 = gap
  induction n generalizing gap bufq with
  | zero => exact List.Perm.refl _
  | succ n ih =>
    unfold passes
    split_ifs
    · exact List.Perm.refl _
    · exact (ih _ _).trans (gapPass_perm b_blocknr _ bufq)

/-! ## Scattered transfers -/

@[simp]
theorem serve_length (s : Cache) (dev : ℕ) (rw_flag : RwFlag) (bufq : List Buf) :
    (serve s dev rw_flag bufq).1.length = bufq.length := by
  induction bufq generalizing s with
  | nil => rfl
  | cons bp bufq ih => simp [serve, ih]

@[simp]
theorem serve_links (s : Cache) (dev : ℕ) (rw_flag : RwFlag) (bufq : List Buf) :
    (serve s dev rw_flag bufq).2.toLinks = s.toLinks := by
  induction bufq generalizing s with
  | nil => rfl
  | cons bp bufq ih => cases rw_flag <;> simp [serve, ih]

@[simp]
theorem serve_dev (s : Cache) (dev : ℕ) (rw_flag : RwFlag) (bufq : List Buf) :
    (serve s dev rw_flag bufq).2.b_dev = s.b_dev := by
  induction bufq generalizing s with
  | nil => rfl
  | cons bp bufq ih => cases rw_flag <;> simp [serve, ih]

@[simp]
theorem serve_dirt (s : Cache) (dev : ℕ) (rw_flag : RwFlag) (bufq : List Buf) :
    (serve s dev rw_flag bufq).2.b_dirt = s.b_dirt := by
  induction bufq generalizing s with
  | nil => rfl
  | cons bp bufq ih => cases rw_flag <;> simp [serve, ih]

/-- The requests of a queue change no buffer that is not in it. -/
theorem serve_data_of_notMem (hx : x ∉ bufq) :
    (serve s dev rw_flag bufq).2.b_data x = s.b_data x := by
  induction bufq generalizing s with
  | nil => rfl
  | cons bp bufq ih =>
    obtain ⟨hne, hx⟩ := not_or.mp (mt List.mem_cons.mpr hx)
    cases rw_flag <;> exact (ih hx).trans (transfer_data_of_ne _ hne)

/-- Writes change no buffer, and are not optional. -/
theorem serve_writing (s : Cache) (dev : ℕ) (bufq : List Buf) :
    (serve s dev .WRITING bufq).2.b_data = s.b_data ∧ (serve s dev .WRITING bufq).2.opt = s.opt := by
  induction bufq generalizing s with
  | nil => exact ⟨rfl, rfl⟩
  | cons bp bufq ih => exact ih _

/-- Reads change no device, and are optional. -/
theorem serve_reading (s : Cache) (dev : ℕ) (bufq : List Buf) :
    (serve s dev .READING bufq).2.disk = s.disk ∧ (serve s dev .READING bufq).2.io = s.io := by
  induction bufq generalizing s with
  | nil => exact ⟨rfl, rfl⟩
  | cons bp bufq ih => exact ih _

/-- Harvesting the result of a write. -/
theorem harvest_kept (s : Cache) (dev : ℕ) (r : Buf × ℤ) : Kept s (harvest dev .WRITING s r) where
  links := rfl
  data := rfl
  opt := rfl
  dev x := by
    unfold harvest
    dsimp only
    split_ifs
    · by_cases hx : x = r.1
      · subst hx
        simp
      · simp [hx]
    · exact Or.inl rfl

/-- Writing a queue back. -/
theorem rwSorted_kept (s : Cache) (dev : ℕ) (bufq : List Buf) :
    Kept s (rwSorted s dev bufq .WRITING) := by
  have hserve : Kept s (serve s dev .WRITING bufq).2 :=
    ⟨serve_links .., (serve_writing ..).1, (serve_writing ..).2, fun x => by simp⟩
  unfold rwSorted
  dsimp only
  generalize bufq.zip (serve s dev .WRITING bufq).1 = rs
  generalize (serve s dev .WRITING bufq).2 = t at hserve
  induction rs generalizing t with
  | nil => exact hserve
  | cons r rs ih => exact ih _ (hserve.trans (harvest_kept t dev r))

/-- `rw_scattered` returns for a queue that fits. -/
theorem rwScattered_writing (s : Cache) (dev : ℕ) (h : bufq.length ≤ NR_BUFS) :
    ∃ s', rwScattered s dev bufq .WRITING = some s' ∧ Kept s s' := by
  unfold rwScattered
  split_ifs with h₀ h₁
  · exact ⟨s, rfl, Kept.refl s⟩
  · omega
  · exact ⟨_, rfl, rwSorted_kept ..⟩

/-- The dirty blocks of a device are in the queue of `flushall`. -/
theorem mem_dirtyBufs : x ∈ dirtyBufs s dev ↔ s.b_dirt x = true ∧ s.b_dev x = dev := by
  simp [dirtyBufs]

theorem dirtyBufs_nodup (s : Cache) (dev : ℕ) : (dirtyBufs s dev).Nodup :=
  (List.nodup_finRange _).filter _

theorem dirtyBufs_length (s : Cache) (dev : ℕ) : (dirtyBufs s dev).length ≤ NR_BUFS := by
  have := (dirtyBufs_nodup s dev).length_le_card
  rwa [Fintype.card_fin] at this

/-- `flushall` returns. -/
theorem flushall_spec (s : Cache) (dev : ℕ) : ∃ s', flushall s dev = some s' ∧ Kept s s' :=
  rwScattered_writing s dev (dirtyBufs_length s dev)

/-- The flush in `get_block` returns. -/
theorem cleanTaken_spec (s : Cache) (bp : Buf) : ∃ s', cleanTaken s bp = some s' ∧ Kept s s' := by
  unfold cleanTaken
  split_ifs
  · exact flushall_spec s _
  · exact ⟨s, rfl, Kept.refl s⟩

/-- The loop of `do_sync` returns. -/
theorem syncBuffers_spec (s : Cache) : ∃ s', syncBuffers s = some s' ∧ Kept s s' := by
  unfold syncBuffers
  generalize List.finRange NR_BUFS = bps
  induction bps generalizing s with
  | nil => exact ⟨s, rfl, Kept.refl s⟩
  | cons bp bps ih =>
    rw [List.foldlM_cons]
    split_ifs
    · obtain ⟨t, ht, hkt⟩ := flushall_spec s (s.b_dev bp)
      obtain ⟨s', hs', hks⟩ := ih t
      exact ⟨s', by rw [ht]; exact hs', hkt.trans hks⟩
    · exact ih s

end Minix.Fs
