import Minix.Fs.CacheRun
import Minix.Kernel.Vrdwt

/-!
# Scattered i/o through the driver

`rw_scattered` of `fs/cache.c` over `do_vrdwt`. What the function of the driver does with a request
is given by the buffer: `Rdwt` is any result that it may return, with what it leaves in the
destination. A read is optional, and so the first one that fails ends the vector; a write ends it
only at the end of the device. `scattered_reading` says what is read and put, and
`scattered_writing` that for each block that is tried the outcome is that of `rw_block`. By
`rwScattered_of_driver` this is scattered i/o as the cache has it, for some outcomes.
-/

namespace Minix.Fs

open Kernel (DISK_READ DISK_WRITE OPTIONAL_IO IoRequest RdwtMess handleRequests doVrdwt)
open Lib

/-- What becomes of a request: its result, and what the destination holds if not all of it is
done. -/
structure Rdwt where
  result : ℤ
  left : Block
  lower : -32768 ≤ result
  upper : result ≤ BLOCK_SIZE

/-- The outcome for `dev_io`. -/
def Rdwt.outcome (o : Rdwt) : Outcome :=
  if o.result = BLOCK_SIZE then none else some (o.result, o.left)

/-- The cache and the devices, and the buffers whose requests have been handled. -/
structure Driven where
  cache : Cache
  issued : List Buf

/-- The function of the driver for one request. -/
def doRdwt (f : Buf → Rdwt) (m : RdwtMess Buf) (d : Driven) : ℤ × Driven :=
  let s := d.cache
  let bp := m.ADDRESS
  let block := (m.POSITION / BLOCK_SIZE).toNat
  let disk := s.disk m.DEVICE.toNat
  let s :=
    if m.m_type = DISK_READ then
      { s with b_data := Function.update s.b_data bp ((f bp).outcome.dest (disk block)) }
    else
      { s with
        disk := Function.update s.disk m.DEVICE.toNat
          (Function.update disk block ((f bp).outcome.dest (s.b_data bp))) }
  ((f bp).result, ⟨s, d.issued ++ [bp]⟩)

/-- The element of the i/o vector for a buffer. -/
def ioRequest (s : Cache) (rw_flag : RwFlag) (bp : Buf) : IoRequest Buf where
  io_position := s.b_blocknr bp * BLOCK_SIZE
  io_buf := bp
  io_nbytes := BLOCK_SIZE
  io_request := match rw_flag with
    | .WRITING => 4
    | .READING => 3 ||| OPTIONAL_IO

/-- The number of the file system as a process. -/
def FS_PROC_NR : ℤ := 1

/-- `rw_scattered`, with the driver below it. -/
def rwScatteredIo (f : Buf → Rdwt) (s : Cache) (dev : ℕ) (bufq : List Buf) (rw_flag : RwFlag) :
    Option Driven :=
  if bufq.length = 0 then some ⟨s, []⟩
  else if bufq.length > NR_BUFS then none
  else
    let bufq := sortBufs s.b_blocknr bufq
    (doVrdwt (doRdwt f) dev FS_PROC_NR (bufq.map (ioRequest s rw_flag)) ⟨s, []⟩).map fun r =>
      ⟨(bufq.zip (r.1.map IoRequest.io_nbytes)).foldl (harvest dev rw_flag) r.2.cache, r.2.issued⟩

/-! ## The requests that are handled -/

/-- The results after which no other request is handled. -/
def Rdwt.Stops (o : Rdwt) (rw_flag : RwFlag) : Prop :=
  o.result = 0 ∨ o.result < 0 ∧ rw_flag = .READING

instance (o : Rdwt) (rw_flag : RwFlag) : Decidable (o.Stops rw_flag) :=
  inferInstanceAs (Decidable (_ ∨ _ ∧ _))

/-- The buffers whose requests are handled: all up to the first after which no other one is. -/
def tried (f : Buf → Rdwt) (rw_flag : RwFlag) : List Buf → List Buf
  | [] => []
  | bp :: bufq => if (f bp).Stops rw_flag then [bp] else bp :: tried f rw_flag bufq

variable {f : Buf → Rdwt} {s t : Cache} {d : Driven} {dev : ℕ} {bp x : Buf} {bufq : List Buf}
  {rw_flag : RwFlag}

theorem tried_start : tried f rw_flag bufq <+: bufq := by
  induction bufq with
  | nil => exact List.prefix_rfl
  | cons bp bufq ih =>
    rw [tried]
    split_ifs
    · exact List.prefix_append [bp] bufq
    · exact (List.prefix_cons_inj bp).mpr ih

/-- A request that is not handled is behind one after which no other is. -/
theorem exists_stops (hx : x ∈ bufq) (h : x ∉ tried f rw_flag bufq) :
    ∃ y ∈ tried f rw_flag bufq, (f y).Stops rw_flag := by
  induction bufq with
  | nil => cases hx
  | cons bp bufq ih =>
    rw [tried] at h ⊢
    by_cases hstop : (f bp).Stops rw_flag
    · rw [if_pos hstop]
      exact ⟨bp, List.mem_cons_self .., hstop⟩
    · rw [if_neg hstop] at h ⊢
      obtain ⟨hne, h⟩ := not_or.mp (mt List.mem_cons.mpr h)
      obtain ⟨y, hy, hs⟩ := ih ((List.mem_cons.mp hx).resolve_left hne) h
      exact ⟨y, List.mem_cons_of_mem _ hy, hs⟩

/-- The driver moves the block of the buffer. -/
theorem doRdwt_eq (f : Buf → Rdwt) (d : Driven) (dev : ℕ) (rw_flag : RwFlag)
    (hb : s.b_blocknr bp = d.cache.b_blocknr bp) :
    doRdwt f ((ioRequest s rw_flag bp).mess dev FS_PROC_NR) d =
      ((f bp).result, ⟨transfer d.cache dev bp rw_flag (f bp).outcome, d.issued ++ [bp]⟩) := by
  have hblock : ((s.b_blocknr bp * BLOCK_SIZE : ℤ) / BLOCK_SIZE).toNat = d.cache.b_blocknr bp := by
    rw [Int.mul_ediv_cancel _ (by decide), hb, Int.toNat_natCast]
  cases rw_flag
  · have htype : ((3 ||| OPTIONAL_IO) &&& ~~~ OPTIONAL_IO).toInt = DISK_READ := by decide
    simp only [doRdwt, IoRequest.mess, ioRequest, htype, if_true, hblock, transfer,
      Int.toNat_natCast]
  · have htype : ((4 : BitVec 16) &&& ~~~ OPTIONAL_IO).toInt ≠ DISK_READ := by decide
    simp only [doRdwt, IoRequest.mess, ioRequest, if_neg htype, hblock, transfer,
      Int.toNat_natCast]

/-- What is left in the vector for a request that is handled. -/
def Rdwt.status (o : Rdwt) : ℤ :=
  if o.result = 0 then BLOCK_SIZE
  else if o.result < 0 then uint16 o.result else uint16 (BLOCK_SIZE - o.result)

/-- Nothing is left to be done exactly where the whole block has been transferred. -/
theorem Rdwt.status_eq_zero (o : Rdwt) : o.status = 0 ↔ o.result = BLOCK_SIZE := by
  have hlo := o.lower
  have hup := o.upper
  have hsize : (BLOCK_SIZE : ℤ) = 1024 := rfl
  simp only [Rdwt.status, uint16]
  split_ifs <;> omega

/-- What is left in the vector: the requests that are not handled are as they were. -/
def statuses (f : Buf → Rdwt) (rw_flag : RwFlag) : List Buf → List ℤ
  | [] => []
  | bp :: bufq =>
    (f bp).status ::
      if (f bp).Stops rw_flag then bufq.map fun _ => (BLOCK_SIZE : ℤ) else statuses f rw_flag bufq

/-- What the driver does with the vector: the requests that are tried are done in order. -/
theorem handleRequests_eq (hb : d.cache.b_blocknr = s.b_blocknr) :
    let r := handleRequests (doRdwt f) dev FS_PROC_NR (bufq.map (ioRequest s rw_flag)) d
    r.1.map IoRequest.io_nbytes = statuses f rw_flag bufq ∧
      r.2 = ⟨(tried f rw_flag bufq).foldl
        (fun t bp => transfer t dev bp rw_flag (f bp).outcome) d.cache,
        d.issued ++ tried f rw_flag bufq⟩ := by
  induction bufq generalizing d with
  | nil => exact ⟨rfl, by simp [handleRequests, tried]⟩
  | cons bp bufq ih =>
    have hrest : (bufq.map (ioRequest s rw_flag)).map IoRequest.io_nbytes =
        bufq.map fun _ => (BLOCK_SIZE : ℤ) := by
      rw [List.map_map]
      rfl
    have hoptional : (ioRequest s rw_flag bp).io_request &&& OPTIONAL_IO ≠ 0 ↔
        rw_flag = .READING := by
      cases rw_flag <;> simp only [ioRequest] <;> decide
    obtain ⟨hs, ht⟩ := @ih ⟨transfer d.cache dev bp rw_flag (f bp).outcome, d.issued ++ [bp]⟩
      ((congrArg Links.b_blocknr (transfer_links ..)).trans hb)
    simp only [List.map_cons, handleRequests, doRdwt_eq f d dev rw_flag (congrFun hb.symm bp),
      statuses, tried, Rdwt.Stops, Rdwt.status, hoptional]
    by_cases h0 : (f bp).result = 0
    · simp only [h0, if_true, true_or, List.map_cons, hrest, List.foldl_cons, List.foldl_nil]
      exact ⟨rfl, trivial⟩
    by_cases hneg : (f bp).result < 0
    · by_cases hr : rw_flag = .READING
      · simp only [h0, hneg, hr, if_true, if_false, and_self, or_true, List.map_cons,
          List.foldl_cons, List.foldl_nil]
        exact ⟨by rw [← hr, hrest], trivial⟩
      · simp only [h0, hneg, hr, if_true, if_false, and_false, or_false, List.map_cons, hs, ht,
          List.foldl_cons, List.append_assoc, List.singleton_append]
        exact ⟨trivial, trivial⟩
    · simp only [h0, hneg, if_false, false_and, or_false, List.map_cons, hs, ht,
        List.foldl_cons, List.append_assoc, List.singleton_append]
      exact ⟨rfl, trivial⟩

/-- What is left in the vector for the request of a buffer. -/
def statusOf (f : Buf → Rdwt) (rw_flag : RwFlag) (bufq : List Buf) (x : Buf) : ℤ :=
  if x ∈ tried f rw_flag bufq then (f x).status else BLOCK_SIZE

theorem statusOf_eq_zero :
    statusOf f rw_flag bufq x = 0 ↔ x ∈ tried f rw_flag bufq ∧ (f x).result = BLOCK_SIZE := by
  rw [statusOf]
  split_ifs with h
  · rw [Rdwt.status_eq_zero]
    exact (and_iff_right h).symm
  · exact iff_of_false (by decide) fun hx => h hx.1

/-- No result is that of another buffer. -/
theorem statuses_eq (hnd : bufq.Nodup) :
    statuses f rw_flag bufq = bufq.map (statusOf f rw_flag bufq) := by
  induction bufq with
  | nil => rfl
  | cons bp bufq ih =>
    obtain ⟨hbp, hnd⟩ := List.nodup_cons.mp hnd
    rw [statuses, List.map_cons]
    congr 1
    · have hfirst : bp ∈ tried f rw_flag (bp :: bufq) := by
        rw [tried]
        split_ifs <;> exact List.mem_cons_self ..
      rw [statusOf, if_pos hfirst]
    · by_cases hstop : (f bp).Stops rw_flag
      · rw [if_pos hstop]
        apply List.map_congr_left
        intro x hx
        have hne : x ≠ bp := fun e => hbp (e ▸ hx)
        rw [statusOf, tried, if_pos hstop, if_neg fun h => hne (List.mem_singleton.mp h)]
      · rw [if_neg hstop, ih hnd]
        apply List.map_congr_left
        intro x hx
        have hne : x ≠ bp := fun e => hbp (e ▸ hx)
        simp only [statusOf, tried, if_neg hstop, List.mem_cons, hne, false_or]

/-- A queue with what its buffers are taken to. -/
theorem zip_map_self (l : List Buf) (g : Buf → ℤ) : l.zip (l.map g) = l.map fun x => (x, g x) := by
  have hmap := @List.zip_map' _ _ _ id g l
  rwa [List.map_id] at hmap

/-! ## The results are harvested -/

variable {status : Buf → ℤ} {c : Cache}

/-- Each buffer of a queue that is read is put once, and validated if its block was read. -/
theorem harvest_reading_all (c : Cache) (dev : ℕ) (status : Buf → ℤ) (bufq : List Buf) :
    (bufq.map fun x => (x, status x)).foldl (harvest dev .READING) c = { c with
      toLinks := bufq.foldl (fun k x => putLinks k x PARTIAL_DATA_BLOCK) c.toLinks
      b_dev := fun x => if x ∈ bufq ∧ status x = 0 then dev else c.b_dev x } := by
  induction bufq generalizing c with
  | nil => simp
  | cons bp bufq ih =>
    rw [List.map_cons, List.foldl_cons, ih, harvest_reading, List.foldl_cons]
    dsimp only
    congr 1
    funext x
    by_cases hx : x = bp
    · subst hx
      by_cases h0 : status x = 0
      · simp [h0]
      · simp [h0]
    · have hupdate : (if status bp = 0 then Function.update c.b_dev bp dev else c.b_dev) x =
          c.b_dev x := by
        split_ifs
        · exact Function.update_of_ne hx ..
        · rfl
      simp only [hupdate, List.mem_cons, hx, false_or]

/-- Each buffer of a queue that is written is clean, and invalid if its block was not written. -/
theorem harvest_writing_all (c : Cache) (dev : ℕ) (status : Buf → ℤ) (bufq : List Buf) :
    (bufq.map fun x => (x, status x)).foldl (harvest dev .WRITING) c = { c with
      b_dev := fun x => if x ∈ bufq ∧ status x ≠ 0 then NO_DEV else c.b_dev x
      b_dirt := fun x => if x ∈ bufq then false else c.b_dirt x } := by
  induction bufq generalizing c with
  | nil => simp
  | cons bp bufq ih =>
    rw [List.map_cons, List.foldl_cons, ih]
    simp only [harvest]
    congr 1
    · funext x
      by_cases hx : x = bp
      · subst hx
        by_cases h0 : status x = 0
        · simp [h0]
        · simp [h0]
      · have hupdate : (if status bp ≠ 0 then Function.update c.b_dev bp NO_DEV else c.b_dev) x =
            c.b_dev x := by
          split_ifs
          · exact Function.update_of_ne hx ..
          · rfl
        simp only [hupdate, List.mem_cons, hx, false_or]
    · funext x
      by_cases hx : x = bp
      · subst hx
        simp
      · simp only [Function.update_of_ne hx, List.mem_cons, hx, false_or]

/-- Blocks that are read come to the buffers of the queue. -/
theorem transfer_reading_all (s : Cache) (dev : ℕ) (hnd : bufq.Nodup) :
    bufq.foldl (fun t bp => transfer t dev bp .READING (f bp).outcome) s = { s with
      b_data := fun x => if x ∈ bufq then (f x).outcome.dest (s.disk dev (s.b_blocknr x))
        else s.b_data x } := by
  induction bufq generalizing s with
  | nil => simp
  | cons bp bufq ih =>
    obtain ⟨hbp, hnd⟩ := List.nodup_cons.mp hnd
    rw [List.foldl_cons, ih _ hnd]
    simp only [transfer]
    congr 1
    funext x
    by_cases hx : x = bp
    · subst hx
      simp [hbp]
    · simp only [Function.update_of_ne hx, List.mem_cons, hx, false_or]

/-- What is on the devices when the blocks of a queue have been written. -/
def writtenDisk (f : Buf → Rdwt) (s : Cache) (dev : ℕ) (bufq : List Buf) (disk : ℕ → ℕ → Block) :
    ℕ → ℕ → Block :=
  bufq.foldl (fun k x => Function.update k dev
    (Function.update (k dev) (s.b_blocknr x) ((f x).outcome.dest (s.b_data x)))) disk

theorem transfer_writing_all (s : Cache) (dev : ℕ) (bufq : List Buf) :
    bufq.foldl (fun t bp => transfer t dev bp .WRITING (f bp).outcome) s =
      { s with disk := writtenDisk f s dev bufq s.disk } := by
  induction bufq generalizing s with
  | nil => rfl
  | cons bp bufq ih =>
    rw [List.foldl_cons, ih]
    rfl

/-- Where no two buffers have a block in common, the outcome of each is on the device. -/
theorem writtenDisk_of_mem {disk : ℕ → ℕ → Block} (hx : x ∈ bufq) (hnd : bufq.Nodup)
    (hblock : ∀ y ∈ bufq, s.b_blocknr y = s.b_blocknr x → y = x) :
    writtenDisk f s dev bufq disk dev (s.b_blocknr x) = (f x).outcome.dest (s.b_data x) := by
  have hkept : ∀ (l : List Buf) (disk : ℕ → ℕ → Block), (∀ y ∈ l, s.b_blocknr y ≠ s.b_blocknr x) →
      writtenDisk f s dev l disk dev (s.b_blocknr x) = disk dev (s.b_blocknr x) := by
    intro l
    induction l with
    | nil => exact fun _ _ => rfl
    | cons y l ih =>
      intro disk hne
      have hfirst := hne y (List.mem_cons_self ..)
      have hrest := ih (Function.update disk dev (Function.update (disk dev) (s.b_blocknr y)
        ((f y).outcome.dest (s.b_data y)))) fun z hz => hne z (List.mem_cons_of_mem _ hz)
      rw [Function.update_self, Function.update_of_ne hfirst.symm] at hrest
      exact hrest
  induction bufq generalizing disk with
  | nil => cases hx
  | cons bp bufq ih =>
    obtain ⟨hbp, hnd⟩ := List.nodup_cons.mp hnd
    have hcons : writtenDisk f s dev (bp :: bufq) disk = writtenDisk f s dev bufq
        (Function.update disk dev (Function.update (disk dev) (s.b_blocknr bp)
          ((f bp).outcome.dest (s.b_data bp)))) := rfl
    rw [hcons]
    rcases List.mem_cons.mp hx with rfl | hx
    · rw [hkept, Function.update_self, Function.update_self]
      intro y hy he
      exact hbp (hblock y (List.mem_cons_of_mem _ hy) he ▸ hy)
    · exact ih hx hnd fun y hy => hblock y (List.mem_cons_of_mem _ hy)

/-! ## `rw_block` with the same outcomes -/

theorem Rdwt.outcome_bytes (o : Rdwt) : o.outcome.bytes = o.result := by
  rw [Rdwt.outcome]
  split_ifs with h
  · exact h.symm
  · rfl

theorem Rdwt.outcome_dest {o : Rdwt} (h : o.result = BLOCK_SIZE) (source : Block) :
    o.outcome.dest source = source := by
  rw [Rdwt.outcome, if_pos h]
  rfl

/-- One block, with its outcome. -/
theorem rwBlock_outcome (o : Rdwt) (os : List Outcome) (hdev : s.b_dev bp = dev)
    (hne : dev ≠ NO_DEV) :
    rwBlock { s with io := o.outcome :: os } bp .WRITING = { s with
      io := os
      disk := Function.update s.disk dev
        (Function.update (s.disk dev) (s.b_blocknr bp) (o.outcome.dest (s.b_data bp)))
      b_dev := if o.result = BLOCK_SIZE then s.b_dev else Function.update s.b_dev bp NO_DEV
      b_dirt := Function.update s.b_dirt bp false } := by
  have hbytes : ((o.outcome :: os).headD none).bytes = o.result := o.outcome_bytes
  simp only [rwBlock, hdev, if_pos hne, rwDevice, hbytes]
  split_ifs <;> rfl

/-- The blocks of a queue written one by one, each with its outcome. -/
theorem rwBlock_writing_all (hnd : bufq.Nodup) (hdev : ∀ x ∈ bufq, s.b_dev x = dev)
    (hne : dev ≠ NO_DEV) :
    bufq.foldl (fun t bp => rwBlock t bp .WRITING)
      { s with io := bufq.map fun bp => (f bp).outcome } = { s with
      io := []
      disk := writtenDisk f s dev bufq s.disk
      b_dev := fun x => if x ∈ bufq ∧ (f x).result ≠ BLOCK_SIZE then NO_DEV else s.b_dev x
      b_dirt := fun x => if x ∈ bufq then false else s.b_dirt x } := by
  induction bufq generalizing s with
  | nil => simp [writtenDisk]
  | cons bp bufq ih =>
    obtain ⟨hbp, hnd⟩ := List.nodup_cons.mp hnd
    rw [List.map_cons, List.foldl_cons, rwBlock_outcome _ _ (hdev bp (List.mem_cons_self ..)) hne]
    have hrest : ∀ x ∈ bufq, (if (f bp).result = BLOCK_SIZE then s.b_dev
        else Function.update s.b_dev bp NO_DEV) x = dev := by
      intro x hx
      have hxb : x ≠ bp := fun e => hbp (e ▸ hx)
      rw [← hdev x (List.mem_cons_of_mem _ hx)]
      split_ifs
      · rfl
      · exact Function.update_of_ne hxb ..
    have hall := @ih { s with
      disk := Function.update s.disk dev
        (Function.update (s.disk dev) (s.b_blocknr bp) ((f bp).outcome.dest (s.b_data bp)))
      b_dev := if (f bp).result = BLOCK_SIZE then s.b_dev else Function.update s.b_dev bp NO_DEV
      b_dirt := Function.update s.b_dirt bp false } hnd hrest
    refine hall.trans ?_
    congr 1
    · funext x
      by_cases hx : x = bp
      · subst hx
        by_cases hfull : (f x).result = BLOCK_SIZE
        · simp only [hbp, hfull, and_false, if_true, if_false, ne_eq, not_true_eq_false]
        · simp only [hbp, hfull, false_and, if_true, if_false, Function.update_self, ne_eq,
            not_false_eq_true, List.mem_cons_self, and_self]
      · have hupdate : (if (f bp).result = BLOCK_SIZE then s.b_dev
            else Function.update s.b_dev bp NO_DEV) x = s.b_dev x := by
          split_ifs
          · rfl
          · exact Function.update_of_ne hx ..
        simp only [hupdate, List.mem_cons, hx, false_or]
    · funext x
      by_cases hx : x = bp
      · subst hx
        simp
      · simp only [Function.update_of_ne hx, List.mem_cons, hx, false_or]

/-! ## What scattered i/o does -/

/-- `rw_scattered` for distinct buffers, in the order that they are sorted to. -/
theorem rwScatteredIo_eq (f : Buf → Rdwt) (s : Cache) (dev : ℕ) (rw_flag : RwFlag)
    (hnd : bufq.Nodup) {q : List Buf} (hq : sortBufs s.b_blocknr bufq = q) :
    rwScatteredIo f s dev bufq rw_flag = some
      ⟨(q.map fun x => (x, statusOf f rw_flag q x)).foldl (harvest dev rw_flag)
        ((tried f rw_flag q).foldl (fun t bp => transfer t dev bp rw_flag (f bp).outcome) s),
        tried f rw_flag q⟩ := by
  have hlen : bufq.length ≤ NR_BUFS := by
    have := hnd.length_le_card
    rwa [Fintype.card_fin] at this
  rw [rwScatteredIo]
  by_cases h0 : bufq.length = 0
  · obtain rfl := List.length_eq_zero_iff.mp h0
    subst hq
    rfl
  have hperm : q.Perm bufq := hq ▸ sortBufs_perm s.b_blocknr bufq
  have hfits : ¬(q.map (ioRequest s rw_flag)).length > Kernel.NR_IOVEC := by
    rw [List.length_map, hperm.length_eq]
    exact not_lt.mpr hlen
  obtain ⟨hs, ht⟩ := @handleRequests_eq f s ⟨s, []⟩ dev q rw_flag rfl
  rw [if_neg h0, if_neg (not_lt.mpr hlen)]
  simp only [doVrdwt, hq, if_neg hfits, Option.map_some]
  rw [hs, ht, statuses_eq (hperm.nodup_iff.mpr hnd), List.nil_append, zip_map_self]

/-- What a scattered read has done, with the requests in the order `q`. -/
structure ScatteredRead (f : Buf → Rdwt) (s : Cache) (dev : ℕ) (bufq : List Buf) (d : Driven) :
    Prop where
  /-- All requests up to the first that fails are issued, and every buffer is put once. -/
  order : ∃ q, q.Perm bufq ∧ d.issued = tried f .READING q ∧
    d.cache.toLinks = q.foldl (fun k x => putLinks k x PARTIAL_DATA_BLOCK) s.toLinks
  valid : ∀ x ∈ bufq, d.cache.b_dev x = dev ↔ x ∈ d.issued ∧ (f x).result = BLOCK_SIZE
  holds : ∀ x ∈ bufq, d.cache.b_dev x = dev → d.cache.b_data x = s.disk dev (s.b_blocknr x)
  others : ∀ x ∉ bufq, d.cache.b_dev x = s.b_dev x ∧ d.cache.b_data x = s.b_data x
  disk : d.cache.disk = s.disk

/-- What a scattered write has done, with the requests in the order `q`. -/
structure ScatteredWrite (f : Buf → Rdwt) (s : Cache) (dev : ℕ) (bufq : List Buf) (d : Driven) :
    Prop where
  /-- All requests up to the first that meets the end of the device are issued. -/
  order : ∃ q, q.Perm bufq ∧ d.issued = tried f .WRITING q
  valid : ∀ x ∈ bufq, d.cache.b_dev x = dev ↔ x ∈ d.issued ∧ (f x).result = BLOCK_SIZE
  written : ∀ x ∈ bufq, d.cache.b_dev x = dev → d.cache.disk dev (s.b_blocknr x) = s.b_data x
  /-- For each request that is issued the outcome is that of `rw_block`. -/
  same : ∀ t, t = d.issued.foldl (fun t bp => rwBlock t bp .WRITING)
      { s with io := d.issued.map fun bp => (f bp).outcome } →
    d.cache.disk = t.disk ∧ ∀ x ∈ d.issued, d.cache.b_dev x = t.b_dev x ∧
      d.cache.b_dirt x = t.b_dirt x
  /-- A request that is not issued is behind one that has met the end. -/
  behind : ∀ x ∈ bufq, x ∉ d.issued → d.cache.b_dev x = NO_DEV ∧ d.cache.b_dirt x = false ∧
    ∃ y ∈ d.issued, (f y).result = 0
  others : ∀ x ∉ bufq, d.cache.b_dev x = s.b_dev x ∧ d.cache.b_dirt x = s.b_dirt x

/-- Reading a queue of prefetched buffers. -/
theorem scattered_reading (f : Buf → Rdwt) (hnd : bufq.Nodup)
    (hfree : ∀ x ∈ bufq, s.b_dev x = NO_DEV) (hne : dev ≠ NO_DEV) :
    ∃ d, rwScatteredIo f s dev bufq .READING = some d ∧ ScatteredRead f s dev bufq d := by
  obtain ⟨q, hq⟩ : ∃ q, sortBufs s.b_blocknr bufq = q := ⟨_, rfl⟩
  have hperm : q.Perm bufq := hq ▸ sortBufs_perm s.b_blocknr bufq
  refine ⟨_, rwScatteredIo_eq f s dev .READING hnd hq, ?_⟩
  have hndq : q.Nodup := hperm.nodup_iff.mpr hnd
  have hndt : (tried f .READING q).Nodup := hndq.sublist tried_start.sublist
  rw [harvest_reading_all, transfer_reading_all s dev hndt]
  have hvalid : ∀ x ∈ bufq, (if x ∈ q ∧ statusOf f .READING q x = 0 then dev else s.b_dev x) = dev ↔
      x ∈ tried f .READING q ∧ (f x).result = BLOCK_SIZE := by
    intro x hx
    have hxq : x ∈ q := hperm.mem_iff.mpr hx
    rw [← statusOf_eq_zero, hfree x hx]
    split_ifs with h
    · exact iff_of_true rfl h.2
    · exact iff_of_false hne.symm fun h' => h ⟨hxq, h'⟩
  refine ⟨⟨q, hperm, rfl, rfl⟩, hvalid, fun x hx hd => ?_, fun x hx => ?_, rfl⟩
  · obtain ⟨htried, hfull⟩ := (hvalid x hx).mp hd
    dsimp only
    rw [if_pos htried, Rdwt.outcome_dest hfull]
  · have hxq : x ∉ q := fun h => hx (hperm.mem_iff.mp h)
    dsimp only
    rw [if_neg fun h => hxq h.1, if_neg fun h => hxq (tried_start.subset h)]
    exact ⟨rfl, rfl⟩

/-- Writing a queue of buffers of a device, no two of which have a block in common. -/
theorem scattered_writing (f : Buf → Rdwt) (hnd : bufq.Nodup) (hdev : ∀ x ∈ bufq, s.b_dev x = dev)
    (hne : dev ≠ NO_DEV)
    (hblock : ∀ x ∈ bufq, ∀ y ∈ bufq, s.b_blocknr y = s.b_blocknr x → y = x) :
    ∃ d, rwScatteredIo f s dev bufq .WRITING = some d ∧ ScatteredWrite f s dev bufq d := by
  obtain ⟨q, hq⟩ : ∃ q, sortBufs s.b_blocknr bufq = q := ⟨_, rfl⟩
  have hperm : q.Perm bufq := hq ▸ sortBufs_perm s.b_blocknr bufq
  refine ⟨_, rwScatteredIo_eq f s dev .WRITING hnd hq, ?_⟩
  have hndt : (tried f .WRITING q).Nodup :=
    (hperm.nodup_iff.mpr hnd).sublist tried_start.sublist
  have htried : ∀ x ∈ tried f .WRITING q, x ∈ bufq :=
    fun x hx => hperm.mem_iff.mp (tried_start.subset hx)
  rw [harvest_writing_all, transfer_writing_all]
  have hvalid : ∀ x ∈ bufq, (if x ∈ q ∧ statusOf f .WRITING q x ≠ 0 then NO_DEV else s.b_dev x) =
      dev ↔ x ∈ tried f .WRITING q ∧ (f x).result = BLOCK_SIZE := by
    intro x hx
    have hxq : x ∈ q := hperm.mem_iff.mpr hx
    rw [← statusOf_eq_zero, hdev x hx]
    split_ifs with h
    · exact iff_of_false hne.symm h.2
    · exact iff_of_true rfl (not_not.mp fun h' => h ⟨hxq, h'⟩)
  refine ⟨⟨q, hperm, rfl⟩, hvalid, fun x hx hd => ?_, ?_, fun x hx hout => ?_, fun x hx => ?_⟩
  · obtain ⟨hin, hfull⟩ := (hvalid x hx).mp hd
    have hdisk : writtenDisk f s dev (tried f .WRITING q) s.disk dev (s.b_blocknr x) =
        (f x).outcome.dest (s.b_data x) :=
      writtenDisk_of_mem hin hndt fun y hy => hblock x hx y (htried y hy)
    rw [Rdwt.outcome_dest hfull] at hdisk
    exact hdisk
  · rintro t rfl
    rw [rwBlock_writing_all hndt (fun x hx => hdev x (htried x hx)) hne]
    refine ⟨rfl, fun x hx => ⟨?_, ?_⟩⟩
    · have hxq : x ∈ q := tried_start.subset hx
      have hstatus : statusOf f .WRITING q x ≠ 0 ↔ (f x).result ≠ BLOCK_SIZE := by
        rw [ne_eq, statusOf_eq_zero, and_iff_right hx]
      simp only [hxq, hx, true_and, hstatus]
    · simp only [tried_start.subset hx, hx, if_true]
  · have hxq : x ∈ q := hperm.mem_iff.mpr hx
    have hstatus : statusOf f .WRITING q x ≠ 0 := fun h => hout (statusOf_eq_zero.mp h).1
    obtain ⟨y, hy, hstop⟩ := exists_stops hxq hout
    have hend : (f y).result = 0 := hstop.resolve_right fun h => by cases h.2
    exact ⟨if_pos ⟨hxq, hstatus⟩, if_pos hxq, y, hy, hend⟩
  · have hxq : x ∉ q := fun h => hx (hperm.mem_iff.mp h)
    exact ⟨if_neg fun h => hxq h.1, if_neg hxq⟩

/-! ## The outcomes in the cache -/

/-- What is in the place that a request goes to. -/
def destOf (s : Cache) (dev : ℕ) (rw_flag : RwFlag) (bp : Buf) : Block :=
  match rw_flag with
  | .READING => s.b_data bp
  | .WRITING => s.disk dev (s.b_blocknr bp)

/-- What the requests of a queue leave to be done, as the outcomes that the cache takes from a list:
those that are not handled leave all of the block, and the destination as it is. -/
def answers (f : Buf → Rdwt) (dev : ℕ) (rw_flag : RwFlag) : Cache → List Buf → List Outcome
  | _, [] => []
  | s, bp :: bufq =>
    let t := transfer s dev bp rw_flag (f bp).outcome
    (if (f bp).result = BLOCK_SIZE then none else some ((f bp).status, (f bp).left)) ::
      if (f bp).Stops rw_flag then bufq.map fun x => some (BLOCK_SIZE, destOf t dev rw_flag x)
      else answers f dev rw_flag t bufq

/-- A cache whose transfers have these outcomes. -/
def Cache.withAnswers (s : Cache) (rw_flag : RwFlag) (os : List Outcome) : Cache :=
  match rw_flag with
  | .READING => { s with opt := os }
  | .WRITING => { s with io := os }

theorem serve_cons (s : Cache) (o : Outcome) (os : List Outcome) :
    serve (s.withAnswers rw_flag (o :: os)) dev rw_flag (bp :: bufq) =
      let r := serve ((transfer s dev bp rw_flag o).withAnswers rw_flag os) dev rw_flag bufq
      (o.io_nbytes :: r.1, r.2) := by
  cases rw_flag <;> rfl

/-- Requests that are not handled change nothing. -/
theorem serve_idle (s : Cache) (dev : ℕ) (rw_flag : RwFlag) (bufq : List Buf) :
    serve (s.withAnswers rw_flag (bufq.map fun x => some (BLOCK_SIZE, destOf s dev rw_flag x))) dev
      rw_flag bufq = (bufq.map fun _ => (BLOCK_SIZE : ℤ), s.withAnswers rw_flag []) := by
  induction bufq with
  | nil => rfl
  | cons bp bufq ih =>
    have hsame : transfer s dev bp rw_flag (some (BLOCK_SIZE, destOf s dev rw_flag bp)) = s := by
      cases rw_flag <;> simp only [transfer, destOf, Outcome.dest, Function.update_eq_self]
    rw [List.map_cons, serve_cons, hsame, ih]
    rfl

/-- The cache that takes these outcomes is what the driver leaves. -/
theorem serve_answers (f : Buf → Rdwt) (dev : ℕ) (s : Cache) :
    serve (s.withAnswers rw_flag (answers f dev rw_flag s bufq)) dev rw_flag bufq =
      (statuses f rw_flag bufq, ((tried f rw_flag bufq).foldl
        (fun t bp => transfer t dev bp rw_flag (f bp).outcome) s).withAnswers rw_flag []) := by
  induction bufq generalizing s with
  | nil => rfl
  | cons bp bufq ih =>
    have hmoved : transfer s dev bp rw_flag
        (if (f bp).result = BLOCK_SIZE then none else some ((f bp).status, (f bp).left)) =
        transfer s dev bp rw_flag (f bp).outcome := by
      cases rw_flag <;> simp only [transfer, Rdwt.outcome] <;> split_ifs <;> rfl
    have hbytes : (if (f bp).result = BLOCK_SIZE then none
        else some ((f bp).status, (f bp).left) : Outcome).io_nbytes = (f bp).status := by
      split_ifs with h
      · exact ((f bp).status_eq_zero.mpr h).symm
      · rfl
    rw [answers, serve_cons, hmoved, hbytes, statuses, tried]
    by_cases hstop : (f bp).Stops rw_flag
    · simp only [if_pos hstop, serve_idle, List.foldl_cons, List.foldl_nil]
    · simp only [if_neg hstop, ih, List.foldl_cons]

/-- A harvest does not depend on the outcomes to come. -/
theorem harvest_withAnswers (os : List Outcome) (l : List (Buf × ℤ)) (c : Cache) :
    l.foldl (harvest dev rw_flag) (c.withAnswers rw_flag os) =
      (l.foldl (harvest dev rw_flag) c).withAnswers rw_flag os := by
  induction l generalizing c with
  | nil => rfl
  | cons r l ih =>
    have hone : harvest dev rw_flag (c.withAnswers rw_flag os) r =
        (harvest dev rw_flag c r).withAnswers rw_flag os := by
      cases rw_flag
      · simp only [harvest_reading]
        rfl
      · rfl
    rw [List.foldl_cons, List.foldl_cons, hone, ih]

/-- Scattered i/o through the driver is that of the cache, for some outcomes. -/
theorem rwScattered_of_driver (f : Buf → Rdwt) (s : Cache) (dev : ℕ) (rw_flag : RwFlag)
    (hnd : bufq.Nodup) : ∃ os, rwScattered (s.withAnswers rw_flag os) dev bufq rw_flag =
      (rwScatteredIo f s dev bufq rw_flag).map fun d => d.cache.withAnswers rw_flag [] := by
  obtain ⟨q, hq⟩ : ∃ q, sortBufs s.b_blocknr bufq = q := ⟨_, rfl⟩
  have hperm : q.Perm bufq := hq ▸ sortBufs_perm s.b_blocknr bufq
  have hlen : bufq.length ≤ NR_BUFS := by
    have := hnd.length_le_card
    rwa [Fintype.card_fin] at this
  have hblocknr : ∀ os, (s.withAnswers rw_flag os).b_blocknr = s.b_blocknr := by
    intro os
    cases rw_flag <;> rfl
  refine ⟨answers f dev rw_flag s q, ?_⟩
  rw [rwScatteredIo_eq f s dev rw_flag hnd hq, rwScattered, Option.map_some, hblocknr, hq,
    if_neg (not_lt.mpr hlen)]
  have hsorted : rwSorted (s.withAnswers rw_flag (answers f dev rw_flag s q)) dev q rw_flag =
      ((q.map fun x => (x, statusOf f rw_flag q x)).foldl (harvest dev rw_flag)
        ((tried f rw_flag q).foldl (fun t bp => transfer t dev bp rw_flag (f bp).outcome)
          s)).withAnswers rw_flag [] := by
    rw [rwSorted, serve_answers, ← harvest_withAnswers]
    dsimp only
    rw [statuses_eq (hperm.nodup_iff.mpr hnd), zip_map_self]
  by_cases h0 : bufq.length = 0
  · obtain rfl := List.length_eq_zero_iff.mp h0
    obtain rfl : q = [] := hperm.eq_nil
    rfl
  · rw [if_neg h0, hsorted]

/-- Whatever the driver does with each request: what is read is valid, and each buffer put once;
what is written is as `rw_block` would have written it, up to the end of the device. -/
theorem scattered_io (f : Buf → Rdwt) (s : Cache) (hnd : bufq.Nodup) (hne : dev ≠ NO_DEV) :
    ((∀ x ∈ bufq, s.b_dev x = NO_DEV) →
      ∃ d, rwScatteredIo f s dev bufq .READING = some d ∧ ScatteredRead f s dev bufq d) ∧
    ((∀ x ∈ bufq, s.b_dev x = dev) →
      (∀ x ∈ bufq, ∀ y ∈ bufq, s.b_blocknr y = s.b_blocknr x → y = x) →
        ∃ d, rwScatteredIo f s dev bufq .WRITING = some d ∧ ScatteredWrite f s dev bufq d) :=
  ⟨fun hfree => scattered_reading f hnd hfree hne,
    fun hdev hblock => scattered_writing f hnd hdev hne hblock⟩

/-- Each buffer has a block of device 1 that is dirty. -/
def allDirty : Cache :=
  { staticCache with
    b_blocknr := fun bp => bp
    b_dev := fun _ => 1
    b_dirt := fun _ => true
    io := [] }

/-- The buffers have no device, as when they are prefetched. -/
def allFree : Cache := { allDirty with b_dev := fun _ => NO_DEV }

/-- A driver that meets the end of the device at the block of the first buffer only. -/
def endFirst (bp : Buf) : Rdwt :=
  ⟨if bp = 0 then 0 else BLOCK_SIZE, fun _ => 0, by split <;> decide, by split <;> decide⟩

/-- The second request is not issued and its buffer invalidated, where `rw_block` would have written
the block. -/
theorem scattered_stops :
    ((rwScatteredIo endFirst allDirty 1 [0, 1] .WRITING).map fun d => (d.issued, d.cache.b_dev 1)) =
        some ([0], NO_DEV) ∧
      (rwBlock { allDirty with io := [(endFirst 1).outcome] } 1 .WRITING).b_dev 1 = 1 :=
  ⟨by decide +kernel, by decide +kernel⟩

/-- Two blocks are written, the first up to the end of the device, and two are read. -/
theorem scattered_io_twoBlocks :
    (∃ d, rwScatteredIo endFirst allFree 1 [1, 0] .READING = some d ∧
      ScatteredRead endFirst allFree 1 [1, 0] d) ∧
    ∃ d, rwScatteredIo endFirst allDirty 1 [0, 1] .WRITING = some d ∧
      ScatteredWrite endFirst allDirty 1 [0, 1] d :=
  ⟨(scattered_io endFirst allFree (by decide) (by decide : 1 ≠ NO_DEV)).1 fun _ _ => rfl,
    (scattered_io endFirst allDirty (by decide) (by decide : 1 ≠ NO_DEV)).2 (fun _ _ => rfl)
      (by decide)⟩

end Minix.Fs
