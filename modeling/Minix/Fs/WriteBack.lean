import Minix.Fs.CacheCalls

/-!
# Transfers that do not fail

`Served` says that the drivers serve the requests to come. Then a block that is written back is on
the device as the buffer has it, and the buffer is clean; every other block of the device is as it
was (`Wrote`). A block that is read is in the buffer as the device has it (`ReadIn`), and an
optional read may be left out.
-/

namespace Minix.Fs

open Lib

/-- The drivers serve every request: the mandatory ones in full, and an optional one in full or not
at all. -/
def Served (c : Cache) : Prop := (∀ o ∈ c.io, o = none) ∧ ∀ o ∈ c.opt, o.io_nbytes = 0 → o = none

/-- The block of a buffer, on its device. -/
def onDisk (c : Cache) (x : Buf) : Block := c.disk (c.b_dev x) (c.b_blocknr x)

/-- What writing blocks back does. -/
structure Wrote (c c' : Cache) : Prop where
  kept : Kept c c'
  dev : c'.b_dev = c.b_dev
  served : Served c'
  /-- A buffer is as it was, or its block is on the device and it is clean. -/
  block : ∀ x, c.b_dev x ≠ NO_DEV → onDisk c' x = onDisk c x ∧ c'.b_dirt x = c.b_dirt x ∨
    onDisk c' x = c.b_data x ∧ c'.b_dirt x = false
  /-- The blocks that are not in the cache are as they were. -/
  absent : ∀ dev block, dev ≠ NO_DEV → Absent c dev block → c'.disk dev block = c.disk dev block

/-- What reading a queue of prefetched buffers does. -/
structure ReadIn (dev : ℕ) (bufq : List Buf) (c c' : Cache) : Prop where
  served : Served c'
  disk : c'.disk = c.disk
  dirt : c'.b_dirt = c.b_dirt
  /-- A buffer of the queue is as it was, or it is validated. -/
  block : ∀ x ∈ bufq, c'.b_dev x = NO_DEV ∨
    c'.b_dev x = dev ∧ c'.b_data x = c.disk dev (c.b_blocknr x)

variable {c c' c'' : Cache} {dev block : ℕ} {bp x : Buf} {bufq : List Buf} {rw_flag : RwFlag}

/-! ## The requests to come -/

theorem Served.head (h : Served c) : c.io.headD none = none := by
  cases he : c.io with
  | nil => rfl
  | cons o os => exact h.1 o (by rw [he]; exact List.mem_cons_self)

/-- Requests are taken from the front. -/
theorem Served.of_suffix (h : Served c) (hio : c'.io <:+ c.io) (hopt : c'.opt <:+ c.opt) :
    Served c' :=
  ⟨fun o ho => h.1 o (hio.subset ho), fun o ho => h.2 o (hopt.subset ho)⟩

theorem Served.congr (h : Served c) (hio : c'.io = c.io) (hopt : c'.opt = c.opt) : Served c' :=
  h.of_suffix (by rw [hio]) (by rw [hopt])

/-- The block that is in question is not changed by what is done to other blocks. -/
theorem disk_update_of_ne {disk : ℕ → ℕ → Block} {d b dev block : ℕ} {data : Block}
    (h : ¬(d = dev ∧ b = block)) :
    Function.update disk dev (Function.update (disk dev) block data) d b = disk d b := by
  by_cases hd : d = dev
  · subst hd
    rw [Function.update_self, Function.update_of_ne fun e => h ⟨rfl, e⟩]
  · rw [Function.update_of_ne hd]

theorem disk_update_self {disk : ℕ → ℕ → Block} {data : Block} :
    Function.update disk dev (Function.update (disk dev) block data) dev block = data := by
  rw [Function.update_self, Function.update_self]

/-! ## Writing -/

theorem Wrote.refl (h : Served c) : Wrote c c where
  kept := Kept.refl c
  dev := rfl
  served := h
  block _ _ := Or.inl ⟨rfl, rfl⟩
  absent _ _ _ _ := rfl

theorem Wrote.trans (h : Wrote c c') (h' : Wrote c' c'') : Wrote c c'' where
  kept := h.kept.trans h'.kept
  dev := h'.dev.trans h.dev
  served := h'.served
  block x hx := by
    rcases h'.block x (by rw [h.dev]; exact hx) with ⟨hd, ht⟩ | ⟨hd, ht⟩
    · rw [hd, ht]
      exact h.block x hx
    · rw [hd, ht, h.kept.data]
      exact Or.inr ⟨rfl, rfl⟩
  absent dev block hdev ha := by
    rw [h'.absent dev block hdev, h.absent dev block hdev ha]
    unfold Absent
    rw [h.dev, h.kept.blocknr]
    exact ha

/-- A clean buffer stays clean. -/
theorem Wrote.clean (h : Wrote c c') (hx : c.b_dev x ≠ NO_DEV) (hc : c.b_dirt x = false) :
    c'.b_dirt x = false := by
  rcases h.block x hx with ⟨-, ht⟩ | ⟨-, ht⟩
  · rw [ht, hc]
  · exact ht

/-- One block is written back. -/
theorem rwBlock_wrote (hs : Served c) (hu : Unique c) (bp : Buf) :
    Wrote c (rwBlock c bp .WRITING) := by
  by_cases hbp : c.b_dev bp = NO_DEV
  · have he : rwBlock c bp .WRITING = { c with b_dirt := Function.update c.b_dirt bp false } := by
      unfold rwBlock
      rw [if_neg (by simpa using hbp)]
    rw [he]
    refine ⟨⟨rfl, rfl, rfl, fun _ => Or.inl rfl⟩, rfl, hs.congr rfl rfl, fun x hx => ?_,
      fun _ _ _ _ => rfl⟩
    have hne : x ≠ bp := fun e => hx (e ▸ hbp)
    exact Or.inl ⟨rfl, Function.update_of_ne hne _ _⟩
  · have he : rwBlock c bp .WRITING = { c with
        disk := Function.update c.disk (c.b_dev bp)
          (Function.update (c.disk (c.b_dev bp)) (c.b_blocknr bp) (c.b_data bp))
        io := c.io.tail
        b_dirt := Function.update c.b_dirt bp false } := by
      unfold rwBlock rwDevice
      rw [if_pos hbp, hs.head]
      rfl
    rw [he]
    refine ⟨⟨rfl, rfl, rfl, fun _ => Or.inl rfl⟩, rfl,
      hs.of_suffix (List.tail_suffix _) (List.suffix_refl _), fun x hx => ?_,
      fun dev block hdev ha => disk_update_of_ne fun e => ha hdev bp e.1.symm e.2.symm⟩
    by_cases hne : x = bp
    · subst hne
      exact Or.inr ⟨disk_update_self, Function.update_self ..⟩
    · refine Or.inl ⟨disk_update_of_ne fun e => hne (hu x bp hx e.1 e.2), ?_⟩
      exact Function.update_of_ne hne _ _

/-- The driver serves a queue of writes. -/
theorem serve_served (hs : Served c) (dev : ℕ) (bufq : List Buf) :
    (∀ r ∈ (serve c dev .WRITING bufq).1, r = 0) ∧ Served (serve c dev .WRITING bufq).2 := by
  induction bufq generalizing c with
  | nil => exact ⟨by simp [serve], hs⟩
  | cons bp bufq ih =>
    have hs' : Served (transfer { c with io := c.io.tail } dev bp .WRITING (c.io.headD none)) :=
      hs.of_suffix (List.tail_suffix _) (List.suffix_refl _)
    obtain ⟨hr, hserved⟩ := ih hs'
    refine ⟨fun r hm => ?_, hserved⟩
    rcases List.mem_cons.mp hm with rfl | hm
    · show (c.io.headD none).io_nbytes = 0
      rw [hs.head]
      rfl
    · exact hr r hm

/-- Writes change the blocks of the queue only. -/
theorem serve_disk_of_notMem {d : ℕ} (h : ∀ x ∈ bufq, ¬(d = dev ∧ block = c.b_blocknr x)) :
    (serve c dev .WRITING bufq).2.disk d block = c.disk d block := by
  induction bufq generalizing c with
  | nil => rfl
  | cons bp bufq ih =>
    have hstep : (serve c dev .WRITING (bp :: bufq)).2.disk d block =
        (transfer { c with io := c.io.tail } dev bp .WRITING (c.io.headD none)).disk d block :=
      ih fun x hx => h x (List.mem_cons_of_mem _ hx)
    rw [hstep]
    exact disk_update_of_ne (h bp List.mem_cons_self)

/-- Writes leave the blocks of the queue on the device. -/
theorem serve_disk (hs : Served c) (hq : (bufq.map c.b_blocknr).Nodup) (hx : x ∈ bufq) :
    (serve c dev .WRITING bufq).2.disk dev (c.b_blocknr x) = c.b_data x := by
  induction bufq generalizing c with
  | nil => exact absurd hx (by simp)
  | cons bp bufq ih =>
    obtain ⟨hnot, hnd⟩ := List.nodup_cons.mp hq
    have hs' : Served (transfer { c with io := c.io.tail } dev bp .WRITING (c.io.headD none)) :=
      hs.of_suffix (List.tail_suffix _) (List.suffix_refl _)
    rcases List.mem_cons.mp hx with rfl | hx
    · -- What is written later goes to other blocks.
      have hrest : (serve c dev .WRITING (x :: bufq)).2.disk dev (c.b_blocknr x) =
          (transfer { c with io := c.io.tail } dev x .WRITING (c.io.headD none)).disk dev
            (c.b_blocknr x) :=
        serve_disk_of_notMem
          (c := transfer { c with io := c.io.tail } dev x .WRITING (c.io.headD none))
          fun y hy e => hnot (List.mem_map.mpr ⟨y, hy, e.2.symm⟩)
      rw [hrest, hs.head]
      exact disk_update_self
    · exact ih hs' hnd hx

/-- Harvesting writes that were served cleans the buffers. -/
theorem harvest_writing (rs : List (Buf × ℤ)) (h : ∀ r ∈ rs, r.2 = 0) :
    rs.foldl (harvest dev .WRITING) c =
      { c with b_dirt := fun x => if x ∈ rs.map Prod.fst then false else c.b_dirt x } := by
  induction rs generalizing c with
  | nil => simp
  | cons r rs ih =>
    rw [List.foldl_cons, ih fun r hr => h r (List.mem_cons_of_mem _ hr)]
    have hr : ¬r.2 ≠ 0 := not_not.mpr (h r List.mem_cons_self)
    unfold harvest
    dsimp only
    rw [if_neg hr]
    congr 1
    funext x
    by_cases hx : x = r.1
    · subst hx
      simp
    · rw [Function.update_of_ne hx, List.map_cons]
      simp only [List.mem_cons, hx, false_or]

/-- All dirty blocks of a device are written, and they are clean then. -/
theorem flushall_done (hs : Served c) (hu : Unique c) (he : flushall c dev = some c') :
    Wrote c c' ∧ ∀ x, c.b_dev x = dev → c'.b_dirt x = false := by
  have hmem : ∀ x, x ∈ sortBufs c.b_blocknr (dirtyBufs c dev) ↔
      c.b_dirt x = true ∧ c.b_dev x = dev := fun x => by
    rw [(sortBufs_perm ..).mem_iff, mem_dirtyBufs]
  have hnd : (sortBufs c.b_blocknr (dirtyBufs c dev)).Nodup :=
    (sortBufs_perm ..).nodup_iff.mpr (dirtyBufs_nodup c dev)
  unfold flushall rwScattered at he
  split_ifs at he with h₀ h₁
  · -- Nothing is dirty.
    obtain rfl := Option.some.inj he
    refine ⟨Wrote.refl hs, fun x hx => ?_⟩
    have hnil := List.length_eq_zero_iff.mp h₀
    have hx' : x ∉ dirtyBufs c dev := by simp [hnil]
    rw [mem_dirtyBufs] at hx'
    simpa [hx] using hx'
  · generalize sortBufs c.b_blocknr (dirtyBufs c dev) = q at hmem hnd he
    obtain rfl := Option.some.inj he
    have hkept := rwSorted_kept c dev q
    obtain ⟨hr, hserved⟩ := serve_served hs dev q
    have hmap := map_fst_zip_serve c dev .WRITING q
    have hsorted : rwSorted c dev q .WRITING = { (serve c dev .WRITING q).2 with
        b_dirt := fun x => if x ∈ q then false else c.b_dirt x } := by
      unfold rwSorted
      dsimp only
      rw [harvest_writing _ fun r hm => hr r.2 (List.of_mem_zip hm).2, hmap, serve_dirt]
    have hdisk : ∀ d b, (rwSorted c dev q .WRITING).disk d b =
        (serve c dev .WRITING q).2.disk d b := fun d b => by rw [hsorted]
    have hdirt : ∀ x, (rwSorted c dev q .WRITING).b_dirt x =
        if x ∈ q then false else c.b_dirt x := fun x => by rw [hsorted]
    have hdev : (rwSorted c dev q .WRITING).b_dev = c.b_dev := by
      rw [hsorted]
      exact serve_dev ..
    have hblocknr := hkept.blocknr
    refine ⟨⟨hkept, hdev, ?_, fun x hx => ?_, fun d b hd ha => ?_⟩, fun x hx => ?_⟩
    · rw [hsorted]
      exact hserved.congr rfl rfl
    · unfold onDisk
      rw [hdev, hblocknr, hdisk, hdirt]
      by_cases hxq : x ∈ q
      · obtain ⟨-, rfl⟩ := (hmem x).mp hxq
        refine Or.inr ⟨serve_disk hs ?_ hxq, if_pos hxq⟩
        refine hnd.map_on fun y hy z hz e => ?_
        have hy := ((hmem y).mp hy).2
        have hz := ((hmem z).mp hz).2
        exact hu y z (hy ▸ hx) (hy.trans hz.symm) e
      · refine Or.inl ⟨serve_disk_of_notMem fun y hy e => hxq ?_, if_neg hxq⟩
        have hyd := ((hmem y).mp hy).2
        have : x = y := hu x y hx (e.1.trans hyd.symm) e.2
        rwa [this]
    · rw [hdisk]
      refine serve_disk_of_notMem fun y hy e => ha hd y ?_ e.2.symm
      rw [e.1]
      exact ((hmem y).mp hy).2
    · rw [hdirt]
      split_ifs with hxq
      · rfl
      · have : ¬(c.b_dirt x = true ∧ c.b_dev x = dev) := fun e => hxq ((hmem x).mpr e)
        simpa [hx] using this

/-- After the loop of `do_sync`, every buffer with a device is clean. -/
theorem syncBuffers_done (hs : Served c) (hu : Unique c) (he : syncBuffers c = some c') :
    Wrote c c' ∧ ∀ x, c.b_dev x ≠ NO_DEV → c'.b_dirt x = false := by
  -- The induction is on the buffers to come; those behind are clean and stay so.
  have hloop : ∀ (bps : List Buf) (c c' : Cache), Served c → Unique c →
      bps.foldlM (fun s bp =>
        if s.b_dev bp ≠ NO_DEV ∧ s.b_dirt bp = true then flushall s (s.b_dev bp) else some s) c =
          some c' →
      Wrote c c' ∧ ∀ x ∈ bps, c.b_dev x ≠ NO_DEV → c'.b_dirt x = false := by
    intro bps
    induction bps with
    | nil =>
      intro c c' hs _ he
      obtain rfl := Option.some.inj he
      exact ⟨Wrote.refl hs, by simp⟩
    | cons bp bps ih =>
      intro c c' hs hu he
      rw [List.foldlM_cons] at he
      obtain ⟨t, ht, he⟩ := Option.bind_eq_some_iff.mp he
      have hturn : Wrote c t ∧ (c.b_dev bp ≠ NO_DEV → t.b_dirt bp = false) := by
        split_ifs at ht with hd
        · obtain ⟨hw, hclean⟩ := flushall_done hs hu ht
          exact ⟨hw, fun _ => hclean bp rfl⟩
        · obtain rfl := Option.some.inj ht
          refine ⟨Wrote.refl hs, fun hbp => ?_⟩
          simpa [hbp] using hd
      obtain ⟨hw, hbp⟩ := hturn
      have hut : Unique t := hu.of_dev hw.kept.blocknr hw.kept.dev
      obtain ⟨hw', hrest⟩ := ih t c' hw.served hut he
      refine ⟨hw.trans hw', fun x hx hdev => ?_⟩
      have hdev' : t.b_dev x ≠ NO_DEV := by rwa [hw.dev]
      rcases List.mem_cons.mp hx with rfl | hx
      · exact hw'.clean hdev' (hbp hdev)
      · exact hrest x hx hdev'
  obtain ⟨hw, hclean⟩ := hloop _ c c' hs hu he
  exact ⟨hw, fun x => hclean x (List.mem_finRange x)⟩

/-- The flush in `get_block` leaves the buffer that is taken clean. -/
theorem cleanTaken_done (hs : Served c) (hu : Unique c) (he : cleanTaken c bp = some c') :
    Wrote c c' ∧ (c.b_dev bp ≠ NO_DEV → c'.b_dirt bp = false) := by
  unfold cleanTaken at he
  split_ifs at he with hd
  · obtain ⟨hw, hclean⟩ := flushall_done hs hu he
    exact ⟨hw, fun _ => hclean bp rfl⟩
  · obtain rfl := Option.some.inj he
    refine ⟨Wrote.refl hs, fun hbp => ?_⟩
    simpa [hbp] using hd

/-! ## Reading -/

/-- One block is read. -/
theorem rwBlock_read (hs : Served c) (hbp : c.b_dev bp ≠ NO_DEV) :
    rwBlock c bp .READING = { c with
      b_data := Function.update c.b_data bp (onDisk c bp)
      io := c.io.tail
      b_dirt := Function.update c.b_dirt bp false } := by
  unfold rwBlock rwDevice
  rw [if_pos hbp, hs.head]
  rfl

/-- The driver goes through a queue of reads: a buffer has its block if the result says so. -/
theorem serve_read (hs : Served c) (hq : bufq.Nodup) (dev : ℕ) :
    Served (serve c dev .READING bufq).2 ∧
      ∀ r ∈ bufq.zip (serve c dev .READING bufq).1, r.2 = 0 →
        (serve c dev .READING bufq).2.b_data r.1 = c.disk dev (c.b_blocknr r.1) := by
  induction bufq generalizing c with
  | nil => exact ⟨hs, by simp⟩
  | cons bp bufq ih =>
    obtain ⟨hnot, hnd⟩ := List.nodup_cons.mp hq
    have hs' : Served (transfer { c with opt := c.opt.tail } dev bp .READING (c.opt.headD none)) :=
      hs.of_suffix (List.suffix_refl _) (List.tail_suffix _)
    obtain ⟨hserved, hdata⟩ := ih hs' hnd
    refine ⟨hserved, fun r hr hr0 => ?_⟩
    rcases List.mem_cons.mp hr with rfl | hr
    · have hnone : c.opt.headD none = none := by
        cases ho : c.opt with
        | nil => rfl
        | cons o os =>
          refine hs.2 o (by rw [ho]; exact List.mem_cons_self) ?_
          have hr0 : (c.opt.headD none).io_nbytes = 0 := hr0
          rwa [ho] at hr0
      have hlater : (serve c dev .READING (bp :: bufq)).2.b_data bp =
          (transfer { c with opt := c.opt.tail } dev bp .READING (c.opt.headD none)).b_data bp :=
        serve_data_of_notMem hnot
      rw [hlater, hnone]
      exact Function.update_self ..
    · exact hdata r hr hr0

/-- Harvesting validates the buffers that were read. -/
theorem harvest_reading_mem (dev : ℕ) (rs : List (Buf × ℤ)) (hnd : (rs.map Prod.fst).Nodup)
    (hfree : ∀ x ∈ rs.map Prod.fst, c.b_dev x = NO_DEV) :
    ∀ r ∈ rs, (rs.foldl (harvest dev .READING) c).b_dev r.1 = NO_DEV ∨
      (rs.foldl (harvest dev .READING) c).b_dev r.1 = dev ∧ r.2 = 0 := by
  induction rs generalizing c with
  | nil => simp
  | cons r rs ih =>
    obtain ⟨hnot, hnd⟩ := List.nodup_cons.mp hnd
    intro r' hr'
    rw [List.foldl_cons]
    rcases List.mem_cons.mp hr' with rfl | hr'
    · rw [(harvest_reading_of_notMem rs hnot).2, harvest_reading]
      dsimp only
      split_ifs with h0
      · exact Or.inr ⟨Function.update_self .., h0⟩
      · exact Or.inl (hfree r'.1 List.mem_cons_self)
    · refine ih hnd (fun x hx => ?_) r' hr'
      have hne : x ≠ r.1 := fun e => hnot (e ▸ hx)
      rw [harvest_reading]
      dsimp only
      split_ifs
      · rw [Function.update_of_ne hne]
        exact hfree x (List.mem_cons_of_mem _ hx)
      · exact hfree x (List.mem_cons_of_mem _ hx)

/-- Harvesting changes neither the devices nor which buffers are dirty. -/
theorem harvest_reading_frame (rs : List (Buf × ℤ)) :
    (rs.foldl (harvest dev .READING) c).disk = c.disk ∧
      (rs.foldl (harvest dev .READING) c).b_dirt = c.b_dirt ∧
      (rs.foldl (harvest dev .READING) c).b_data = c.b_data ∧
      (rs.foldl (harvest dev .READING) c).io = c.io ∧
      (rs.foldl (harvest dev .READING) c).opt = c.opt := by
  induction rs generalizing c with
  | nil => exact ⟨rfl, rfl, rfl, rfl, rfl⟩
  | cons r rs ih =>
    rw [List.foldl_cons]
    obtain ⟨h₁, h₂, h₃, h₄, h₅⟩ := ih (c := harvest dev .READING c r)
    rw [h₁, h₂, h₃, h₄, h₅, harvest_reading]
    exact ⟨rfl, rfl, rfl, rfl, rfl⟩

/-- A queue of prefetched buffers is read. -/
theorem Prefetched.readIn (hq : Prefetched c dev bufq) (hs : Served c)
    (he : rwScattered c dev bufq .READING = some c') : ReadIn dev bufq c c' := by
  rw [rwScattered_reading hq.bufs_nodup] at he
  have hperm := sortBufs_perm c.b_blocknr bufq
  generalize sortBufs c.b_blocknr bufq = q at hperm he
  obtain rfl := Option.some.inj he
  have hnd := hperm.nodup_iff.mpr hq.bufs_nodup
  have hmap := map_fst_zip_serve c dev .READING q
  obtain ⟨hserved, hdata⟩ := serve_read hs hnd dev
  obtain ⟨hd, ht, hb, hio, hopt⟩ := @harvest_reading_frame (Fs.serve c dev .READING q).2 dev
    (q.zip (Fs.serve c dev .READING q).1)
  refine ⟨hserved.congr hio hopt, hd.trans (Fs.serve_reading ..).1, ht.trans (serve_dirt ..),
    fun x hx => ?_⟩
  rw [← hperm.mem_iff, ← hmap] at hx
  obtain ⟨r, hr, rfl⟩ := List.mem_map.mp hx
  have hmem := harvest_reading_mem dev (q.zip (Fs.serve c dev .READING q).1)
    (c := (Fs.serve c dev .READING q).2) (by rwa [hmap]) (fun y hy => ?_) r hr
  · refine hmem.imp id fun ⟨hdev, h0⟩ => ⟨hdev, ?_⟩
    exact (congrFun hb r.1).trans (hdata r hr h0)
  · rw [serve_dev]
    rw [hmap, hperm.mem_iff] at hy
    exact hq.free y hy

/-! ## Errors that are reported -/

/-- Only reads that fail are reported. -/
theorem rwBlock_writing_err (c : Cache) (bp : Buf) :
    (rwBlock c bp .WRITING).rdwt_err = c.rdwt_err := by
  unfold rwBlock
  dsimp only
  split_ifs
  · unfold rwDevice
    dsimp only
    split_ifs <;> rfl
  · rfl

/-- Putting a block reads nothing. -/
theorem putBlock_err (c : Cache) (bp : Option Buf) (block_type : ℕ) :
    (putBlock c bp block_type).rdwt_err = c.rdwt_err := by
  have hrelease : ∀ (c : Cache) (bp : Buf), (releaseBuf c bp block_type).rdwt_err = c.rdwt_err := by
    intro c bp
    unfold releaseBuf
    dsimp only
    split_ifs
    · exact rwBlock_writing_err c bp
    · rfl
    · exact rwBlock_writing_err c bp
    · rfl
  cases bp with
  | none => rfl
  | some bp =>
    unfold putBlock
    dsimp only
    split_ifs
    · rfl
    · exact hrelease _ bp

/-- The results of a queue are not reported. -/
theorem rwScattered_err (he : rwScattered c dev bufq rw_flag = some c') :
    c'.rdwt_err = c.rdwt_err := by
  have hserve : ∀ (q : List Buf) (c : Cache), (serve c dev rw_flag q).2.rdwt_err = c.rdwt_err := by
    intro q
    induction q with
    | nil => exact fun _ => rfl
    | cons bp q ih => cases rw_flag <;> exact fun c => ih _
  have hharvest : ∀ (rs : List (Buf × ℤ)) (c : Cache),
      (rs.foldl (harvest dev rw_flag) c).rdwt_err = c.rdwt_err := by
    intro rs
    induction rs with
    | nil => exact fun _ => rfl
    | cons r rs ih =>
      intro c
      rw [List.foldl_cons, ih]
      cases rw_flag with
      | READING =>
        unfold harvest
        dsimp only
        rw [putBlock_err]
        split_ifs <;> rfl
      | WRITING => rfl
  unfold rwScattered at he
  split_ifs at he
  · rw [← Option.some.inj he]
  · obtain rfl := Option.some.inj he
    unfold rwSorted
    dsimp only
    rw [hharvest, hserve]

/-- The flush in `get_block` reports nothing. -/
theorem cleanTaken_err (he : cleanTaken c bp = some c') : c'.rdwt_err = c.rdwt_err := by
  unfold cleanTaken at he
  split_ifs at he
  · exact rwScattered_err he
  · rw [← Option.some.inj he]

end Minix.Fs
