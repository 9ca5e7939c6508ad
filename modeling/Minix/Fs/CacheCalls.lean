import Minix.Fs.CacheInv
import Minix.Lib.Run

/-!
# Returning buffers, and runs of calls

`put_block` and `rw_scattered` for reading keep the invariant of the cache, and so does every `Call`
(`Call.inv`). A buffer with a hold of the `base` keeps its block and its contents in every call, and
its device unless a driver fails or the device is invalidated (`Call.keeps`).
-/

namespace Minix.Fs

open Lib

variable {s s' : Session} {c c' : Cache} {dev block : ℕ} {bp x : Buf} {bufq : List Buf}
  {base held : Buf → ℕ} {a : CacheCall}

/-! ## Putting a block -/

/-- The write and the invalidation at the end of `put_block`. -/
theorem releaseBuf_kept (c : Cache) (bp : Buf) (block_type : ℕ) :
    Kept c (releaseBuf c bp block_type) := by
  have hwrite : ∀ p : Prop, [Decidable p] →
      Kept c (if p then rwBlock c bp .WRITING else c) := fun p _ => by
    split_ifs
    · exact rwBlock_kept c bp
    · exact Kept.refl c
  have hzuper : ∀ t : Cache, Kept c t → ∀ p : Prop, [Decidable p] →
      Kept c (if p then { t with b_dev := Function.update t.b_dev bp NO_DEV } else t) := by
    intro t ht p _
    split_ifs
    · refine ht.trans ⟨rfl, rfl, rfl, fun x => ?_⟩
      dsimp only
      by_cases hx : x = bp
      · simp [hx]
      · simp [hx]
    · exact ht
  unfold releaseBuf
  exact hzuper _ (hwrite _) _

/-- Apart from the links, `put_block` only writes a block back and takes the device from it. -/
theorem putBlock_kept (c : Cache) (bp : Buf) (block_type : ℕ) :
    Kept { c with toLinks := putLinks c.toLinks bp block_type }
      (putBlock c (some bp) block_type) := by
  unfold putBlock putLinks
  dsimp only
  split_ifs
  · exact Kept.refl _
  · exact releaseBuf_kept { c with toLinks := relinkBuf _ bp block_type } bp block_type

/-- Putting a data block does no more than link it. -/
theorem putBlock_data {block_type : ℕ} (himmed : block_type &&& WRITE_IMMED = 0)
    (hzuper : block_type ≠ ZUPER_BLOCK) :
    putBlock c (some bp) block_type = { c with toLinks := putLinks c.toLinks bp block_type } := by
  unfold putBlock putLinks releaseBuf
  dsimp only
  split_ifs <;> first | rfl | tauto

/-- Blocks of the cache that lose their device do not come to be the same. -/
theorem Unique.of_dev (h : Unique c) (hblocknr : c'.b_blocknr = c.b_blocknr)
    (hdev : ∀ x, c'.b_dev x = c.b_dev x ∨ c'.b_dev x = NO_DEV) : Unique c' := by
  intro x y hne hd hb
  have hx := (hdev x).resolve_right hne
  have hy := (hdev y).resolve_right (hd ▸ hne)
  rw [hblocknr] at hb
  exact h x y (hx ▸ hne) (hx.symm.trans (hd.trans hy)) hb

/-- What is only written back keeps the invariant. -/
theorem CacheInv.kept (h : CacheInv ⟨c, held⟩) (hk : Kept c c') : CacheInv ⟨c', held⟩ where
  linked := by
    dsimp only
    rw [hk.links]
    exact h.linked
  in_use := by
    dsimp only
    rw [hk.links]
    exact h.in_use
  count := (congrArg Links.b_count hk.links).trans h.count
  bound := h.bound
  unique := h.unique.of_dev hk.blocknr hk.dev

/-- The links of a buffer that is put. -/
theorem CacheInv.putLinks (h : CacheInv s) (hheld : 0 < s.held bp) (block_type : ℕ) :
    CacheInv ⟨{ s.cache with toLinks := putLinks s.cache.toLinks bp block_type },
      Function.update s.held bp (s.held bp - 1)⟩ := by
  obtain ⟨lru, hash, hl⟩ := h.linked
  obtain ⟨lru', hl'⟩ := hl.put bp block_type
  have hpos : 0 < s.cache.b_count bp := by rw [h.count]; exact hheld
  have hlt : s.cache.b_count bp < 256 := by rw [h.count]; exact h.bound bp
  refine ⟨⟨lru', hash, hl'⟩, h.in_use.put hpos hlt block_type, ?_, fun x => ?_,
    h.unique.of_dev (putLinks_blocknr ..) fun x => Or.inl rfl⟩
  · dsimp only
    rw [putLinks_count hpos hlt, h.count]
  · have := h.bound x
    dsimp only
    by_cases hx : x = bp
    · subst hx
      rw [Function.update_self]
      omega
    · rw [Function.update_of_ne hx]
      exact this

/-- `put_block` keeps the invariant, with one hold fewer. -/
theorem CacheInv.put (h : CacheInv s) (hheld : 0 < s.held bp) (block_type : ℕ) :
    CacheInv ⟨putBlock s.cache (some bp) block_type,
      Function.update s.held bp (s.held bp - 1)⟩ :=
  (h.putLinks hheld block_type).kept (putBlock_kept s.cache bp block_type)

/-- Every buffer stays when one is put. -/
theorem putBlock_stays (c : Cache) (bp : Buf) (block_type : ℕ) (x : Buf) :
    Stays x c (putBlock c (some bp) block_type) := by
  have hk := (putBlock_kept c bp block_type).stays x
  refine ⟨?_, hk.data, hk.dev⟩
  rw [hk.blocknr]
  exact congrFun (putLinks_blocknr c.toLinks bp block_type) x

/-! ## Reading a queue -/

/-- Harvesting a read validates the block if it was read, and puts it. -/
theorem harvest_reading (c : Cache) (dev : ℕ) (r : Buf × ℤ) :
    harvest dev .READING c r = { c with
      toLinks := Fs.putLinks c.toLinks r.1 PARTIAL_DATA_BLOCK
      b_dev := if r.2 = 0 then Function.update c.b_dev r.1 dev else c.b_dev } := by
  unfold harvest
  dsimp only
  rw [putBlock_data (by decide) (by decide)]
  split_ifs <;> rfl

/-- Validating a prefetched block keeps the invariant, since no other buffer has the block. -/
theorem CacheInv.validate (h : CacheInv ⟨c, held⟩)
    (habsent : Absent c dev (c.b_blocknr bp)) :
    CacheInv ⟨{ c with b_dev := Function.update c.b_dev bp dev }, held⟩ := by
  refine ⟨h.linked, h.in_use, h.count, h.bound, fun x y hne hd hb => ?_⟩
  dsimp only at hne hd hb
  by_cases hx : x = bp
  · by_cases hy : y = bp
    · rw [hx, hy]
    · rw [hx, Function.update_self] at hne
      rw [hx, Function.update_self, Function.update_of_ne hy] at hd
      rw [hx] at hb
      exact absurd hb.symm (habsent hne y hd.symm)
  · rw [Function.update_of_ne hx] at hne hd
    by_cases hy : y = bp
    · rw [hy, Function.update_self] at hd
      rw [hy] at hb
      exact absurd hb (habsent (hd ▸ hne) x hd)
    · rw [Function.update_of_ne hy] at hd
      exact h.unique x y hne hd hb

/-- The holds of a queue are returned one after the other. -/
theorem returned_cons (hx : x ∉ bufq) :
    returned (Function.update held x (held x - 1)) bufq = returned held (x :: bufq) := by
  funext y
  unfold returned
  by_cases hy : y = x
  · subst hy
    simp [hx]
  · simp [hy]

/-- One result is harvested: the rest of the queue is still one of prefetched buffers. -/
theorem Prefetched.harvest {r : Buf × ℤ} (h : CacheInv ⟨c, held⟩)
    (hq : Prefetched c dev (r.1 :: bufq)) (hheld : 0 < held r.1) :
    CacheInv ⟨harvest dev .READING c r, Function.update held r.1 (held r.1 - 1)⟩ ∧
      Prefetched (Fs.harvest dev .READING c r) dev bufq ∧ r.1 ∉ bufq := by
  obtain ⟨hnot, hnd⟩ := List.nodup_cons.mp hq.nodup
  have hr : r.1 ∉ bufq := fun hm => hnot (List.mem_map_of_mem hm)
  have hfree := hq.free r.1 (by simp)
  rw [harvest_reading]
  refine ⟨?_, ⟨?_, fun x hx => ?_, fun x hx hdev y hy => ?_⟩, hr⟩
  · split_ifs
    · exact (h.validate (hq.absent r.1 (by simp))).putLinks hheld PARTIAL_DATA_BLOCK
    · exact h.putLinks hheld PARTIAL_DATA_BLOCK
  · dsimp only
    rw [putLinks_blocknr]
    exact hnd
  · have hne : x ≠ r.1 := fun e => hr (e ▸ hx)
    have := hq.free x (List.mem_cons_of_mem _ hx)
    dsimp only
    split_ifs
    · rw [Function.update_of_ne hne]
      exact this
    · exact this
  · -- Only the block just validated is new in the cache.
    have hold := hq.absent x (List.mem_cons_of_mem _ hx) hdev y
    dsimp only at hy ⊢
    rw [putLinks_blocknr]
    by_cases hyr : y = r.1
    · intro e
      exact hnot (hyr ▸ e ▸ List.mem_map_of_mem hx)
    · split_ifs at hy
      · rw [Function.update_of_ne hyr] at hy
        exact hold hy
      · exact hold hy

/-- All results are harvested. -/
theorem Prefetched.harvest_all (rs : List (Buf × ℤ)) (h : CacheInv ⟨c, held⟩)
    (hq : Prefetched c dev (rs.map Prod.fst)) (hheld : ∀ x ∈ rs.map Prod.fst, 0 < held x) :
    CacheInv ⟨rs.foldl (Fs.harvest dev .READING) c, returned held (rs.map Prod.fst)⟩ := by
  induction rs generalizing c held with
  | nil => exact h
  | cons r rs ih =>
    obtain ⟨hinv, hq', hr⟩ := hq.harvest h (hheld r.1 (by simp))
    rw [List.map_cons, ← returned_cons hr]
    refine ih hinv hq' fun x hx => ?_
    have hne : x ≠ r.1 := fun e => hr (e ▸ hx)
    rw [Function.update_of_ne hne]
    exact hheld x (List.mem_cons_of_mem _ hx)

/-- The buffers of a queue of prefetched ones are distinct. -/
theorem Prefetched.bufs_nodup (h : Prefetched c dev bufq) : bufq.Nodup := h.nodup.of_map _

/-- The order of the queue does not matter. -/
theorem Prefetched.perm {bufq' : List Buf} (h : Prefetched c dev bufq) (hp : bufq'.Perm bufq) :
    Prefetched c dev bufq' where
  nodup := (hp.map _).nodup_iff.mpr h.nodup
  free x hx := h.free x (hp.mem_iff.mp hx)
  absent x hx := h.absent x (hp.mem_iff.mp hx)

/-- `rw_scattered` sorts a queue that fits and reads it. -/
theorem rwScattered_reading (h : bufq.Nodup) :
    rwScattered c dev bufq .READING = some (rwSorted c dev (sortBufs c.b_blocknr bufq) .READING) := by
  have hlen := h.length_le_card
  rw [Fintype.card_fin] at hlen
  unfold rwScattered
  split_ifs with h₀
  · have hnil : sortBufs c.b_blocknr bufq = [] :=
      List.length_eq_zero_iff.mp ((sortBufs_perm c.b_blocknr bufq).length_eq.trans h₀)
    rw [hnil]
    rfl
  · omega
  · rfl

/-- The results of a queue, with the buffers. -/
theorem map_fst_zip_serve (c : Cache) (dev : ℕ) (rw_flag : RwFlag) (bufq : List Buf) :
    (bufq.zip (serve c dev rw_flag bufq).1).map Prod.fst = bufq :=
  List.map_fst_zip (by rw [serve_length])

/-- The i/o of a queue leaves the invariant alone. -/
theorem CacheInv.serve (h : CacheInv ⟨c, held⟩) (dev : ℕ) (rw_flag : RwFlag) (bufq : List Buf) :
    CacheInv ⟨(Fs.serve c dev rw_flag bufq).2, held⟩ where
  linked := by
    dsimp only
    rw [serve_links]
    exact h.linked
  in_use := by
    dsimp only
    rw [serve_links]
    exact h.in_use
  count := by
    dsimp only
    rw [serve_links]
    exact h.count
  bound := h.bound
  unique := h.unique.of_dev (by rw [serve_links]) fun x => by simp

/-- The i/o of a queue leaves the queue alone. -/
theorem Prefetched.serve {bufq' : List Buf} (h : Prefetched c dev bufq) (rw_flag : RwFlag) :
    Prefetched (Fs.serve c dev rw_flag bufq').2 dev bufq := by
  have hdev := serve_dev c dev rw_flag bufq'
  have hlinks := serve_links c dev rw_flag bufq'
  refine ⟨?_, fun x hx => ?_, fun x hx => ?_⟩
  · rw [hlinks]
    exact h.nodup
  · rw [hdev]
    exact h.free x hx
  · unfold Absent
    rw [hdev, hlinks]
    exact h.absent x hx

/-- Reading a queue of prefetched buffers keeps the invariant, and returns them. -/
theorem CacheInv.read (h : CacheInv s) (hq : Prefetched s.cache dev bufq)
    (hheld : ∀ x ∈ bufq, 0 < s.held x) :
    ∃ c, rwScattered s.cache dev bufq .READING = some c ∧ CacheInv ⟨c, returned s.held bufq⟩ := by
  refine ⟨_, rwScattered_reading hq.bufs_nodup, ?_⟩
  have hperm := sortBufs_perm s.cache.b_blocknr bufq
  have hret : returned s.held bufq = returned s.held (sortBufs s.cache.b_blocknr bufq) := by
    funext x
    unfold returned
    simp only [hperm.mem_iff]
  rw [hret]
  generalize sortBufs s.cache.b_blocknr bufq = q at hperm
  have hq' : Prefetched (Fs.serve s.cache dev .READING q).2 dev q :=
    (hq.perm hperm).serve .READING
  have hmap := map_fst_zip_serve s.cache dev .READING q
  unfold rwSorted
  dsimp only
  have := Prefetched.harvest_all _ (h.serve dev .READING q) (by rw [hmap]; exact hq') fun x hx =>
    hheld x (hperm.mem_iff.mp (hmap ▸ hx))
  rwa [hmap] at this

/-- Harvesting leaves the buffers alone that are not in the queue. -/
theorem harvest_reading_of_notMem (rs : List (Buf × ℤ)) (hx : x ∉ rs.map Prod.fst) :
    (rs.foldl (harvest dev .READING) c).b_data = c.b_data ∧
      (rs.foldl (harvest dev .READING) c).b_dev x = c.b_dev x := by
  induction rs generalizing c with
  | nil => exact ⟨rfl, rfl⟩
  | cons r rs ih =>
    obtain ⟨hne, hx⟩ := not_or.mp (mt List.mem_cons.mpr hx)
    obtain ⟨hdata, hdev⟩ := ih (c := harvest dev .READING c r) hx
    rw [List.foldl_cons, hdata, hdev, harvest_reading]
    refine ⟨rfl, ?_⟩
    dsimp only
    split_ifs
    · exact Function.update_of_ne hne _ _
    · rfl

/-- Harvesting leaves the block numbers as they are. -/
theorem harvest_reading_blocknr (rs : List (Buf × ℤ)) :
    (rs.foldl (harvest dev .READING) c).b_blocknr = c.b_blocknr := by
  induction rs generalizing c with
  | nil => rfl
  | cons r rs ih =>
    rw [List.foldl_cons, ih, harvest_reading]
    exact putLinks_blocknr ..

/-- Reading a queue leaves the block numbers as they are. -/
theorem Prefetched.read_blocknr (hq : Prefetched c dev bufq)
    (he : rwScattered c dev bufq .READING = some c') : c'.b_blocknr = c.b_blocknr := by
  rw [rwScattered_reading hq.bufs_nodup] at he
  obtain rfl := Option.some.inj he
  unfold rwSorted
  dsimp only
  rw [harvest_reading_blocknr, serve_links]

/-- A buffer that is not in a queue that is read keeps its device and its contents. -/
theorem Prefetched.read_keeps (hq : Prefetched c dev bufq) (hx : x ∉ bufq)
    (he : rwScattered c dev bufq .READING = some c') :
    c'.b_dev x = c.b_dev x ∧ c'.b_data x = c.b_data x := by
  rw [rwScattered_reading hq.bufs_nodup] at he
  have hperm := sortBufs_perm c.b_blocknr bufq
  have hx' := mt hperm.mem_iff.mp hx
  generalize sortBufs c.b_blocknr bufq = q at hperm hx' he
  obtain rfl := Option.some.inj he
  have hmap := map_fst_zip_serve c dev .READING q
  obtain ⟨hdata, hdev⟩ := @harvest_reading_of_notMem (Fs.serve c dev .READING q).2 dev x
    (q.zip (Fs.serve c dev .READING q).1) (by rw [hmap]; exact hx')
  constructor
  · exact hdev.trans (by rw [serve_dev])
  · exact (congrFun hdata x).trans (serve_data_of_notMem hx')

/-- The buffers stay that are not in a queue that is read. -/
theorem Prefetched.read_stays (hq : Prefetched c dev bufq) (hx : x ∉ bufq)
    (he : rwScattered c dev bufq .READING = some c') : Stays x c c' := by
  obtain ⟨hdev, hdata⟩ := hq.read_keeps hx he
  exact ⟨by rw [hq.read_blocknr he], hdata, Or.inl hdev⟩

/-! ## Runs of calls -/

/-- Every call keeps the invariant. -/
theorem Call.inv (h : Call base s a s') (hinv : CacheInv s) : CacheInv s' := by
  cases h with
  | get hroom he => exact (getBlock_got_of_eq hinv hroom he).inv hinv hroom
  | put hheld => exact hinv.put (Nat.zero_lt_of_lt hheld) _
  | read hq hheld he =>
    obtain ⟨c, he', hinv'⟩ := hinv.read hq fun x hx => (hheld x hx).2
    obtain rfl := Option.some.inj (he'.symm.trans he)
    exact hinv'

/-- No call returns a hold of the base. -/
theorem Call.base_le (h : Call base s a s') (hbase : base ≤ s.held) : base ≤ s'.held := by
  intro x
  have hx : base x ≤ s.held x := hbase x
  cases h with
  | @get dev block only_search bp c hroom he =>
    show base x ≤ Function.update s.held bp (s.held bp + 1) x
    by_cases hxb : x = bp
    · subst hxb
      rw [Function.update_self]
      omega
    · rwa [Function.update_of_ne hxb]
  | @put bp block_type hheld =>
    show base x ≤ Function.update s.held bp (s.held bp - 1) x
    by_cases hxb : x = bp
    · subst hxb
      rw [Function.update_self]
      omega
    · rwa [Function.update_of_ne hxb]
  | @read dev bufq c hq hheld he =>
    show base x ≤ returned s.held bufq x
    unfold returned
    split_ifs with hm
    · have := hheld x hm
      omega
    · exact hx

/-- A buffer that is held stays, unless it is in a queue that is read. -/
theorem Call.held_stays (h : Call base s a s') (hinv : CacheInv s) (hx : s.held x ≠ 0)
    (hread : ∀ dev bufq, a = .read dev bufq → x ∉ bufq) : Stays x s.cache s'.cache := by
  cases h with
  | get hroom he =>
    exact (getBlock_got_of_eq hinv hroom he).stays (Or.inr (by rw [hinv.count]; exact hx))
  | put hheld => exact putBlock_stays ..
  | read hq hheld he => exact hq.read_stays (hread _ _ rfl) he

/-- A buffer with a hold of the base stays. -/
theorem Call.base_stays (h : Call base s a s') (hinv : CacheInv s) (hbase : base ≤ s.held)
    (hx : base x ≠ 0) : Stays x s.cache s'.cache := by
  have hheld : s.held x ≠ 0 := by
    have : base x ≤ s.held x := hbase x
    omega
  refine h.held_stays hinv hheld fun dev bufq e hm => ?_
  subst e
  cases h with
  | read hq hret he => exact hx (hret x hm).1

end Minix.Fs
