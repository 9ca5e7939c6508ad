import Minix.Fs.Chunk

/-!
# A chunk of a file is read

The zones of a file are distinct, so that the blocks that `rahead` asks for are distinct too, of the
file itself and of its map: it keeps to what `RaheadDistinct` supposes. Hence a chunk that is read
has the bytes of the file.
-/

namespace Minix.Fs

open Lib

variable {sp : SuperBlock} {s s' : Session} {L L' : Contents} {rip rip' : Inode} {base held : Buf → ℕ}
  {call : CacheCall} {b z position off chunk : ℕ} {x : Buf}

/-! ## Calls on a mounted device -/

/-- A block that is put may only lose its own device, when the drivers serve every request. -/
theorem releaseBuf_dev {c : Cache} {bp : Buf} (hs : Served c) (hne : x ≠ bp) (block_type : ℕ) :
    (releaseBuf c bp block_type).b_dev x = c.b_dev x := by
  have hwrite : (rwBlock c bp .WRITING).b_dev = c.b_dev := by
    unfold rwBlock
    dsimp only
    split_ifs
    · unfold rwDevice
      rw [hs.head]
      rfl
    · rfl
  have hif : ∀ p : Prop, [Decidable p] → (if p then rwBlock c bp .WRITING else c).b_dev = c.b_dev := by
    intro p _
    split_ifs
    · exact hwrite
    · rfl
  unfold releaseBuf
  dsimp only
  by_cases hz : block_type = ZUPER_BLOCK
  · rw [if_pos hz]
    dsimp only
    rw [Function.update_of_ne hne, hif]
  · rw [if_neg hz, hif]

/-- The device of a buffer with a hold of the base stays, when the drivers serve every request. -/
theorem Call.base_dev (hc : Call base s call s') (h : Faithful s ∅ L) (hbase : base ≤ s.held)
    (hx : base x ≠ 0) : s'.cache.b_dev x = s.cache.b_dev x := by
  have hle : base x ≤ s.held x := hbase x
  cases hc with
  | get hroom he =>
    exact ((getBlock_got_of_eq h.inv hroom he).held_keeps h (by omega)).1
  | @put bp block_type hheld =>
    dsimp only
    unfold putBlock
    dsimp only
    split_ifs with hcount
    · rfl
    · -- The buffer is not used any more, so that it is another one.
      have hne : x ≠ bp := by
        rintro rfl
        refine hcount ?_
        rw [Function.update_self, congrFun h.inv.count x, char8_pred (by omega) (h.inv.bound x)]
        omega
      refine (releaseBuf_dev ?_ hne block_type).trans rfl
      exact h.served.congr rfl rfl
  | read hq hret he => exact (hq.read_keeps (fun hm => hx (hret x hm).1) he).1

/-- A call that leaves no block to be overwritten leaves the device mounted. -/
theorem Mounted.of_call (h : Mounted sp s L) (hc : Call base s call s') (ha : call.Plain)
    (hbase : base ≤ s.held) (hzmap : ∀ bp ∈ sp.s_zmap, 0 < base bp) : Mounted sp s' L := by
  refine ⟨?_, (hc.err h.faithful).trans h.quiet, fun j bp hbp => ?_⟩
  · have := hc.faithful h.faithful fun bp type _ hf => absurd hf (Set.notMem_empty _)
    rwa [gotFresh_plain ha, Set.union_empty] at this
  · have hpos : base bp ≠ 0 := Nat.pos_iff_ne_zero.mp (hzmap bp (List.mem_of_getElem? hbp))
    rw [hc.base_dev h.faithful hbase hpos, (hc.base_stays h.faithful.inv hbase hpos).blocknr]
    exact h.zmap j bp hbp

/-- A run of such calls does so. -/
theorem Mounted.reads (h : Mounted sp s L) (hr : Reads base s s') (hbase : base ≤ s.held)
    (hzmap : ∀ bp ∈ sp.s_zmap, 0 < base bp) : Mounted sp s' L := by
  have : Mounted sp s' L ∧ base ≤ s'.held := by
    refine hr.invariant (P := fun t => Mounted sp t L ∧ base ≤ t.held) ⟨h, hbase⟩ ?_
    exact fun t a t' ⟨ht, hb⟩ hc ha => ⟨ht.of_call hc ha hb hzmap, hc.base_le hb⟩
  exact this.1

/-! ## Distinct blocks -/

/-- A block is one of the file itself, in front of a position. -/
def BlockBefore (sp : SuperBlock) (L : Contents) (rip : Inode) (position b : ℕ) : Prop :=
  ∃ p, p / BLOCK_SIZE < position / BLOCK_SIZE ∧
    zoneRef sp L rip (.data (sp.zoneOf p)) ≠ NO_ZONE ∧ b = dataBlock sp L rip p

/-- What the loop of `rahead` keeps to on a file: what waits in its queue is in front of its
position. -/
structure AheadOk (sp : SuperBlock) (base : Buf → ℕ) (L : Contents) (e : Readahead) (a : Ahead) :
    Prop where
  queued : Queued base (raheadDev e.rip) a.cache a.read_q
  mounted : Mounted sp ⟨a.cache, withQueue base a.read_q⟩ L
  waiting : ∀ b ∈ a.waiting, BlockBefore sp L e.rip a.position b

/-- The block of a position is not one in front of it. -/
theorem BlockBefore.ne_blockAt (hok : FileOk sp L rip) (hsp : sp.Ok)
    (h : BlockBefore sp L rip position b) : b ≠ blockAt sp L rip position := by
  obtain ⟨p, hlt, hp, rfl⟩ := h
  intro e
  by_cases h0 : zoneRef sp L rip (.data (sp.zoneOf position)) = NO_ZONE
  · have hno : blockAt sp L rip position = NO_BLOCK := if_pos h0
    exact hsp.block_ne (hok.zone _ hp).1 (sp.boff_lt p) (e.trans hno)
  · have hat : blockAt sp L rip position = zoneBlock (zoneRef sp L rip (.data (sp.zoneOf position)))
        sp.s_log_zone_size (sp.boff position) := if_neg h0
    obtain ⟨hz, hb⟩ := hsp.zoneBlock_inj (hok.zone _ hp).1 (hok.zone _ h0).1 (sp.boff_lt p)
      (sp.boff_lt position) (e.trans hat)
    have := sp.block_eq (Ref.data.inj (hok.inj _ _ hp hz)) hb
    omega

/-- An indirect block is not one of the file itself. -/
theorem BlockBefore.ne_indirect (hok : FileOk sp L rip) (hsp : sp.Ok)
    (h : BlockBefore sp L rip position b) {r : Ref} (hr : r.indirect = true)
    (h0 : zoneRef sp L rip r ≠ NO_ZONE) :
    b ≠ zoneBlock (zoneRef sp L rip r) sp.s_log_zone_size 0 := by
  obtain ⟨p, -, hp, rfl⟩ := h
  intro e
  obtain ⟨hz, -⟩ := hsp.zoneBlock_inj (hok.zone _ hp).1 (hok.zone _ h0).1 (sp.boff_lt p)
    (Nat.two_pow_pos _) e
  rw [← hok.inj _ _ hp hz] at hr
  exact absurd hr (by simp [Ref.indirect])

/-- The indirect blocks that `read_map` gets are those of the file. -/
theorem Mounted.mem_indirectBlocks (h : Mounted sp s L) (hh : Holds sp s.held)
    (hdev : rip.i_dev ≠ NO_DEV) (hb : b ∈ indirectBlocks s.cache rip sp.s_log_zone_size position) :
    ∃ r : Ref, r.indirect = true ∧ zoneRef sp L rip r ≠ NO_ZONE ∧
      b = zoneBlock (zoneRef sp L rip r) sp.s_log_zone_size 0 := by
  unfold indirectBlocks at hb
  dsimp only at hb
  split_ifs at hb with h₁ h₂ h₃ h₄
  · exact absurd hb (by simp)
  · exact absurd hb (by simp)
  · exact ⟨.single, rfl, h₃, List.mem_singleton.mp hb⟩
  · exact absurd hb (by simp)
  · rcases List.mem_cons.mp hb with hb | hb
    · exact ⟨.double, rfl, h₄, hb⟩
    · obtain ⟨c, he, -⟩ := h.indirEntry hh hdev (zoneBlock (rip.i_zone 8) sp.s_log_zone_size 0)
        (((position / BLOCK_SIZE) >>> sp.s_log_zone_size - NR_DZONE_NUM - NR_INDIRECTS) /
          NR_INDIRECTS)
      rw [he, ← entry_of_ne h₄] at hb
      dsimp only at hb
      split_ifs at hb with h₅
      · exact absurd hb (by simp)
      · exact ⟨.leaf _, rfl, h₅, List.mem_singleton.mp hb⟩

/-! ## The loop of `rahead` -/

variable {e : Readahead} {c : Cache} {bp : Buf} {n : ℕ} {a a' : Ahead}

theorem le_withQueue {q : List Buf} (hown : ∀ x ∈ q, base x = 0) : base ≤ withQueue base q := by
  intro x
  unfold withQueue
  split_ifs with hx
  · rw [hown x hx]
    exact Nat.zero_le 1
  · exact le_refl _

/-- The zone map is held while a queue waits. -/
theorem Holds.withQueue {q : List Buf} (h : Holds sp base) (hown : ∀ x ∈ q, base x = 0)
    (hroom : Room ⟨c, Fs.withQueue base q⟩) : Holds sp (Fs.withQueue base q) where
  zmap bp hbp := lt_of_lt_of_le (h.zmap bp hbp) (le_withQueue hown bp)
  used := hroom.1
  bound := hroom.2

/-- On a file, a turn asks for blocks that do not wait. -/
theorem AheadOk.distinct (h : AheadOk sp base L e a) (hh : Holds sp base) (hsp : sp.Ok)
    (hok : FileOk sp L e.rip) (hspec : e.rip.blockSpec = false) (hscale : e.scale = sp.s_log_zone_size)
    (hroom : Room ⟨a.cache, withQueue base a.read_q⟩) : TurnDistinct e a := by
  have hdev : e.rip.i_dev ≠ NO_DEV := by
    rw [hok.dev]
    exact hsp.dev
  have hh' := hh.withQueue h.queued.own hroom
  constructor
  · intro _ b hb hw
    rw [hscale] at hb
    obtain ⟨r, hr, h0, rfl⟩ := h.mounted.mem_indirectBlocks hh' hdev hb
    exact (h.waiting _ hw).ne_indirect hok hsp hr h0 rfl
  · intro b c he hw
    obtain ⟨c', he', -⟩ := h.mounted.readMap hh' hdev a.position
    unfold aheadBlock at he
    rw [hspec, if_neg (by decide), hscale] at he
    dsimp only at he'
    obtain ⟨rfl, -⟩ := Prod.mk.inj (Option.some.inj (he'.symm.trans he))
    exact (h.waiting _ hw).ne_blockAt hok hsp rfl

/-- What waits when a block has been put in the queue. -/
theorem Queued.enqueue_waiting (h : Queued base (raheadDev e.rip) a.cache a.read_q)
    (hroom : Room ⟨a.cache, withQueue base a.read_q⟩) (hspec : e.rip.blockSpec = false)
    (hb : b ∉ a.waiting) (he : Fs.enqueue e a b = some a') :
    a'.position = a.position ∧ (a'.waiting = a.waiting ∨
      b ≠ NO_BLOCK ∧ a'.waiting = a.waiting ++ [b]) := by
  unfold Fs.enqueue at he
  split_ifs at he with hno
  · obtain ⟨⟨bp, c⟩, hget, he⟩ := Option.bind_eq_some_iff.mp he
    have hgot := getBlock_got_of_eq h.inv hroom hget
    obtain ⟨-, hmap, -⟩ := h.get hb hgot
    obtain rfl := Option.some.inj he
    split_ifs
    · refine ⟨rfl, Or.inr ⟨hno.resolve_left (by rw [hspec]; decide), ?_⟩⟩
      show (a.read_q ++ [bp]).map c.b_blocknr = a.read_q.map a.cache.b_blocknr ++ [b]
      rw [List.map_append, hmap, List.map_singleton, hgot.blocknr]
    · exact ⟨rfl, Or.inl (h.get_put hroom hb (by decide) hget FULL_DATA_BLOCK).waiting⟩
  · obtain rfl := Option.some.inj he
    exact ⟨rfl, Or.inl rfl⟩

/-- What waits when a block has been prefetched or left. -/
theorem Queued.aheadFetch_waiting (h : Queued base (raheadDev e.rip) a.cache a.read_q)
    (hroom : Room ⟨a.cache, withQueue base a.read_q⟩) (hspec : e.rip.blockSpec = false)
    (hb : b ∉ a.waiting) (he : Fs.aheadFetch e a b = some a') :
    a'.position = a.position ∧ (a'.waiting = a.waiting ∨
      b ≠ NO_BLOCK ∧ a'.waiting = a.waiting ++ [b]) := by
  unfold Fs.aheadFetch at he
  dsimp only at he
  split_ifs at he
  · obtain rfl := Option.some.inj he
    exact ⟨rfl, Or.inl rfl⟩
  · exact h.enqueue_waiting hroom hspec hb he
  · exact Queued.enqueue_waiting (a := { a with max_track := b / blocksPerTrack e.rip }) h
      hroom hspec hb he
  · exact Queued.enqueue_waiting (a := { a with max_track := a.max_track }) h hroom
      hspec hb he

/-- The second part of a turn, on a file. -/
theorem AheadOk.next (h : AheadOk sp base L e a) (hh : Holds sp base) (hsp : sp.Ok)
    (hok : FileOk sp L e.rip) (hspec : e.rip.blockSpec = false) (hscale : e.scale = sp.s_log_zone_size)
    (hroom : Room ⟨a.cache, withQueue base a.read_q⟩)
    (he : aheadNext e a = some a') : AheadOk sp base L e a' := by
  have hd := h.distinct hh hsp hok hspec hscale hroom
  have hdev : e.rip.i_dev ≠ NO_DEV := by
    rw [hok.dev]
    exact hsp.dev
  have hrd : raheadDev e.rip = e.rip.i_dev := by
    unfold raheadDev
    rw [hspec, if_neg (by decide)]
  obtain ⟨a₂, he₂, hadv⟩ := h.queued.aheadNext hroom hd
  obtain rfl := Option.some.inj (he₂.symm.trans he)
  refine ⟨hadv.queued, h.mounted.reads hadv.reads (le_withQueue h.queued.own) hh.zmap, ?_⟩
  -- The block that was looked up is the one of the position.
  obtain ⟨⟨b, c⟩, hblock, hfetch⟩ := Option.bind_eq_some_iff.mp he
  obtain ⟨c₁, hmap, -⟩ := h.mounted.readMap (hh.withQueue h.queued.own hroom) hdev a.position
  have hb := hd.data b c hblock
  have hind := hd.indirect hspec
  unfold aheadBlock at hblock
  rw [hspec, if_neg (by decide), hscale] at hblock
  rw [hscale] at hind
  dsimp only at hmap
  obtain ⟨rfl, rfl⟩ := Prod.mk.inj (Option.some.inj (hmap.symm.trans hblock))
  have hq := h.queued
  rw [hrd] at hq
  obtain ⟨b', c', hmap', hl⟩ := hq.readMap hroom hind
  obtain ⟨-, rfl⟩ := Prod.mk.inj (Option.some.inj (hmap'.symm.trans hmap))
  have hl' := hl.queued
  rw [← hrd] at hl'
  have hroom' : Room ⟨c', withQueue base a.read_q⟩ := hroom
  obtain ⟨hpos, hwait⟩ := Queued.aheadFetch_waiting
    (a := { a with cache := c', position := a.position + BLOCK_SIZE }) hl' hroom' hspec
    (by unfold Ahead.waiting; rw [hl.waiting]; exact hb) hfetch
  have hold : ∀ b ∈ a.waiting, BlockBefore sp L e.rip (a.position + BLOCK_SIZE) b := by
    intro b hb
    obtain ⟨p, hlt, hp, rfl⟩ := h.waiting b hb
    exact ⟨p, hlt.trans_le (Nat.div_le_div_right (Nat.le_add_right _ _)), hp, rfl⟩
  have hsame : Ahead.waiting { a with cache := c', position := a.position + BLOCK_SIZE } =
      a.waiting := hl.waiting
  rw [hsame] at hwait
  intro b hb
  rw [hpos]
  rcases hwait with hw | ⟨hno, hw⟩
  · rw [hw] at hb
    exact hold b hb
  · rw [hw] at hb
    rcases List.mem_append.mp hb with hb | hb
    · exact hold b hb
    · rw [List.mem_singleton.mp hb]
      have h0 : zoneRef sp L e.rip (.data (sp.zoneOf a.position)) ≠ NO_ZONE := fun h0 =>
        hno (if_pos h0)
      refine ⟨a.position, ?_, h0, if_neg h0⟩
      rw [Nat.add_div_right _ (by decide)]
      exact Nat.lt_succ_self _

/-- There is room for a buffer in a turn that does not break off. -/
theorem AheadOk.room (h : AheadOk sp base L e a) (hh : Holds sp base)
    (ht : aheadTurn e a ≠ some none) : Room ⟨a.cache, withQueue base a.read_q⟩ := by
  refine h.queued.room hh.bound ?_
  have hlimit : e.limitBufsInUse ≤ NR_BUFS := by
    unfold Readahead.limitBufsInUse
    split_ifs <;> omega
  unfold aheadTurn at ht
  split_ifs at ht with hbreak
  · exact absurd rfl ht
  all_goals omega

/-- A turn of the loop, on a file. -/
theorem AheadOk.step (h : AheadOk sp base L e a) (hh : Holds sp base) (hsp : sp.Ok)
    (hok : FileOk sp L e.rip) (hspec : e.rip.blockSpec = false) (hscale : e.scale = sp.s_log_zone_size)
    (hst : AheadStep e a a') : AheadOk sp base L e a' := by
  have hroom := h.room hh (by rw [hst]; simp)
  have hnext : ∀ n r, (aheadNext e { a with blocks_ahead := n, reading_ahead := r }).map some =
      some (some a') → AheadOk sp base L e a' := by
    intro n r he
    obtain ⟨a₂, he₂, rfl⟩ : ∃ a₂, aheadNext e { a with blocks_ahead := n, reading_ahead := r } =
        some a₂ ∧ a₂ = a' := by simpa using he
    have h' : AheadOk sp base L e { a with blocks_ahead := n, reading_ahead := r } :=
      ⟨h.queued, h.mounted, h.waiting⟩
    exact h'.next hh hsp hok hspec hscale hroom he₂
  unfold AheadStep aheadTurn at hst
  split_ifs at hst with hbreak hmore hstop
  · exact absurd hst (by simp)
  · exact hnext _ _ hst
  · exact absurd hst (by simp)
  · exact hnext _ _ hst

/-- Every turn of the loop asks for blocks that do not wait, on a file. -/
theorem AheadOk.loop (h : AheadOk sp base L e a) (hh : Holds sp base) (hsp : sp.Ok)
    (hok : FileOk sp L e.rip) (hspec : e.rip.blockSpec = false)
    (hscale : e.scale = sp.s_log_zone_size) : LoopDistinct e a := by
  intro a' hr ht
  have : AheadOk sp base L e a' := by
    induction hr with
    | refl => exact h
    | tail _ hst ih =>
      refine (ih ?_).step hh hsp hok hspec hscale hst
      rw [show aheadTurn e _ = _ from hst]
      simp
  exact this.distinct hh hsp hok hspec hscale (this.room hh ht)

/-- `rahead` asks for distinct blocks, on a file. -/
theorem Mounted.raheadDistinct (h : Mounted sp s L) (hh : Holds sp s.held) (hsp : sp.Ok)
    (hok : FileOk sp L rip) (hspec : rip.blockSpec = false)
    (h0 : zoneRef sp L rip (.data (sp.zoneOf position)) ≠ NO_ZONE) (bytes_ahead : ℕ) :
    RaheadDistinct s.cache rip sp.s_log_zone_size (dataBlock sp L rip position) position
      bytes_ahead := by
  intro bp c he hbp
  have hroom' : Room ⟨s.cache, withQueue s.held []⟩ := by
    rw [withQueue_nil]
    exact hh.room
  obtain ⟨hq, hr⟩ := (Queued.nil (c := s.cache) h.faithful.inv (raheadDev rip)).prefetch hroom'
    (by simp) he hbp
  rw [withQueue_nil] at hr
  have hgot := getBlock_got_of_eq h.faithful.inv hh.room he
  refine AheadOk.loop ⟨hq, h.reads hr (le_refl _) hh.zmap, fun b hb => ?_⟩ hh hsp hok hspec rfl
  have hb : b ∈ [bp].map c.b_blocknr := hb
  rw [List.map_singleton, List.mem_singleton, hgot.blocknr] at hb
  refine ⟨position, ?_, h0, hb⟩
  show position / BLOCK_SIZE < (position - position % BLOCK_SIZE + BLOCK_SIZE) / BLOCK_SIZE
  rw [Nat.add_div_right _ (by decide)]
  unfold BLOCK_SIZE
  omega

/-- `rahead` finds the contents of a block of a file. -/
theorem Mounted.rahead (h : Mounted sp s L) (hh : Holds sp s.held) (hsp : sp.Ok)
    (hok : FileOk sp L rip) (hspec : rip.blockSpec = false)
    (h0 : zoneRef sp L rip (.data (sp.zoneOf position)) ≠ NO_ZONE) (bytes_ahead : ℕ) :
    ∃ bp c, Fs.rahead s.cache rip sp.s_log_zone_size (dataBlock sp L rip position) position
        bytes_ahead = some (bp, c) ∧ c.b_data bp = oldBlock sp L rip position ∧
      Mounted sp ⟨c, Function.update s.held bp (s.held bp + 1)⟩ L := by
  have hd := h.raheadDistinct hh hsp hok hspec h0 bytes_ahead
  obtain ⟨bp, c, t, only_search, he, hr, ht, hcall, hmode⟩ := rahead_spec h.faithful.inv hh.room hd
  obtain ⟨hf, hb, hdev⟩ := h.faithful.rahead hh.room hd he
  have hmt := h.reads hr (le_refl _) hh.zmap
  have hplain : CacheCall.Plain (.get (raheadDev rip) (dataBlock sp L rip position) only_search bp) := by
    rcases hmode with rfl | ⟨rfl, -⟩
    · exact fun e => Search.noConfusion e
    · exact fun e => Search.noConfusion e
  have hm := hmt.of_call hcall hplain (by rw [ht]) hh.zmap
  have hrd : raheadDev rip = sp.s_dev := by
    unfold raheadDev
    rw [hspec, if_neg (by decide), hok.dev]
  rw [hrd] at hdev
  refine ⟨bp, c, he, ?_, hm⟩
  rw [oldBlock_mapped rfl h0]
  exact hm.data_eq hsp (hdev hsp.dev) hb

/-- What `rw_chunk` leaves when it reads. -/
structure ChunkRead (sp : SuperBlock) (L : Contents) (x : Xfer) (off chunk : ℕ) (x' : Xfer) : Prop where
  frame : x' = { x with cache := x'.cache, user := x'.user, r := x.user.copies.headD OK }
  user : x'.user = {
    mem := if x.user.copies.headD OK = OK then
      toUser x.user.mem x.buffer off chunk (oldBlock sp L x.rip x.position) else x.user.mem
    copies := x.user.copies.tail }

/-- A buffer without a block is got and cleared. -/
theorem Mounted.get_hole (h : Mounted sp s L) (hh : Holds sp s.held) (b : ℕ) :
    ∃ bp c, getBlock s.cache NO_DEV b .NORMAL = some (bp, c) ∧
      Mounted sp ⟨zeroBlock c bp, Function.update s.held bp (s.held bp + 1)⟩ L := by
  obtain ⟨bp, c, he, hgot⟩ := getBlock_got h.faithful.inv hh.used NO_DEV b .NORMAL
  have hf := hgot.faithful h.faithful hh.room
  rw [gotFresh_plain (by exact fun e => Search.noConfusion e), Set.union_empty] at hf
  have hm : Mounted sp ⟨c, Function.update s.held bp (s.held bp + 1)⟩ L :=
    ⟨hf, (hgot.err h.faithful).trans h.quiet, h.got_zmap hh hgot⟩
  have hw := hm.write bp fun _ => 0
  dsimp only at hw
  rw [hgot.dev_eq h.faithful (by decide), Contents.set_no_dev] at hw
  exact ⟨bp, c, he, hw⟩

/-- A chunk of a file is read. -/
theorem Mounted.rwChunk_read {x : Xfer} (h : Mounted sp ⟨x.cache, held⟩ L) (hh : Holds sp held)
    (hsp : sp.Ok) (hok : FileOk sp L x.rip) (hspec : x.rip.blockSpec = false) (off chunk : ℕ) :
    ∃ x', rwChunk sp .READING x off chunk = some x' ∧ Mounted sp ⟨x'.cache, held⟩ L ∧
      ChunkRead sp L x off chunk x' := by
  have hdev : x.rip.i_dev ≠ NO_DEV := by
    rw [hok.dev]
    exact hsp.dev
  obtain ⟨c, he, hm⟩ := h.readMap hh hdev x.position
  -- The buffer has what the file has there.
  obtain ⟨bp, c', hbuf, hdata, hm'⟩ : ∃ bp c',
      Fs.chunkBuf x.cache sp x.rip x.position off chunk x.nbytes .READING = some ⟨.ok bp, x.rip, c'⟩ ∧
      c'.b_data bp = oldBlock sp L x.rip x.position ∧
      Mounted sp ⟨c', Function.update held bp (held bp + 1)⟩ L := by
    unfold Fs.chunkBuf chunkBlock
    dsimp only at he
    rw [if_neg (by rw [hspec]; decide), he, Option.bind_eq_bind, Option.bind_some]
    dsimp only
    by_cases h0 : zoneRef sp L x.rip (.data (sp.zoneOf x.position)) = NO_ZONE
    · obtain ⟨bp, c', hr, hm'⟩ := hm.get_hole hh NO_BLOCK
      rw [if_pos ⟨hspec, if_pos h0⟩, oldBlock_hole h0]
      refine ⟨bp, zeroBlock c' bp, ?_, Function.update_self .., hm'⟩
      unfold holeBuf
      dsimp only at hr ⊢
      rw [hr]
      rfl
    · have hat : blockAt sp L x.rip x.position = dataBlock sp L x.rip x.position := if_neg h0
      have hne : dataBlock sp L x.rip x.position ≠ NO_BLOCK :=
        hsp.block_ne (hok.zone _ h0).1 (sp.boff_lt x.position)
      obtain ⟨bp, c', hr, hdata, hm'⟩ := hm.rahead hh hsp hok hspec h0 x.nbytes
      rw [if_neg (by rw [hat]; exact fun e => hne e.2), hat]
      refine ⟨bp, c', ?_, hdata, hm'⟩
      unfold blockBuf
      dsimp only at hr ⊢
      rw [hr]
      rfl
  have hplain : PlainType (if off + chunk = BLOCK_SIZE then FULL_DATA_BLOCK
      else PARTIAL_DATA_BLOCK) := by
    split_ifs
    · exact full_data_plain
    · exact partial_data_plain
  unfold rwChunk
  rw [hbuf, Option.bind_eq_bind, Option.bind_some]
  dsimp only
  have hclear : clearAtEnd c' x.rip bp x.position off chunk .READING = c' :=
    if_neg fun e => RwFlag.noConfusion e.1
  rw [hclear]
  refine ⟨_, rfl, hm'.put hplain, rfl, ?_⟩
  rw [← hdata]
  rfl

end Minix.Fs
