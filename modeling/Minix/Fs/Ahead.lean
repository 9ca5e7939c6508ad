import Minix.Fs.CacheCalls
import Minix.Fs.Read
import Mathlib.Logic.Relation

/-!
# Reading ahead, as a run of calls

`rahead` gets a block, prefetches more of them into a queue of its own, reads the queue, and gets
the block again. On block numbers that are distinct (`RaheadDistinct`) it does not panic, its loop
ends, and it is a run of calls that keep the holds of its callers (`rahead_spec`).

The block numbers are those that its turns ask for: the blocks of the file that it comes to, and the
indirect blocks in which `read_map` looks them up. None of them may be waiting in the queue.
-/

namespace Minix.Fs

open Lib

/-- The indirect blocks that `read_map` gets for a position. -/
def indirectBlocks (s : Cache) (rip : Inode) (scale position : ℕ) : List ℕ :=
  let zone := (position / BLOCK_SIZE) >>> scale
  if zone < NR_DZONE_NUM then []
  else if zone - NR_DZONE_NUM < NR_INDIRECTS then
    if rip.i_zone 7 = NO_ZONE then [] else [zoneBlock (rip.i_zone 7) scale 0]
  else if rip.i_zone 8 = NO_ZONE then []
  else
    zoneBlock (rip.i_zone 8) scale 0 ::
      match indirEntry s rip.i_dev (zoneBlock (rip.i_zone 8) scale 0)
        ((zone - NR_DZONE_NUM - NR_INDIRECTS) / NR_INDIRECTS) with
      | some (z, _) => if z = NO_ZONE then [] else [zoneBlock z scale 0]
      | none => []

/-- The block numbers that wait in the queue. -/
def Ahead.waiting (a : Ahead) : List ℕ := a.read_q.map a.cache.b_blocknr

/-- The blocks that a turn of the loop asks for do not wait in the queue. -/
structure TurnDistinct (e : Readahead) (a : Ahead) : Prop where
  indirect : e.rip.blockSpec = false →
    ∀ b ∈ indirectBlocks a.cache e.rip e.scale a.position, b ∉ a.waiting
  data : ∀ b s, aheadBlock e a = some (b, s) → b ∉ a.waiting

/-- The loop goes on from a turn to the next. -/
def AheadStep (e : Readahead) (a a' : Ahead) : Prop := aheadTurn e a = some (some a')

/-- Every turn that the loop takes asks for blocks that do not wait in the queue. -/
def LoopDistinct (e : Readahead) (a : Ahead) : Prop :=
  ∀ a', Relation.ReflTransGen (AheadStep e) a a' → aheadTurn e a' ≠ some none → TurnDistinct e a'

/-- The block numbers that a call of `rahead` comes to are distinct. -/
def RaheadDistinct (s : Cache) (rip : Inode) (scale baseblock position bytes_ahead : ℕ) : Prop :=
  ∀ bp c, getBlock s (raheadDev rip) baseblock .PREFETCH = some (bp, c) → c.b_dev bp = NO_DEV →
    LoopDistinct (raheadEnv rip scale position bytes_ahead)
      (raheadStart c rip bp position bytes_ahead)

/-- A call that does not leave a block to be overwritten. -/
def CacheCall.Plain : CacheCall → Prop
  | .get _ _ only_search _ => only_search ≠ .NO_READ
  | .put _ _ => True
  | .read _ _ => True

/-- A run of plain calls on top of `base`. -/
def Reads (base : Buf → ℕ) (s s' : Session) : Prop :=
  ∃ as, Run (fun s a s' => Call base s a s' ∧ a.Plain) s as s'

/-- The holds of `base`, and one on each buffer of a queue. -/
def withQueue (base : Buf → ℕ) (q : List Buf) : Buf → ℕ := fun x => if x ∈ q then 1 else base x

/-- A queue of prefetched buffers, which are held by no one else. -/
structure Queued (base : Buf → ℕ) (dev : ℕ) (c : Cache) (q : List Buf) : Prop where
  inv : CacheInv ⟨c, withQueue base q⟩
  pre : Prefetched c dev q
  own : ∀ x ∈ q, base x = 0

/-- Some blocks were looked at and put back, while the queue waited. -/
structure Looked (base : Buf → ℕ) (dev : ℕ) (q : List Buf) (c c' : Cache) : Prop where
  queued : Queued base dev c' q
  waiting : q.map c'.b_blocknr = q.map c.b_blocknr
  reads : Reads base ⟨c, withQueue base q⟩ ⟨c', withQueue base q⟩

variable {base : Buf → ℕ} {s s' s'' : Session} {c c' c'' : Cache} {dev block : ℕ} {q : List Buf}
  {bp x : Buf} {e : Readahead} {a : Ahead} {call : CacheCall} {rip : Inode} {scale position : ℕ}

theorem Reads.refl (base : Buf → ℕ) (s : Session) : Reads base s s := ⟨[], Run.nil⟩

theorem Reads.trans (h : Reads base s s') (h' : Reads base s' s'') : Reads base s s'' := by
  obtain ⟨as, h⟩ := h
  obtain ⟨bs, h'⟩ := h'
  exact ⟨as ++ bs, h.append h'⟩

theorem Reads.of_call (h : Call base s call s') (hp : call.Plain) : Reads base s s' :=
  ⟨[call], Run.single ⟨h, hp⟩⟩

/-- What every plain call preserves, a run of them preserves. -/
theorem Reads.invariant {P : Session → Prop} (h : Reads base s s') (hs : P s)
    (hstep : ∀ s a s', P s → Call base s a s' → a.Plain → P s') : P s' := by
  obtain ⟨as, h⟩ := h
  exact h.invariant hs fun s a s' hP hc => hstep s a s' hP hc.1 hc.2

/-! ## The queue -/

/-- A buffer of the queue is held. -/
theorem withQueue_of_mem (hx : x ∈ q) : withQueue base q x = 1 := if_pos hx

/-- The holds with a buffer more in the queue. -/
theorem withQueue_append (hbp : bp ∉ q) (hfree : base bp = 0) :
    withQueue base (q ++ [bp]) =
      Function.update (withQueue base q) bp (withQueue base q bp + 1) := by
  funext x
  by_cases hx : x = bp
  · subst hx
    simp [withQueue, hbp, hfree]
  · simp [withQueue, hx]

/-- When the queue is returned, the holds of the base are left. -/
theorem returned_withQueue (h : ∀ x ∈ q, base x = 0) : returned (withQueue base q) q = base := by
  funext x
  unfold returned withQueue
  split_ifs with hx
  · exact (h x hx).symm
  · rfl

/-- Where every buffer stays, a queue of prefetched buffers is still one. -/
theorem Prefetched.stays (h : Prefetched c dev q) (hst : ∀ x, Stays x c c') :
    Prefetched c' dev q where
  nodup := by
    rw [List.map_congr_left fun x _ => (hst x).blocknr]
    exact h.nodup
  free x hx := by
    rcases (hst x).dev with hd | hd
    · rw [hd]
      exact h.free x hx
    · exact hd
  absent x hx hdev y hy := by
    rw [(hst x).blocknr, (hst y).blocknr]
    refine h.absent x hx hdev y ?_
    rcases (hst y).dev with hd | hd
    · rw [← hd]
      exact hy
    · exact absurd (hy.symm.trans hd) hdev

/-- A block that does not wait in the queue is got. -/
theorem Queued.get (h : Queued base dev c q) (hblock : block ∉ q.map c.b_blocknr) {only_search : Search}
    (hgot : Got c dev block only_search bp c') :
    Prefetched c' dev q ∧ q.map c'.b_blocknr = q.map c.b_blocknr ∧ bp ∉ q := by
  have hheld : ∀ x ∈ q, Stays x c c' := fun x hx => by
    refine Got.stays (s := ⟨c, withQueue base q⟩) hgot (Or.inr ?_)
    rw [h.inv.count]
    show withQueue base q x ≠ 0
    rw [withQueue_of_mem hx]
    exact Nat.one_ne_zero
  have hmap : q.map c'.b_blocknr = q.map c.b_blocknr :=
    List.map_congr_left fun x hx => (hheld x hx).blocknr
  have hself : c'.b_blocknr bp = block := Got.blocknr (s := ⟨c, withQueue base q⟩) hgot
  refine ⟨⟨?_, fun x hx => ?_, fun x hx hdev y hy => ?_⟩, hmap, fun hbp => ?_⟩
  · rw [hmap]
    exact h.pre.nodup
  · rcases (hheld x hx).dev with hd | hd
    · rw [hd]
      exact h.pre.free x hx
    · exact hd
  · rw [(hheld x hx).blocknr]
    by_cases hyb : y = bp
    · rw [hyb, hself]
      intro hb
      exact hblock (hb ▸ List.mem_map_of_mem hx)
    · have hy' := Got.stays (s := ⟨c, withQueue base q⟩) hgot (Or.inl hyb)
      rw [hy'.blocknr]
      refine h.pre.absent x hx hdev y ?_
      rcases hy'.dev with hd | hd
      · rw [← hd]
        exact hy
      · exact absurd (hy.symm.trans hd) hdev
  · rw [← hself, ← hmap] at hblock
    exact hblock (List.mem_map_of_mem hbp)

/-- Getting a block and putting it back leaves the holds as they are. -/
theorem update_hold (held : Buf → ℕ) (bp : Buf) :
    Function.update (Function.update held bp (held bp + 1)) bp
      (Function.update held bp (held bp + 1) bp - 1) = held := by
  rw [Function.update_self, Function.update_idem, Nat.add_sub_cancel, Function.update_eq_self]

theorem Queued.refl (h : Queued base dev c q) : Looked base dev q c c := ⟨h, rfl, Reads.refl ..⟩

theorem Looked.trans (h : Looked base dev q c c') (h' : Looked base dev q c' c'') :
    Looked base dev q c c'' :=
  ⟨h'.queued, h'.waiting.trans h.waiting, h.reads.trans h'.reads⟩

/-- A block that does not wait in the queue is got and put back. -/
theorem Queued.get_put (h : Queued base dev c q) (hroom : Room ⟨c, withQueue base q⟩)
    (hblock : block ∉ q.map c.b_blocknr) {only_search : Search} (hplain : only_search ≠ .NO_READ)
    (he : getBlock c dev block only_search = some (bp, c')) (block_type : ℕ) :
    Looked base dev q c (putBlock c' (some bp) block_type) := by
  have hget : Call base ⟨c, withQueue base q⟩ (.get dev block only_search bp) _ := Call.get hroom he
  obtain ⟨hpre, hmap, hbp⟩ := h.get hblock (getBlock_got_of_eq h.inv hroom he)
  have hle : base bp < withQueue base q bp + 1 := by
    unfold withQueue
    rw [if_neg hbp]
    exact Nat.lt_succ_self _
  have hput : Call base ⟨c', Function.update (withQueue base q) bp (withQueue base q bp + 1)⟩
      (.put bp block_type) _ := Call.put (by simpa using hle)
  have hinv := hput.inv (hget.inv h.inv)
  have hreads := (Reads.of_call hget hplain).trans (Reads.of_call hput trivial)
  have hst := putBlock_stays c' bp block_type
  dsimp only at hinv hreads
  rw [update_hold] at hinv hreads
  refine ⟨⟨hinv, hpre.stays hst, h.own⟩, ?_, hreads⟩
  rw [← hmap]
  exact List.map_congr_left fun x _ => (hst x).blocknr

/-! ## `read_map` -/

/-- A zone number is looked up in an indirect block. -/
theorem Queued.indirEntry (h : Queued base dev c q) (hroom : Room ⟨c, withQueue base q⟩) {b : ℕ}
    (hb : b ∉ q.map c.b_blocknr) (i : ℕ) :
    ∃ z c', indirEntry c dev b i = some (z, c') ∧ Looked base dev q c c' := by
  obtain ⟨bp, c', he, -⟩ := getBlock_got h.inv hroom.1 dev b .NORMAL
  dsimp only at he
  have hlooked := h.get_put hroom hb (by decide) he INDIRECT_BLOCK
  refine ⟨bInd (c'.b_data bp) i, _, ?_, hlooked⟩
  unfold Fs.indirEntry
  rw [he]
  rfl

/-- The last part of `read_map`. -/
theorem Queued.readSingle (h : Queued base dev c q) (hroom : Room ⟨c, withQueue base q⟩)
    {z : ℕ} (hb : z ≠ NO_ZONE → zoneBlock z scale 0 ∉ q.map c.b_blocknr) (excess boff : ℕ) :
    ∃ b c', readSingle c dev scale z excess boff = some (b, c') ∧ Looked base dev q c c' := by
  unfold Fs.readSingle
  split_ifs with hz
  · exact ⟨_, _, rfl, h.refl⟩
  · obtain ⟨z', c', he, hl⟩ := h.indirEntry hroom (hb hz) excess
    rw [he]
    exact ⟨_, _, rfl, hl⟩

/-- `read_map` gets the indirect blocks and puts them back. -/
theorem Queued.readMap (h : Queued base rip.i_dev c q) (hroom : Room ⟨c, withQueue base q⟩)
    (hb : ∀ b ∈ indirectBlocks c rip scale position, b ∉ q.map c.b_blocknr) :
    ∃ b c', readMap c rip scale position = some (b, c') ∧ Looked base rip.i_dev q c c' := by
  unfold Fs.readMap
  unfold indirectBlocks at hb
  dsimp only at hb ⊢
  split_ifs at hb ⊢ with hdirect hz hsingle hz hz
  · exact ⟨_, _, rfl, h.refl⟩
  · exact ⟨_, _, rfl, h.refl⟩
  · exact h.readSingle hroom (fun hne => absurd hz hne) _ _
  · exact h.readSingle hroom (fun _ => hb _ (by simp)) _ _
  · exact ⟨_, _, rfl, h.refl⟩
  · -- The single indirect block is found in the double indirect one.
    obtain ⟨z, c₁, he, hl⟩ := h.indirEntry hroom (hb _ List.mem_cons_self)
      (((position / BLOCK_SIZE) >>> scale - NR_DZONE_NUM - NR_INDIRECTS) / NR_INDIRECTS)
    rw [he] at hb ⊢
    have hz' : z ≠ NO_ZONE → zoneBlock z scale 0 ∉ q.map c₁.b_blocknr := fun hne => by
      rw [hl.waiting]
      refine hb _ ?_
      simp [hne]
    obtain ⟨b, c₂, he₂, hl₂⟩ := hl.queued.readSingle hroom hz' _ _
    exact ⟨b, c₂, he₂, hl.trans hl₂⟩

/-! ## The loop -/

/-- A turn, or a part of it: the queue still waits, with what was put in it, and the count of the
blocks to come is as it was. -/
structure Advanced (base : Buf → ℕ) (e : Readahead) (a a' : Ahead) : Prop where
  queued : Queued base (raheadDev e.rip) a'.cache a'.read_q
  reads : Reads base ⟨a.cache, withQueue base a.read_q⟩ ⟨a'.cache, withQueue base a'.read_q⟩
  blocks_ahead : a'.blocks_ahead = a.blocks_ahead
  reading_ahead : a'.reading_ahead = a.reading_ahead

/-- A prefetched block without a device was not in the cache, and nobody held the buffer. -/
theorem Got.prefetched (h : Got s.cache dev block .PREFETCH bp c) (hbp : c.b_dev bp = NO_DEV) :
    Absent c dev block ∧ s.cache.b_count bp = 0 := by
  have hst := fun x hx => h.stays (x := x) (Or.inl hx)
  cases h with
  | hit hdev hb _ => exact absurd (hb.symm.trans hbp) hdev
  | miss habsent hfree =>
    refine ⟨fun hdev y hy => ?_, hfree⟩
    have hyb : y ≠ bp := by
      intro hyb
      rw [hyb] at hy
      exact hdev (hy.symm.trans hbp)
    have := hst y hyb
    rw [this.blocknr]
    exact habsent hdev y ((this.dev.resolve_right fun e => hdev (hy.symm.trans e)).symm.trans hy)

/-- A block that was not in the cache is prefetched, and waits in the queue. -/
theorem Queued.prefetch (h : Queued base dev c q) (hroom : Room ⟨c, withQueue base q⟩)
    (hblock : block ∉ q.map c.b_blocknr) (he : getBlock c dev block .PREFETCH = some (bp, c'))
    (hbp : c'.b_dev bp = NO_DEV) :
    Queued base dev c' (q ++ [bp]) ∧
      Reads base ⟨c, withQueue base q⟩ ⟨c', withQueue base (q ++ [bp])⟩ := by
  have hgot : Got (Session.mk c (withQueue base q)).cache dev block .PREFETCH bp c' :=
    getBlock_got_of_eq h.inv hroom he
  obtain ⟨habsent, hfree⟩ := hgot.prefetched hbp
  obtain ⟨hpre, hmap, hq⟩ := h.get hblock hgot
  have hself := hgot.blocknr
  have hinv := hgot.inv h.inv hroom
  have hcall : Call base ⟨c, withQueue base q⟩ (.get dev block .PREFETCH bp) _ := Call.get hroom he
  have hbase : base bp = 0 := by
    rw [h.inv.count] at hfree
    have : withQueue base q bp = 0 := hfree
    unfold withQueue at this
    rwa [if_neg hq] at this
  dsimp only at hinv hcall
  rw [← withQueue_append hq hbase] at hinv hcall
  -- What holds of the queue and of the new buffer holds of the longer queue.
  have hall : ∀ P : Buf → Prop, (∀ x ∈ q, P x) → P bp → ∀ x ∈ q ++ [bp], P x := by
    intro P hP hb x hx
    rcases List.mem_append.mp hx with hx | hx
    · exact hP x hx
    · rw [List.mem_singleton.mp hx]
      exact hb
  refine ⟨⟨hinv, ⟨?_, hall _ hpre.free hbp, hall _ hpre.absent ?_⟩, hall _ h.own hbase⟩,
    Reads.of_call hcall (by simp [CacheCall.Plain])⟩
  · rw [List.map_append, List.nodup_append]
    refine ⟨hpre.nodup, by simp, fun y hy z hz => ?_⟩
    rw [List.map_singleton, List.mem_singleton] at hz
    rw [hz, hself]
    rintro rfl
    rw [hmap] at hy
    exact hblock hy
  · rw [hself]
    exact habsent

/-- A block is prefetched and put in the queue, unless it is in the cache already. -/
theorem Queued.enqueue (h : Queued base (raheadDev e.rip) a.cache a.read_q)
    (hroom : Room ⟨a.cache, withQueue base a.read_q⟩) (hblock : block ∉ a.waiting) :
    ∃ a', enqueue e a block = some a' ∧ Advanced base e a a' := by
  unfold Fs.enqueue
  split_ifs
  · obtain ⟨bp, c, he, -⟩ := getBlock_got h.inv hroom.1 (raheadDev e.rip) block .PREFETCH
    dsimp only at he
    rw [he, Option.bind_eq_bind, Option.bind_some]
    refine ⟨_, rfl, ?_⟩
    split_ifs with hbp
    · obtain ⟨hq, hr⟩ := h.prefetch hroom hblock he hbp
      exact ⟨hq, hr, rfl, rfl⟩
    · have hl := h.get_put hroom hblock (by decide) he FULL_DATA_BLOCK
      exact ⟨hl.queued, hl.reads, rfl, rfl⟩
  · exact ⟨a, rfl, h, Reads.refl .., rfl, rfl⟩

/-- The block of the current position is prefetched, or left if it is on another track. -/
theorem Queued.aheadFetch (h : Queued base (raheadDev e.rip) a.cache a.read_q)
    (hroom : Room ⟨a.cache, withQueue base a.read_q⟩) (hblock : block ∉ a.waiting) :
    ∃ a', aheadFetch e a block = some a' ∧ Advanced base e a a' := by
  have htrack : ∀ t, ∃ a', Fs.enqueue e { a with max_track := t } block = some a' ∧
      Advanced base e a a' := fun t => by
    obtain ⟨a', he, hadv⟩ := Queued.enqueue (e := e) (a := { a with max_track := t }) h hroom hblock
    exact ⟨a', he, hadv.queued, hadv.reads, hadv.blocks_ahead, hadv.reading_ahead⟩
  unfold Fs.aheadFetch
  dsimp only
  split_ifs
  · exact ⟨a, rfl, h, Reads.refl .., rfl, rfl⟩
  · exact h.enqueue hroom hblock
  · exact htrack _
  · exact htrack _

/-- The second part of a turn. -/
theorem Queued.aheadNext (h : Queued base (raheadDev e.rip) a.cache a.read_q)
    (hroom : Room ⟨a.cache, withQueue base a.read_q⟩) (hd : TurnDistinct e a) :
    ∃ a', aheadNext e a = some a' ∧ Advanced base e a a' := by
  have hblock : ∃ b c, aheadBlock e a = some (b, c) ∧
      Looked base (raheadDev e.rip) a.read_q a.cache c := by
    unfold Fs.aheadBlock
    split_ifs with hspec
    · exact ⟨_, _, rfl, h.refl⟩
    · have hdev : raheadDev e.rip = e.rip.i_dev := by
        unfold raheadDev
        rw [if_neg hspec]
      rw [hdev] at h ⊢
      exact h.readMap hroom (hd.indirect (by simpa using hspec))
  obtain ⟨b, c, he, hl⟩ := hblock
  have hb : b ∉ a.read_q.map c.b_blocknr := by
    rw [hl.waiting]
    exact hd.data b c he
  obtain ⟨a', he', hadv⟩ : ∃ a', Fs.aheadFetch e
      { a with cache := c, position := a.position + BLOCK_SIZE } b = some a' ∧ _ :=
    Queued.aheadFetch hl.queued hroom hb
  refine ⟨a', ?_, hadv.queued, hl.reads.trans hadv.reads, hadv.blocks_ahead, hadv.reading_ahead⟩
  unfold Fs.aheadNext
  rw [he]
  exact he'

/-- The number of turns that are left. -/
def turnsLeft (e : Readahead) (a : Ahead) : ℕ :=
  a.blocks_ahead + if a.reading_ahead then 0 else blocksPerTrack e.rip + 7

/-- Below the limit, there is room for a buffer. -/
theorem Queued.room (h : Queued base dev c q) (hbase : ∀ x, base x < 255)
    (hlt : c.bufs_in_use < NR_BUFS) : Room ⟨c, withQueue base q⟩ := by
  refine ⟨?_, fun x => ?_⟩
  · have := h.inv.in_use_eq
    dsimp only at this ⊢
    omega
  · have := hbase x
    show withQueue base q x < 255
    unfold withQueue
    split_ifs <;> omega

/-- A turn breaks off, or there is one turn less to come. -/
theorem Queued.aheadTurn (h : Queued base (raheadDev e.rip) a.cache a.read_q)
    (hbase : ∀ x, base x < 255) (hd : aheadTurn e a ≠ some none → TurnDistinct e a) :
    aheadTurn e a = some none ∨ ∃ a', aheadTurn e a = some (some a') ∧
      Queued base (raheadDev e.rip) a'.cache a'.read_q ∧
      Reads base ⟨a.cache, withQueue base a.read_q⟩ ⟨a'.cache, withQueue base a'.read_q⟩ ∧
      turnsLeft e a' < turnsLeft e a := by
  have hlimit : e.limitBufsInUse ≤ NR_BUFS := by
    unfold Readahead.limitBufsInUse
    split_ifs <;> omega
  -- A turn that does not break off, with the count of blocks that it starts from.
  have hnext : ∀ n r, a.cache.bufs_in_use < NR_BUFS → TurnDistinct e a →
      (n + if r = true then 0 else blocksPerTrack e.rip + 7) < turnsLeft e a →
      ∃ a', (Fs.aheadNext e { a with blocks_ahead := n, reading_ahead := r }).map some =
          some (some a') ∧
        Queued base (raheadDev e.rip) a'.cache a'.read_q ∧
        Reads base ⟨a.cache, withQueue base a.read_q⟩ ⟨a'.cache, withQueue base a'.read_q⟩ ∧
        turnsLeft e a' < turnsLeft e a := by
    intro n r hlt hd hturns
    obtain ⟨a', he, hadv⟩ := Queued.aheadNext (e := e)
      (a := { a with blocks_ahead := n, reading_ahead := r }) h (h.room hbase hlt)
      ⟨hd.indirect, hd.data⟩
    refine ⟨a', by rw [he]; rfl, hadv.queued, hadv.reads, ?_⟩
    have hleft : turnsLeft e a' = n + if r = true then 0 else blocksPerTrack e.rip + 7 := by
      unfold turnsLeft
      rw [hadv.blocks_ahead, hadv.reading_ahead]
    omega
  unfold Fs.aheadTurn at hd ⊢
  split_ifs at hd ⊢ with hbreak hmore hstop
  · exact Or.inl rfl
  · refine Or.inr (hnext _ _ (by omega) (hd (by simp)) ?_)
    unfold turnsLeft
    omega
  · exact Or.inl rfl
  · refine Or.inr (hnext _ _ (by omega) (hd (by simp)) ?_)
    have hfirst : a.reading_ahead ≠ true := fun hr => hstop (Or.inl hr)
    unfold turnsLeft
    rw [if_pos rfl, if_neg hfirst]
    omega

/-- The loop ends. -/
theorem Queued.aheadLoop {n : ℕ} (h : Queued base (raheadDev e.rip) a.cache a.read_q)
    (hbase : ∀ x, base x < 255) (hturns : turnsLeft e a < n) (hd : LoopDistinct e a) :
    ∃ a', aheadLoop e n a = some a' ∧ Queued base (raheadDev e.rip) a'.cache a'.read_q ∧
      Reads base ⟨a.cache, withQueue base a.read_q⟩ ⟨a'.cache, withQueue base a'.read_q⟩ := by
  induction n generalizing a with
  | zero => omega
  | succ n ih =>
    unfold Fs.aheadLoop
    rcases h.aheadTurn hbase (hd a .refl) with he | ⟨a', he, hq, hr, hlt⟩
    · rw [he]
      exact ⟨a, rfl, h, Reads.refl ..⟩
    · rw [he]
      obtain ⟨a₂, he₂, hq₂, hr₂⟩ := ih hq (by omega) fun a₂ hr => hd a₂ (.head he hr)
      exact ⟨a₂, he₂, hq₂, hr.trans hr₂⟩

/-! ## The call -/

theorem withQueue_nil (base : Buf → ℕ) : withQueue base [] = base := by
  funext x
  simp [withQueue]

/-- Nothing waits in an empty queue. -/
theorem Queued.nil (h : CacheInv ⟨c, base⟩) (dev : ℕ) : Queued base dev c [] where
  inv := by
    rw [withQueue_nil]
    exact h
  pre := ⟨by simp, by simp, by simp⟩
  own := by simp

/-- On distinct block numbers, `rahead` is a run of plain calls, the last of which gets the block:
it is in the cache then, or it is read. -/
theorem rahead_spec {baseblock bytes_ahead : ℕ} (hinv : CacheInv s) (hroom : Room s)
    (hd : RaheadDistinct s.cache rip scale baseblock position bytes_ahead) :
    ∃ bp c t only_search, rahead s.cache rip scale baseblock position bytes_ahead = some (bp, c) ∧
      Reads s.held s t ∧ t.held = s.held ∧
      Call s.held t (.get (raheadDev rip) baseblock only_search bp)
        ⟨c, Function.update s.held bp (s.held bp + 1)⟩ ∧
      (only_search = .NORMAL ∨ only_search = .PREFETCH ∧ c.b_dev bp ≠ NO_DEV) := by
  obtain ⟨bp, c, he, hgot⟩ := getBlock_got hinv hroom.1 (raheadDev rip) baseblock .PREFETCH
  unfold rahead
  simp only [he, Option.bind_eq_bind, Option.bind_some]
  by_cases hbp : c.b_dev bp = NO_DEV
  · have hroom' : Room ⟨s.cache, withQueue s.held []⟩ := by
      rw [withQueue_nil]
      exact hroom
    obtain ⟨hq, hr⟩ := (Queued.nil (c := s.cache) hinv (raheadDev rip)).prefetch hroom' (by simp)
      he hbp
    rw [withQueue_nil] at hr
    rw [if_neg (by simpa using hbp)]
    have hturns : turnsLeft (raheadEnv rip scale position bytes_ahead)
        (raheadStart c rip bp position bytes_ahead) <
        aheadTurns (raheadEnv rip scale position bytes_ahead)
          (raheadStart c rip bp position bytes_ahead) := by
      unfold turnsLeft aheadTurns
      split_ifs <;> omega
    obtain ⟨a, hloop, hqa, hra⟩ := Queued.aheadLoop (e := raheadEnv rip scale position bytes_ahead)
      (a := raheadStart c rip bp position bytes_ahead) hq hroom.2 hturns (hd bp c he hbp)
    have hret : ∀ x ∈ a.read_q, s.held x = 0 ∧ 0 < withQueue s.held a.read_q x := fun x hx =>
      ⟨hqa.own x hx, by rw [withQueue_of_mem hx]; exact Nat.one_pos⟩
    obtain ⟨c₂, hread, hinv₂⟩ := hqa.inv.read hqa.pre fun x hx => (hret x hx).2
    have hcall : Call s.held ⟨a.cache, withQueue s.held a.read_q⟩
      (.read (raheadDev rip) a.read_q) _ := Call.read hqa.pre hret hread
    dsimp only at hinv₂ hcall
    rw [returned_withQueue hqa.own] at hinv₂ hcall
    obtain ⟨bp₂, c₃, he₂, -⟩ := getBlock_got hinv₂ hroom.1 (raheadDev rip) baseblock .NORMAL
    refine ⟨bp₂, c₃, ⟨c₂, s.held⟩, .NORMAL, ?_, ?_, rfl, Call.get (s := ⟨c₂, s.held⟩) hroom he₂,
      Or.inl rfl⟩
    · have hread' : rwScattered a.cache (raheadDev rip) a.read_q .READING = some c₂ := hread
      rw [hloop, Option.bind_some, hread', Option.bind_some]
      exact he₂
    · exact (hr.trans hra).trans (Reads.of_call hcall trivial)
  · rw [if_pos hbp]
    exact ⟨bp, c, s, .PREFETCH, rfl, Reads.refl .., rfl, Call.get hroom he, Or.inr ⟨rfl, hbp⟩⟩

end Minix.Fs
