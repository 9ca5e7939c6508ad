import Minix.Fs.WriteBack
import Minix.Fs.CacheRun

/-!
# The cache is a faithful disk

Beside the cache, a `Disk` has the contents that its users left in each block of a device, and the
buffers that were got with `NO_READ` and are still to be overwritten, the fresh ones. A write
changes the contents of the block that its buffer has; no other action changes any.

`Faithful` relates the two: a buffer that is not fresh has the contents of its block, and a block
whose buffer is clean, or that is not in the cache, has its contents on the device.
-/

namespace Minix.Fs

open Lib

/-- The contents of the blocks of the devices. -/
abbrev Contents := ℕ → ℕ → Block

/-- A block gets new contents, unless it is of no device. -/
def Contents.set (L : Contents) (dev block : ℕ) (data : Block) : Contents :=
  if dev = NO_DEV then L else Function.update L dev (Function.update (L dev) block data)

/-- The cache, with what its users left in it. -/
structure Disk where
  session : Session
  fresh : Set Buf
  contents : Contents

/-- The buffer that a call leaves to be overwritten. -/
def gotFresh (c : Cache) : CacheCall → Set Buf
  | .get dev block .NO_READ bp => {x | x = bp ∧ dev ≠ NO_DEV ∧ Absent c dev block}
  | _ => ∅

/-- What is fresh after an action. -/
def freshAfter (m : Disk) : CacheAct → Set Buf
  | .call a => m.fresh ∪ gotFresh m.session.cache a
  | .write bp _ => m.fresh \ {bp}
  | _ => m.fresh

/-- The contents of the blocks after an action. -/
def contentsAfter (m : Disk) : CacheAct → Contents
  | .write bp data =>
    m.contents.set (m.session.cache.b_dev bp) (m.session.cache.b_blocknr bp) data
  | _ => m.contents

/-- What the users of the cache keep to: a fresh buffer is overwritten before it is released, a
device is invalidated after a flush, and only `flushall` and `do_sync` write a queue. -/
def Allowed (m : Disk) : CacheAct → Prop
  | .call (.put bp _) => bp ∈ m.fresh → 1 < m.session.held bp
  | .invalidate dev => ∀ x, m.session.cache.b_dev x = dev →
    m.session.cache.b_dirt x = false ∧ x ∉ m.fresh
  | .scatter _ _ => False
  | _ => True

/-- An action of the users of the cache, and what it leaves in the blocks. -/
structure DiskStep (m : Disk) (act : CacheAct) (m' : Disk) : Prop where
  step : CacheStep m.session act m'.session
  allowed : Allowed m act
  fresh : m'.fresh = freshAfter m act
  contents : m'.contents = contentsAfter m act

/-- The buffer pool has been initialized, the drivers serve every request, and the contents of the
blocks are those of the devices. -/
structure DiskStart (m : Disk) : Prop where
  start : CacheStart m.session
  served : Served m.session.cache
  fresh : m.fresh = ∅
  contents : m.contents = m.session.cache.disk

/-- The cache, with what its users left in it, is a faithful disk. -/
structure Faithful (s : Session) (fresh : Set Buf) (L : Contents) : Prop where
  inv : CacheInv s
  served : Served s.cache
  block : ∀ x, s.cache.b_dev x ≠ NO_DEV → x ∉ fresh →
    s.cache.b_data x = L (s.cache.b_dev x) (s.cache.b_blocknr x) ∧
      (s.cache.b_dirt x = true ∨ onDisk s.cache x = L (s.cache.b_dev x) (s.cache.b_blocknr x))
  absent : ∀ dev block, dev ≠ NO_DEV → Absent s.cache dev block →
    s.cache.disk dev block = L dev block
  fresh : ∀ x ∈ fresh, s.cache.b_dev x ≠ NO_DEV ∧ 0 < s.held x

variable {s s' : Session} {c c' : Cache} {held base : Buf → ℕ} {fresh : Set Buf} {L : Contents}
  {dev block : ℕ} {only_search : Search} {bp x : Buf} {bufq : List Buf} {m m' : Disk}
  {act : CacheAct} {a : CacheCall} {data : Block}

/-- The contents of a block that is set. -/
theorem Contents.set_self (h : dev ≠ NO_DEV) : L.set dev block data dev block = data := by
  unfold Contents.set
  rw [if_neg h]
  exact disk_update_self

/-- The contents of the other blocks. -/
theorem Contents.set_of_ne {d b : ℕ} (h : ¬(d = dev ∧ b = block)) :
    L.set dev block data d b = L d b := by
  unfold Contents.set
  split_ifs
  · rfl
  · exact disk_update_of_ne h

theorem Contents.set_no_dev : L.set NO_DEV block data = L := if_pos rfl

/-! ## Writing back, and putting -/

/-- What is only written back is still faithful. -/
theorem Faithful.wrote (h : Faithful ⟨c, held⟩ fresh L) (hw : Wrote c c') :
    Faithful ⟨c', held⟩ fresh L where
  inv := CacheInv.kept h.inv hw.kept
  served := hw.served
  block x hx hf := by
    have hx : c'.b_dev x ≠ NO_DEV := hx
    rw [hw.dev] at hx
    obtain ⟨hdata, hclean⟩ := h.block x hx hf
    dsimp only at hdata hclean ⊢
    rw [hw.dev, hw.kept.blocknr, hw.kept.data]
    refine ⟨hdata, ?_⟩
    rcases hw.block x hx with ⟨hd, ht⟩ | ⟨hd, -⟩
    · rw [hd, ht]
      exact hclean
    · rw [hd]
      exact Or.inr hdata
  absent dev block hdev ha := by
    have ha : Absent c dev block := by
      unfold Absent at ha ⊢
      rwa [hw.dev, hw.kept.blocknr] at ha
    exact (hw.absent dev block hdev ha).trans (h.absent dev block hdev ha)
  fresh := by
    dsimp only
    rw [hw.dev]
    exact h.fresh

/-- A buffer keeps its block, and everything else that the contents are about. -/
structure KeepsBlock (x : Buf) (c c' : Cache) : Prop where
  dev : c'.b_dev x = c.b_dev x
  blocknr : c'.b_blocknr x = c.b_blocknr x
  data : c'.b_data x = c.b_data x
  dirt : c'.b_dirt x = c.b_dirt x

/-- Each buffer with a device keeps its block or comes to have the contents of a block, and what has
left the cache was clean. -/
theorem Faithful.of_bufs {held' : Buf → ℕ} {fresh' : Set Buf} (h : Faithful ⟨c, held⟩ fresh L)
    (hinv : CacheInv ⟨c', held'⟩) (hserved : Served c') (hdisk : c'.disk = c.disk)
    (hfresh : ∀ x ∈ fresh', c'.b_dev x ≠ NO_DEV ∧ 0 < held' x)
    (hbuf : ∀ x, c'.b_dev x ≠ NO_DEV → x ∉ fresh' → KeepsBlock x c c' ∧ x ∉ fresh ∨
      c'.b_data x = L (c'.b_dev x) (c'.b_blocknr x) ∧
        (c'.b_dirt x = true ∨ onDisk c' x = L (c'.b_dev x) (c'.b_blocknr x)))
    (hgone : ∀ x, c.b_dev x ≠ NO_DEV →
      c'.b_dev x = c.b_dev x ∧ c'.b_blocknr x = c.b_blocknr x ∨ c.b_dirt x = false ∧ x ∉ fresh) :
    Faithful ⟨c', held'⟩ fresh' L where
  inv := hinv
  served := hserved
  block x hx hf := by
    rcases hbuf x hx hf with ⟨hk, hf⟩ | hnew
    · have hold := h.block x (by rw [← hk.dev]; exact hx) hf
      unfold onDisk at hold ⊢
      dsimp only at hold ⊢
      rwa [hk.dev, hk.blocknr, hk.data, hk.dirt, hdisk]
    · exact hnew
  absent dev block hd ha := by
    -- Either no buffer had the block before, or the one that had it was clean.
    show c'.disk dev block = _
    rw [hdisk]
    by_cases hold : Absent c dev block
    · exact h.absent dev block hd hold
    · unfold Absent at hold
      push Not at hold
      obtain ⟨-, x, hx, hb⟩ := hold
      subst hx hb
      rcases hgone x hd with ⟨hdev, hblocknr⟩ | ⟨hclean, hf⟩
      · exact absurd hblocknr (ha hd x hdev)
      · obtain ⟨-, hdirt | hdisk⟩ := h.block x hd hf
        · exact absurd (hclean.symm.trans hdirt) (by decide)
        · exact hdisk
  fresh := hfresh

/-- The links play no part in what the blocks contain. -/
theorem Faithful.relink {links : Links} {held' : Buf → ℕ} (h : Faithful ⟨c, held⟩ fresh L)
    (hinv : CacheInv ⟨{ c with toLinks := links }, held'⟩) (hblocknr : links.b_blocknr = c.b_blocknr)
    (hheld : ∀ x ∈ fresh, 0 < held' x) :
    Faithful ⟨{ c with toLinks := links }, held'⟩ fresh L :=
  h.of_bufs hinv (h.served.congr rfl rfl) rfl (fun x hx => ⟨(h.fresh x hx).1, hheld x hx⟩)
    (fun x _ hf => Or.inl ⟨⟨rfl, congrFun hblocknr x, rfl, rfl⟩, hf⟩)
    fun x _ => Or.inl ⟨rfl, congrFun hblocknr x⟩

/-- A clean buffer that is not fresh may lose its device. -/
theorem Faithful.drop {b_dev : Buf → ℕ} (h : Faithful ⟨c, held⟩ fresh L)
    (hdev : ∀ x, b_dev x = c.b_dev x ∨
      b_dev x = NO_DEV ∧ (c.b_dev x ≠ NO_DEV → c.b_dirt x = false ∧ x ∉ fresh)) :
    Faithful ⟨{ c with b_dev := b_dev }, held⟩ fresh L := by
  refine h.of_bufs ⟨h.inv.linked, h.inv.in_use, h.inv.count, h.inv.bound,
      h.inv.unique.of_dev rfl fun x => (hdev x).imp id And.left⟩
    (h.served.congr rfl rfl) rfl (fun x hx => ?_)
    (fun x hx hf => Or.inl ⟨⟨(hdev x).resolve_right fun e => hx e.1, rfl, rfl, rfl⟩, hf⟩)
    fun x hx => (hdev x).imp (fun e => ⟨e, rfl⟩) fun e => e.2 hx
  obtain ⟨hd, hpos⟩ := h.fresh x hx
  refine ⟨?_, hpos⟩
  dsimp only
  rw [(hdev x).resolve_right fun e => (e.2 hd).2 hx]
  exact hd

/-- What `put_block` does last. -/
theorem Faithful.release (h : Faithful ⟨c, held⟩ fresh L) (hbp : bp ∉ fresh) (block_type : ℕ) :
    Faithful ⟨releaseBuf c bp block_type, held⟩ fresh L := by
  unfold releaseBuf
  dsimp only
  have hw : ∀ p : Prop, [Decidable p] → Faithful ⟨if p then rwBlock c bp .WRITING else c, held⟩
      fresh L := fun p _ => by
    split_ifs
    · exact h.wrote (rwBlock_wrote h.served h.inv.unique bp)
    · exact h
  by_cases hz : block_type = ZUPER_BLOCK
  · rw [if_pos hz]
    refine (hw _).drop fun x => ?_
    by_cases hx : x = bp
    · subst hx
      rw [Function.update_self]
      refine Or.inr ⟨rfl, fun hne => ⟨?_, hbp⟩⟩
      have himmed : block_type &&& WRITE_IMMED ≠ 0 := by
        rw [hz]
        decide
      split_ifs at hne ⊢ with hd
      · rw [rwBlock_dirt]
        exact Function.update_self ..
      · simpa [himmed, hne] using hd
    · exact Or.inl (Function.update_of_ne hx _ _)
  · rw [if_neg hz]
    exact hw _

/-- `put_block`, of a buffer that is not fresh or has another user. -/
theorem Faithful.put (h : Faithful s fresh L) (hheld : 0 < s.held bp) (block_type : ℕ)
    (hbp : bp ∈ fresh → 1 < s.held bp) :
    Faithful ⟨putBlock s.cache (some bp) block_type,
      Function.update s.held bp (s.held bp - 1)⟩ fresh L := by
  have hlink : Faithful ⟨{ s.cache with toLinks := putLinks s.cache.toLinks bp block_type },
      Function.update s.held bp (s.held bp - 1)⟩ fresh L := by
    refine Faithful.relink h (h.inv.putLinks hheld block_type) (putLinks_blocknr ..) fun x hx => ?_
    by_cases he : x = bp
    · subst he
      have := hbp hx
      rw [Function.update_self]
      omega
    · rw [Function.update_of_ne he]
      exact (h.fresh x hx).2
  have hchar : char8 (s.cache.b_count bp + 255) = s.held bp - 1 := by
    rw [congrFun h.inv.count bp]
    exact char8_pred hheld (h.inv.bound bp)
  unfold putBlock
  unfold putLinks at hlink
  dsimp only at hlink ⊢
  split_ifs at hlink ⊢ with h0
  · exact hlink
  · refine hlink.release (fun hf => h0 ?_) block_type
    have := hbp hf
    rw [Function.update_self, hchar]
    omega

/-! ## Getting -/

/-- Writing back does not touch the links, of which a faithful cache may have any. -/
theorem Faithful.cleanTaken {links : Links} (h : Faithful ⟨c, held⟩ fresh L)
    (hblocknr : links.b_blocknr = c.b_blocknr)
    (he : cleanTaken { c with toLinks := links } bp = some c') :
    Wrote c { c' with toLinks := c.toLinks } ∧ c'.toLinks = links ∧
      (c.b_dev bp ≠ NO_DEV → c'.b_dirt bp = false) := by
  have hu : Unique { c with toLinks := links } := by
    have := h.inv.unique
    unfold Unique at this ⊢
    dsimp only at this ⊢
    rwa [hblocknr]
  obtain ⟨hw, hclean⟩ := cleanTaken_done (c := { c with toLinks := links })
    (h.served.congr rfl rfl) hu he
  refine ⟨⟨⟨rfl, hw.kept.data, hw.kept.opt, hw.kept.dev⟩, hw.dev, hw.served.congr rfl rfl,
    fun x => ?_, fun dev block hdev ha => hw.absent dev block hdev ?_⟩, hw.kept.links, hclean⟩
  · have := hw.block x
    unfold onDisk at this ⊢
    have hb : c'.b_blocknr = c.b_blocknr := hw.kept.blocknr.trans hblocknr
    dsimp only at this ⊢
    rwa [hb, hblocknr] at this
  · unfold Absent at ha ⊢
    dsimp only
    rwa [hblocknr]

/-- What is fresh after `get_block` was so before, or it is the buffer taken for a block that will
be overwritten. -/
theorem mem_gotFresh (hx : x ∈ gotFresh c (.get dev block only_search bp)) :
    x = bp ∧ dev ≠ NO_DEV ∧ only_search = .NO_READ ∧ Absent c dev block := by
  cases only_search with
  | NO_READ => exact ⟨hx.1, hx.2.1, rfl, hx.2.2⟩
  | NORMAL => exact absurd hx (Set.notMem_empty x)
  | PREFETCH => exact absurd hx (Set.notMem_empty x)

/-- What is fresh after `get_block` is held. -/
theorem Faithful.got_held (h : Faithful s fresh L) (dev block : ℕ) (only_search : Search)
    (bp : Buf) : ∀ x ∈ fresh ∪ gotFresh s.cache (.get dev block only_search bp),
      0 < Function.update s.held bp (s.held bp + 1) x := by
  intro x hx
  by_cases he : x = bp
  · subst he
    rw [Function.update_self]
    exact Nat.succ_pos _
  · rw [Function.update_of_ne he]
    exact (h.fresh x (hx.resolve_right fun e => he (mem_gotFresh e).1)).2

/-- What `get_block` fills in, when the driver serves the request. -/
theorem fillBuf_served (hs : Served c) : fillBuf c bp dev block only_search =
    if dev ≠ NO_DEV ∧ only_search = .NORMAL then
      { assignBuf c bp dev block only_search with
        b_data := Function.update c.b_data bp (c.disk dev block)
        io := c.io.tail
        b_dirt := Function.update c.b_dirt bp false }
    else assignBuf c bp dev block only_search := by
  unfold fillBuf
  dsimp only
  split_ifs with hd
  · obtain ⟨hdev, rfl⟩ := hd
    have hbp : (assignBuf c bp dev block .NORMAL).b_dev bp = dev := by
      show Function.update c.b_dev bp (if Search.NORMAL = .PREFETCH then NO_DEV else dev) bp = dev
      rw [Function.update_self, if_neg (by decide)]
    have hb : (assignBuf c bp dev block .NORMAL).b_blocknr bp = block := Function.update_self ..
    rw [rwBlock_read (c := assignBuf c bp dev block .NORMAL) (hs.congr rfl rfl) (by rwa [hbp])]
    unfold onDisk
    rw [hbp, hb]
    rfl
  · rfl

/-- The parts of a buffer that has been filled in, when the driver serves the request. -/
structure Filled (bp : Buf) (dev block : ℕ) (only_search : Search) (c c' : Cache) : Prop where
  served : Served c'
  disk : c'.disk = c.disk
  blocknr : c'.b_blocknr = Function.update c.b_blocknr bp block
  read : dev ≠ NO_DEV → only_search = .NORMAL →
    c'.b_data bp = c.disk dev block ∧ c'.b_dirt bp = false
  others : ∀ x, x ≠ bp → KeepsBlock x c c'
  dev : c'.b_dev = Function.update c.b_dev bp (if only_search = .PREFETCH then NO_DEV else dev)

theorem fillBuf_filled (hs : Served c) (bp : Buf) (dev block : ℕ) (only_search : Search) :
    Filled bp dev block only_search c (fillBuf c bp dev block only_search) := by
  rw [fillBuf_served hs]
  split_ifs with hd
  · refine ⟨hs.of_suffix (List.tail_suffix _) (List.suffix_refl _), rfl, rfl,
      fun _ _ => ⟨Function.update_self .., Function.update_self ..⟩, fun x hx => ?_, rfl⟩
    exact ⟨Function.update_of_ne hx _ _, Function.update_of_ne hx _ _,
      Function.update_of_ne hx _ _, Function.update_of_ne hx _ _⟩
  · refine ⟨hs.congr rfl rfl, rfl, rfl, fun h₁ h₂ => absurd ⟨h₁, h₂⟩ hd, fun x hx => ?_, rfl⟩
    exact ⟨Function.update_of_ne hx _ _, Function.update_of_ne hx _ _, rfl, rfl⟩

/-- `get_block` keeps the contents of all blocks. -/
theorem Got.faithful (hgot : Got s.cache dev block only_search bp c) (h : Faithful s fresh L)
    (hroom : Room s) :
    Faithful ⟨c, Function.update s.held bp (s.held bp + 1)⟩
      (fresh ∪ gotFresh s.cache (.get dev block only_search bp)) L := by
  have hinv := hgot.inv h.inv hroom
  have hheld := h.got_held dev block only_search bp
  cases hgot with
  | hit hdev hbp hblock =>
    refine h.of_bufs (c := s.cache) hinv (h.served.congr rfl rfl) rfl
      (fun x hx => ⟨?_, hheld x hx⟩) (fun x _ hf => ?_) fun x _ => Or.inl ⟨rfl, rfl⟩
    · rcases hx with hx | hx
      · exact (h.fresh x hx).1
      · exact absurd hblock ((mem_gotFresh hx).2.2.2 hdev bp hbp)
    · exact Or.inl ⟨⟨rfl, rfl, rfl, rfl⟩, fun e => hf (Or.inl e)⟩
  | @miss links c₁ habsent hfree hlinks hlinked hclean =>
    have hblocknr : links.b_blocknr = s.cache.b_blocknr := by rw [hlinks]
    have hs : Faithful ⟨s.cache, s.held⟩ fresh L := h
    obtain ⟨hw, hl₁, hclean₁⟩ := hs.cleanTaken hblocknr hclean
    have hbp : bp ∉ fresh := fun hm => by
      have := (h.fresh bp hm).2
      rw [← h.inv.count] at this
      omega
    have h₁ := hs.wrote hw
    have hb₁ : c₁.b_blocknr = s.cache.b_blocknr := by rw [hl₁, hblocknr]
    have hfill := fillBuf_filled (hw.served.congr rfl rfl : Served c₁) bp dev block only_search
    refine h₁.of_bufs hinv hfill.served hfill.disk (fun x hx => ⟨?_, hheld x hx⟩)
      (fun x hx hf => ?_) fun x hx => ?_
    · rw [hfill.dev]
      rcases hx with hx | hx
      · have hne : x ≠ bp := fun e => hbp (by rwa [← e])
        rw [Function.update_of_ne hne]
        exact (h₁.fresh x hx).1
      · obtain ⟨rfl, hd, rfl, -⟩ := mem_gotFresh hx
        rwa [Function.update_self]
    · by_cases hxb : x = bp
      · -- The block taken was read, or it is fresh, or it has no device.
        subst hxb
        rw [hfill.dev, Function.update_self] at hx
        cases only_search with
        | PREFETCH => exact absurd rfl hx
        | NO_READ => exact absurd (Or.inr ⟨rfl, hx, habsent⟩) hf
        | NORMAL =>
          obtain ⟨hdata, -⟩ := hfill.read hx rfl
          have hdisk : c₁.disk dev block = L dev block := by
            rw [hw.absent dev block hx habsent]
            exact h.absent dev block hx habsent
          unfold onDisk
          rw [hfill.disk, hdata, hfill.dev, hfill.blocknr, Function.update_self,
            Function.update_self]
          exact Or.inr ⟨hdisk, Or.inr hdisk⟩
      · obtain ⟨hdev, hb, hdata, hdirt⟩ := hfill.others x hxb
        exact Or.inl ⟨⟨hdev, hb.trans (congrFun hb₁ x), hdata, hdirt⟩, fun e => hf (Or.inl e)⟩
    · by_cases hxb : x = bp
      · subst hxb
        refine Or.inr ⟨hclean₁ ?_, hbp⟩
        rw [← congrFun hw.dev x]
        exact hx
      · obtain ⟨hdev, hb, -, -⟩ := hfill.others x hxb
        exact Or.inl ⟨hdev, hb.trans (congrFun hb₁ x)⟩

/-- The block that `get_block` returns is that of the device asked for. -/
theorem Got.dev_eq (hgot : Got s.cache dev block only_search bp c) (h : Faithful s fresh L)
    (hmode : only_search ≠ .PREFETCH) : c.b_dev bp = dev := by
  cases hgot with
  | hit hdev hbp hblock => exact hbp
  | @miss links c₁ habsent hfree hlinks hlinked hclean =>
    have hblocknr : links.b_blocknr = s.cache.b_blocknr := by rw [hlinks]
    have hs : Faithful ⟨s.cache, s.held⟩ fresh L := h
    obtain ⟨hw, -, -⟩ := hs.cleanTaken hblocknr hclean
    rw [(fillBuf_filled (hw.served.congr rfl rfl : Served c₁) bp dev block only_search).dev,
      Function.update_self, if_neg hmode]

/-- A queue of prefetched buffers is read. -/
theorem Faithful.read (h : Faithful s fresh L) (hq : Prefetched s.cache dev bufq)
    (hheld : ∀ x ∈ bufq, 0 < s.held x)
    (he : rwScattered s.cache dev bufq .READING = some c) :
    Faithful ⟨c, returned s.held bufq⟩ fresh L := by
  obtain ⟨c', he', hinv⟩ := h.inv.read hq hheld
  obtain rfl := Option.some.inj (he'.symm.trans he)
  have hr := hq.readIn h.served he
  have hblocknr := hq.read_blocknr he
  have hother : ∀ x, x ∉ bufq → c'.b_dev x = s.cache.b_dev x := by
    intro x hm
    rw [rwScattered_reading hq.bufs_nodup] at he
    have hperm := sortBufs_perm s.cache.b_blocknr bufq
    have hm' := mt hperm.mem_iff.mp hm
    generalize sortBufs s.cache.b_blocknr bufq = q at hm' he
    obtain rfl := Option.some.inj he
    have hmap := map_fst_zip_serve s.cache dev .READING q
    have hdev := (@harvest_reading_of_notMem (serve s.cache dev .READING q).2 dev x
      (q.zip (serve s.cache dev .READING q).1) (by rwa [hmap])).2
    exact hdev.trans (by rw [serve_dev])
  refine Faithful.of_bufs (c := s.cache) h hinv hr.served hr.disk (fun x hx => ?_)
    (fun x hx hf => ?_) fun x hx => ?_
  · obtain ⟨hd, hpos⟩ := h.fresh x hx
    have hm : x ∉ bufq := fun hm => hd (hq.free x hm)
    rw [hother x hm]
    refine ⟨hd, ?_⟩
    unfold returned
    rwa [if_neg hm]
  · by_cases hm : x ∈ bufq
    · -- What has been read is on the device.
      obtain ⟨hdev, hdata⟩ := (hr.block x hm).resolve_left hx
      have hd : dev ≠ NO_DEV := hdev ▸ hx
      have hdisk := h.absent dev _ hd (hq.absent x hm)
      unfold onDisk
      rw [hdata, hdev, hblocknr, hr.disk]
      exact Or.inr ⟨hdisk, Or.inr hdisk⟩
    · have hst := hq.read_stays hm he
      exact Or.inl ⟨⟨hother x hm, hst.blocknr, hst.data, congrFun hr.dirt x⟩, hf⟩
  · exact Or.inl ⟨hother x fun hm => hx (hq.free x hm), congrFun hblocknr x⟩

/-! ## Writing -/

/-- A write changes the contents of the block that its buffer has. -/
theorem Faithful.write (h : Faithful s fresh L) (bp : Buf) (data : Block) :
    Faithful ⟨writeBuf s.cache bp data, s.held⟩ (fresh \ {bp})
      (L.set (s.cache.b_dev bp) (s.cache.b_blocknr bp) data) where
  inv := CacheInv.write h.inv bp data
  served := h.served.congr rfl rfl
  block x hx hf := by
    have hx : s.cache.b_dev x ≠ NO_DEV := hx
    show Function.update s.cache.b_data bp data x = _ ∧
      (Function.update s.cache.b_dirt bp true x = true ∨ onDisk s.cache x = _)
    by_cases hxb : x = bp
    · subst hxb
      rw [Function.update_self, Function.update_self]
      exact ⟨(Contents.set_self hx).symm, Or.inl rfl⟩
    · have hf : x ∉ fresh := fun e => hf ⟨e, hxb⟩
      have hne : ¬(s.cache.b_dev x = s.cache.b_dev bp ∧ s.cache.b_blocknr x = s.cache.b_blocknr bp) :=
        fun e => hxb (h.inv.unique x bp hx e.1 e.2)
      rw [Function.update_of_ne hxb, Function.update_of_ne hxb]
      show s.cache.b_data x = Contents.set _ _ _ _ (s.cache.b_dev x) (s.cache.b_blocknr x) ∧
        (_ ∨ _ = Contents.set _ _ _ _ (s.cache.b_dev x) (s.cache.b_blocknr x))
      rw [Contents.set_of_ne hne]
      exact h.block x hx hf
  absent dev block hd ha := by
    have ha : Absent s.cache dev block := ha
    rw [Contents.set_of_ne fun e => ha hd bp e.1.symm e.2.symm]
    exact h.absent dev block hd ha
  fresh x hx := h.fresh x hx.1

/-! ## Every action -/

/-- A call keeps the contents of all blocks, if no fresh buffer is returned that nobody else holds.
-/
theorem Call.faithful (hc : Call base s a s') (h : Faithful s fresh L)
    (hput : ∀ bp t, a = .put bp t → bp ∈ fresh → 1 < s.held bp) :
    Faithful s' (fresh ∪ gotFresh s.cache a) L := by
  cases hc with
  | get hroom he => exact (getBlock_got_of_eq h.inv hroom he).faithful h hroom
  | put hheld =>
    unfold gotFresh
    rw [Set.union_empty]
    exact h.put (Nat.zero_lt_of_lt hheld) _ (hput _ _ rfl)
  | read hq hheld he =>
    unfold gotFresh
    rw [Set.union_empty]
    exact h.read hq (fun x hx => (hheld x hx).2) he

/-- A plain call leaves nothing to be overwritten. -/
theorem gotFresh_plain (ha : a.Plain) : gotFresh c a = ∅ := by
  cases a with
  | put bp t => rfl
  | read dev bufq => rfl
  | get dev block only_search bp =>
    cases only_search with
    | NO_READ => exact absurd rfl ha
    | NORMAL => rfl
    | PREFETCH => rfl

/-- What a call of `get_block` was. -/
theorem Call.get_eq (hc : Call base s (.get dev block only_search bp) s') :
    Room s ∧ getBlock s.cache dev block only_search = some (bp, s'.cache) := by
  cases hc with
  | get hroom he => exact ⟨hroom, he⟩

/-- `rahead` keeps the contents of all blocks, and returns those of the block asked for. -/
theorem Faithful.rahead {rip : Inode} {scale baseblock position bytes_ahead : ℕ}
    (h : Faithful s fresh L) (hroom : Room s)
    (hd : RaheadDistinct s.cache rip scale baseblock position bytes_ahead)
    (he : rahead s.cache rip scale baseblock position bytes_ahead = some (bp, c)) :
    Faithful ⟨c, Function.update s.held bp (s.held bp + 1)⟩ fresh L ∧ c.b_blocknr bp = baseblock ∧
      (raheadDev rip ≠ NO_DEV → c.b_dev bp = raheadDev rip) := by
  obtain ⟨bp, c, t, only_search, he', hr, ht, hcall, hmode⟩ := rahead_spec h.inv hroom hd
  obtain ⟨rfl, rfl⟩ := Prod.mk.inj (Option.some.inj (he'.symm.trans he))
  -- Fresh buffers are held by the callers, so that `rahead` does not return them.
  have hstep : ∀ t a t', Faithful t fresh L → Call s.held t a t' → a.Plain →
      Faithful t' fresh L := by
    intro t a t' hP hc ha
    have := hc.faithful hP fun bp type e hf => ?_
    · rwa [gotFresh_plain ha, Set.union_empty] at this
    · subst e
      cases hc with
      | put hheld =>
        have := (h.fresh bp hf).2
        omega
  have hft : Faithful t fresh L := hr.invariant h hstep
  have hlast := hcall.faithful hft (by simp)
  obtain ⟨hroom', hgot'⟩ := hcall.get_eq
  have hgot := getBlock_got_of_eq hft.inv hroom' hgot'
  refine ⟨?_, hgot.blocknr, fun _ => ?_⟩
  · rwa [gotFresh_plain ?_, Set.union_empty] at hlast
    rcases hmode with rfl | ⟨rfl, -⟩
    · exact fun e => Search.noConfusion e
    · exact fun e => Search.noConfusion e
  · rcases hmode with rfl | ⟨rfl, hdev⟩
    · exact hgot.dev_eq hft (by decide)
    · exact hgot.dev_cases.resolve_right hdev

/-- Every action that is allowed keeps the cache faithful. -/
theorem DiskStep.faithful (h : DiskStep m act m')
    (hf : Faithful m.session m.fresh m.contents) : Faithful m'.session m'.fresh m'.contents := by
  obtain ⟨s, fresh, L⟩ := m
  obtain ⟨s', fresh', L'⟩ := m'
  obtain ⟨hst, hallowed, rfl, rfl⟩ := h
  dsimp only at hst hf ⊢
  cases hst with
  | call hc =>
    refine hc.faithful hf fun bp t e hm => ?_
    subst e
    exact hallowed hm
  | write hheld => exact hf.write ..
  | scatter => exact hallowed.elim
  | flushall he => exact Faithful.wrote (c := s.cache) hf (flushall_done hf.served hf.inv.unique he).1
  | sync he => exact Faithful.wrote (c := s.cache) hf (syncBuffers_done hf.served hf.inv.unique he).1
  | @invalidate dev =>
    refine Faithful.drop (c := s.cache) hf fun x => ?_
    by_cases hx : s.cache.b_dev x = dev
    · exact Or.inr ⟨if_pos hx, fun _ => hallowed x hx⟩
    · exact Or.inl (if_neg hx)
  | rahead hroom hd he => exact (hf.rahead hroom hd he).1

/-- The pool is faithful when it has been initialized. -/
theorem DiskStart.faithful (h : DiskStart m) : Faithful m.session m.fresh m.contents := by
  obtain ⟨hstart, hserved, hfresh, hcontents⟩ := h
  have hdev : ∀ x, m.session.cache.b_dev x = NO_DEV := by
    obtain ⟨c, -, -, he⟩ := hstart
    rw [he]
    exact fun _ => rfl
  refine ⟨hstart.inv, hserved, fun x hx => absurd (hdev x) hx, fun dev block _ _ => ?_, ?_⟩
  · rw [hcontents]
  · rw [hfresh]
    exact fun x hx => absurd hx (Set.notMem_empty x)

/-- The cache is faithful in every state that it reaches. -/
theorem Faithful.of_reachable (h : Reachable DiskStart DiskStep m) :
    Faithful m.session m.fresh m.contents :=
  h.invariant (P := fun m => Faithful m.session m.fresh m.contents) (fun _ h => h.faithful)
    fun _ _ _ hP hst => hst.faithful hP

/-! ## What is read, and what is on the devices -/

/-- `get_block` returns the contents of the block, unless its buffer is still to be overwritten. -/
theorem Faithful.get (h : Faithful s fresh L) (hroom : Room s) (hdev : dev ≠ NO_DEV) (block : ℕ) :
    ∃ bp c, getBlock s.cache dev block .NORMAL = some (bp, c) ∧ c.b_dev bp = dev ∧
      c.b_blocknr bp = block ∧ (bp ∉ fresh → c.b_data bp = L dev block) ∧
      Faithful ⟨c, Function.update s.held bp (s.held bp + 1)⟩ fresh L := by
  obtain ⟨bp, c, he, hgot⟩ := getBlock_got h.inv hroom.1 dev block .NORMAL
  have hf := hgot.faithful h hroom
  rw [gotFresh_plain (by exact fun e => Search.noConfusion e), Set.union_empty] at hf
  have hd := hgot.dev_eq h (by decide)
  refine ⟨bp, c, he, hd, hgot.blocknr, fun hbp => ?_, hf⟩
  have := (hf.block bp (by rw [hd]; exact hdev) hbp).1
  rwa [hd, hgot.blocknr] at this

/-- After `do_sync`, the device has the contents of a block, unless its buffer is still to be
overwritten. -/
theorem Faithful.sync (h : Faithful s fresh L) (hdev : dev ≠ NO_DEV)
    (hblock : ∀ x ∈ fresh, ¬(s.cache.b_dev x = dev ∧ s.cache.b_blocknr x = block)) :
    ∃ c, syncBuffers s.cache = some c ∧ c.disk dev block = L dev block := by
  obtain ⟨c, he, -⟩ := syncBuffers_spec s.cache
  refine ⟨c, he, ?_⟩
  obtain ⟨hw, hclean⟩ := syncBuffers_done h.served h.inv.unique he
  have hf := Faithful.wrote (c := s.cache) h hw
  by_cases ha : Absent c dev block
  · exact hf.absent dev block hdev ha
  · unfold Absent at ha
    push Not at ha
    obtain ⟨-, x, hx, hb⟩ := ha
    have hxs : s.cache.b_dev x = dev := by rw [← congrFun hw.dev x, hx]
    have hbs : s.cache.b_blocknr x = block := by rw [← congrFun hw.kept.blocknr x, hb]
    have hd : s.cache.b_dev x ≠ NO_DEV := by rwa [hxs]
    have hnot : x ∉ fresh := fun e => hblock x e ⟨hxs, hbs⟩
    have := (hf.block x (by rw [hx]; exact hdev) hnot).2.resolve_left (by simp [hclean x hd])
    unfold onDisk at this
    dsimp only at this
    rwa [hx, hb] at this

/-- What the cache promises as a disk. -/
structure DiskOk (m : Disk) : Prop where
  /-- `get_block` returns the contents that were last left in the block. -/
  get : Room m.session → ∀ dev block, dev ≠ NO_DEV → ∃ bp c,
    getBlock m.session.cache dev block .NORMAL = some (bp, c) ∧
      (bp ∉ m.fresh → c.b_data bp = m.contents dev block)
  /-- `do_sync` leaves the contents of every block on its device. -/
  sync : ∃ c, syncBuffers m.session.cache = some c ∧ ∀ dev block, dev ≠ NO_DEV →
    (∀ x ∈ m.fresh, ¬(m.session.cache.b_dev x = dev ∧ m.session.cache.b_blocknr x = block)) →
    c.disk dev block = m.contents dev block
  /-- What `rahead` returns. -/
  ahead : Room m.session → ∀ rip scale baseblock position bytes_ahead,
    raheadDev rip ≠ NO_DEV →
    RaheadDistinct m.session.cache rip scale baseblock position bytes_ahead → ∃ bp c,
    rahead m.session.cache rip scale baseblock position bytes_ahead = some (bp, c) ∧
      (bp ∉ m.fresh → c.b_data bp = m.contents (raheadDev rip) baseblock)

/-- In every state that the cache reaches, it is a faithful disk. -/
theorem faithful_disk (h : Reachable DiskStart DiskStep m) : DiskOk m := by
  have hf := Faithful.of_reachable h
  refine ⟨fun hroom dev block hdev => ?_, ?_, fun hroom rip scale baseblock position n hdev hd => ?_⟩
  · obtain ⟨bp, c, he, -, -, hdata, -⟩ := hf.get hroom hdev block
    exact ⟨bp, c, he, hdata⟩
  · obtain ⟨c, he, -⟩ := syncBuffers_spec m.session.cache
    refine ⟨c, he, fun dev block hdev hblock => ?_⟩
    obtain ⟨c', he', hdisk⟩ := hf.sync hdev hblock
    obtain rfl := Option.some.inj (he.symm.trans he')
    exact hdisk
  · obtain ⟨bp, c, -, -, he, -⟩ := rahead_spec hf.inv hroom hd
    obtain ⟨hfc, hb, hbdev⟩ := hf.rahead hroom hd he
    refine ⟨bp, c, he, fun hbp => ?_⟩
    have := (hfc.block bp (by rw [hbdev hdev]; exact hdev) hbp).1
    rwa [hbdev hdev, hb] at this

/-- An action of a state that is reached. -/
theorem disk_of_step (h : Reachable DiskStart DiskStep m) (hst : CacheStep m.session act s')
    (ha : Allowed m act) :
    Reachable DiskStart DiskStep ⟨s', freshAfter m act, contentsAfter m act⟩ :=
  h.of_step ⟨hst, ha, rfl, rfl⟩

/-- A block is overwritten without being read, put, and written by `do_sync`. -/
theorem faithful_disk_overwritten : ∃ m, m.fresh = ∅ ∧ m.contents 1 5 = (fun _ => 7) ∧ DiskOk m := by
  have hrun : ((getBlock (bufPool { staticCache with io := [] }) 1 5 .NO_READ).bind fun p =>
      (syncBuffers (putBlock (writeBuf p.2 p.1 fun _ => 7) (some p.1) FULL_DATA_BLOCK)).bind fun c =>
      some (p.1, decide (p.2.b_dev p.1 = 1 ∧ p.2.b_blocknr p.1 = 5 ∧ c.b_dirt 0 = false))) =
      some (0, true) := by
    decide +kernel
  simp only [Option.bind_eq_some_iff, Option.some.injEq, Prod.mk.injEq, decide_eq_true_eq] at hrun
  obtain ⟨⟨_, c₁⟩, h₁, c₂, h₂, rfl, hdev, hblocknr, -⟩ := hrun
  have hstart : DiskStart ⟨⟨bufPool { staticCache with io := [] }, 0⟩, ∅, fun _ _ _ => 0⟩ :=
    ⟨⟨_, fun _ => rfl, fun _ => rfl, rfl⟩, ⟨by simp [bufPool], by simp [bufPool, staticCache]⟩, rfl, rfl⟩
  have r₁ := disk_of_step (Reachable.of_init hstart) (.call (.get ⟨by decide, by decide⟩ h₁)) trivial
  have r₂ := disk_of_step r₁
    (show CacheStep _ (.write 0 fun _ => 7) _ from .write (by dsimp only; decide)) trivial
  have r₃ := disk_of_step r₂ (.call (show Call 0 _ (.put 0 FULL_DATA_BLOCK) _ from
    .put (by dsimp only; decide))) fun hm => absurd rfl hm.2
  refine ⟨_, ?_, ?_, faithful_disk (disk_of_step r₃ (.sync h₂) trivial)⟩
  · ext x
    simp only [freshAfter, gotFresh, Set.mem_union, Set.mem_sdiff, Set.mem_ofPred_eq,
      Set.mem_singleton_iff, Set.mem_empty_iff_false]
    tauto
  · show Contents.set _ (c₁.b_dev 0) (c₁.b_blocknr 0) _ 1 5 = _
    dsimp only at hdev hblocknr
    rw [hdev, hblocknr]
    exact Contents.set_self (by decide)

end Minix.Fs
