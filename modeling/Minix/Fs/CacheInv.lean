import Minix.Fs.BufLists
import Minix.Fs.CacheIo

/-!
# The invariant of the cache, and the calls that hold buffers

A `Session` is the cache, and how often each buffer is held by those who use it. `CacheInv` is the
invariant. `Call` has the three calls by which buffers come to be held and are returned:
`get_block`, `put_block`, and `rw_scattered` for reading, which returns the buffers of its queue. It
takes a `base` of holds that are not returned, so that the calls that a function makes can be told
from those of its callers.

`Got` is what `get_block` does: it finds the block in the cache, or replaces a buffer that is not in
use. No statement here supposes that a driver serves a request.
-/

namespace Minix.Fs

open Lib

/-- The cache, and the number of holds on each buffer. -/
structure Session where
  cache : Cache
  held : Buf → ℕ

/-- At most one buffer has a given block of a device. -/
def Unique (s : Cache) : Prop :=
  ∀ x y, s.b_dev x ≠ NO_DEV → s.b_dev x = s.b_dev y → s.b_blocknr x = s.b_blocknr y → x = y

/-- The invariant of the cache. -/
structure CacheInv (s : Session) : Prop where
  linked : ∃ lru hash, Linked s.cache.toLinks lru hash
  in_use : InUse s.cache.toLinks
  /-- The users of a buffer are those who hold it. -/
  count : s.cache.b_count = s.held
  bound : ∀ x, s.held x < 256
  unique : Unique s.cache

/-- A block is not in the cache. -/
def Absent (s : Cache) (dev block : ℕ) : Prop :=
  dev ≠ NO_DEV → ∀ x, s.b_dev x = dev → s.b_blocknr x ≠ block

/-- What `get_block` does. -/
inductive Got (s : Cache) (dev block : ℕ) (only_search : Search) : Buf → Cache → Prop
  | hit {bp : Buf} (hdev : dev ≠ NO_DEV) (hbp : s.b_dev bp = dev) (hblock : s.b_blocknr bp = block) :
      Got s dev block only_search bp { s with toLinks := useBuf s.toLinks bp }
  | miss {bp : Buf} {links : Links} {c : Cache} (habsent : Absent s dev block)
      (hfree : s.b_count bp = 0)
      (hlinks : links = { s.toLinks with
        b_hash := links.b_hash, buf_hash := links.buf_hash, bufs_in_use := s.bufs_in_use + 1 })
      (hlinked : ∃ lru hash, Linked (rekeyBuf links bp block) lru hash)
      (hclean : cleanTaken { s with toLinks := links } bp = some c) :
      Got s dev block only_search bp (fillBuf c bp dev block only_search)

/-- A call that holds a buffer or returns some. -/
inductive CacheCall
  | get (dev block : ℕ) (only_search : Search) (bp : Buf)
  | put (bp : Buf) (block_type : ℕ)
  | read (dev : ℕ) (bufq : List Buf)

/-- There is room for one more buffer to be held. -/
def Room (s : Session) : Prop := (usedBufs s.held).card < NR_BUFS ∧ ∀ x, s.held x < 255

/-- A queue of prefetched buffers, which `rw_scattered` may read from the device: none of them has a
device yet, and their blocks are distinct and not in the cache. -/
structure Prefetched (s : Cache) (dev : ℕ) (bufq : List Buf) : Prop where
  nodup : (bufq.map s.b_blocknr).Nodup
  free : ∀ x ∈ bufq, s.b_dev x = NO_DEV
  absent : ∀ x ∈ bufq, Absent s dev (s.b_blocknr x)

/-- The holds that are left when those of a queue are returned. -/
def returned (held : Buf → ℕ) (bufq : List Buf) : Buf → ℕ :=
  fun x => if x ∈ bufq then held x - 1 else held x

/-- The calls that hold buffers, on top of `base`. -/
inductive Call (base : Buf → ℕ) : Session → CacheCall → Session → Prop
  | get {s : Session} {dev block : ℕ} {only_search : Search} {bp : Buf} {c : Cache} (hroom : Room s)
      (h : getBlock s.cache dev block only_search = some (bp, c)) :
      Call base s (.get dev block only_search bp) ⟨c, Function.update s.held bp (s.held bp + 1)⟩
  | put {s : Session} {bp : Buf} {block_type : ℕ} (hheld : base bp < s.held bp) :
      Call base s (.put bp block_type)
        ⟨putBlock s.cache (some bp) block_type, Function.update s.held bp (s.held bp - 1)⟩
  | read {s : Session} {dev : ℕ} {bufq : List Buf} {c : Cache} (hq : Prefetched s.cache dev bufq)
      (hheld : ∀ x ∈ bufq, base x = 0 ∧ 0 < s.held x)
      (h : rwScattered s.cache dev bufq .READING = some c) :
      Call base s (.read dev bufq) ⟨c, returned s.held bufq⟩

/-- A buffer keeps its block and its contents, and has its device or none. -/
structure Stays (x : Buf) (c c' : Cache) : Prop where
  blocknr : c'.b_blocknr x = c.b_blocknr x
  data : c'.b_data x = c.b_data x
  dev : c'.b_dev x = c.b_dev x ∨ c'.b_dev x = NO_DEV

variable {s : Session} {c c' c'' : Cache} {dev block : ℕ} {only_search : Search} {bp x : Buf}
  {bufq : List Buf} {base : Buf → ℕ}

theorem Stays.refl (x : Buf) (c : Cache) : Stays x c c := ⟨rfl, rfl, Or.inl rfl⟩

theorem Stays.trans (h : Stays x c c') (h' : Stays x c' c'') : Stays x c c'' where
  blocknr := h'.blocknr.trans h.blocknr
  data := h'.data.trans h.data
  dev := by
    rcases h'.dev with e | e
    · rw [e]
      exact h.dev
    · exact Or.inr e

/-- What is only written back stays. -/
theorem Kept.stays (h : Kept c c') (x : Buf) : Stays x c c' :=
  ⟨congrFun h.blocknr x, congrFun h.data x, h.dev x⟩

/-! ## Getting a block -/

/-- The search finds the block if it is in the cache. -/
theorem searchHash_spec {lru : List Buf} {hash : Fin NR_BUF_HASH → List Buf}
    (h : Linked c.toLinks lru hash) (dev block : ℕ) :
    (∃ bp, dev ≠ NO_DEV ∧ c.b_dev bp = dev ∧ c.b_blocknr bp = block ∧
      searchHash c dev block = some (some bp)) ∨
    (Absent c dev block ∧ searchHash c dev block = some none) := by
  unfold searchHash
  split_ifs with hdev
  · rcases scan_cases (fun bp => decide (c.b_blocknr bp = block ∧ c.b_dev bp = dev)) none
      (h.chains.chain (hashOf block)) (h.length_lt _) with ⟨a, bp, b, -, -, hbp, hs⟩ | ⟨hno, hs⟩
    · obtain ⟨hblock, hbp⟩ := of_decide_eq_true hbp
      exact Or.inl ⟨bp, hdev, hbp, hblock, by rw [hs]; rfl⟩
    · refine Or.inr ⟨fun _ x hx hblock => ?_, by rw [hs]; rfl⟩
      have := hno x ((h.mem_hash x _).mpr (by rw [hblock]))
      simp [hblock, hx] at this
  · exact Or.inr ⟨fun hne => absurd hne hdev, rfl⟩

/-- The number of buffers in use is the number of those that are held. -/
theorem CacheInv.in_use_eq (h : CacheInv s) : s.cache.bufs_in_use = (usedBufs s.held).card := by
  have := h.in_use
  unfold InUse at this
  rwa [h.count] at this

/-- `get_block` returns a buffer if fewer than `NR_BUFS` are held. -/
theorem getBlock_got (h : CacheInv s) (hroom : (usedBufs s.held).card < NR_BUFS) (dev block : ℕ)
    (only_search : Search) :
    ∃ bp c, getBlock s.cache dev block only_search = some (bp, c) ∧
      Got s.cache dev block only_search bp c := by
  obtain ⟨lru, hash, hl⟩ := h.linked
  unfold getBlock
  rcases searchHash_spec hl dev block with ⟨bp, hdev, hbp, hblock, hs⟩ | ⟨habsent, hs⟩
  · rw [hs]
    exact ⟨bp, _, rfl, Got.hit hdev hbp hblock⟩
  · have hn : s.cache.bufs_in_use < NR_BUFS := by
      rw [h.in_use_eq]
      exact_mod_cast hroom
    obtain ⟨bp, hfree, htake⟩ := takeOldest_spec hl h.in_use hn
    have hl' : Linked { s.cache.toLinks with bufs_in_use := s.cache.bufs_in_use + 1 } lru hash :=
      ⟨hl.dll, hl.all, hl.chains, hl.mem_hash⟩
    obtain ⟨links, hun, he, hash', hre⟩ := hl'.rekey bp block
    obtain ⟨c, hc, -⟩ := cleanTaken_spec { s.cache with toLinks := links } bp
    refine ⟨bp, fillBuf c bp dev block only_search, ?_,
      Got.miss habsent hfree (by rw [he]) ⟨lru, hash', hre⟩ hc⟩
    rw [hs]
    show replaceBuf s.cache dev block only_search = _
    simp only [replaceBuf, htake, hun, hc, Option.bind_eq_bind, Option.bind_some]

/-- What `get_block` has returned. -/
theorem getBlock_got_of_eq (h : CacheInv s) (hroom : Room s)
    (he : getBlock s.cache dev block only_search = some (bp, c)) :
    Got s.cache dev block only_search bp c := by
  obtain ⟨bp', c', he', hgot⟩ := getBlock_got h hroom.1 dev block only_search
  obtain ⟨rfl, rfl⟩ := Prod.mk.inj (Option.some.inj (he'.symm.trans he))
  exact hgot

@[simp]
theorem fillBuf_links (c : Cache) (bp : Buf) (dev block : ℕ) (only_search : Search) :
    (fillBuf c bp dev block only_search).toLinks = rekeyBuf c.toLinks bp block := by
  unfold fillBuf
  dsimp only
  split_ifs
  · rw [rwBlock_links]
    rfl
  · rfl

/-- The block taken is assigned the requested device, or none. -/
theorem assignBuf_dev_self :
    (assignBuf c bp dev block only_search).b_dev bp = dev ∨
      (assignBuf c bp dev block only_search).b_dev bp = NO_DEV := by
  unfold assignBuf
  dsimp only
  rw [Function.update_self]
  split_ifs
  · exact Or.inr rfl
  · exact Or.inl rfl

/-- The block taken has the requested device, or none. -/
theorem fillBuf_dev_self :
    (fillBuf c bp dev block only_search).b_dev bp = dev ∨
      (fillBuf c bp dev block only_search).b_dev bp = NO_DEV := by
  unfold fillBuf
  dsimp only
  split_ifs
  · rcases rwBlock_dev (assignBuf c bp dev block only_search) bp .READING bp with e | e
    · rw [e]
      exact assignBuf_dev_self
    · exact Or.inr e.2
  · exact assignBuf_dev_self

/-- Filling in a buffer leaves the devices of the others. -/
theorem fillBuf_dev_of_ne (hx : x ≠ bp) :
    (fillBuf c bp dev block only_search).b_dev x = c.b_dev x := by
  have hassign : (assignBuf c bp dev block only_search).b_dev x = c.b_dev x :=
    Function.update_of_ne hx _ _
  unfold fillBuf
  dsimp only
  split_ifs
  · rcases rwBlock_dev (assignBuf c bp dev block only_search) bp .READING x with e | e
    · rw [e, hassign]
    · exact absurd e.1 hx
  · exact hassign

/-- Filling in a buffer leaves the contents of the others. -/
theorem fillBuf_data_of_ne (hx : x ≠ bp) :
    (fillBuf c bp dev block only_search).b_data x = c.b_data x := by
  unfold fillBuf
  dsimp only
  split_ifs
  · exact rwBlock_data_of_ne hx
  · rfl

/-- The other buffers stay when a block is got, and so do those in use. -/
theorem Got.stays (h : Got s.cache dev block only_search bp c) (hx : x ≠ bp ∨ s.cache.b_count x ≠ 0) :
    Stays x s.cache c := by
  cases h with
  | hit => exact ⟨rfl, rfl, Or.inl rfl⟩
  | @miss links c habsent hfree hlinks hlinked hclean =>
    have hx : x ≠ bp := hx.elim id fun h e => h (e ▸ hfree)
    obtain ⟨_, hc, hkept⟩ := cleanTaken_spec { s.cache with toLinks := links } bp
    obtain rfl := Option.some.inj (hc.symm.trans hclean)
    refine ⟨?_, ?_, ?_⟩
    · rw [fillBuf_links, hkept.links]
      show Function.update links.b_blocknr bp block x = _
      rw [Function.update_of_ne hx, hlinks]
    · rw [fillBuf_data_of_ne hx, hkept.data]
    · rw [fillBuf_dev_of_ne hx]
      exact hkept.dev x

/-- The buffer that is got has the requested block. -/
theorem Got.blocknr (h : Got s.cache dev block only_search bp c) : c.b_blocknr bp = block := by
  cases h with
  | hit _ _ hblock => exact hblock
  | miss =>
    rw [fillBuf_links]
    exact Function.update_self ..

/-- The buffer that is got has the requested device, or none. -/
theorem Got.dev_cases (h : Got s.cache dev block only_search bp c) :
    c.b_dev bp = dev ∨ c.b_dev bp = NO_DEV := by
  cases h with
  | hit _ hbp _ => exact Or.inl hbp
  | miss => exact fillBuf_dev_self

/-- The holds on the buffers, counted by the cache. -/
theorem Got.count (h : Got s.cache dev block only_search bp c) (hinv : CacheInv s)
    (hroom : Room s) : c.b_count = Function.update s.held bp (s.held bp + 1) := by
  have hlt := hroom.2 bp
  rw [← hinv.count]
  rw [← hinv.count] at hlt
  cases h with
  | hit =>
    show Function.update s.cache.b_count bp (char8 (s.cache.b_count bp + 1)) = _
    rw [char8_of_lt (by omega)]
  | @miss links c habsent hfree hlinks hlinked hclean =>
    obtain ⟨_, hc, hkept⟩ := cleanTaken_spec { s.cache with toLinks := links } bp
    obtain rfl := Option.some.inj (hc.symm.trans hclean)
    rw [fillBuf_links, hkept.links]
    show Function.update links.b_count bp (char8 (links.b_count bp + 1)) = _
    have hcount : links.b_count = s.cache.b_count := by rw [hlinks]
    rw [hcount, char8_of_lt (by omega)]

/-- `get_block` keeps the invariant, with one more hold. -/
theorem Got.inv (h : Got s.cache dev block only_search bp c) (hinv : CacheInv s) (hroom : Room s) :
    CacheInv ⟨c, Function.update s.held bp (s.held bp + 1)⟩ := by
  have hbound : ∀ x, Function.update s.held bp (s.held bp + 1) x < 256 := fun x => by
    have := hroom.2 x
    have := hroom.2 bp
    by_cases hx : x = bp
    · rw [hx, Function.update_self]
      omega
    · rw [Function.update_of_ne hx]
      omega
  have hcount := h.count hinv hroom
  have hstays := fun x hx => h.stays (x := x) (Or.inl hx)
  have hblocknr := h.blocknr
  have hdev := h.dev_cases
  cases h with
  | hit =>
    obtain ⟨lru, hash, hl⟩ := hinv.linked
    refine ⟨⟨lru, hash, hl.dll, hl.all, hl.chains, hl.mem_hash⟩, hinv.in_use.use ?_, hcount, hbound,
      hinv.unique⟩
    rw [hinv.count]
    exact hroom.2 bp
  | @miss links c habsent hfree hlinks hlinked hclean =>
    obtain ⟨c₁, hc, hkept⟩ := cleanTaken_spec { s.cache with toLinks := links } bp
    obtain rfl := Option.some.inj (hc.symm.trans hclean)
    refine ⟨?_, ?_, hcount, hbound, ?_⟩
    · dsimp only
      rw [fillBuf_links, hkept.links]
      exact hlinked
    · unfold InUse
      dsimp only at hcount ⊢
      have hnot : bp ∉ usedBufs s.held := by simpa [← hinv.count] using hfree
      rw [hcount, usedBufs_update (by omega), Finset.card_insert_of_notMem hnot, fillBuf_links,
        hkept.links]
      show links.bufs_in_use = _
      rw [hlinks]
      show s.cache.bufs_in_use + 1 = _
      rw [hinv.in_use_eq]
      push_cast
      rfl
    · -- The requested block was not in the cache, so that no other buffer has it.
      have hnew : ∀ y, y ≠ bp → (fillBuf c₁ bp dev block only_search).b_dev bp ≠ NO_DEV →
          (fillBuf c₁ bp dev block only_search).b_dev bp =
            (fillBuf c₁ bp dev block only_search).b_dev y →
          (fillBuf c₁ bp dev block only_search).b_blocknr bp ≠
            (fillBuf c₁ bp dev block only_search).b_blocknr y := by
        intro y hy hne hd hb
        obtain ⟨hby, -, hdy⟩ := hstays y hy
        have hself := hdev.resolve_right hne
        rw [hself] at hne hd
        rw [← hd] at hdy
        refine habsent hne y (hdy.resolve_right hne).symm ?_
        rw [← hby, ← hb, hblocknr]
      intro x y hne hd hb
      by_cases hx : x = bp
      · subst hx
        by_contra hy
        exact hnew y (Ne.symm hy) hne hd hb
      · by_cases hy : y = bp
        · subst hy
          exact absurd hb.symm (hnew x hx (hd ▸ hne) hd.symm)
        · obtain ⟨hbx, -, hdx⟩ := hstays x hx
          obtain ⟨hby, -, hdy⟩ := hstays y hy
          have hdx' := hdx.resolve_right hne
          have hdy' := hdy.resolve_right (hd ▸ hne)
          exact hinv.unique x y (hdx' ▸ hne) (hdx'.symm.trans (hd.trans hdy'))
            (hbx.symm.trans (hb.trans hby))

end Minix.Fs
