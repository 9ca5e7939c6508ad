import Minix.Fs.WriteBack
import Minix.Fs.CacheRun
import Minix.Lib.Run

/-!
# Devices that are only read

The users of the cache get and put blocks, write to the buffers, read ahead, flush and invalidate,
in any order (`UseStep`). A buffer of a device should be dirty only after a writer has changed it
(`ChangedSince`), so that nothing is written to a device that is only read.

`get_block` takes a buffer over without making it clean when it is dirty and has no device: a hole
has been read into it, or its device has been invalidated. If it is taken to prefetch a block, then
`rw_scattered` gives it a device, and it is still dirty. `UseClean` says of a use of the cache that
it does not do this.

The relation `Spares` is what the parts of the cache do to the buffers that no one writes to.
-/

namespace Minix.Fs

open Lib

/-- What the rest of the file system does with the cache. A block that is not read first is
overwritten. -/
inductive CacheUse
  | get (dev block : ℕ)
  | put (bp : Buf) (block_type : ℕ)
  | rahead (rip : Inode) (scale baseblock position bytes_ahead : ℕ)
  | write (bp : Buf) (data : Block)
  | overwrite (dev block : ℕ) (data : Block)
  | flushall (dev : ℕ)
  | invalidate (dev : ℕ)
  | sync

/-- The cache after it has been used. -/
def CacheUse.apply (s : Cache) : CacheUse → Option Cache
  | .get dev block => (getBlock s dev block .NORMAL).map Prod.snd
  | .put bp block_type => some (putBlock s (some bp) block_type)
  | .rahead rip scale baseblock position bytes_ahead =>
    (Fs.rahead s rip scale baseblock position bytes_ahead).map Prod.snd
  | .write bp data => some (writeBuf s bp data)
  | .overwrite dev block data =>
    (getBlock s dev block .NO_READ).map fun r => writeBuf r.2 r.1 data
  | .flushall dev => Fs.flushall s dev
  | .invalidate dev => some (Fs.invalidate s dev)
  | .sync => syncBuffers s

/-- The cache is used. -/
def UseStep (s : Cache) (a : CacheUse) (s' : Cache) : Prop := a.apply s = some s'

/-- The buffers whose contents a writer changes. -/
def CacheUse.changes (s : Cache) : CacheUse → Set Buf
  | .write bp _ => {bp}
  | .overwrite dev block _ => {x | ∃ c, getBlock s dev block .NO_READ = some (x, c)}
  | _ => ∅

/-- A buffer has the device, the block and the contents that it has in another state, and is dirty.
-/
structure StaysDirty (x : Buf) (s s' : Cache) : Prop where
  dev : s'.b_dev x = s.b_dev x
  blocknr : s'.b_blocknr x = s.b_blocknr x
  data : s'.b_data x = s.b_data x
  dirty : s'.b_dirt x = true

/-- The contents of a buffer were changed by a writer, and have not been read from the device or
written to it since: from there on the buffer has been dirty, with the same contents. -/
def ChangedSince (s₀ : Cache) (as : List CacheUse) (s : Cache) (x : Buf) : Prop :=
  ∃ pre a post t u, as = pre ++ a :: post ∧ Run UseStep s₀ pre t ∧ UseStep t a u ∧
    x ∈ a.changes t ∧ StaysDirty x s u ∧
    Run (fun c b c' => UseStep c b c' ∧ StaysDirty x u c') u post s

/-- In some step of a run, a writer changes a buffer that has a block of the device. -/
def WrittenOn (s₀ : Cache) (as : List CacheUse) (dev : ℕ) : Prop :=
  ∃ pre a post t u x, as = pre ++ a :: post ∧ Run UseStep s₀ pre t ∧ UseStep t a u ∧
    x ∈ a.changes t ∧ u.b_dev x = dev

/-- Prefetching a block does not take over a buffer that is dirty and has no device. -/
def TakesClean (s : Cache) (dev block : ℕ) : Prop :=
  ∀ bp c, getBlock s dev block .PREFETCH = some (bp, c) → s.b_dev bp = NO_DEV → s.b_dirt bp = false

/-- A turn of the loop of `rahead` takes over no such buffer for its queue. -/
def TurnClean (e : Readahead) (a a' : Ahead) : Prop :=
  ∀ b t, aheadBlock e a = some (b, t) →
    ∀ x ∈ a'.read_q, x ∉ a.read_q → t.b_dev x = NO_DEV → t.b_dirt x = false

/-- A call of `rahead` takes over no such buffer. -/
def RaheadClean (s : Cache) (rip : Inode) (scale baseblock position bytes_ahead : ℕ) : Prop :=
  TakesClean s (raheadDev rip) baseblock ∧
    ∀ bp c, getBlock s (raheadDev rip) baseblock .PREFETCH = some (bp, c) → c.b_dev bp = NO_DEV →
      ∀ a a', Relation.ReflTransGen (AheadStep (raheadEnv rip scale position bytes_ahead))
          (raheadStart c rip bp position bytes_ahead) a →
        AheadStep (raheadEnv rip scale position bytes_ahead) a a' →
        TurnClean (raheadEnv rip scale position bytes_ahead) a a'

/-- A use of the cache prefetches nothing into a buffer that is dirty and has no device. -/
def UseClean (s : Cache) : CacheUse → Prop
  | .rahead rip scale baseblock position bytes_ahead =>
    RaheadClean s rip scale baseblock position bytes_ahead
  | _ => True

/-- What may happen to the cache when writers change the buffers of `W` only: no other buffer
becomes dirty. One that is dirty and still has a device has kept its contents, and a device without
dirty buffers is not written to. -/
structure Spares (W : Set Buf) (c c' : Cache) : Prop where
  clean : ∀ x ∉ W, c.b_dirt x = false → c'.b_dirt x = false
  kept : ∀ x ∉ W, c'.b_dirt x = true → c'.b_dev x ≠ NO_DEV → StaysDirty x c c'
  disk : ∀ D, (∀ x, c.b_dev x = D → c.b_dirt x = false) → D ≠ NO_DEV → c'.disk D = c.disk D

variable {s s' s₀ c c' c'' : Cache} {W : Set Buf} {x bp : Buf} {dev block D : ℕ} {bufq : List Buf}
  {only_search : Search} {e : Readahead} {a a' : Ahead} {rip : Inode} {scale position : ℕ}

theorem StaysDirty.trans (h : StaysDirty x c c') (h' : StaysDirty x c' c'') : StaysDirty x c c'' :=
  ⟨h'.dev.trans h.dev, h'.blocknr.trans h.blocknr, h'.data.trans h.data, h'.dirty⟩

theorem Spares.refl (W : Set Buf) (c : Cache) : Spares W c c :=
  ⟨fun _ _ h => h, fun _ _ h _ => ⟨rfl, rfl, rfl, h⟩, fun _ _ _ => rfl⟩

/-- What was not dirty does not come to be. -/
theorem Spares.dirty (h : Spares W c c') (hx : x ∉ W) (hd : c'.b_dirt x = true) :
    c.b_dirt x = true := by
  by_contra hn
  have := h.clean x hx (by simpa using hn)
  rw [hd] at this
  cases this

/-- A device that has no dirty buffers has none afterwards. -/
theorem Spares.no_dirty (h : Spares ∅ c c') (hD : D ≠ NO_DEV)
    (hc : ∀ x, c.b_dev x = D → c.b_dirt x = false) : ∀ x, c'.b_dev x = D → c'.b_dirt x = false := by
  intro x hx
  by_contra hn
  have hd : c'.b_dirt x = true := by simpa using hn
  have hst := h.kept x (Set.notMem_empty x) hd (by rw [hx]; exact hD)
  have hclean := hc x (hst.dev.symm.trans hx)
  exact hn (h.clean x (Set.notMem_empty x) hclean)

theorem Spares.trans (h : Spares ∅ c c') (h' : Spares ∅ c' c'') : Spares ∅ c c'' where
  clean := fun x hx hc => h'.clean x hx (h.clean x hx hc)
  kept := fun x hx hd hdev => by
    have hst := h'.kept x hx hd hdev
    have hdirty := h'.dirty hx hd
    have hdev' : c'.b_dev x ≠ NO_DEV := by rwa [← hst.dev]
    exact (h.kept x hx hdirty hdev').trans hst
  disk := fun D hc hD => (h'.disk D (h.no_dirty hD hc) hD).trans (h.disk D hc hD)

/-- More buffers may be changed. -/
theorem Spares.mono (h : Spares ∅ c c') (W : Set Buf) : Spares W c c' :=
  ⟨fun x _ => h.clean x (Set.notMem_empty x), fun x _ => h.kept x (Set.notMem_empty x), h.disk⟩

/-- What only links the buffers otherwise does nothing to them. -/
theorem Spares.of_links {links : Links} (h : links.b_blocknr = c.b_blocknr) :
    Spares ∅ c { c with toLinks := links } :=
  ⟨fun _ _ h => h, fun _ _ hd _ => ⟨rfl, congrFun h _, rfl, hd⟩, fun _ _ _ => rfl⟩

/-- Devices are taken from buffers. -/
theorem Spares.of_dev {b_dev : Buf → ℕ} (h : ∀ x, b_dev x = c.b_dev x ∨ b_dev x = NO_DEV) :
    Spares ∅ c { c with b_dev := b_dev } :=
  ⟨fun _ _ h => h, fun x _ hd hdev => ⟨(h x).resolve_right hdev, rfl, rfl, hd⟩, fun _ _ _ => rfl⟩

/-! ## Transfers -/

/-- A transfer leaves the other devices alone, and a read all of them. -/
theorem transfer_disk_of_ne {rw_flag : RwFlag} (o : Outcome) (h : rw_flag = .WRITING → D ≠ dev) :
    (transfer c dev bp rw_flag o).disk D = c.disk D := by
  cases rw_flag with
  | READING => rfl
  | WRITING => exact Function.update_of_ne (h rfl) _ _

/-- A block that is dirty is written, or a block is read. -/
theorem rwBlock_spares {rw_flag : RwFlag} (h : rw_flag = .WRITING → c.b_dirt bp = true) :
    Spares ∅ c (rwBlock c bp rw_flag) := by
  refine ⟨fun x _ hx => ?_, fun x _ hd hdev => ?_, fun D hD _ => ?_⟩
  · rw [rwBlock_dirt]
    by_cases hxb : x = bp
    · rw [hxb, Function.update_self]
    · rwa [Function.update_of_ne hxb]
  · have hxb : x ≠ bp := by
      rintro rfl
      rw [rwBlock_dirt, Function.update_self] at hd
      cases hd
    refine ⟨?_, by rw [rwBlock_links], rwBlock_data_of_ne hxb, hd⟩
    exact (rwBlock_dev c bp rw_flag x).resolve_right fun e => hxb e.1
  · have hne : rw_flag = .WRITING → D ≠ c.b_dev bp := by
      intro hw e
      have := hD bp e.symm
      rw [h hw] at this
      cases this
    unfold rwBlock rwDevice
    dsimp only
    split_ifs
    · exact transfer_disk_of_ne _ hne
    · exact transfer_disk_of_ne _ hne
    · rfl

/-- Harvesting writes makes the buffers clean, whether they were written or not. -/
theorem harvest_writing_dirt (rs : List (Buf × ℤ)) (c : Cache) :
    (rs.foldl (harvest dev .WRITING) c).b_dirt =
        (fun x => if x ∈ rs.map Prod.fst then false else c.b_dirt x) ∧
      (rs.foldl (harvest dev .WRITING) c).disk = c.disk := by
  induction rs generalizing c with
  | nil => exact ⟨by simp, rfl⟩
  | cons r rs ih =>
    obtain ⟨hdirt, hdisk⟩ := ih (harvest dev .WRITING c r)
    rw [List.foldl_cons]
    refine ⟨?_, hdisk⟩
    rw [hdirt]
    funext x
    have hr : (harvest dev .WRITING c r).b_dirt x = if x = r.1 then false else c.b_dirt x :=
      Function.update_apply ..
    rw [hr, List.map_cons]
    by_cases hx : x = r.1
    · simp [hx]
    · simp only [List.mem_cons, hx, false_or, if_false]

/-- A queue that is written is clean afterwards. -/
theorem rwScattered_writing_dirt (h : rwScattered c dev bufq .WRITING = some c') :
    c'.b_dirt = fun x => if x ∈ bufq then false else c.b_dirt x := by
  unfold rwScattered at h
  split_ifs at h with h₀
  · cases h
    rw [List.length_eq_zero_iff.mp h₀]
    simp
  · cases h
    unfold rwSorted
    dsimp only
    rw [(harvest_writing_dirt _ _).1, map_fst_zip_serve, serve_dirt]
    simp only [(sortBufs_perm c.b_blocknr bufq).mem_iff]

/-- Dirty blocks of a device are flushed. -/
theorem flushall_spares (h : flushall c dev = some c') : Spares ∅ c c' := by
  have hdirt := rwScattered_writing_dirt h
  have hkept := rwScattered_writing_kept h
  refine ⟨fun x _ hx => ?_, fun x _ hd hdev => ?_, fun D hD _ => ?_⟩
  · rw [hdirt]
    dsimp only
    rw [hx, ite_self]
  · exact ⟨hkept.dev_eq hdev, congrFun hkept.blocknr x, congrFun hkept.data x, hd⟩
  · unfold flushall rwScattered at h
    split_ifs at h with h₀
    · cases h
      rfl
    · cases h
      unfold rwSorted
      dsimp only
      rw [(harvest_writing_dirt _ _).2]
      funext b
      apply serve_disk_of_notMem
      intro x hx e
      have hmem := (sortBufs_perm c.b_blocknr _).mem_iff.mp hx
      obtain ⟨hxd, hxdev⟩ := mem_dirtyBufs.mp hmem
      have := hD x (hxdev.trans e.1.symm)
      rw [hxd] at this
      cases this

/-- The loop of `do_sync`. -/
theorem syncBuffers_spares (h : syncBuffers c = some c') : Spares ∅ c c' := by
  unfold syncBuffers at h
  generalize List.finRange NR_BUFS = bps at h
  induction bps generalizing c with
  | nil =>
    cases h
    exact .refl ∅ _
  | cons bp bps ih =>
    rw [List.foldlM_cons] at h
    obtain ⟨t, ht, h⟩ := Option.bind_eq_some_iff.mp h
    refine Spares.trans ?_ (ih h)
    split_ifs at ht
    · exact flushall_spares ht
    · cases ht
      exact .refl ∅ c

/-- What was taken is clean if it had a device. -/
theorem cleanTaken_spares (h : cleanTaken c bp = some c') :
    Spares ∅ c c' ∧ (c.b_dev bp ≠ NO_DEV → c'.b_dirt bp = false) := by
  unfold cleanTaken at h
  split_ifs at h with hdirty
  · refine ⟨flushall_spares h, fun _ => ?_⟩
    rw [rwScattered_writing_dirt h]
    exact if_pos (mem_dirtyBufs.mpr ⟨hdirty.2, rfl⟩)
  · cases h
    refine ⟨.refl ∅ c, fun hdev => ?_⟩
    by_contra hn
    exact hdirty ⟨hdev, by simpa using hn⟩

/-- A block is put. -/
theorem putBlock_spares (c : Cache) (bp : Buf) (block_type : ℕ) :
    Spares ∅ c (putBlock c (some bp) block_type) := by
  have hrelease : ∀ t, Spares ∅ t (releaseBuf t bp block_type) := by
    intro t
    have hwrite : Spares ∅ t (if block_type &&& WRITE_IMMED ≠ 0 ∧ t.b_dirt bp = true ∧
        t.b_dev bp ≠ NO_DEV then rwBlock t bp .WRITING else t) := by
      split_ifs with h
      · exact rwBlock_spares fun _ => h.2.1
      · exact .refl ∅ t
    unfold releaseBuf
    generalize ite (block_type &&& WRITE_IMMED ≠ 0 ∧ t.b_dirt bp = true ∧ t.b_dev bp ≠ NO_DEV)
      (rwBlock t bp .WRITING) t = t' at hwrite ⊢
    dsimp only
    split_ifs
    · refine hwrite.trans (.of_dev fun x => ?_)
      rw [Function.update_apply]
      split_ifs
      · exact Or.inr rfl
      · exact Or.inl rfl
    · exact hwrite
  have hcount : Spares ∅ c
      { c with b_count := Function.update c.b_count bp (char8 (c.b_count bp + 255)) } :=
    @Spares.of_links c { c.toLinks with
      b_count := Function.update c.b_count bp (char8 (c.b_count bp + 255)) } rfl
  unfold putBlock
  dsimp only
  split_ifs
  · exact hcount
  · refine hcount.trans ?_
    refine Spares.trans (.of_links ?_) (hrelease _)
    rw [relinkBuf_frame]

/-! ## Getting a block -/

/-- What a search returns passes the test. -/
theorem searchHash_dev (h : searchHash c dev block = some (some bp)) :
    dev ≠ NO_DEV ∧ c.b_dev bp = dev := by
  unfold searchHash at h
  split_ifs at h with hdev
  · obtain ⟨⟨prev, p⟩, hscan, rfl⟩ := Option.map_eq_some_iff.mp h
    have htest := scan_test hscan
    exact ⟨hdev, (of_decide_eq_true htest).2⟩
  · cases h

/-- A block is in the cache, or it replaces another one. -/
theorem getBlock_cases (h : getBlock c dev block only_search = some (bp, c')) :
    (c.b_dev bp ≠ NO_DEV ∧ c' = { c with toLinks := useBuf c.toLinks bp }) ∨
      ∃ links t, links.b_blocknr = c.b_blocknr ∧
        cleanTaken { c with toLinks := links } bp = some t ∧
        c' = fillBuf t bp dev block only_search := by
  unfold getBlock at h
  split at h
  · cases h
  · rename_i hs
    cases h
    obtain ⟨hne, hdev⟩ := searchHash_dev hs
    exact Or.inl ⟨by rwa [hdev], rfl⟩
  · obtain ⟨⟨bp', links⟩, htake, h⟩ := Option.bind_eq_some_iff.mp h
    obtain ⟨links', hunhash, h⟩ := Option.bind_eq_some_iff.mp h
    obtain ⟨t, hclean, h⟩ := Option.bind_eq_some_iff.mp h
    cases h
    refine Or.inr ⟨links', t, ?_, hclean, rfl⟩
    have hblocknr : links.b_blocknr = c.b_blocknr := by
      unfold takeOldest at htake
      split_ifs at htake
      split at htake
      · cases htake
        rfl
      · cases htake
    unfold unhashBuf at hunhash
    dsimp only at hunhash
    split_ifs at hunhash
    · cases hunhash
      exact hblocknr
    · split at hunhash
      · cases hunhash
      · cases hunhash
        exact hblocknr
      · cases hunhash
        exact hblocknr

/-- Filling in a buffer concerns that buffer only, which gets a device and stays dirty only if it is
to be overwritten. -/
theorem fillBuf_spares (c : Cache) (bp : Buf) (dev block : ℕ) (only_search : Search) :
    Spares {x | only_search = .NO_READ ∧ x = bp} c (fillBuf c bp dev block only_search) := by
  have hassign : Spares {x | x = bp} c (assignBuf c bp dev block only_search) := by
    refine ⟨fun _ _ h => h, fun x hx hd _ => ?_, fun _ _ _ => rfl⟩
    have hx : x ≠ bp := hx
    exact ⟨Function.update_of_ne hx _ _, Function.update_of_ne hx _ _, rfl, hd⟩
  have hdirt : (assignBuf c bp dev block only_search).b_dirt = c.b_dirt := rfl
  unfold fillBuf
  dsimp only
  split_ifs with h
  · have hread := @rwBlock_spares (assignBuf c bp dev block only_search) bp .READING (by simp)
    refine ⟨fun x _ hx => hread.clean x (Set.notMem_empty x) hx, fun x _ hd hdev => ?_, ?_⟩
    · have hxb : x ≠ bp := by
        rintro rfl
        rw [rwBlock_dirt, Function.update_self] at hd
        cases hd
      have hst := hread.kept x (Set.notMem_empty x) hd hdev
      refine StaysDirty.trans (hassign.kept x hxb ?_ ?_) hst
      · exact hread.dirty (Set.notMem_empty x) hd
      · rwa [← hst.dev]
    · intro D hD hne
      have hsame : (rwBlock (assignBuf c bp dev block only_search) bp .READING).disk = c.disk := by
        unfold rwBlock rwDevice
        dsimp only
        split_ifs <;> rfl
      rw [hsame]
  · refine ⟨fun _ _ h => h, fun x hx hd hdev => ?_, fun _ _ _ => rfl⟩
    by_cases hxb : x = bp
    · -- The block is prefetched, or it has no device.
      have hnone : (assignBuf c bp dev block only_search).b_dev bp = NO_DEV := by
        show Function.update c.b_dev bp _ bp = NO_DEV
        rw [Function.update_self]
        cases only_search with
        | NORMAL => simpa using h
        | NO_READ => exact absurd ⟨rfl, hxb⟩ hx
        | PREFETCH => rfl
      rw [hxb] at hdev
      exact absurd hnone hdev
    · exact hassign.kept x hxb hd hdev

/-- A block is got. The buffer taken is clean if it had a device. -/
theorem getBlock_spares (h : getBlock c dev block only_search = some (bp, c')) :
    Spares {x | only_search = .NO_READ ∧ x = bp} c c' ∧
      (c.b_dev bp ≠ NO_DEV → c'.b_dev bp = NO_DEV → c'.b_dirt bp = false) := by
  rcases getBlock_cases h with ⟨hdev, rfl⟩ | ⟨links, t, hlinks, hclean, rfl⟩
  · have hlinks : Spares ∅ c { c with toLinks := useBuf c.toLinks bp } := .of_links rfl
    exact ⟨hlinks.mono _, fun _ hno => absurd hno hdev⟩
  · obtain ⟨ht, htaken⟩ := cleanTaken_spares hclean
    have hct : Spares ∅ c t := (Spares.of_links hlinks).trans ht
    have hfill := fillBuf_spares t bp dev block only_search
    have hfilled : ∀ x, t.b_dirt x = false →
        (fillBuf t bp dev block only_search).b_dirt x = false := by
      intro x hx
      unfold fillBuf
      dsimp only
      split_ifs
      · rw [rwBlock_dirt, Function.update_apply]
        split_ifs
        · rfl
        · exact hx
      · exact hx
    refine ⟨⟨fun x hx hd => hfilled x (hct.clean x (Set.notMem_empty x) hd), ?_, ?_⟩,
      fun hdev _ => hfilled bp (htaken hdev)⟩
    · intro x hx hd hdev
      have hst := hfill.kept x hx hd hdev
      refine StaysDirty.trans (hct.kept x (Set.notMem_empty x) ?_ ?_) hst
      · exact hfill.dirty hx hd
      · rwa [← hst.dev]
    · intro D hD hne
      rw [hfill.disk D (hct.no_dirty hne hD) hne, hct.disk D hD hne]

/-- A block is got that is not to be overwritten. -/
theorem getBlock_reads (hsearch : only_search ≠ .NO_READ)
    (h : getBlock c dev block only_search = some (bp, c')) : Spares ∅ c c' := by
  have hget := (getBlock_spares h).1
  have hempty : {x : Buf | only_search = .NO_READ ∧ x = bp} = ∅ := by
    ext x
    simp [hsearch]
  rwa [hempty] at hget

/-! ## Reading ahead -/

/-- A queue of clean buffers is read. -/
theorem rwScattered_reading_spares (hclean : ∀ x ∈ bufq, c.b_dirt x = false)
    (h : rwScattered c dev bufq .READING = some c') : Spares ∅ c c' := by
  unfold rwScattered at h
  split_ifs at h
  · cases h
    exact .refl ∅ _
  · cases h
    have hperm := sortBufs_perm c.b_blocknr bufq
    generalize sortBufs c.b_blocknr bufq = q at hperm
    have hmap := map_fst_zip_serve c dev .READING q
    obtain ⟨hdisk, hdirt, hdata, -, -⟩ := @harvest_reading_frame (serve c dev .READING q).2 dev
      (q.zip (serve c dev .READING q).1)
    have hsame : (rwSorted c dev q .READING).b_dirt = c.b_dirt := hdirt.trans (serve_dirt ..)
    refine ⟨fun x _ hx => by rwa [hsame], fun x _ hd _ => ?_, fun D _ _ => ?_⟩
    · have hx : x ∉ q := by
        intro hx
        have := hclean x (hperm.mem_iff.mp hx)
        rw [hsame, this] at hd
        cases hd
      obtain ⟨hdata', hdev⟩ := @harvest_reading_of_notMem (serve c dev .READING q).2 dev x
        (q.zip (serve c dev .READING q).1) (by rwa [hmap])
      have hblocknr := @harvest_reading_blocknr (serve c dev .READING q).2 dev
        (q.zip (serve c dev .READING q).1)
      refine ⟨hdev.trans (by rw [serve_dev]), ?_, ?_, hd⟩
      · exact congrFun (hblocknr.trans (by rw [serve_links])) x
      · exact (congrFun hdata' x).trans (serve_data_of_notMem hx)
    · exact congrFun (hdisk.trans (serve_reading ..).1) D

theorem indirEntry_spares {b i z : ℕ} (h : indirEntry c dev b i = some (z, c')) :
    Spares ∅ c c' := by
  obtain ⟨⟨bp, c₁⟩, hget, h⟩ := Option.bind_eq_some_iff.mp h
  cases h
  exact (getBlock_reads (by decide) hget).trans (putBlock_spares ..)

theorem readSingle_spares {z b excess boff : ℕ}
    (h : readSingle c dev scale z excess boff = some (b, c')) : Spares ∅ c c' := by
  unfold readSingle at h
  split at h
  · cases h
    exact .refl ∅ _
  · obtain ⟨⟨z', c₁⟩, hentry, h⟩ := Option.bind_eq_some_iff.mp h
    cases h
    exact indirEntry_spares hentry

theorem readMap_spares {b : ℕ} (h : readMap c rip scale position = some (b, c')) :
    Spares ∅ c c' := by
  unfold readMap at h
  dsimp only at h
  split at h
  · cases h
    exact .refl ∅ _
  split at h
  · exact readSingle_spares h
  split at h
  · cases h
    exact .refl ∅ _
  · obtain ⟨⟨z', c₁⟩, hentry, h⟩ := Option.bind_eq_some_iff.mp h
    exact (indirEntry_spares hentry).trans (readSingle_spares h)

theorem aheadBlock_spares {b : ℕ} (h : aheadBlock e a = some (b, c)) : Spares ∅ a.cache c := by
  unfold aheadBlock at h
  split at h
  · cases h
    exact .refl ∅ _
  · exact readMap_spares h

/-- The loop of `rahead` spares all buffers, and those of its queue are clean. -/
structure QueueClean (c : Cache) (a : Ahead) : Prop where
  spares : Spares ∅ c a.cache
  clean : ∀ x ∈ a.read_q, a.cache.b_dirt x = false

/-- A block is prefetched. The buffer that is put in the queue was not dirty, or had a device. -/
theorem QueueClean.enqueue (h : QueueClean c a) (he : enqueue e a block = some a')
    (hnew : ∀ x ∈ a'.read_q, x ∉ a.read_q → a.cache.b_dev x = NO_DEV → a.cache.b_dirt x = false) :
    QueueClean c a' := by
  unfold Fs.enqueue at he
  split at he
  · obtain ⟨⟨bp, t⟩, hget, he⟩ := Option.bind_eq_some_iff.mp he
    have ht := getBlock_reads (by decide) hget
    have hqueue : ∀ x ∈ a.read_q, t.b_dirt x = false := fun x hx =>
      ht.clean x (Set.notMem_empty x) (h.clean x hx)
    dsimp only at he
    split_ifs at he with hbp
    · cases he
      refine ⟨h.spares.trans ht, fun x hx => ?_⟩
      by_cases hold : x ∈ a.read_q
      · exact hqueue x hold
      · have hxb : x = bp := by
          rcases List.mem_append.mp hx with hx | hx
          · exact absurd hx hold
          · exact List.mem_singleton.mp hx
        by_cases hdev : a.cache.b_dev x = NO_DEV
        · exact ht.clean x (Set.notMem_empty x) (hnew x hx hold hdev)
        · rw [hxb] at hdev ⊢
          exact (getBlock_spares hget).2 hdev hbp
    · cases he
      have hput := putBlock_spares t bp FULL_DATA_BLOCK
      exact ⟨(h.spares.trans ht).trans hput, fun x hx =>
        hput.clean x (Set.notMem_empty x) (hqueue x hx)⟩
  · cases he
    exact h

/-- A turn of the loop. -/
theorem QueueClean.turn (h : QueueClean c a) (he : AheadStep e a a') (hturn : TurnClean e a a') :
    QueueClean c a' := by
  -- The second part of the turn, with the count of blocks that it starts from.
  have hnext : ∀ n r, aheadNext e { a with blocks_ahead := n, reading_ahead := r } = some a' →
      QueueClean c a' := by
    intro n r hn
    obtain ⟨⟨b, t⟩, hblock, hn⟩ := Option.bind_eq_some_iff.mp hn
    have hblock' : aheadBlock e a = some (b, t) := hblock
    have ht := aheadBlock_spares hblock'
    have hnew := hturn b t hblock'
    have hlooked : ∀ m, QueueClean c { a with
        cache := t
        position := a.position + BLOCK_SIZE
        blocks_ahead := n
        reading_ahead := r
        max_track := m } := fun m =>
      ⟨h.spares.trans ht, fun x hx => ht.clean x (Set.notMem_empty x) (h.clean x hx)⟩
    dsimp only at hn
    unfold aheadFetch at hn
    dsimp only at hn
    split_ifs at hn
    · cases hn
      exact hlooked a.max_track
    · exact (hlooked a.max_track).enqueue hn hnew
    · exact (hlooked _).enqueue hn hnew
    · exact (hlooked _).enqueue hn hnew
  have he : aheadTurn e a = some (some a') := he
  unfold aheadTurn at he
  split_ifs at he
  · cases he
  · obtain ⟨a₁, ha₁, he⟩ := Option.map_eq_some_iff.mp he
    cases he
    exact hnext _ _ ha₁
  · cases he
  · obtain ⟨a₁, ha₁, he⟩ := Option.map_eq_some_iff.mp he
    cases he
    exact hnext _ _ ha₁

/-- The loop of `rahead`. -/
theorem QueueClean.loop {n : ℕ} (h : QueueClean c a) (he : aheadLoop e n a = some a')
    (hclean : ∀ a₁ a₂, Relation.ReflTransGen (AheadStep e) a a₁ → AheadStep e a₁ a₂ →
      TurnClean e a₁ a₂) : QueueClean c a' := by
  induction n generalizing a with
  | zero => cases he
  | succ n ih =>
    unfold aheadLoop at he
    split at he
    · cases he
    · cases he
      exact h
    · rename_i a₁ hturn
      have hstep : AheadStep e a a₁ := hturn
      exact ih (h.turn hstep (hclean a a₁ .refl hstep)) he fun a₂ a₃ h₂ h₃ =>
        hclean a₂ a₃ (.head hstep h₂) h₃

/-- `rahead` spares all buffers, if it takes over none that is dirty without a device. -/
theorem rahead_spares {baseblock bytes_ahead : ℕ}
    (h : rahead c rip scale baseblock position bytes_ahead = some (bp, c'))
    (hclean : RaheadClean c rip scale baseblock position bytes_ahead) : Spares ∅ c c' := by
  obtain ⟨⟨bp', c₁⟩, hget, h⟩ := Option.bind_eq_some_iff.mp h
  have hc₁ := getBlock_reads (by decide) hget
  dsimp only at h
  split at h
  · cases h
    exact hc₁
  · rename_i hbp
    have hbp : c₁.b_dev bp' = NO_DEV := not_not.mp hbp
    obtain ⟨a, hloop, h⟩ := Option.bind_eq_some_iff.mp h
    obtain ⟨c₂, hread, h⟩ := Option.bind_eq_some_iff.mp h
    have hfirst : c₁.b_dirt bp' = false := by
      by_cases hdev : c.b_dev bp' = NO_DEV
      · exact hc₁.clean bp' (Set.notMem_empty _) (hclean.1 bp' c₁ hget hdev)
      · exact (getBlock_spares hget).2 hdev hbp
    have hstart : QueueClean c (raheadStart c₁ rip bp' position bytes_ahead) :=
      ⟨hc₁, fun x hx => by rw [List.mem_singleton.mp hx]; exact hfirst⟩
    have hqueue := hstart.loop hloop (hclean.2 bp' c₁ hget hbp)
    exact (hqueue.spares.trans (rwScattered_reading_spares hqueue.clean hread)).trans
      (getBlock_reads (by decide) h)

/-! ## Runs -/

/-- A step of a run whose prefetches are all clean. -/
def CleanStep (s : Cache) (a : CacheUse) (s' : Cache) : Prop := UseStep s a s' ∧ UseClean s a

/-- A use of the cache spares the buffers that no writer changes in it. -/
theorem CleanStep.spares {a : CacheUse} (h : CleanStep s a s') : Spares (a.changes s) s s' := by
  obtain ⟨h, hclean⟩ := h
  unfold UseStep CacheUse.apply at h
  cases a with
  | get dev block =>
    obtain ⟨r, hget, rfl⟩ := Option.map_eq_some_iff.mp h
    exact getBlock_reads (by decide) hget
  | put bp block_type =>
    cases h
    exact putBlock_spares ..
  | rahead rip scale baseblock position bytes_ahead =>
    obtain ⟨r, hahead, rfl⟩ := Option.map_eq_some_iff.mp h
    exact rahead_spares hahead hclean
  | write bp data =>
    cases h
    have hne : ∀ x ∉ CacheUse.changes s (.write bp data), x ≠ bp := fun x hx => hx
    refine ⟨fun x hx hd => ?_, fun x hx hd _ => ⟨rfl, rfl, ?_, hd⟩, fun _ _ _ => rfl⟩
    · exact (Function.update_of_ne (hne x hx) _ _).trans hd
    · exact Function.update_of_ne (hne x hx) _ _
  | overwrite dev block data =>
    obtain ⟨⟨bp, c⟩, hget, rfl⟩ := Option.map_eq_some_iff.mp h
    have hc := (getBlock_spares hget).1
    have hne : ∀ x ∉ CacheUse.changes s (.overwrite dev block data), x ≠ bp := by
      rintro x hx rfl
      exact hx ⟨c, hget⟩
    have hnot : ∀ x ∉ CacheUse.changes s (.overwrite dev block data),
        x ∉ {x : Buf | Search.NO_READ = .NO_READ ∧ x = bp} := fun x hx e => hne x hx e.2
    refine ⟨fun x hx hd => ?_, fun x hx hd hdev => ?_, hc.disk⟩
    · exact (Function.update_of_ne (hne x hx) _ _).trans (hc.clean x (hnot x hx) hd)
    · have hd : c.b_dirt x = true := (Function.update_of_ne (hne x hx) _ _).symm.trans hd
      obtain ⟨h₁, h₂, h₃, -⟩ := hc.kept x (hnot x hx) hd hdev
      exact ⟨h₁, h₂, (Function.update_of_ne (hne x hx) _ _).trans h₃,
        (Function.update_of_ne (hne x hx) _ _).trans hd⟩
  | flushall dev => exact flushall_spares h
  | invalidate dev =>
    cases h
    refine .of_dev fun x => ?_
    split_ifs
    · exact Or.inr rfl
    · exact Or.inl rfl
  | sync => exact syncBuffers_spares h

/-- What has been changed since goes on to be, while the buffer stays as it is. -/
theorem ChangedSince.step {as : List CacheUse} {a : CacheUse} (h : ChangedSince s₀ as s x)
    (hstep : UseStep s a s') (hx : StaysDirty x s s') : ChangedSince s₀ (as ++ [a]) s' x := by
  obtain ⟨pre, b, post, t, u, rfl, hpre, hb, hch, hu, hpost⟩ := h
  have hdev : u.b_dev x = s'.b_dev x := hu.dev.trans hx.dev.symm
  have hblocknr : u.b_blocknr x = s'.b_blocknr x := hu.blocknr.trans hx.blocknr.symm
  have hdata : u.b_data x = s'.b_data x := hu.data.trans hx.data.symm
  refine ⟨pre, b, post ++ [a], t, u, by simp, hpre, hb, hch, ⟨hdev, hblocknr, hdata, hu.dirty⟩, ?_⟩
  exact hpost.snoc ⟨hstep, hdev.symm, hblocknr.symm, hdata.symm, hx.dirty⟩

/-- A buffer with a device that is dirty has been changed since it was last read or written. -/
theorem changed_of_dirty {as : List CacheUse} (h : Run CleanStep (bufPool c) as s)
    (hdev : s.b_dev x ≠ NO_DEV) (hd : s.b_dirt x = true) : ChangedSince (bufPool c) as s x := by
  induction h with
  | nil => exact absurd rfl hdev
  | @snoc as a s s' hrun hstep ih =>
    by_cases hx : x ∈ a.changes s
    · refine ⟨as, a, [], s, s', by simp, hrun.mono fun _ _ _ h => h.1, hstep.1, hx, ?_, .nil⟩
      exact ⟨rfl, rfl, rfl, hd⟩
    · have hst := hstep.spares.kept x hx hd hdev
      exact (ih (by rwa [← hst.dev]) (hstep.spares.dirty hx hd)).step hstep.1 hst

/-- What was changed was changed on its device. -/
theorem ChangedSince.writtenOn {as : List CacheUse} (h : ChangedSince s₀ as s x)
    (hx : s.b_dev x = D) : WrittenOn s₀ as D := by
  obtain ⟨pre, a, post, t, u, has, hpre, ha, hch, hu, -⟩ := h
  exact ⟨pre, a, post, t, u, x, has, hpre, ha, hch, hu.dev.trans hx⟩

/-- A longer run writes on the same devices, and maybe on more. -/
theorem WrittenOn.append {as : List CacheUse} (h : WrittenOn s₀ as D) (bs : List CacheUse) :
    WrittenOn s₀ (as ++ bs) D := by
  obtain ⟨pre, a, post, t, u, x, rfl, h⟩ := h
  exact ⟨pre, a, post ++ bs, t, u, x, by simp, h⟩

/-- A device on which nothing was written has no dirty buffers. -/
theorem clean_of_unwritten {as : List CacheUse} (h : Run CleanStep (bufPool c) as s)
    (hD : D ≠ NO_DEV) (hunwritten : ¬WrittenOn (bufPool c) as D) :
    ∀ x, s.b_dev x = D → s.b_dirt x = false := by
  intro x hx
  by_contra hd
  have hchanged := changed_of_dirty h (by rwa [hx]) (by simpa using hd)
  exact hunwritten (hchanged.writtenOn hx)

/-- In every run whose prefetches take over no buffer that is dirty without a device, a buffer of a
device is dirty only if a writer changed it since it was last read or written; and a device on which
nothing was written has no dirty buffers, and is as it was. -/
theorem dirty_since_changed {as : List CacheUse} (h : Run CleanStep (bufPool c) as s) :
    (∀ x, s.b_dev x ≠ NO_DEV → s.b_dirt x = true → ChangedSince (bufPool c) as s x) ∧
      ∀ D, D ≠ NO_DEV → ¬WrittenOn (bufPool c) as D →
        dirtyBufs s D = [] ∧ s.disk D = (bufPool c).disk D := by
  refine ⟨fun x => changed_of_dirty h, fun D hD hunwritten => ⟨?_, ?_⟩⟩
  · apply List.eq_nil_iff_forall_not_mem.mpr
    intro x hx
    obtain ⟨hd, hdev⟩ := mem_dirtyBufs.mp hx
    rw [clean_of_unwritten h hD hunwritten x hdev] at hd
    cases hd
  · induction h with
    | nil => rfl
    | @snoc as a s s' hrun hstep ih =>
      have hbefore : ¬WrittenOn (bufPool c) as D := fun hw => hunwritten (hw.append [a])
      have hclean := clean_of_unwritten hrun hD hbefore
      exact (hstep.spares.disk D hclean hD).trans (ih hbefore)

/-- The cache that `fs_init` builds, with drivers that serve every request. -/
def quietPool : Cache := bufPool { staticCache with io := [] }

/-- An empty file, on the third device. -/
def emptyFile : Inode := ⟨0, 0, fun _ => 0, 3, false⟩

/-- A block of the first device is overwritten, and one of the third is read ahead. -/
theorem dirty_since_changed_ahead : ∃ s,
    (s.b_dev 0 = 1 ∧ s.b_dirt 0 = true ∧ s.b_dev 1 = 3) ∧
      ChangedSince quietPool
        [.overwrite 1 5 fun _ => 7, .rahead emptyFile 0 7 0 100] s 0 ∧
      (¬WrittenOn quietPool [.overwrite 1 5 fun _ => 7, .rahead emptyFile 0 7 0 100] 3 →
        dirtyBufs s 3 = [] ∧ s.disk 3 = quietPool.disk 3) := by
  have hrun : ((CacheUse.overwrite 1 5 fun _ => 7).apply quietPool).bind (fun c =>
      ((CacheUse.rahead emptyFile 0 7 0 100).apply c).map fun s =>
        decide (c.b_dirt 1 = false ∧ s.b_dev 0 = 1 ∧ s.b_dirt 0 = true ∧ s.b_dev 1 = 3 ∧
          (getBlock c 3 7 .PREFETCH).map Prod.fst = some 1)) = some true := by
    decide +kernel
  obtain ⟨c, hover, hrun⟩ := Option.bind_eq_some_iff.mp hrun
  obtain ⟨s, hahead, hrun⟩ := Option.map_eq_some_iff.mp hrun
  obtain ⟨hclean, hdev, hdirt, hthird, htaken⟩ := of_decide_eq_true hrun
  have hfirst : CleanStep quietPool (.overwrite 1 5 fun _ => 7) c := ⟨hover, trivial⟩
  -- The buffer taken is clean, and the loop breaks off at once.
  have hahead_clean : RaheadClean c emptyFile 0 7 0 100 := by
    refine ⟨fun bp t hget _ => ?_, fun bp t _ _ a a' hreach hstep => ?_⟩
    · rw [show getBlock c 3 7 .PREFETCH = some (bp, t) from hget] at htaken
      cases htaken
      exact hclean
    · have hbreak : ∀ a, ¬AheadStep (raheadEnv emptyFile 0 0 100) a a' := by
        intro a h
        have h : aheadTurn (raheadEnv emptyFile 0 0 100) a = some (some a') := h
        unfold aheadTurn at h
        rw [if_pos (Or.inl (show (raheadEnv emptyFile 0 0 100).fileSize ≤ a.position from
          Nat.zero_le _))] at h
        cases h
      exact absurd hstep (hbreak a)
  have hrun : Run CleanStep quietPool
      ([.overwrite 1 5 fun _ => 7] ++ [.rahead emptyFile 0 7 0 100]) s :=
    (Run.single hfirst).snoc ⟨hahead, hahead_clean⟩
  obtain ⟨hchanged, hunwritten⟩ := dirty_since_changed hrun
  exact ⟨s, ⟨hdev, hdirt, hthird⟩, hchanged 0 (by rw [hdev]; decide) hdirt,
    hunwritten 3 (by decide)⟩

/-- A block special file of unknown size, on the third device. -/
def driveFile : Inode := ⟨I_BLOCK_SPECIAL, 0, fun _ => 3, 1, false⟩

/-- A hole is read, and then so much of a device that every buffer is prefetched into: a buffer of
the device is dirty, though nothing was written on it. -/
theorem hole_dirties : ∃ as s, Run UseStep quietPool as s ∧ ¬WrittenOn quietPool as 3 ∧
    s.b_dev 0 = 3 ∧ s.b_dirt 0 = true ∧ dirtyBufs s 3 ≠ [] := by
  have hrun : ((CacheUse.get NO_DEV NO_BLOCK).apply quietPool).bind (fun c =>
      ((CacheUse.write 0 fun _ => 0).apply c).bind fun t =>
      ((CacheUse.put 0 PARTIAL_DATA_BLOCK).apply t).bind fun u =>
      ((CacheUse.rahead driveFile 0 0 0 40000).apply u).map fun s =>
        decide (c.b_dev 0 = NO_DEV ∧ s.b_dev 0 = 3 ∧ s.b_dirt 0 = true)) = some true := by
    decide +kernel
  obtain ⟨c, hget, hrun⟩ := Option.bind_eq_some_iff.mp hrun
  obtain ⟨t, hwrite, hrun⟩ := Option.bind_eq_some_iff.mp hrun
  obtain ⟨u, hput, hrun⟩ := Option.bind_eq_some_iff.mp hrun
  obtain ⟨s, hahead, hrun⟩ := Option.map_eq_some_iff.mp hrun
  obtain ⟨hnone, hdev, hdirt⟩ := of_decide_eq_true hrun
  have hget' : UseStep quietPool (.get NO_DEV NO_BLOCK) c := hget
  have hrun' := ((((Run.single hget').snoc hwrite).snoc hput).snoc hahead)
  refine ⟨_, s, hrun', ?_, hdev, hdirt, ?_⟩
  · -- Only the zeros are written, to a buffer without a device.
    rintro ⟨pre, a, post, c', t', x, has, hpre, ha, hch, hx⟩
    match pre, has with
    | [], has =>
      cases has
      exact hch
    | [_], has =>
      cases has
      have hpre : UseStep quietPool (.get NO_DEV NO_BLOCK) c' := hpre.of_single
      have hpre : some c = some c' := hget.symm.trans hpre
      cases hpre
      cases ha
      have hx0 : x = 0 := hch
      have hx : c.b_dev x = 3 := hx
      rw [hx0, hnone] at hx
      exact absurd hx (by decide)
    | [_, _], has =>
      cases has
      exact hch
    | [_, _, _], has =>
      cases has
      exact hch
    | _ :: _ :: _ :: _ :: pre, has => simp at has
  · exact List.ne_nil_of_mem (mem_dirtyBufs.mpr ⟨hdirt, hdev⟩)

end Minix.Fs
