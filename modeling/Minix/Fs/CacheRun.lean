import Minix.Fs.Ahead

/-!
# Runs of the cache

The file system calls the cache in any order, and each hold on a buffer is returned once.
`CacheStep` has the calls, and `CacheInv` holds after each of them, whatever the drivers do.

`CacheOk` is what this says of the structures of the cache, and `NotEvicted` what a step may do to a
buffer that is held.
-/

namespace Minix.Fs

open Lib

/-- What the users of the cache do. -/
inductive CacheAct
  | call (a : CacheCall)
  | write (bp : Buf) (data : Block)
  | scatter (dev : ℕ) (bufq : List Buf)
  | flushall (dev : ℕ)
  | invalidate (dev : ℕ)
  | sync
  | rahead (rip : Inode) (scale baseblock position bytes_ahead : ℕ)

/-- An action of the users of the cache. -/
inductive CacheStep : Session → CacheAct → Session → Prop
  | call {s s' : Session} {a : CacheCall} (h : Call 0 s a s') : CacheStep s (.call a) s'
  | write {s : Session} {bp : Buf} {data : Block} (hheld : 0 < s.held bp) :
      CacheStep s (.write bp data) ⟨writeBuf s.cache bp data, s.held⟩
  | scatter {s : Session} {dev : ℕ} {bufq : List Buf} {c : Cache}
      (h : rwScattered s.cache dev bufq .WRITING = some c) :
      CacheStep s (.scatter dev bufq) ⟨c, s.held⟩
  | flushall {s : Session} {dev : ℕ} {c : Cache} (h : flushall s.cache dev = some c) :
      CacheStep s (.flushall dev) ⟨c, s.held⟩
  | invalidate {s : Session} {dev : ℕ} :
      CacheStep s (.invalidate dev) ⟨invalidate s.cache dev, s.held⟩
  | sync {s : Session} {c : Cache} (h : syncBuffers s.cache = some c) :
      CacheStep s .sync ⟨c, s.held⟩
  | rahead {s : Session} {rip : Inode} {scale baseblock position bytes_ahead : ℕ} {bp : Buf}
      {c : Cache} (hroom : Room s)
      (hd : RaheadDistinct s.cache rip scale baseblock position bytes_ahead)
      (h : rahead s.cache rip scale baseblock position bytes_ahead = some (bp, c)) :
      CacheStep s (.rahead rip scale baseblock position bytes_ahead)
        ⟨c, Function.update s.held bp (s.held bp + 1)⟩

/-- The buffer pool has been initialized, in static storage, and no buffer is held. -/
def CacheStart (s : Session) : Prop :=
  ∃ c, (∀ x, c.b_count x = 0) ∧ (∀ q, c.buf_hash q = none) ∧ s = ⟨bufPool c, 0⟩

/-- What is promised of the structures of the cache. -/
structure CacheOk (s : Session) : Prop where
  /-- One doubly linked list has every buffer once. -/
  lru : ∃ l, Chain s.cache.b_next s.cache.front l none ∧
    Chain s.cache.b_prev s.cache.rear l.reverse none ∧ l.Nodup ∧ ∀ x, x ∈ l
  /-- A hash chain has those buffers that belong there, and each once. -/
  hash : ∀ q, ∃ l, Chain s.cache.b_hash (s.cache.buf_hash q) l none ∧ l.Nodup ∧
    ∀ x, x ∈ l ↔ hashOf (s.cache.b_blocknr x) = q
  in_use : s.cache.bufs_in_use = (Finset.univ.filter fun x => 0 < s.cache.b_count x).card
  unique : ∀ x y, s.cache.b_dev x ≠ NO_DEV → s.cache.b_dev x = s.cache.b_dev y →
    s.cache.b_blocknr x = s.cache.b_blocknr y → x = y
  held : s.cache.b_count = s.held
  /-- `get_block` never panics. -/
  get : (usedBufs s.held).card < NR_BUFS → ∀ dev block only_search,
    ∃ bp c, getBlock s.cache dev block only_search = some (bp, c)
  ahead : Room s → ∀ rip scale baseblock position bytes_ahead,
    RaheadDistinct s.cache rip scale baseblock position bytes_ahead →
    ∃ bp c, rahead s.cache rip scale baseblock position bytes_ahead = some (bp, c)
  flush : ∀ dev, ∃ c, flushall s.cache dev = some c

/-- What an action may do to a buffer that is held. It is not taken for another block: it can lose
its device, and a prefetched one gets its device when it is read. -/
structure NotEvicted (act : CacheAct) (x : Buf) (c c' : Cache) : Prop where
  blocknr : c'.b_blocknr x = c.b_blocknr x
  dev : c'.b_dev x = c.b_dev x ∨ c'.b_dev x = NO_DEV ∨
    ∃ dev bufq, act = .call (.read dev bufq) ∧ x ∈ bufq ∧ c.b_dev x = NO_DEV
  data : c'.b_data x = c.b_data x ∨ (∃ data, act = .write x data) ∨
    ∃ dev bufq, act = .call (.read dev bufq) ∧ x ∈ bufq

variable {s s' : Session} {act : CacheAct} {c c' : Cache} {x : Buf} {held : Buf → ℕ}

/-- New contents leave the invariant alone. -/
theorem CacheInv.write (h : CacheInv ⟨c, held⟩) (bp : Buf) (data : Block) :
    CacheInv ⟨writeBuf c bp data, held⟩ :=
  ⟨h.linked, h.in_use, h.count, h.bound, h.unique⟩

/-- Invalidating a device leaves the invariant alone. -/
theorem CacheInv.invalidate (h : CacheInv ⟨c, held⟩) (dev : ℕ) :
    CacheInv ⟨invalidate c dev, held⟩ := by
  refine ⟨h.linked, h.in_use, h.count, h.bound, h.unique.of_dev rfl fun x => ?_⟩
  unfold Fs.invalidate
  dsimp only
  split_ifs
  · exact Or.inr rfl
  · exact Or.inl rfl

/-- Whatever `rw_scattered` returns from writing, it only wrote. -/
theorem rwScattered_writing_kept {dev : ℕ} {bufq : List Buf}
    (h : rwScattered c dev bufq .WRITING = some c') : Kept c c' := by
  unfold rwScattered at h
  split_ifs at h
  · obtain rfl := Option.some.inj h
    exact Kept.refl c
  · obtain rfl := Option.some.inj h
    exact rwSorted_kept ..

/-- Every action keeps the invariant. -/
theorem CacheStep.inv (h : CacheStep s act s') (hinv : CacheInv s) : CacheInv s' := by
  cases h with
  | call h => exact h.inv hinv
  | write => exact hinv.write ..
  | scatter h => exact CacheInv.kept hinv (rwScattered_writing_kept h)
  | flushall h => exact CacheInv.kept hinv (rwScattered_writing_kept h)
  | invalidate => exact CacheInv.invalidate hinv _
  | sync h =>
    obtain ⟨c, he, hk⟩ := syncBuffers_spec s.cache
    obtain rfl := Option.some.inj (he.symm.trans h)
    exact CacheInv.kept hinv hk
  | rahead hroom hd h =>
    obtain ⟨bp, c, t, mode, he, hr, ht, hcall, -⟩ := rahead_spec hinv hroom hd
    obtain ⟨rfl, rfl⟩ := Prod.mk.inj (Option.some.inj (he.symm.trans h))
    exact hcall.inv (hr.invariant hinv fun _ _ _ hP hc _ => hc.inv hP)

/-- The invariant holds of the initialized pool. -/
theorem CacheStart.inv (h : CacheStart s) : CacheInv s := by
  obtain ⟨c, hcount, hhash, rfl⟩ := h
  have hforth : Chain (bufPool c).b_next (bufPool c).front (List.finRange NR_BUFS) none :=
    chain_finRange fun _ => rfl
  have hlru : Dll (bufPool c).b_next (bufPool c).b_prev (bufPool c).front (bufPool c).rear
      (List.finRange NR_BUFS) := by
    have hrear : (List.finRange NR_BUFS).getLast? = nth NR_BUFS (NR_BUFS - 1) := by decide
    have hdll : Dll (bufPool c).b_next (bufPool c).b_prev _ _ _ :=
      Dll.of_forth hforth (fun x y hxy => ?_) fun x hx => ?_
    · rwa [hrear] at hdll
    · have hxy : x.val + 1 = y := nth_eq_some.mp hxy
      show (if y = 0 then none else nth NR_BUFS (y - 1)) = some x
      rw [if_neg (by rw [Fin.ext_iff, ← hxy]; exact Nat.succ_ne_zero _), nth_eq_some]
      omega
    · have hx : 0 = x.val := nth_eq_some.mp hx
      show (if x = 0 then none else nth NR_BUFS (x - 1)) = none
      rw [if_pos (Fin.ext hx.symm)]
  have hchain : ∀ q, (bufPool c).buf_hash q =
      if q = hashOf NO_BLOCK then nth NR_BUFS 0 else none := fun q => by
    show Function.update c.buf_hash _ _ q = _
    by_cases hq : q = hashOf NO_BLOCK
    · rw [hq, Function.update_self, if_pos rfl]
    · rw [Function.update_of_ne hq, if_neg hq, hhash]
  have hempty : usedBufs c.b_count = ∅ := by
    ext x
    simp [hcount]
  refine ⟨⟨_, fun q => if q = hashOf NO_BLOCK then List.finRange NR_BUFS else [], hlru,
    fun x => List.mem_finRange x, ⟨fun q => ?_, fun q q' x hx hx' => ?_⟩, fun x q => ?_⟩, ?_,
    funext hcount, fun x => Nat.zero_lt_succ _, fun x y hne => absurd rfl hne⟩
  · dsimp only
    rw [hchain]
    split_ifs
    · exact chain_finRange fun _ => rfl
    · rfl
  · split_ifs at hx hx' with hq hq' <;> simp_all
  · show x ∈ (if q = hashOf NO_BLOCK then _ else _) ↔ hashOf NO_BLOCK = q
    split_ifs with hq
    · simp [hq]
    · simpa using Ne.symm hq
  · unfold InUse
    show (0 : ℤ) = (usedBufs c.b_count).card
    rw [hempty]
    rfl

/-- What the invariant says of the structures. -/
theorem CacheInv.ok (h : CacheInv s) : CacheOk s := by
  obtain ⟨lru, hash, hl⟩ := h.linked
  refine ⟨⟨lru, hl.dll.forth, hl.dll.back, hl.dll.forth.nodup, hl.all⟩,
    fun q => ⟨hash q, hl.chains.chain q, hl.chains.nodup, fun x => hl.mem_hash x q⟩, ?_, h.unique,
    h.count, fun hroom dev block only_search => ?_, fun hroom rip scale baseblock position n hd => ?_,
    fun dev => ?_⟩
  · have := h.in_use
    unfold InUse usedBufs at this
    simpa [Nat.pos_iff_ne_zero] using this
  · obtain ⟨bp, c, he, -⟩ := getBlock_got h hroom dev block only_search
    exact ⟨bp, c, he⟩
  · obtain ⟨bp, c, -, -, he, -⟩ := rahead_spec h hroom hd
    exact ⟨bp, c, he⟩
  · obtain ⟨c, he, -⟩ := flushall_spec s.cache dev
    exact ⟨c, he⟩

/-- A buffer that stays is not evicted. -/
theorem Stays.notEvicted (h : Stays x c c') : NotEvicted act x c c' :=
  ⟨h.blocknr, h.dev.imp_right Or.inl, Or.inl h.data⟩

/-- No action evicts a buffer that is held. -/
theorem CacheStep.notEvicted (h : CacheStep s act s') (hinv : CacheInv s) (hx : s.held x ≠ 0) :
    NotEvicted act x s.cache s'.cache := by
  cases h with
  | @call s' a h =>
    by_cases hread : ∃ dev bufq, a = .read dev bufq ∧ x ∈ bufq
    · obtain ⟨dev, bufq, rfl, hm⟩ := hread
      cases h with
      | read hq hheld he =>
        exact ⟨congrFun (hq.read_blocknr he) x, Or.inr (Or.inr ⟨_, _, rfl, hm, hq.free x hm⟩),
          Or.inr (Or.inr ⟨_, _, rfl, hm⟩)⟩
    · exact (h.held_stays hinv hx fun dev bufq e hm => hread ⟨dev, bufq, e, hm⟩).notEvicted
  | @write bp data =>
    refine ⟨rfl, Or.inl rfl, ?_⟩
    by_cases hxb : x = bp
    · exact Or.inr (Or.inl ⟨data, by rw [hxb]⟩)
    · exact Or.inl (Function.update_of_ne hxb _ _)
  | scatter h => exact ((rwScattered_writing_kept h).stays x).notEvicted
  | flushall h => exact ((rwScattered_writing_kept h).stays x).notEvicted
  | @invalidate dev =>
    refine ⟨rfl, ?_, Or.inl rfl⟩
    show (if s.cache.b_dev x = dev then NO_DEV else s.cache.b_dev x) = _ ∨
      (if s.cache.b_dev x = dev then NO_DEV else s.cache.b_dev x) = _ ∨ _
    split_ifs
    · exact Or.inr (Or.inl rfl)
    · exact Or.inl rfl
  | sync h =>
    obtain ⟨c, he, hk⟩ := syncBuffers_spec s.cache
    obtain rfl := Option.some.inj (he.symm.trans h)
    exact (hk.stays x).notEvicted
  | rahead hroom hd h =>
    obtain ⟨bp, c, t, mode, he, hr, ht, hcall, -⟩ := rahead_spec hinv hroom hd
    obtain ⟨rfl, rfl⟩ := Prod.mk.inj (Option.some.inj (he.symm.trans h))
    have hinv' : CacheInv t := hr.invariant hinv fun _ _ _ hP hc _ => hc.inv hP
    have hst : Stays x s.cache t.cache := by
      obtain ⟨as, hrun⟩ := hr
      have : CacheInv t ∧ s.held ≤ t.held ∧ Stays x s.cache t.cache := by
        refine hrun.invariant
          (P := fun t => CacheInv t ∧ s.held ≤ t.held ∧ Stays x s.cache t.cache)
          ⟨hinv, le_refl _, Stays.refl x _⟩ fun t a t' ⟨ht, hb, hst⟩ hc => ?_
        exact ⟨hc.1.inv ht, hc.1.base_le hb, hst.trans (hc.1.base_stays ht hb hx)⟩
      exact this.2.2
    exact (hst.trans (hcall.base_stays hinv' (by rw [ht]) hx)).notEvicted

/-- The invariant holds in every state that the cache reaches. -/
theorem CacheInv.of_reachable (h : Reachable CacheStart CacheStep s) : CacheInv s :=
  h.invariant (P := CacheInv) (fun _ h => h.inv) fun _ _ _ hP hst => hst.inv hP

/-- In every state that the cache reaches, its structures are in order, and no action evicts a
buffer that is held. -/
theorem cache_structure (h : Reachable CacheStart CacheStep s) :
    CacheOk s ∧ ∀ act s', CacheStep s act s' → ∀ x, s.held x ≠ 0 →
      NotEvicted act x s.cache s'.cache :=
  ⟨(CacheInv.of_reachable h).ok, fun _ _ hst _ hx =>
    hst.notEvicted (CacheInv.of_reachable h) hx⟩

/-- A cache in static storage, and a driver that fails the first read. -/
def staticCache : Cache where
  b_next := fun _ => none
  b_prev := fun _ => none
  b_hash := fun _ => none
  b_blocknr := fun _ => 0
  b_count := fun _ => 0
  buf_hash := fun _ => none
  front := none
  rear := none
  bufs_in_use := 0
  b_data := fun _ _ => 0
  b_dev := fun _ => 0
  b_dirt := fun _ => false
  disk := fun _ _ _ => 0
  io := [some (-5, fun _ => 0)]
  opt := []
  rdwt_err := 0

/-- A block that cannot be read, a block that is changed, put and flushed, and one that is
prefetched and read. -/
theorem cache_structure_started : ∃ s, s.cache.b_dev 0 = NO_DEV ∧ s.cache.b_dev 1 = 1 ∧
    s.cache.b_dev 2 = 1 ∧ s.cache.rear = some 2 ∧ CacheOk s := by
  have hrun : ((getBlock (bufPool staticCache) 1 5 .NORMAL).bind fun p =>
      (getBlock p.2 1 37 .NORMAL).bind fun q =>
      (flushall (putBlock (writeBuf q.2 q.1 fun _ => 7) (some q.1) PARTIAL_DATA_BLOCK) 1).bind
        fun c => (getBlock c 1 69 .PREFETCH).bind fun r =>
      (rwScattered r.2 1 [r.1] .READING).bind fun t => some ((p.1, q.1, r.1),
        decide (r.2.b_dev r.1 = NO_DEV ∧ t.b_dev 0 = NO_DEV ∧ t.b_dev 1 = 1 ∧ t.b_dev 2 = 1 ∧
          t.rear = some 2))) =
      some ((0, 1, 2), true) := by
    decide +kernel
  simp only [Option.bind_eq_some_iff, Option.some.injEq, Prod.mk.injEq, decide_eq_true_eq] at hrun
  obtain ⟨⟨_, c₁⟩, h₁, ⟨_, c₂⟩, h₂, c₃, h₃, ⟨_, c₄⟩, h₄, c₅, h₅, ⟨rfl, rfl, rfl⟩, hfree, hd₀, hd₁,
    hd₂, hrear⟩ := hrun
  have hstart : CacheStart ⟨bufPool staticCache, 0⟩ := ⟨_, fun _ => rfl, fun _ => rfl, rfl⟩
  have r₁ := (Reachable.of_init hstart).of_step
    (CacheStep.call (Call.get ⟨by decide, by decide⟩ h₁))
  have r₂ := r₁.of_step
    (CacheStep.call (Call.get ⟨by dsimp only; decide, by dsimp only; decide⟩ h₂))
  have r₃ := r₂.of_step
    (show CacheStep _ (.write 1 fun _ => 7) _ from .write (by dsimp only; decide))
  have r₄ := r₃.of_step
    (CacheStep.call (show Call 0 _ (.put 1 PARTIAL_DATA_BLOCK) _ from .put (by dsimp only; decide)))
  have r₅ := r₄.of_step (CacheStep.flushall h₃)
  have hgot := getBlock_got_of_eq (CacheInv.of_reachable r₅)
    ⟨by dsimp only; decide, by dsimp only; decide⟩ h₄
  have r₆ := r₅.of_step
    (CacheStep.call (Call.get ⟨by dsimp only; decide, by dsimp only; decide⟩ h₄))
  have hq : Prefetched c₄ 1 [2] :=
    ⟨by simp, by simpa using hfree, by simpa [hgot.blocknr] using (hgot.prefetched hfree).1⟩
  have r₇ := r₆.of_step (CacheStep.call (Call.read hq (by dsimp only; decide) h₅))
  exact ⟨_, hd₀, hd₁, hd₂, hrear, (cache_structure r₇).1⟩

end Minix.Fs
