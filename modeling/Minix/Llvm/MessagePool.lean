import Mathlib.Data.Set.Card
import Minix.Lib.Chain
import Minix.Llvm.MessageQueue

/-!
# The pool of messages

`alloc_message` and `free_message` of `llvm/message_pool.ll`, by any number of threads, one atomic
access after the other. Free messages are in a list through their first words, whose head is a
pointer with a counter. A thread reads the link of a message that another thread may have taken in
the meantime and be writing: what it has read counts only if the head is the one that it has loaded,
and the counter says so as long as it has not gone round (`PoolInv`).
-/

namespace Minix.Llvm

open Lib

/-- A pointer and a counter: the pointer is the lower half. -/
def packTagged (node_ptr counter : BitVec 64) : BitVec 128 :=
  node_ptr.setWidth 128 ||| counter.setWidth 128 <<< 64

/-- The pointer of a pair. -/
def ptrOf (tagged : BitVec 128) : Ptr := tagged.setWidth 64

/-- The counter of a pair. -/
def counterOf (tagged : BitVec 128) : BitVec 64 := (tagged >>> 64).setWidth 64

/-- `%message_pool`: the head of the free list, and the first words of the messages. -/
structure Pool where
  tagged_head : BitVec 128
  next : Ptr → Ptr

/-- Size of a `%message`. -/
def MESSAGE_SIZE : BitVec 64 := 64

/-- The message with an index. -/
def msgAt (base : Ptr) (idx : ℕ) : Ptr := base + MESSAGE_SIZE * BitVec.ofNat 64 idx

/-- The loop of `build_free_list`: each message is put in front of the list of those before it. -/
def buildList (base : Ptr) : ℕ → (Ptr → Ptr) → Ptr × (Ptr → Ptr)
  | 0, next => (0, next)
  | n + 1, next =>
    let (head, next) := buildList base n next
    (msgAt base n, Function.update next (msgAt base n) head)

/-- The initial free list, whose counter is 1. -/
def buildFreeList (base : Ptr) (total_messages : ℕ) (next : Ptr → Ptr) : Pool :=
  let (head, next) := buildList base total_messages next
  ⟨packTagged head 1, next⟩

/-- Where a thread is: out of the functions, or in front of an access, with what it has loaded. -/
inductive PoolPc
  | idle
  | allocHead
  | allocNext (tagged : BitVec 128)
  | allocCas (tagged : BitVec 128) (next : Ptr)
  | allocClear (msg : Ptr)
  | freeHead (msg : Ptr)
  | freeStore (msg : Ptr) (tagged : BitVec 128)
  | freeCas (msg : Ptr) (tagged : BitVec 128)
  deriving DecidableEq

/-- An access by a thread, what it goes on with, and what `alloc_message` returns. -/
def PoolPc.run (s : Pool) : PoolPc → Option (Pool × PoolPc × Option Ptr)
  | .idle => none
  | .allocHead =>
    if ptrOf s.tagged_head = 0 then some (s, .idle, some 0)
    else some (s, .allocNext s.tagged_head, none)
  | .allocNext tagged => some (s, .allocCas tagged (s.next (ptrOf tagged)), none)
  | .allocCas tagged next =>
    if s.tagged_head = tagged then
      some ({ s with tagged_head := packTagged next (counterOf tagged + 1) },
        .allocClear (ptrOf tagged), none)
    else some (s, .allocHead, none)
  | .allocClear msg => some ({ s with next := Function.update s.next msg 0 }, .idle, some msg)
  | .freeHead msg => some (s, .freeStore msg s.tagged_head, none)
  | .freeStore msg tagged =>
    some ({ s with next := Function.update s.next msg (ptrOf tagged) }, .freeCas msg tagged, none)
  | .freeCas msg tagged =>
    if s.tagged_head = tagged then
      some ({ s with tagged_head := packTagged msg (counterOf tagged + 1) }, .idle, none)
    else some (s, .freeHead msg, none)

/-- A pool, its threads, and the messages that their callers have. -/
structure PoolState (T : Type*) where
  pool : Pool
  pc : T → PoolPc
  mine : T → Set Ptr

/-- What may happen: a thread calls a function, makes an access, with what is returned then, gives a
message to another one, or writes the first word of a message of its own. -/
inductive PoolAct (T : Type*)
  | alloc (t : T)
  | free (t : T) (msg : Ptr)
  | run (t : T) (ret : Option Ptr)
  | give (t t' : T) (msg : Ptr)
  | write (t : T) (msg v : Ptr)

variable {T : Type*} [DecidableEq T]

/-- What a thread has when a message is returned to it. -/
def returned (mine : Set Ptr) : Option Ptr → Set Ptr
  | some msg => if msg = 0 then mine else insert msg mine
  | none => mine

/-- A step of a thread. A message is freed by the one that has it. -/
inductive PoolStep (s : PoolState T) : PoolAct T → PoolState T → Prop
  | alloc {t : T} (h : s.pc t = .idle) :
      PoolStep s (.alloc t) { s with pc := Function.update s.pc t .allocHead }
  | free {t : T} {msg : Ptr} (h : s.pc t = .idle) (hmsg : msg ∈ s.mine t) :
      PoolStep s (.free t msg) { s with
        pc := Function.update s.pc t (.freeHead msg)
        mine := Function.update s.mine t (s.mine t \ {msg}) }
  | run {t : T} {pool : Pool} {p : PoolPc} {ret : Option Ptr}
      (h : (s.pc t).run s.pool = some (pool, p, ret)) :
      PoolStep s (.run t ret)
        ⟨pool, Function.update s.pc t p, Function.update s.mine t (returned (s.mine t) ret)⟩
  | give {t t' : T} {msg : Ptr} (hmsg : msg ∈ s.mine t) (hne : t ≠ t') :
      PoolStep s (.give t t' msg) { s with
        mine := Function.update (Function.update s.mine t (s.mine t \ {msg})) t'
          (insert msg (s.mine t')) }
  | write {t : T} {msg v : Ptr} (hmsg : msg ∈ s.mine t) :
      PoolStep s (.write t msg v)
        { s with pool := { s.pool with next := Function.update s.pool.next msg v } }

/-! ## Counters -/

/-- A pool with the number of changes of its head, and this number when each thread loaded it last.
-/
structure Counted (T : Type*) where
  state : PoolState T
  changes : ℕ
  loaded : T → ℕ

/-- Whether an access changes the head. -/
def PoolPc.changes (s : Pool) : PoolPc → Bool
  | .allocCas tagged _ | .freeCas _ tagged => s.tagged_head = tagged
  | _ => false

/-- Whether an access loads the head. -/
def PoolPc.loads : PoolPc → Bool
  | .allocHead | .freeHead _ => true
  | _ => false

/-- The counts go on with a step. -/
def Counted.count (w : Counted T) (s : PoolState T) : PoolAct T → Counted T
  | .run t _ =>
    { state := s
      changes := if (w.state.pc t).changes w.state.pool then w.changes + 1 else w.changes
      loaded := if (w.state.pc t).loads then Function.update w.loaded t w.changes else w.loaded }
  | _ => { w with state := s }

/-- Whether a thread has loaded the head and will compare it. -/
def PoolPc.compares : PoolPc → Bool
  | .allocNext _ | .allocCas .. | .freeStore .. | .freeCas .. => true
  | _ => false

/-- A step while the head has changed fewer than 2^64 times since any thread loaded it that will
compare it. -/
def CountedStep (w : Counted T) (act : PoolAct T) (w' : Counted T) : Prop :=
  (∃ s, PoolStep w.state act s ∧ w' = w.count s act) ∧
    ∀ t, (w.state.pc t).compares → w.changes < w.loaded t + 2 ^ 64

/-- The messages of a pool. -/
def msgs (base : Ptr) (total_messages : ℕ) : Finset Ptr :=
  (Finset.range total_messages).image (msgAt base)

/-- A pool that has been initialized: the messages are in memory that does not begin at 0. -/
structure PoolStart (base : Ptr) (total_messages : ℕ) (w : Counted T) : Prop where
  nonnull : base ≠ 0
  room : base.toNat + 64 * total_messages ≤ 2 ^ 64
  pool : ∃ next, w.state.pool = buildFreeList base total_messages next
  idle : ∀ t, w.state.pc t = .idle
  mine : ∀ t, w.state.mine t = ∅
  changes : w.changes = 0

/-! ## Who has the messages -/

/-- A pointer that may be null. -/
def asOption (p : Ptr) : Option Ptr := if p = 0 then none else some p

/-- The messages of a free list, in order. -/
def FreeList (s : Pool) (l : List Ptr) : Prop :=
  Chain (fun p => asOption (s.next p)) (asOption (ptrOf s.tagged_head)) l none

/-- The message that a thread is allocating or freeing. -/
def PoolPc.inHand : PoolPc → Option Ptr
  | .allocClear msg | .freeHead msg | .freeStore msg _ | .freeCas msg _ => some msg
  | _ => none

/-- A thread holds a message: it has the message, or is allocating or freeing it. -/
def Holding (s : PoolState T) (t : T) (msg : Ptr) : Prop :=
  msg ∈ s.mine t ∨ (s.pc t).inHand = some msg

/-- What a pool should be. -/
structure PoolOk (total_messages : ℕ) (w : Counted T) : Prop where
  /-- The free list ends. It has no message twice, and none that is held. -/
  list : ∃ l, FreeList w.state.pool l ∧ l.Nodup ∧ (∀ msg ∈ l, ∀ t, ¬Holding w.state t msg) ∧
    l.length + {msg | ∃ t, Holding w.state t msg}.ncard = total_messages ∧
    -- Null is returned only when the list that was loaded is empty.
    ∀ t s, PoolStep w.state (.run t (some 0)) s → l = []
  once : ∀ t t' msg, Holding w.state t msg → Holding w.state t' msg → t = t'

/-- What a thread that has loaded the head knows of it. -/
structure HeadLoaded (w : Counted T) (t : T) (tagged : BitVec 128) : Prop where
  le : w.loaded t ≤ w.changes
  counter : (counterOf tagged).toNat = (1 + w.loaded t) % 2 ^ 64
  same : w.loaded t = w.changes → tagged = w.state.pool.tagged_head

/-- What a thread knows when it is in front of an access. -/
def PcOk (w : Counted T) (t : T) : PoolPc → Prop
  | .allocNext tagged => HeadLoaded w t tagged ∧ ptrOf tagged ≠ 0
  | .allocCas tagged next => HeadLoaded w t tagged ∧ ptrOf tagged ≠ 0 ∧
      (w.loaded t = w.changes → next = w.state.pool.next (ptrOf tagged))
  | .freeStore _ tagged => HeadLoaded w t tagged
  | .freeCas msg tagged => HeadLoaded w t tagged ∧ w.state.pool.next msg = ptrOf tagged
  | _ => True

/-- The invariant of a pool with a free list. -/
structure PoolInv (base : Ptr) (total_messages : ℕ) (w : Counted T) (l : List Ptr) : Prop where
  list : FreeList w.state.pool l
  counter : (counterOf w.state.pool.tagged_head).toNat = (1 + w.changes) % 2 ^ 64
  free_mem : ∀ msg ∈ l, msg ∈ msgs base total_messages
  held_mem : ∀ t msg, Holding w.state t msg → msg ∈ msgs base total_messages
  all : ∀ msg ∈ msgs base total_messages, msg ∈ l ∨ ∃ t, Holding w.state t msg
  apart : ∀ msg ∈ l, ∀ t, ¬Holding w.state t msg
  once : ∀ t t' msg, Holding w.state t msg → Holding w.state t' msg → t = t'
  hand : ∀ t msg, msg ∈ w.state.mine t → (w.state.pc t).inHand ≠ some msg
  pc : ∀ t, PcOk w t (w.state.pc t)

variable {w w' : Counted T} {s s' : PoolState T} {t t' : T} {act : PoolAct T} {msg v base : Ptr}
  {total_messages n : ℕ} {l : List Ptr} {tagged : BitVec 128} {p : PoolPc} {next : Ptr}
  {node_ptr counter : BitVec 64} {ret : Option Ptr}

/-! ## Words -/

@[simp]
theorem ptrOf_packTagged : ptrOf (packTagged node_ptr counter) = node_ptr := by
  unfold ptrOf packTagged
  ext i hi
  simp

@[simp]
theorem counterOf_packTagged : counterOf (packTagged node_ptr counter) = counter := by
  unfold counterOf packTagged
  ext i hi
  have h128 : 64 + i < 128 := by omega
  have h64 : ¬64 + i < 64 := by omega
  simp [h128, h64, BitVec.getLsbD_eq_getElem hi]

/-- The counter of a word that replaces the head. -/
theorem toNat_counter_add (h : counter.toNat = (1 + n) % 2 ^ 64) :
    (counter + 1).toNat = (1 + (n + 1)) % 2 ^ 64 := by
  rw [BitVec.toNat_add, h]
  show ((1 + n) % 2 ^ 64 + 1) % 2 ^ 64 = _
  rw [Nat.mod_add_mod]
  congr 1

omit [DecidableEq T] in
/-- A loaded head that has the counter of the head is the head. -/
theorem HeadLoaded.unchanged (h : HeadLoaded w t w.state.pool.tagged_head)
    (hcounter : (counterOf w.state.pool.tagged_head).toNat = (1 + w.changes) % 2 ^ 64)
    (hlt : w.changes < w.loaded t + 2 ^ 64) : w.loaded t = w.changes := by
  have hle := h.le
  have heq := h.counter.symm.trans hcounter
  omega

@[simp]
theorem asOption_zero : asOption 0 = none := rfl

/-- A message is no null pointer. -/
theorem asOption_of_ne (h : msg ≠ 0) : asOption msg = some msg := if_neg h

/-- The links when a first word is written. -/
theorem asOption_update (f : Ptr → Ptr) (msg v : Ptr) :
    (fun p => asOption (Function.update f msg v p)) =
      Function.update (fun p => asOption (f p)) msg (asOption v) := by
  funext p
  by_cases hp : p = msg
  · rw [hp, Function.update_self, Function.update_self]
  · rw [Function.update_of_ne hp, Function.update_of_ne hp]

/-! ## Messages in memory -/

/-- The address of a message. -/
theorem toNat_msgAt (h : base.toNat + 64 * total_messages ≤ 2 ^ 64) (hn : n < total_messages) :
    (msgAt base n).toNat = base.toNat + 64 * n := by
  unfold msgAt MESSAGE_SIZE
  have hbase := base.isLt
  rw [BitVec.toNat_add, BitVec.toNat_mul, BitVec.toNat_ofNat]
  show (base.toNat + 64 * (n % 2 ^ 64) % 2 ^ 64) % 2 ^ 64 = _
  omega

/-- Messages are at different addresses. -/
theorem msgAt_inj (h : base.toNat + 64 * total_messages ≤ 2 ^ 64) {i : ℕ} (hn : n < total_messages)
    (hi : i < total_messages) (heq : msgAt base n = msgAt base i) : n = i := by
  have := congrArg BitVec.toNat heq
  rw [toNat_msgAt h hn, toNat_msgAt h hi] at this
  omega

/-- A message is not at 0. -/
theorem msgAt_ne (hbase : base ≠ 0) (h : base.toNat + 64 * total_messages ≤ 2 ^ 64)
    (hn : n < total_messages) : msgAt base n ≠ 0 := by
  intro h0
  have hpos : base.toNat ≠ 0 := fun e => hbase (BitVec.eq_of_toNat_eq e)
  have := congrArg BitVec.toNat h0
  rw [toNat_msgAt h hn] at this
  exact hpos (Nat.eq_zero_of_add_eq_zero_right this)

/-- There are as many messages as there should be. -/
theorem card_msgs (h : base.toNat + 64 * total_messages ≤ 2 ^ 64) :
    (msgs base total_messages).card = total_messages := by
  unfold msgs
  rw [Finset.card_image_of_injOn, Finset.card_range]
  intro i hi j hj heq
  rw [Finset.mem_coe, Finset.mem_range] at hi hj
  exact msgAt_inj h hi hj heq

/-- The free list is built with the messages in the reverse order of their addresses. -/
theorem buildList_chain (hbase : base ≠ 0) (h : base.toNat + 64 * total_messages ≤ 2 ^ 64)
    (f : Ptr → Ptr) (hn : n ≤ total_messages) :
    Chain (fun p => asOption ((buildList base n f).2 p)) (asOption (buildList base n f).1)
      ((List.range n).reverse.map (msgAt base)) none := by
  induction n with
  | zero => rfl
  | succ n ih =>
    have hnew : msgAt base n ∉ (List.range n).reverse.map (msgAt base) := by
      intro hm
      obtain ⟨i, hi, heq⟩ := List.mem_map.mp hm
      rw [List.mem_reverse, List.mem_range] at hi
      have := msgAt_inj h (by omega) (by omega) heq
      omega
    have hpush := (ih (by omega)).push_front hnew
    rw [List.range_succ, List.reverse_append, List.map_append]
    unfold buildList
    dsimp only
    rw [asOption_update, asOption_of_ne (msgAt_ne hbase h hn)]
    exact hpush

omit [DecidableEq T] in
/-- The invariant of a pool that has been initialized. -/
theorem PoolStart.inv (h : PoolStart base total_messages w) :
    ∃ l, PoolInv base total_messages w l := by
  obtain ⟨f, hpool⟩ := h.pool
  have hmem : ∀ msg, msg ∈ (List.range total_messages).reverse.map (msgAt base) ↔
      msg ∈ msgs base total_messages := by
    intro msg
    unfold msgs
    rw [List.mem_map, Finset.mem_image]
    simp only [List.mem_reverse, List.mem_range, Finset.mem_range]
  have hno : ∀ t msg, ¬Holding w.state t msg := by
    rintro t msg (hm | hm)
    · rw [h.mine t] at hm
      exact hm
    · rw [h.idle t] at hm
      exact absurd hm (by simp [PoolPc.inHand])
  refine ⟨(List.range total_messages).reverse.map (msgAt base), ?_, ?_, fun msg => (hmem msg).mp,
    fun t msg hm => absurd hm (hno t msg), fun msg hm => Or.inl ((hmem msg).mpr hm),
    fun msg _ t => hno t msg, fun t _ msg hm => absurd hm (hno t msg),
    fun t msg hm => absurd (Or.inl hm) (hno t msg), fun t => ?_⟩
  · have hlist := buildList_chain h.nonnull h.room f le_rfl
    unfold FreeList
    rw [hpool]
    unfold buildFreeList
    dsimp only
    rw [ptrOf_packTagged]
    exact hlist
  · rw [hpool, h.changes]
    unfold buildFreeList
    dsimp only
    rw [counterOf_packTagged]
    rfl
  · rw [h.idle t]
    trivial

/-! ## Steps -/

omit [DecidableEq T] in
/-- What a thread knows is the same where the pool is as it was. -/
theorem PcOk.congr (h : PcOk w t p) (hpool : w'.state.pool = w.state.pool)
    (hchanges : w'.changes = w.changes) (hloaded : w'.loaded t = w.loaded t) : PcOk w' t p := by
  have hhead : ∀ tagged, HeadLoaded w t tagged → HeadLoaded w' t tagged := by
    intro tagged hl
    refine ⟨?_, ?_, ?_⟩
    · rw [hloaded, hchanges]
      exact hl.le
    · rw [hloaded]
      exact hl.counter
    · rw [hloaded, hchanges, hpool]
      exact hl.same
  cases p with
  | allocNext tagged => exact ⟨hhead _ h.1, h.2⟩
  | allocCas tagged next =>
    refine ⟨hhead _ h.1, h.2.1, ?_⟩
    rw [hloaded, hchanges, hpool]
    exact h.2.2
  | freeStore msg tagged => exact hhead _ h
  | freeCas msg tagged =>
    refine ⟨hhead _ h.1, ?_⟩
    rw [hpool]
    exact h.2
  | _ => trivial

/-- A thread goes on, with the same messages, or one that it had in hand or takes in hand. -/
theorem PoolInv.goto (h : PoolInv base total_messages w l) (M : Set Ptr) (loaded : T → ℕ)
    (hloaded : ∀ t' ≠ t, loaded t' = w.loaded t')
    (hsame : ∀ msg, (msg ∈ M ∨ p.inHand = some msg) ↔ Holding w.state t msg)
    (hhand : ∀ msg ∈ M, p.inHand ≠ some msg)
    (hpc : PcOk ⟨⟨w.state.pool, Function.update w.state.pc t p, Function.update w.state.mine t M⟩,
      w.changes, loaded⟩ t p) :
    PoolInv base total_messages ⟨⟨w.state.pool, Function.update w.state.pc t p,
      Function.update w.state.mine t M⟩, w.changes, loaded⟩ l := by
  have hholds : ∀ t' msg, Holding ⟨w.state.pool, Function.update w.state.pc t p,
      Function.update w.state.mine t M⟩ t' msg ↔ Holding w.state t' msg := by
    intro t' msg
    by_cases heq : t' = t
    · subst heq
      rw [← hsame msg]
      unfold Holding
      dsimp only
      rw [Function.update_self, Function.update_self]
    · unfold Holding
      dsimp only
      rw [Function.update_of_ne heq, Function.update_of_ne heq]
  constructor
  · exact h.list
  · exact h.counter
  · exact h.free_mem
  · exact fun t' msg hm => h.held_mem t' msg ((hholds t' msg).mp hm)
  · intro msg hm
    refine (h.all msg hm).imp id fun ⟨t', ht'⟩ => ⟨t', (hholds t' msg).mpr ht'⟩
  · exact fun msg hm t' ht' => h.apart msg hm t' ((hholds t' msg).mp ht')
  · exact fun t₁ t₂ msg h₁ h₂ => h.once t₁ t₂ msg ((hholds t₁ msg).mp h₁) ((hholds t₂ msg).mp h₂)
  · intro t' msg hm
    dsimp only at hm ⊢
    by_cases heq : t' = t
    · rw [heq, Function.update_self] at hm ⊢
      exact hhand msg hm
    · rw [Function.update_of_ne heq] at hm ⊢
      exact h.hand t' msg hm
  · intro t'
    dsimp only
    by_cases heq : t' = t
    · rw [heq, Function.update_self]
      exact hpc
    · rw [Function.update_of_ne heq]
      exact (h.pc t').congr rfl rfl (hloaded t' heq)

omit [DecidableEq T] in
/-- The head that a message is compared with is in the free list, if it has not changed. -/
theorem PoolInv.mem_head (h : PoolInv base total_messages w l)
    (hne : ptrOf w.state.pool.tagged_head ≠ 0) : ptrOf w.state.pool.tagged_head ∈ l := by
  have hlist := h.list
  unfold FreeList at hlist
  rw [asOption_of_ne hne] at hlist
  exact List.mem_of_head? hlist.head?_eq

omit [DecidableEq T] in
/-- The first word of a message that is held is written, when it is not being compared. -/
theorem PoolInv.store (h : PoolInv base total_messages w l) (hheld : Holding w.state t msg)
    (hcas : ∀ t' tagged, w.state.pc t' ≠ .freeCas msg tagged) (v : Ptr) :
    PoolInv base total_messages { w with state := { w.state with
      pool := { w.state.pool with next := Function.update w.state.pool.next msg v } } } l := by
  have hnot : msg ∉ l := fun hm => h.apart msg hm t hheld
  constructor
  · have hlist := h.list.update hnot (asOption v)
    unfold FreeList
    dsimp only
    rw [asOption_update]
    exact hlist
  · exact h.counter
  · exact h.free_mem
  · exact h.held_mem
  · exact h.all
  · exact h.apart
  · exact h.once
  · exact h.hand
  · intro t'
    have hpc := h.pc t'
    have hhead : ∀ tagged, HeadLoaded w t' tagged → HeadLoaded { w with state := { w.state with
        pool := { w.state.pool with next := Function.update w.state.pool.next msg v } } } t' tagged :=
      fun tagged hl => ⟨hl.le, hl.counter, hl.same⟩
    dsimp only
    cases hpc' : w.state.pc t' with
    | allocNext tagged =>
      rw [hpc'] at hpc
      exact ⟨hhead _ hpc.1, hpc.2⟩
    | allocCas tagged next =>
      rw [hpc'] at hpc
      obtain ⟨hl, hne, hnext⟩ := hpc
      refine ⟨hhead _ hl, hne, fun heq => ?_⟩
      -- The message is not the head, which is free.
      have hmsg : ptrOf tagged ≠ msg := by
        rintro rfl
        rw [hl.same heq] at hne hnot
        exact hnot (h.mem_head hne)
      dsimp only
      rw [Function.update_of_ne hmsg]
      exact hnext heq
    | freeStore m tagged =>
      rw [hpc'] at hpc
      exact hhead _ hpc
    | freeCas m tagged =>
      rw [hpc'] at hpc
      have hne : m ≠ msg := by
        rintro rfl
        exact hcas t' tagged hpc'
      refine ⟨hhead _ hpc.1, ?_⟩
      dsimp only
      rw [Function.update_of_ne hne]
      exact hpc.2
    | _ => trivial

omit [DecidableEq T] in
/-- What a thread knows of a head that has changed is that it is another one. -/
theorem PcOk.changed (h : PcOk w t p) (hnext : w'.state.pool.next = w.state.pool.next)
    (hchanges : w'.changes = w.changes + 1) (hloaded : w'.loaded t = w.loaded t) : PcOk w' t p := by
  have hhead : ∀ tagged, HeadLoaded w t tagged →
      HeadLoaded w' t tagged ∧ w'.loaded t ≠ w'.changes := by
    intro tagged hl
    have hle := hl.le
    have hne : w'.loaded t ≠ w'.changes := by omega
    refine ⟨⟨by omega, ?_, fun e => absurd e hne⟩, hne⟩
    rw [hloaded]
    exact hl.counter
  cases p with
  | allocNext tagged => exact ⟨(hhead _ h.1).1, h.2⟩
  | allocCas tagged next =>
    obtain ⟨hl, hne⟩ := hhead _ h.1
    exact ⟨hl, h.2.1, fun e => absurd e hne⟩
  | freeStore msg tagged => exact (hhead _ h).1
  | freeCas msg tagged =>
    refine ⟨(hhead _ h.1).1, ?_⟩
    rw [hnext]
    exact h.2
  | _ => trivial

/-- A thread takes the head of the free list. -/
theorem PoolInv.take (h : PoolInv base total_messages w l)
    (hpc : w.state.pc t = .allocCas tagged next) (hhead : w.state.pool.tagged_head = tagged)
    (hlt : w.changes < w.loaded t + 2 ^ 64) :
    ∃ l', PoolInv base total_messages ⟨⟨{ w.state.pool with
      tagged_head := packTagged next (counterOf tagged + 1) },
      Function.update w.state.pc t (.allocClear (ptrOf tagged)), w.state.mine⟩, w.changes + 1,
      w.loaded⟩ l' := by
  subst hhead
  obtain ⟨hl, hne, hnext⟩ : PcOk w t (.allocCas w.state.pool.tagged_head next) := hpc ▸ h.pc t
  have hnext := hnext (hl.unchanged h.counter hlt)
  have hlist := h.list
  unfold FreeList at hlist
  rw [asOption_of_ne hne] at hlist
  -- The link that was loaded is that of the first message.
  obtain ⟨msg, l', rfl⟩ := List.exists_cons_of_ne_nil (List.ne_nil_of_mem (h.mem_head hne))
  obtain ⟨hmsg, hlist⟩ := hlist
  obtain rfl := Option.some.inj hmsg
  have hholds : ∀ t' m, Holding ⟨{ w.state.pool with
      tagged_head := packTagged next (counterOf w.state.pool.tagged_head + 1) },
      Function.update w.state.pc t (.allocClear (ptrOf w.state.pool.tagged_head)),
      w.state.mine⟩ t' m ↔
      Holding w.state t' m ∨ t' = t ∧ m = ptrOf w.state.pool.tagged_head := by
    intro t' m
    unfold Holding
    dsimp only
    by_cases heq : t' = t
    · rw [heq, Function.update_self, hpc]
      simp [PoolPc.inHand, eq_comm]
    · rw [Function.update_of_ne heq]
      simp [heq]
  have hnd := (List.nodup_cons.mp (Chain.nodup h.list)).1
  have hapart := h.apart (ptrOf w.state.pool.tagged_head) (by simp)
  refine ⟨l', ?_, ?_, ?_, ?_, ?_, ?_, ?_, ?_, ?_⟩
  · unfold FreeList
    dsimp only
    rw [ptrOf_packTagged, hnext]
    exact hlist
  · dsimp only
    rw [counterOf_packTagged]
    exact toNat_counter_add h.counter
  · exact fun m hm => h.free_mem m (List.mem_cons_of_mem _ hm)
  · intro t' m hm
    rcases (hholds t' m).mp hm with hm | ⟨-, rfl⟩
    · exact h.held_mem t' m hm
    · exact h.free_mem _ (by simp)
  · intro m hm
    rcases h.all m hm with hm | ⟨t', hm⟩
    · rcases List.mem_cons.mp hm with rfl | hm
      · exact Or.inr ⟨t, (hholds t _).mpr (Or.inr ⟨rfl, rfl⟩)⟩
      · exact Or.inl hm
    · exact Or.inr ⟨t', (hholds t' m).mpr (Or.inl hm)⟩
  · intro m hm t' ht'
    rcases (hholds t' m).mp ht' with ht' | ⟨-, rfl⟩
    · exact h.apart m (List.mem_cons_of_mem _ hm) t' ht'
    · exact hnd hm
  · intro t₁ t₂ m h₁ h₂
    rcases (hholds t₁ m).mp h₁ with h₁ | ⟨rfl, rfl⟩
    · rcases (hholds t₂ m).mp h₂ with h₂ | ⟨-, rfl⟩
      · exact h.once t₁ t₂ m h₁ h₂
      · exact absurd h₁ (hapart t₁)
    · rcases (hholds t₂ _).mp h₂ with h₂ | ⟨rfl, -⟩
      · exact absurd h₂ (hapart t₂)
      · rfl
  · intro t' m hm
    dsimp only at hm ⊢
    by_cases heq : t' = t
    · rw [heq, Function.update_self]
      intro e
      obtain rfl := Option.some.inj e
      exact hapart t' (Or.inl hm)
    · rw [Function.update_of_ne heq]
      exact h.hand t' m hm
  · intro t'
    dsimp only
    by_cases heq : t' = t
    · rw [heq, Function.update_self]
      trivial
    · rw [Function.update_of_ne heq]
      exact (h.pc t').changed rfl rfl rfl

/-- A thread puts a message in front of the free list. -/
theorem PoolInv.put (h : PoolInv base total_messages w l)
    (hpc : w.state.pc t = .freeCas msg tagged) (hhead : w.state.pool.tagged_head = tagged)
    (hmsg : msg ≠ 0) :
    PoolInv base total_messages ⟨⟨{ w.state.pool with
      tagged_head := packTagged msg (counterOf tagged + 1) },
      Function.update w.state.pc t .idle, w.state.mine⟩, w.changes + 1, w.loaded⟩ (msg :: l) := by
  subst hhead
  obtain ⟨hl, hlink⟩ : PcOk w t (.freeCas msg w.state.pool.tagged_head) := hpc ▸ h.pc t
  have hhold : Holding w.state t msg := Or.inr (by rw [hpc]; rfl)
  have hmine : msg ∉ w.state.mine t := fun hm => h.hand t msg hm (by rw [hpc]; rfl)
  have hholds : ∀ t' m, Holding ⟨{ w.state.pool with
      tagged_head := packTagged msg (counterOf w.state.pool.tagged_head + 1) },
      Function.update w.state.pc t .idle, w.state.mine⟩ t' m ↔ Holding w.state t' m ∧ m ≠ msg := by
    intro t' m
    by_cases heq : t' = t
    · rw [heq]
      unfold Holding
      dsimp only
      rw [Function.update_self, hpc]
      constructor
      · rintro (hm | hm)
        · refine ⟨Or.inl hm, ?_⟩
          rintro rfl
          exact hmine hm
        · exact absurd hm (by simp [PoolPc.inHand])
      · rintro ⟨hm | hm, hne⟩
        · exact Or.inl hm
        · exact absurd (Option.some.inj hm).symm hne
    · constructor
      · intro hm
        have hold : Holding w.state t' m := by
          unfold Holding at hm ⊢
          dsimp only at hm
          rwa [Function.update_of_ne heq] at hm
        refine ⟨hold, ?_⟩
        rintro rfl
        exact heq (h.once t' t m hold hhold)
      · rintro ⟨hm, -⟩
        unfold Holding at hm ⊢
        dsimp only
        rwa [Function.update_of_ne heq]
  constructor
  · unfold FreeList
    dsimp only
    rw [ptrOf_packTagged, asOption_of_ne hmsg]
    refine ⟨rfl, ?_⟩
    dsimp only
    rw [hlink]
    exact h.list
  · dsimp only
    rw [counterOf_packTagged]
    exact toNat_counter_add h.counter
  · intro m hm
    rcases List.mem_cons.mp hm with rfl | hm
    · exact h.held_mem t m hhold
    · exact h.free_mem m hm
  · exact fun t' m hm => h.held_mem t' m ((hholds t' m).mp hm).1
  · intro m hm
    by_cases heq : m = msg
    · exact Or.inl (by rw [heq]; exact List.mem_cons_self)
    · exact (h.all m hm).imp (List.mem_cons_of_mem _) fun ⟨t', ht'⟩ =>
        ⟨t', (hholds t' m).mpr ⟨ht', heq⟩⟩
  · intro m hm t' ht'
    obtain ⟨ht', hne⟩ := (hholds t' m).mp ht'
    rcases List.mem_cons.mp hm with heq | hm
    · exact hne heq
    · exact h.apart m hm t' ht'
  · exact fun t₁ t₂ m h₁ h₂ => h.once t₁ t₂ m ((hholds t₁ m).mp h₁).1 ((hholds t₂ m).mp h₂).1
  · intro t' m hm
    dsimp only at hm ⊢
    by_cases heq : t' = t
    · rw [heq, Function.update_self]
      simp [PoolPc.inHand]
    · rw [Function.update_of_ne heq]
      exact h.hand t' m hm
  · intro t'
    dsimp only
    by_cases heq : t' = t
    · rw [heq, Function.update_self]
      trivial
    · rw [Function.update_of_ne heq]
      exact (h.pc t').changed rfl rfl rfl

/-- A thread gives a message to another one. -/
theorem PoolInv.give (h : PoolInv base total_messages w l) (hmsg : msg ∈ w.state.mine t)
    (hne : t ≠ t') :
    PoolInv base total_messages { w with state := { w.state with
      mine := Function.update (Function.update w.state.mine t (w.state.mine t \ {msg})) t'
        (insert msg (w.state.mine t')) } } l := by
  have hhand := h.hand t msg hmsg
  have hold : Holding w.state t msg := Or.inl hmsg
  have hholds : ∀ t₁ m, Holding { w.state with
      mine := Function.update (Function.update w.state.mine t (w.state.mine t \ {msg})) t'
        (insert msg (w.state.mine t')) } t₁ m ↔
      m ≠ msg ∧ Holding w.state t₁ m ∨ m = msg ∧ t₁ = t' := by
    intro t₁ m
    unfold Holding
    dsimp only
    by_cases h' : t₁ = t'
    · rw [h', Function.update_self, Set.mem_insert_iff]
      by_cases hm : m = msg
      · simp [hm]
      · simp [hm]
    · rw [Function.update_of_ne h']
      by_cases ht : t₁ = t
      · rw [ht, Function.update_self]
        by_cases hm : m = msg
        · simp [hm, hhand, hne]
        · simp [hm]
      · rw [Function.update_of_ne ht]
        by_cases hm : m = msg
        · have hno : ¬Holding w.state t₁ m := fun e => ht (h.once t₁ t m e (hm ▸ hold))
          unfold Holding at hno
          simp [hm ▸ hno, hm, h']
        · simp [hm]
  constructor
  · exact h.list
  · exact h.counter
  · exact h.free_mem
  · intro t₁ m hm
    rcases (hholds t₁ m).mp hm with ⟨-, hm⟩ | ⟨rfl, -⟩
    · exact h.held_mem t₁ m hm
    · exact h.held_mem t m hold
  · intro m hm
    by_cases heq : m = msg
    · exact Or.inr ⟨t', (hholds t' m).mpr (Or.inr ⟨heq, rfl⟩)⟩
    · exact (h.all m hm).imp id fun ⟨t₁, h₁⟩ => ⟨t₁, (hholds t₁ m).mpr (Or.inl ⟨heq, h₁⟩)⟩
  · intro m hm t₁ h₁
    rcases (hholds t₁ m).mp h₁ with ⟨-, h₁⟩ | ⟨rfl, -⟩
    · exact h.apart m hm t₁ h₁
    · exact h.apart m hm t hold
  · intro t₁ t₂ m h₁ h₂
    rcases (hholds t₁ m).mp h₁ with ⟨hm, h₁⟩ | ⟨hm, rfl⟩
    · rcases (hholds t₂ m).mp h₂ with ⟨-, h₂⟩ | ⟨hm', -⟩
      · exact h.once t₁ t₂ m h₁ h₂
      · exact absurd hm' hm
    · rcases (hholds t₂ m).mp h₂ with ⟨hm', -⟩ | ⟨-, rfl⟩
      · exact absurd hm hm'
      · rfl
  · intro t₁ m hm hh
    dsimp only at hm hh
    by_cases h' : t₁ = t'
    · rw [h', Function.update_self] at hm
      rw [h'] at hh
      rcases hm with rfl | hm
      · exact hne (h.once t t' m hold (Or.inr hh))
      · exact h.hand t' m hm hh
    · rw [Function.update_of_ne h'] at hm
      by_cases ht : t₁ = t
      · rw [ht, Function.update_self] at hm
        rw [ht] at hh
        exact h.hand t m hm.1 hh
      · rw [Function.update_of_ne ht] at hm
        exact h.hand t₁ m hm hh
  · exact fun t₁ => (h.pc t₁).congr rfl rfl rfl

omit [DecidableEq T] in
/-- A head that is loaded is known. -/
theorem HeadLoaded.of_load (hcounter : (counterOf w.state.pool.tagged_head).toNat =
    (1 + w.changes) % 2 ^ 64) (hloaded : w.loaded t = w.changes) :
    HeadLoaded w t w.state.pool.tagged_head := by
  refine ⟨hloaded.le, ?_, fun _ => rfl⟩
  rw [hloaded]
  exact hcounter

/-- A thread goes on without a change of what it has and of what it has loaded. -/
theorem PoolInv.goto_same (h : PoolInv base total_messages w l)
    (hhand : p.inHand = (w.state.pc t).inHand) (hpc : PcOk w t p) :
    PoolInv base total_messages ⟨⟨w.state.pool, Function.update w.state.pc t p, w.state.mine⟩,
      w.changes, w.loaded⟩ l := by
  have hgoto := h.goto (t := t) (p := p) (w.state.mine t) w.loaded (fun _ _ => rfl)
    (fun m => by rw [hhand]; rfl) (fun m hm => by rw [hhand]; exact h.hand t m hm)
    (hpc.congr rfl rfl rfl)
  rwa [Function.update_eq_self] at hgoto

/-- A thread loads the head. -/
theorem PoolInv.load (h : PoolInv base total_messages w l)
    (hhand : p.inHand = (w.state.pc t).inHand)
    (hpc : ∀ w' : Counted T, w'.state.pool = w.state.pool →
      HeadLoaded w' t w.state.pool.tagged_head → PcOk w' t p) :
    PoolInv base total_messages ⟨⟨w.state.pool, Function.update w.state.pc t p, w.state.mine⟩,
      w.changes, Function.update w.loaded t w.changes⟩ l := by
  have hgoto := h.goto (t := t) (p := p) (w.state.mine t) (Function.update w.loaded t w.changes)
    (fun t' hne => Function.update_of_ne hne _ _)
    (fun m => by rw [hhand]; rfl) (fun m hm => by rw [hhand]; exact h.hand t m hm)
    (hpc _ rfl (HeadLoaded.of_load h.counter (Function.update_self ..)))
  rwa [Function.update_eq_self] at hgoto

/-- An access by a thread. -/
theorem PoolInv.run (h : PoolInv base total_messages w l) (hbase : base ≠ 0)
    (hroom : base.toNat + 64 * total_messages ≤ 2 ^ 64)
    (hlt : ∀ t, (w.state.pc t).compares → w.changes < w.loaded t + 2 ^ 64) {pool : Pool}
    (hrun : (w.state.pc t).run w.state.pool = some (pool, p, ret)) :
    ∃ l', PoolInv base total_messages (w.count ⟨pool, Function.update w.state.pc t p,
      Function.update w.state.mine t (returned (w.state.mine t) ret)⟩ (.run t ret)) l' := by
  have hne : ∀ t m, Holding w.state t m → m ≠ 0 := by
    intro t m hm
    obtain ⟨i, hi, rfl⟩ := Finset.mem_image.mp (h.held_mem t m hm)
    exact msgAt_ne hbase hroom (Finset.mem_range.mp hi)
  have hmine : Function.update w.state.mine t (w.state.mine t) = w.state.mine :=
    Function.update_eq_self ..
  unfold Counted.count
  cases hpc : w.state.pc t with
  | idle =>
    rw [hpc] at hrun
    exact absurd hrun (by simp [PoolPc.run])
  | allocHead =>
    rw [hpc] at hrun
    simp only [PoolPc.run] at hrun
    split_ifs at hrun with h0
    · obtain ⟨rfl, rfl, rfl⟩ := hrun
      refine ⟨l, ?_⟩
      simp only [hpc, PoolPc.changes, PoolPc.loads, returned, if_true, Bool.false_eq_true, if_false,
        hmine]
      exact h.load (t := t) (p := .idle) (by rw [hpc]; rfl) fun _ _ _ => trivial
    · obtain ⟨rfl, rfl, rfl⟩ := hrun
      refine ⟨l, ?_⟩
      simp only [hpc, PoolPc.changes, PoolPc.loads, returned, if_true, Bool.false_eq_true, if_false,
        hmine]
      exact h.load (t := t) (p := .allocNext w.state.pool.tagged_head) (by rw [hpc]; rfl)
        fun _ _ hl => ⟨hl, h0⟩
  | allocNext tagged =>
    rw [hpc] at hrun
    obtain ⟨rfl, rfl, rfl⟩ := hrun
    have hok : PcOk w t (.allocNext tagged) := hpc ▸ h.pc t
    refine ⟨l, ?_⟩
    simp only [hpc, PoolPc.changes, PoolPc.loads, returned, Bool.false_eq_true, if_false, hmine]
    exact h.goto_same (t := t) (p := .allocCas tagged (w.state.pool.next (ptrOf tagged)))
      (by rw [hpc]; rfl) ⟨hok.1, hok.2, fun _ => rfl⟩
  | allocCas tagged next =>
    rw [hpc] at hrun
    simp only [PoolPc.run] at hrun
    simp only [hpc, PoolPc.changes, PoolPc.loads, Bool.false_eq_true, if_false, decide_eq_true_eq]
    by_cases hhead : w.state.pool.tagged_head = tagged
    · rw [if_pos hhead] at hrun ⊢
      obtain ⟨rfl, rfl, rfl⟩ := hrun
      simp only [returned, hmine]
      exact h.take hpc hhead (hlt t (by rw [hpc]; rfl))
    · rw [if_neg hhead] at hrun ⊢
      obtain ⟨rfl, rfl, rfl⟩ := hrun
      simp only [returned, hmine]
      exact ⟨l, h.goto_same (t := t) (p := .allocHead) (by rw [hpc]; rfl) trivial⟩
  | allocClear msg =>
    rw [hpc] at hrun
    obtain ⟨rfl, rfl, rfl⟩ := hrun
    refine ⟨l, ?_⟩
    have hold : Holding w.state t msg := Or.inr (by rw [hpc]; rfl)
    -- The message is not in the hand of any other thread.
    have hcas : ∀ t' tagged, w.state.pc t' ≠ .freeCas msg tagged := by
      intro t' tagged hpc'
      obtain rfl := h.once t t' msg hold (Or.inr (by rw [hpc']; rfl))
      exact PoolPc.noConfusion (hpc.symm.trans hpc')
    have hstore := h.store hold hcas 0
    simp only [hpc, PoolPc.changes, PoolPc.loads, returned, Bool.false_eq_true, if_false,
      if_neg (hne t msg hold)]
    refine hstore.goto (t := t) (p := .idle) (insert msg (w.state.mine t)) w.loaded
      (fun _ _ => rfl) (fun m => ?_) (fun m _ => by simp [PoolPc.inHand]) trivial
    unfold Holding
    dsimp only
    rw [hpc]
    simp [PoolPc.inHand, or_comm, eq_comm]
  | freeHead msg =>
    rw [hpc] at hrun
    obtain ⟨rfl, rfl, rfl⟩ := hrun
    refine ⟨l, ?_⟩
    simp only [hpc, PoolPc.changes, PoolPc.loads, returned, if_true, Bool.false_eq_true, if_false,
      hmine]
    exact h.load (t := t) (p := .freeStore msg w.state.pool.tagged_head) (by rw [hpc]; rfl)
      fun _ _ hl => hl
  | freeStore msg tagged =>
    rw [hpc] at hrun
    obtain ⟨rfl, rfl, rfl⟩ := hrun
    have hok : PcOk w t (.freeStore msg tagged) := hpc ▸ h.pc t
    have hold : Holding w.state t msg := Or.inr (by rw [hpc]; rfl)
    have hcas : ∀ t' tagged', w.state.pc t' ≠ .freeCas msg tagged' := by
      intro t' tagged' hpc'
      obtain rfl := h.once t t' msg hold (Or.inr (by rw [hpc']; rfl))
      exact PoolPc.noConfusion (hpc.symm.trans hpc')
    have hstore := h.store hold hcas (ptrOf tagged)
    refine ⟨l, ?_⟩
    simp only [hpc, PoolPc.changes, PoolPc.loads, returned, Bool.false_eq_true, if_false, hmine]
    refine hstore.goto_same (t := t) (p := .freeCas msg tagged) ?_
      ⟨⟨hok.le, hok.counter, hok.same⟩, Function.update_self ..⟩
    rw [hpc]
    rfl
  | freeCas msg tagged =>
    rw [hpc] at hrun
    simp only [PoolPc.run] at hrun
    simp only [hpc, PoolPc.changes, PoolPc.loads, Bool.false_eq_true, if_false, decide_eq_true_eq]
    by_cases hhead : w.state.pool.tagged_head = tagged
    · rw [if_pos hhead] at hrun ⊢
      obtain ⟨rfl, rfl, rfl⟩ := hrun
      simp only [returned, hmine]
      exact ⟨_, h.put hpc hhead (hne t msg (Or.inr (by rw [hpc]; rfl)))⟩
    · rw [if_neg hhead] at hrun ⊢
      obtain ⟨rfl, rfl, rfl⟩ := hrun
      simp only [returned, hmine]
      exact ⟨l, h.goto_same (t := t) (p := .freeHead msg) (by rw [hpc]; rfl) trivial⟩

/-- What every step keeps. -/
theorem PoolInv.step (h : PoolInv base total_messages w l) (hbase : base ≠ 0)
    (hroom : base.toNat + 64 * total_messages ≤ 2 ^ 64) (hst : CountedStep w act w') :
    ∃ l', PoolInv base total_messages w' l' := by
  obtain ⟨⟨s, hst, rfl⟩, hlt⟩ := hst
  cases hst with
  | @alloc t hidle =>
    exact ⟨l, h.goto_same (t := t) (p := .allocHead) (by rw [hidle]; rfl) trivial⟩
  | @free t msg hidle hmsg =>
    refine ⟨l, h.goto (t := t) (p := .freeHead msg) (w.state.mine t \ {msg}) w.loaded
      (fun _ _ => rfl) (fun m => ?_)
      (fun m hm e => hm.2 (Option.some.inj e).symm) trivial⟩
    unfold Holding
    rw [hidle]
    by_cases heq : m = msg
    · simp [PoolPc.inHand, heq, hmsg]
    · simp [PoolPc.inHand, heq, Ne.symm heq]
  | run hrun => exact h.run hbase hroom hlt hrun
  | give hmsg hne => exact ⟨l, h.give hmsg hne⟩
  | @write t msg v hmsg =>
    refine ⟨l, h.store (Or.inl hmsg) (fun t' tagged hpc => ?_) v⟩
    obtain rfl := h.once t t' msg (Or.inl hmsg) (Or.inr (by rw [hpc]; rfl))
    exact h.hand t msg hmsg (by rw [hpc]; rfl)

/-- A free list has its invariant in every state that is reached. -/
theorem PoolInv.of_reachable (hreach : Reachable (PoolStart base total_messages) CountedStep w) :
    ∃ l, PoolInv base total_messages w l := by
  obtain ⟨w₀, as, hstart, hrun⟩ := hreach
  refine hrun.invariant (P := fun w => ∃ l, PoolInv base total_messages w l)
    hstart.inv ?_
  rintro w act w' ⟨l, h⟩ hst
  exact h.step hstart.nonnull hstart.room hst

omit [DecidableEq T] in
/-- The messages that are held are those that are not free. -/
theorem PoolInv.held_eq (h : PoolInv base total_messages w l) :
    {msg | ∃ t, Holding w.state t msg} = ↑(msgs base total_messages \ l.toFinset) := by
  ext msg
  rw [Finset.coe_sdiff, Set.mem_sdiff, Finset.mem_coe, Finset.mem_coe, List.mem_toFinset]
  constructor
  · rintro ⟨t, ht⟩
    exact ⟨h.held_mem t msg ht, fun hm => h.apart msg hm t ht⟩
  · rintro ⟨hm, hl⟩
    exact (h.all msg hm).resolve_left hl

omit [DecidableEq T] in
/-- Every message is free or held. -/
theorem PoolInv.card (h : PoolInv base total_messages w l)
    (hroom : base.toNat + 64 * total_messages ≤ 2 ^ 64) :
    l.length + {msg | ∃ t, Holding w.state t msg}.ncard = total_messages := by
  have hsub : l.toFinset ⊆ msgs base total_messages :=
    fun msg hm => h.free_mem msg (List.mem_toFinset.mp hm)
  rw [h.held_eq, Set.ncard_coe_finset, ← List.toFinset_card_of_nodup (Chain.nodup h.list),
    Finset.card_sdiff_of_subset hsub, card_msgs hroom]
  have hle := Finset.card_le_card hsub
  rw [card_msgs hroom] at hle
  omega

/-- Null is returned only when the free list is empty. -/
theorem PoolInv.null (h : PoolInv base total_messages w l)
    (hne : (0 : Ptr) ∉ msgs base total_messages)
    (hst : PoolStep w.state (.run t (some 0)) s) : l = [] := by
  cases hst with
  | @run t pool p ret hrun =>
    cases hpc : w.state.pc t with
    | allocHead =>
      rw [hpc] at hrun
      simp only [PoolPc.run] at hrun
      by_cases h0 : ptrOf w.state.pool.tagged_head = 0
      · have hlist := h.list
        unfold FreeList at hlist
        rw [h0, asOption_zero] at hlist
        exact hlist.eq_nil_iff.mpr rfl
      · rw [if_neg h0] at hrun
        simp at hrun
    | allocClear msg =>
      rw [hpc] at hrun
      obtain rfl := Option.some.inj (Prod.mk.inj (Prod.mk.inj (Option.some.inj hrun)).2).2
      exact absurd (h.held_mem t 0 (Or.inr (by rw [hpc]; rfl))) hne
    | idle | allocNext | freeHead | freeStore =>
      rw [hpc] at hrun
      simp [PoolPc.run] at hrun
    | allocCas | freeCas =>
      rw [hpc] at hrun
      simp only [PoolPc.run] at hrun
      split_ifs at hrun <;> simp at hrun

/-- In every run of any number of threads on a pool of any size, the free list ends, a message is
free or held by one thread, none is lost, and null is returned only when none is free. -/
theorem message_pool (hreach : Reachable (PoolStart base total_messages) CountedStep w) :
    PoolOk total_messages w := by
  obtain ⟨w₀, as, hstart, -⟩ := id hreach
  obtain ⟨l, h⟩ := PoolInv.of_reachable hreach
  have hne : (0 : Ptr) ∉ msgs base total_messages := by
    intro hm
    obtain ⟨i, hi, h0⟩ := Finset.mem_image.mp hm
    exact msgAt_ne hstart.nonnull hstart.room (Finset.mem_range.mp hi) h0
  refine ⟨⟨l, h.list, Chain.nodup h.list, h.apart, h.card hstart.room, ?_⟩, h.once⟩
  intro t s hst
  exact h.null hne hst

/-- An access by a thread that is alone. -/
def Counted.access (w : Counted Unit) : Option (Counted Unit) :=
  if w.changes < w.loaded () + 2 ^ 64 then
    ((w.state.pc ()).run w.state.pool).map fun (pool, p, ret) =>
      w.count ⟨pool, Function.update w.state.pc () p,
        Function.update w.state.mine () (returned (w.state.mine ()) ret)⟩ (.run () ret)
  else none

/-- An access by a thread that is alone is a step. -/
theorem CountedStep.of_access {w w' : Counted Unit} (h : w.access = some w') :
    ∃ act, CountedStep w act w' := by
  unfold Counted.access at h
  split_ifs at h with hlt
  obtain ⟨⟨pool, p, ret⟩, hrun, rfl⟩ := Option.map_eq_some_iff.mp h
  exact ⟨.run () ret, ⟨_, .run hrun, rfl⟩, fun _ _ => hlt⟩

/-- A message of two is allocated: the other one is in the free list. -/
theorem message_pool_small : ∃ w : Counted Unit, w.state.pc () = .allocClear 128 ∧
    ptrOf w.state.pool.tagged_head = 64 ∧ PoolOk 2 w := by
  let w₀ : Counted Unit :=
    ⟨⟨buildFreeList 64 2 fun _ => 0, fun _ => .idle, fun _ => ∅⟩, 0, fun _ => 0⟩
  let w₁ : Counted Unit := { w₀ with state.pc := Function.update w₀.state.pc () .allocHead }
  have hrun : ((w₁.access).bind fun w => w.access.bind fun w => w.access.bind fun w =>
      some (w.state.pc (), ptrOf w.state.pool.tagged_head)) = some (.allocClear 128, 64) := by
    decide +kernel
  simp only [Option.bind_eq_some_iff, Option.some.injEq, Prod.mk.injEq] at hrun
  obtain ⟨w₂, h₂, w₃, h₃, w₄, h₄, hpc, hhead⟩ := hrun
  have hstart : PoolStart 64 2 w₀ :=
    ⟨by decide, by decide, ⟨_, rfl⟩, fun _ => rfl, fun _ => rfl, rfl⟩
  have h₁ : CountedStep w₀ (.alloc ()) w₁ := ⟨⟨_, .alloc rfl, rfl⟩, fun _ h => Bool.noConfusion h⟩
  obtain ⟨act₂, h₂⟩ := CountedStep.of_access h₂
  obtain ⟨act₃, h₃⟩ := CountedStep.of_access h₃
  obtain ⟨act₄, h₄⟩ := CountedStep.of_access h₄
  exact ⟨w₄, hpc, hhead, message_pool ((((Reachable.of_init hstart).of_step h₁).of_step h₂).of_step
    h₃ |>.of_step h₄)⟩

end Minix.Llvm
