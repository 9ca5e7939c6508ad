import Mathlib.Data.BitVec
import Minix.Lib.Once
import Minix.Llvm.MessagePool

/-!
# One-time initialisation

`initialize_global_queue_registry` of `llvm/queue_registry.ll` and `init_message_pool` of
`llvm/message_pool.ll`, by any number of threads, one access after the other. The flag that lets one
thread initialise is set when that thread begins, and the pointer is stored when it has finished.
The other threads return when they find the flag set (`init_once`), which may be before the pointer
is stored (`init_once_early`).

Memory is that of each structure by itself. `malloc` and `calloc` return what they like: null, or a
block in which what is asked for has room. `init_registry_lock` is declared elsewhere, and is a call
that returns.
-/

namespace Minix.Llvm

open Lib

/-! ## The registry -/

/-- `%proc_queue_entry`. -/
structure ProcQueueEntry where
  owner_pid : BitVec 32
  actual_queue : Ptr
  stats_messages_received : BitVec 64
  stats_messages_sent : BitVec 64
  deriving DecidableEq

/-- `%queue_registry`. -/
structure QueueRegistry where
  num_processes_configured : BitVec 32
  queue_array : Ptr
  registry_rwlock : Ptr
  deriving DecidableEq

/-- The registries and the entries at each address. -/
structure RegistryMem where
  registries : Ptr → QueueRegistry
  entries : Ptr → ProcQueueEntry

/-- Size of a `%proc_queue_entry`. -/
def PROC_QUEUE_ENTRY_SIZE : BitVec 64 := 32

/-- The entry of an array with an index. -/
def entryAt (queue_array : Ptr) (idx : BitVec 32) : Ptr :=
  queue_array + PROC_QUEUE_ENTRY_SIZE * idx.signExtend 64

/-- Where a thread is that initialises the registry. -/
inductive RegistryWork
  | initLock (max_processes : BitVec 32)
  | allocRegistry (max_processes : BitVec 32)
  | allocArray (max_processes : BitVec 32) (registry : Ptr)
  | retryArray (reduced : BitVec 32) (registry : Ptr)
  | initEntry (effective : BitVec 32) (registry array : Ptr) (idx : BitVec 32)
  | storeNum (effective : BitVec 32) (registry array : Ptr)
  | storeArray (registry array : Ptr)
  | storeLock (registry : Ptr)
  deriving DecidableEq

/-- `calloc` of an array with a number of entries. -/
def RegistryMem.calloc (m : RegistryMem) (array : Ptr) (n : BitVec 32) : RegistryMem :=
  { m with entries := fun p =>
      if p - array < PROC_QUEUE_ENTRY_SIZE * n.signExtend 64 then ⟨0, 0, 0, 0⟩ else m.entries p }

/-- A store into the registry at an address. -/
def RegistryMem.store (m : RegistryMem) (registry : Ptr) (f : QueueRegistry → QueueRegistry) :
    RegistryMem :=
  { m with registries := Function.update m.registries registry (f (m.registries registry)) }

/-- A store of the owner of an entry. -/
def RegistryMem.storeOwner (m : RegistryMem) (entry : Ptr) (owner_pid : BitVec 32) : RegistryMem :=
  { m with
    entries := Function.update m.entries entry { m.entries entry with owner_pid := owner_pid } }

/-- An access by the thread that initialises the registry. `given` is what an allocation returns. -/
def RegistryWork.access (registry_rw_lock : Ptr) (m : RegistryMem) (w : RegistryWork) (given : Ptr) :
    RegistryMem × Onward RegistryWork Ptr :=
  match w with
  | .initLock max_processes =>
    (m, if max_processes.sle 0 then .stop else .go (.allocRegistry max_processes))
  | .allocRegistry max_processes =>
    (m, if given = 0 then .stop else .go (.allocArray max_processes given))
  | .allocArray max_processes registry =>
    if given = 0 then
      (m, if max_processes.sdiv 2 = 0 then .stop else .go (.retryArray (max_processes.sdiv 2) registry))
    else (m.calloc given max_processes, .go (.initEntry max_processes registry given 0))
  | .retryArray reduced registry =>
    if given = 0 then (m, .stop)
    else (m.calloc given reduced, .go (.initEntry reduced registry given 0))
  | .initEntry effective registry array idx =>
    if effective.sle idx then (m, .go (.storeNum effective registry array))
    else (m.storeOwner (entryAt array idx) (-1), .go (.initEntry effective registry array (idx + 1)))
  | .storeNum effective registry array =>
    (m.store registry ({ · with num_processes_configured := effective }),
      .go (.storeArray registry array))
  | .storeArray registry array =>
    (m.store registry ({ · with queue_array := array }), .go (.storeLock registry))
  | .storeLock registry =>
    (m.store registry ({ · with registry_rwlock := registry_rw_lock }), .publish registry)

/-- `initialize_global_queue_registry`. A thread that loses the `cmpxchg` loads the flag again. -/
def initialize_global_queue_registry (registry_rw_lock : Ptr) :
    Task (BitVec 32) RegistryMem RegistryWork Ptr Ptr where
  start := .initLock
  access := RegistryWork.access registry_rw_lock
  allows _ _ := True
  spins := true

/-- A registry that is fully initialised: its entries are all unused. -/
structure RegistryFull (registry_rw_lock : Ptr) (m : RegistryMem) (registry : Ptr) : Prop where
  num : 0 < (m.registries registry).num_processes_configured.toInt
  array : (m.registries registry).queue_array ≠ 0
  lock : (m.registries registry).registry_rwlock = registry_rw_lock
  entries : ∀ idx : BitVec 32, idx.toNat < (m.registries registry).num_processes_configured.toNat →
    m.entries (entryAt (m.registries registry).queue_array idx) = ⟨-1, 0, 0, 0⟩

/-- Every entry of an array is unused. -/
def Unused (m : RegistryMem) (n : BitVec 32) (array : Ptr) : Prop :=
  ∀ idx : BitVec 32, idx.toNat < n.toNat → m.entries (entryAt array idx) = ⟨-1, 0, 0, 0⟩

/-- What the thread that initialises the registry knows. -/
def RegistryOk (m : RegistryMem) : RegistryWork → Prop
  | .initLock _ => True
  | .allocRegistry max_processes => 0 < max_processes.toInt
  | .allocArray max_processes registry => 0 < max_processes.toInt ∧ registry ≠ 0
  | .retryArray reduced registry => 0 < reduced.toInt ∧ registry ≠ 0
  | .initEntry effective registry array idx =>
    0 < effective.toInt ∧ registry ≠ 0 ∧ array ≠ 0 ∧ idx.toNat ≤ effective.toNat ∧
      ∀ i : BitVec 32, i.toNat < effective.toNat →
        m.entries (entryAt array i) = ⟨if i.toNat < idx.toNat then -1 else 0, 0, 0, 0⟩
  | .storeNum effective registry array =>
    0 < effective.toInt ∧ registry ≠ 0 ∧ array ≠ 0 ∧ Unused m effective array
  | .storeArray registry array =>
    0 < (m.registries registry).num_processes_configured.toInt ∧ registry ≠ 0 ∧ array ≠ 0 ∧
      Unused m (m.registries registry).num_processes_configured array
  | .storeLock registry =>
    0 < (m.registries registry).num_processes_configured.toInt ∧ registry ≠ 0 ∧
      (m.registries registry).queue_array ≠ 0 ∧
      Unused m (m.registries registry).num_processes_configured (m.registries registry).queue_array

variable {n idx i : BitVec 32} {array registry given registry_rw_lock : Ptr} {m m' : RegistryMem}
  {w : RegistryWork} {o : Onward RegistryWork Ptr}

/-- A positive number is the same without its sign. -/
theorem lt_of_toInt_pos (h : 0 < n.toInt) : n.toInt = n.toNat ∧ n.toNat < 2 ^ 31 := by
  have hlt := n.isLt
  rw [BitVec.toInt_eq_toNat_cond] at h ⊢
  split_ifs at h ⊢ with hc
  · exact ⟨rfl, by omega⟩
  · omega

/-- The size of an array with a number of entries. -/
theorem toNat_size (h : idx.toNat < 2 ^ 31) :
    (PROC_QUEUE_ENTRY_SIZE * idx.signExtend 64).toNat = 32 * idx.toNat := by
  have hmsb : idx.msb = false := by
    rw [BitVec.msb_eq_false_iff_two_mul_lt]
    omega
  unfold PROC_QUEUE_ENTRY_SIZE
  rw [BitVec.signExtend_eq_setWidth_of_msb_false hmsb, BitVec.toNat_mul, BitVec.toNat_setWidth]
  show 32 * (idx.toNat % 2 ^ 64) % 2 ^ 64 = _
  omega

/-- How far an entry is from the beginning of its array. -/
theorem toNat_entryAt_sub (h : idx.toNat < 2 ^ 31) :
    (entryAt array idx - array).toNat = 32 * idx.toNat := by
  unfold entryAt
  rw [BitVec.add_comm, BitVec.add_sub_cancel, toNat_size h]

/-- Entries are at different addresses. -/
theorem entryAt_inj (hi : i.toNat < 2 ^ 31) (hidx : idx.toNat < 2 ^ 31)
    (h : entryAt array i = entryAt array idx) : i = idx := by
  have hsub : (entryAt array i - array).toNat = (entryAt array idx - array).toNat := by rw [h]
  rw [toNat_entryAt_sub hi, toNat_entryAt_sub hidx] at hsub
  apply BitVec.eq_of_toNat_eq
  omega

/-- An array that has been allocated is of zeros. -/
theorem RegistryMem.calloc_entries (hn : n.toNat < 2 ^ 31) (hi : i.toNat < n.toNat) :
    (m.calloc array n).entries (entryAt array i) = ⟨0, 0, 0, 0⟩ := by
  have hlt : entryAt array i - array < PROC_QUEUE_ENTRY_SIZE * n.signExtend 64 := by
    rw [BitVec.lt_def, toNat_entryAt_sub (by omega), toNat_size hn]
    omega
  exact if_pos hlt

/-- The loop starts with an array of zeros. -/
theorem RegistryOk.start (hn : 0 < n.toInt) (hregistry : registry ≠ 0) (harray : array ≠ 0) :
    RegistryOk (m.calloc array n) (.initEntry n registry array 0) := by
  obtain ⟨-, hlt⟩ := lt_of_toInt_pos hn
  refine ⟨hn, hregistry, harray, Nat.zero_le _, ?_⟩
  intro i hi
  rw [RegistryMem.calloc_entries hlt hi]
  rfl

/-- The owner of the next entry is stored. -/
theorem RegistryOk.storeOwner (h : RegistryOk m (.initEntry n registry array idx))
    (hidx : idx.toNat < n.toNat) :
    RegistryOk (m.storeOwner (entryAt array idx) (-1)) (.initEntry n registry array (idx + 1)) := by
  obtain ⟨hn, hregistry, harray, -, hentries⟩ := h
  obtain ⟨-, hlt⟩ := lt_of_toInt_pos hn
  have hnext : (idx + 1).toNat = idx.toNat + 1 := by
    rw [BitVec.toNat_add]
    show (idx.toNat + 1) % 2 ^ 32 = _
    omega
  refine ⟨hn, hregistry, harray, by omega, ?_⟩
  intro i hi
  unfold RegistryMem.storeOwner
  dsimp only
  rw [hnext]
  by_cases heq : i = idx
  · rw [heq, Function.update_self, hentries idx hidx, if_pos (Nat.lt_succ_self _)]
  · have hne : entryAt array i ≠ entryAt array idx :=
      fun e => heq (entryAt_inj (by omega) (by omega) e)
    have hnat : i.toNat ≠ idx.toNat := fun e => heq (BitVec.eq_of_toNat_eq e)
    rw [Function.update_of_ne hne, hentries i hi]
    have hiff : i.toNat < idx.toNat ↔ i.toNat < idx.toNat + 1 := by omega
    simp only [hiff]

/-- The loop ends when all entries are unused. -/
theorem RegistryOk.unused (h : RegistryOk m (.initEntry n registry array idx))
    (hidx : n.toNat ≤ idx.toNat) : Unused m n array := by
  obtain ⟨-, -, -, -, hentries⟩ := h
  intro i hi
  rw [hentries i hi, if_pos (by omega)]

/-- Whether the loop ends. -/
theorem sle_iff_of_pos (hn : 0 < n.toInt) (hidx : idx.toNat ≤ n.toNat) :
    n.sle idx = true ↔ n.toNat ≤ idx.toNat := by
  obtain ⟨htoInt, hlt⟩ := lt_of_toInt_pos hn
  have hidx' : idx.toInt = idx.toNat := by
    rw [BitVec.toInt_eq_toNat_cond, if_pos (by omega)]
  rw [BitVec.sle_iff_toInt_le, htoInt, hidx']
  exact Int.ofNat_le

/-- A positive number is not found to be invalid. -/
theorem toInt_pos_of_sle (h : ¬n.sle 0 = true) : 0 < n.toInt := by
  rw [BitVec.sle_iff_toInt_le] at h
  exact not_le.mp h

/-- Half of a positive number is positive, unless it is 0. -/
theorem toInt_pos_half (hn : 0 < n.toInt) (h : ¬n.sdiv 2 = 0) : 0 < (n.sdiv 2).toInt := by
  obtain ⟨htoInt, hlt⟩ := lt_of_toInt_pos hn
  have hhalf : (n.sdiv 2).toInt = (n.toNat / 2 : ℕ) := by
    rw [BitVec.toInt_sdiv_of_ne_or_ne _ _ (Or.inr (by decide)), htoInt]
    rfl
  have hne : (n.sdiv 2).toInt ≠ 0 := fun e => h (BitVec.toInt_inj.mp e)
  omega

@[simp]
theorem RegistryMem.store_registries {f : QueueRegistry → QueueRegistry} :
    (m.store registry f).registries registry = f (m.registries registry) :=
  Function.update_self ..

/-- What the registry's accesses keep. -/
theorem RegistryOk.access (h : RegistryOk m w) :
    InsideOk RegistryOk (RegistryFull registry_rw_lock) (w.access registry_rw_lock m given).1
      ((w.access registry_rw_lock m given).2.pc : OncePc (BitVec 32) RegistryWork Ptr) := by
  cases w with
  | initLock max_processes =>
    unfold RegistryWork.access
    dsimp only
    split
    · trivial
    · next hpos => exact toInt_pos_of_sle hpos
  | allocRegistry max_processes =>
    unfold RegistryWork.access
    dsimp only
    split
    · trivial
    · next hgiven => exact ⟨h, hgiven⟩
  | allocArray max_processes registry =>
    obtain ⟨hpos, hregistry⟩ := h
    unfold RegistryWork.access
    dsimp only
    split
    · split
      · trivial
      · next hhalf => exact ⟨toInt_pos_half hpos hhalf, hregistry⟩
    · next hgiven => exact RegistryOk.start hpos hregistry hgiven
  | retryArray reduced registry =>
    obtain ⟨hpos, hregistry⟩ := h
    unfold RegistryWork.access
    dsimp only
    split
    · trivial
    · next hgiven => exact RegistryOk.start hpos hregistry hgiven
  | initEntry effective registry array idx =>
    obtain ⟨hpos, hregistry, harray, hle, -⟩ := id h
    unfold RegistryWork.access
    dsimp only
    split
    · next hend =>
      exact ⟨hpos, hregistry, harray, h.unused ((sle_iff_of_pos hpos hle).mp hend)⟩
    · next hend =>
      have hlt : idx.toNat < effective.toNat :=
        not_le.mp fun e => hend ((sle_iff_of_pos hpos hle).mpr e)
      exact h.storeOwner hlt
  | storeNum effective registry array =>
    show RegistryOk (m.store registry ({ · with num_processes_configured := effective }))
      (.storeArray registry array)
    simp only [RegistryOk, RegistryMem.store_registries]
    exact h
  | storeArray registry array =>
    show RegistryOk (m.store registry ({ · with queue_array := array })) (.storeLock registry)
    simp only [RegistryOk, RegistryMem.store_registries]
    exact h
  | storeLock registry =>
    obtain ⟨hpos, hregistry, harray, hunused⟩ := h
    have hfull : RegistryFull registry_rw_lock
        (m.store registry ({ · with registry_rwlock := registry_rw_lock })) registry := by
      constructor <;> rw [RegistryMem.store_registries]
      · exact hpos
      · exact harray
      · exact hunused
    exact ⟨hregistry, hfull⟩

/-- A thread that initialises the registry publishes it when it is full. -/
theorem initialize_global_queue_registry_sound :
    (initialize_global_queue_registry registry_rw_lock).Sound RegistryOk
      (RegistryFull registry_rw_lock) :=
  ⟨fun _ _ => trivial, fun _ _ _ h _ => h.access⟩

/-! ## The pool -/

/-- `%message_pool`. -/
structure PoolStruct where
  base_address : Ptr
  total_messages : BitVec 32
  message_size : BitVec 32
  tagged_free_list_head : BitVec 128
  deriving DecidableEq

/-- The pools at each address, and the first words of the messages. -/
structure PoolMem where
  pools : Ptr → PoolStruct
  next : Ptr → Ptr

/-- Where a thread is that initialises the pool. -/
inductive PoolWork
  | validate (num_messages : BitVec 32)
  | allocPool (num_messages : BitVec 32)
  | allocMessages (num_messages : BitVec 32) (pool : Ptr)
  | storeBase (num_messages : BitVec 32) (pool messages : Ptr)
  | storeTotal (num_messages : BitVec 32) (pool : Ptr)
  | storeSize (pool : Ptr)
  | storeEmpty (pool : Ptr)
  | loadPool (pool : Ptr)
  | buildNode (pool base : Ptr) (total size idx : BitVec 32) (head : Ptr)
  | storeHead (pool head : Ptr)
  deriving DecidableEq

/-- A store into the pool at an address. -/
def PoolMem.store (m : PoolMem) (pool : Ptr) (f : PoolStruct → PoolStruct) : PoolMem :=
  { m with pools := Function.update m.pools pool (f (m.pools pool)) }

/-- The node with an index. -/
def nodeAt (base : Ptr) (message_size idx : BitVec 32) : Ptr :=
  base + message_size.setWidth 64 * idx.setWidth 64

/-- An access by the thread that initialises the pool. `given` is what an allocation returns. -/
def PoolWork.access (m : PoolMem) (w : PoolWork) (given : Ptr) :
    PoolMem × Onward PoolWork Ptr :=
  match w with
  | .validate num_messages =>
    (m, if num_messages.sle 0 then .stop else .go (.allocPool num_messages))
  | .allocPool num_messages =>
    (m, if given = 0 then .stop else .go (.allocMessages num_messages given))
  | .allocMessages num_messages pool =>
    (m, if given = 0 then .stop else .go (.storeBase num_messages pool given))
  | .storeBase num_messages pool messages =>
    (m.store pool ({ · with base_address := messages }), .go (.storeTotal num_messages pool))
  | .storeTotal num_messages pool =>
    (m.store pool ({ · with total_messages := num_messages }), .go (.storeSize pool))
  | .storeSize pool =>
    (m.store pool ({ · with message_size := MESSAGE_SIZE.setWidth 32 }), .go (.storeEmpty pool))
  | .storeEmpty pool =>
    (m.store pool ({ · with tagged_free_list_head := packTagged 0 0 }), .go (.loadPool pool))
  | .loadPool pool =>
    let s := m.pools pool
    (m, .go (.buildNode pool s.base_address s.total_messages s.message_size 0 0))
  | .buildNode pool base total size idx head =>
    if idx.slt total then
      let node := nodeAt base size idx
      ({ m with next := Function.update m.next node head },
        .go (.buildNode pool base total size (idx + 1) node))
    else (m, .go (.storeHead pool head))
  | .storeHead pool head =>
    (m.store pool ({ · with tagged_free_list_head := packTagged head 1 }), .publish pool)

/-- What an allocation may return: a block of messages ends before memory does. -/
def PoolWork.allows (w : PoolWork) (given : Ptr) : Prop :=
  match w with
  | .allocMessages num_messages _ => given.toNat + 64 * num_messages.toNat ≤ 2 ^ 64
  | _ => True

/-- `init_message_pool`. A thread that loses the `cmpxchg` returns. -/
def init_message_pool : Task (BitVec 32) PoolMem PoolWork Ptr Ptr where
  start := .validate
  access := PoolWork.access
  allows := PoolWork.allows
  spins := false

/-- A block in which there is room for a number of messages. -/
structure HasRoom (messages : Ptr) (num_messages : BitVec 32) : Prop where
  nonnull : messages ≠ 0
  pos : 0 < num_messages.toInt
  room : messages.toNat + 64 * num_messages.toNat ≤ 2 ^ 64

/-- A pool that is fully initialised: all of its messages are in its free list. -/
structure PoolFull (m : PoolMem) (pool : Ptr) : Prop where
  room : HasRoom (m.pools pool).base_address (m.pools pool).total_messages
  size : (m.pools pool).message_size = MESSAGE_SIZE.setWidth 32
  list : ∃ next, (⟨(m.pools pool).tagged_free_list_head, m.next⟩ : Pool) =
    buildFreeList (m.pools pool).base_address (m.pools pool).total_messages.toNat next

/-- What the thread that initialises the pool knows. -/
def PoolWorkOk (m : PoolMem) : PoolWork → Prop
  | .validate _ => True
  | .allocPool num_messages => 0 < num_messages.toInt
  | .allocMessages num_messages pool => 0 < num_messages.toInt ∧ pool ≠ 0
  | .storeBase num_messages pool messages => pool ≠ 0 ∧ HasRoom messages num_messages
  | .storeTotal num_messages pool => pool ≠ 0 ∧ HasRoom (m.pools pool).base_address num_messages
  | .storeSize pool =>
    pool ≠ 0 ∧ HasRoom (m.pools pool).base_address (m.pools pool).total_messages
  | .storeEmpty pool | .loadPool pool =>
    pool ≠ 0 ∧ HasRoom (m.pools pool).base_address (m.pools pool).total_messages ∧
      (m.pools pool).message_size = MESSAGE_SIZE.setWidth 32
  | .buildNode pool base total size idx head =>
    pool ≠ 0 ∧ HasRoom base total ∧ size = MESSAGE_SIZE.setWidth 32 ∧
      (m.pools pool).base_address = base ∧ (m.pools pool).total_messages = total ∧
      (m.pools pool).message_size = size ∧ idx.toNat ≤ total.toNat ∧
      ∃ next, buildList base idx.toNat next = (head, m.next)
  | .storeHead pool head =>
    pool ≠ 0 ∧ HasRoom (m.pools pool).base_address (m.pools pool).total_messages ∧
      (m.pools pool).message_size = MESSAGE_SIZE.setWidth 32 ∧
      ∃ next, buildList (m.pools pool).base_address (m.pools pool).total_messages.toNat next =
        (head, m.next)

section Pool

variable {mem : PoolMem} {w : PoolWork} {pool base head messages : Ptr} {total size : BitVec 32}

@[simp]
theorem PoolMem.store_pools {f : PoolStruct → PoolStruct} :
    (mem.store pool f).pools pool = f (mem.pools pool) := Function.update_self ..

/-- The nodes are the messages. -/
theorem nodeAt_eq : nodeAt base (MESSAGE_SIZE.setWidth 32) idx = msgAt base idx.toNat := by
  have hidx : idx.setWidth 64 = BitVec.ofNat 64 idx.toNat := by
    apply BitVec.eq_of_toNat_eq
    rw [BitVec.toNat_setWidth, BitVec.toNat_ofNat]
  unfold nodeAt msgAt
  rw [hidx]
  rfl

/-- Whether the loop goes on. -/
theorem slt_iff_of_pos (hpos : 0 < total.toInt) (hidx : idx.toNat ≤ total.toNat) :
    idx.slt total = true ↔ idx.toNat < total.toNat := by
  obtain ⟨htoInt, hlt⟩ := lt_of_toInt_pos hpos
  have hidx' : idx.toInt = idx.toNat := by
    rw [BitVec.toInt_eq_toNat_cond, if_pos (by omega)]
  rw [BitVec.slt_iff_toInt_lt, htoInt, hidx']
  exact Int.ofNat_lt

/-- The next node is put in front of the list. -/
theorem PoolWorkOk.buildNode (h : PoolWorkOk mem (.buildNode pool base total size idx head))
    (hlt : idx.toNat < total.toNat) :
    PoolWorkOk { mem with next := Function.update mem.next (nodeAt base size idx) head }
      (.buildNode pool base total size (idx + 1) (nodeAt base size idx)) := by
  obtain ⟨hpool, hroom, hsize, hbase, htotal, hmsize, -, next, hlist⟩ := h
  have htop := total.isLt
  have hnext : (idx + 1).toNat = idx.toNat + 1 := by
    rw [BitVec.toNat_add]
    show (idx.toNat + 1) % 2 ^ 32 = _
    omega
  refine ⟨hpool, hroom, hsize, hbase, htotal, hmsize, by omega, next, ?_⟩
  rw [hnext, hsize, nodeAt_eq]
  show ((msgAt base idx.toNat, Function.update (buildList base idx.toNat next).2
    (msgAt base idx.toNat) (buildList base idx.toNat next).1) : Ptr × (Ptr → Ptr)) = _
  rw [hlist]

/-- What the pool's accesses keep. -/
theorem PoolWorkOk.access (h : PoolWorkOk mem w) (hgiven : w.allows given) :
    InsideOk PoolWorkOk PoolFull (w.access mem given).1
      ((w.access mem given).2.pc : OncePc (BitVec 32) PoolWork Ptr) := by
  cases w with
  | validate num_messages =>
    unfold PoolWork.access
    dsimp only
    split
    · trivial
    · next hpos => exact toInt_pos_of_sle hpos
  | allocPool num_messages =>
    unfold PoolWork.access
    dsimp only
    split
    · trivial
    · next hne => exact ⟨h, hne⟩
  | allocMessages num_messages pool =>
    obtain ⟨hpos, hpool⟩ := h
    unfold PoolWork.access
    dsimp only
    split
    · trivial
    · next hne => exact ⟨hpool, hne, hpos, hgiven⟩
  | storeBase num_messages pool messages =>
    show PoolWorkOk (mem.store pool ({ · with base_address := messages }))
      (.storeTotal num_messages pool)
    simp only [PoolWorkOk, PoolMem.store_pools]
    exact h
  | storeTotal num_messages pool =>
    show PoolWorkOk (mem.store pool ({ · with total_messages := num_messages })) (.storeSize pool)
    simp only [PoolWorkOk, PoolMem.store_pools]
    exact h
  | storeSize pool =>
    show PoolWorkOk (mem.store pool ({ · with message_size := MESSAGE_SIZE.setWidth 32 }))
      (.storeEmpty pool)
    simp only [PoolWorkOk, PoolMem.store_pools]
    exact ⟨h.1, h.2, trivial⟩
  | storeEmpty pool =>
    show PoolWorkOk (mem.store pool ({ · with tagged_free_list_head := packTagged 0 0 }))
      (.loadPool pool)
    simp only [PoolWorkOk, PoolMem.store_pools]
    exact h
  | loadPool pool =>
    obtain ⟨hpool, hroom, hsize⟩ := h
    exact ⟨hpool, hroom, hsize, rfl, rfl, rfl, Nat.zero_le _, mem.next, rfl⟩
  | buildNode pool base total size idx head =>
    obtain ⟨hpool, hroom, hsize, hbase, htotal, hmsize, hle, hlist⟩ := id h
    unfold PoolWork.access
    dsimp only
    split
    · next hgo => exact h.buildNode ((slt_iff_of_pos hroom.pos hle).mp hgo)
    · next hend =>
      have hge : idx.toNat = total.toNat :=
        le_antisymm hle (not_lt.mp fun e => hend ((slt_iff_of_pos hroom.pos hle).mpr e))
      rw [hge] at hlist
      subst hbase htotal
      exact ⟨hpool, hroom, hmsize.trans hsize, hlist⟩
  | storeHead pool head =>
    obtain ⟨hpool, hroom, hsize, next, hlist⟩ := h
    have hfull : PoolFull
        (mem.store pool ({ · with tagged_free_list_head := packTagged head 1 })) pool := by
      constructor <;> rw [PoolMem.store_pools]
      · exact hroom
      · exact hsize
      · refine ⟨next, ?_⟩
        unfold buildFreeList
        rw [hlist]
        rfl
    exact ⟨hpool, hfull⟩

end Pool

/-- A thread that initialises the pool publishes it when it is full. -/
theorem init_message_pool_sound : init_message_pool.Sound PoolWorkOk PoolFull :=
  ⟨fun _ _ => trivial, fun _ _ _ h hgiven => h.access hgiven⟩

/-! ## Calls that have returned -/

/-- What initialisation by a number of threads comes to: a call that has returned leaves a full
structure, made by one thread, in every run in which no call finds the flag set before the pointer
is stored. A call that does find it set then may be the next to return, without there being one. -/
structure InitOnce (T : Type*) [DecidableEq T] {M W : Type*} (k : Task (BitVec 32) M W Ptr Ptr)
    (full : M → Ptr → Prop) : Prop where
  timely : ∀ s : OnceState T (BitVec 32) M W Ptr,
    Reachable OnceStart (TimelyStep k) s → OnceOk full s
  early : ∀ (s : OnceState T (BitVec 32) M W Ptr) act s', OnceStep k s act s' → Early k s act →
    ∃ t given s'', act = .run t given ∧ OnceStep k s' (.run t given) s'' ∧ ¬OnceOk full s''

/-- The registry and the pool are initialised once, unless a call finds the flag set too early. -/
theorem init_once (T : Type*) [DecidableEq T] (registry_rw_lock : Ptr) :
    InitOnce T (initialize_global_queue_registry registry_rw_lock) (RegistryFull registry_rw_lock) ∧
      InitOnce T init_message_pool PoolFull := by
  constructor
  · constructor
    · intro s hreach
      exact OnceOk.of_reachable initialize_global_queue_registry_sound hreach
    · intro s act s' hst hearly
      exact hst.early hearly
  · constructor
    · intro s hreach
      exact OnceOk.of_reachable init_message_pool_sound hreach
    · intro s act s' hst hearly
      exact hst.early hearly

/-- Nothing has been initialised, and memory is of zeros. -/
def notInitialised {M W : Type} (mem : M) : OnceState (Fin 2) (BitVec 32) M W Ptr :=
  ⟨false, 0, mem, fun _ => .idle, [], [], []⟩

/-- Two threads initialise what is for 3 processes, or of 3 messages. The second one returns while
the first one has only set the flag. -/
theorem init_once_early :
    let acts : List (OnceAct (Fin 2) (BitVec 32) Ptr) :=
      [.call 0 3, .run 0 64, .run 0 64, .call 1 3, .run 1 64, .run 1 64]
    (∃ s, Run (OnceStep (initialize_global_queue_registry 8))
        (notInitialised ⟨fun _ => ⟨0, 0, 0⟩, fun _ => ⟨0, 0, 0, 0⟩⟩) acts s ∧
          ¬OnceOk (RegistryFull 8) s) ∧
      ∃ s, Run (OnceStep init_message_pool)
        (notInitialised ⟨fun _ => ⟨0, 0, 0, 0⟩, fun _ => 0⟩) acts s ∧ ¬OnceOk PoolFull s := by
  intro acts
  constructor
  · have hstart : OnceStart (notInitialised (M := RegistryMem) (W := RegistryWork)
        ⟨fun _ => ⟨0, 0, 0⟩, fun _ => ⟨0, 0, 0, 0⟩⟩) := ⟨rfl, rfl, fun _ => rfl, rfl, rfl, rfl⟩
    exact hstart.overtaken (by decide) 3 64
  · have hstart : OnceStart (notInitialised (M := PoolMem) (W := PoolWork)
        ⟨fun _ => ⟨0, 0, 0, 0⟩, fun _ => 0⟩) := ⟨rfl, rfl, fun _ => rfl, rfl, rfl, rfl⟩
    exact hstart.overtaken (by decide) 3 64

end Minix.Llvm
