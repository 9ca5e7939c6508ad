import Minix.Lib.Run
import Minix.Llvm.InitOnce

/-!
# The queue registry

`register_process_queue`, `unregister_process_queue`, `get_process_queue_safe` and
`get_process_queue` of `llvm/queue_registry.ll`. Each holds the lock from its first look at the
registry to its last, so that a call is one step. The locks are left out.

An entry has an owner and a queue. The safe lookup tests the owner, the other one nothing but the
bounds; they agree because a step keeps the entries those of a partial map from processes to queues
(`Represents`). `registry_is_map` says that the calls are those of the map (`MapStep`).
-/

namespace Minix.Llvm

open Lib

def E_SUCCESS : BitVec 32 := 0
def E_INVALID_INPUT : BitVec 32 := -1
def E_NOT_INITIALIZED : BitVec 32 := -2
def E_INVALID_PID : BitVec 32 := -3
def E_ALREADY_REGISTERED : BitVec 32 := -4
def E_NOT_REGISTERED : BitVec 32 := -6

/-- The global pointer, and the memory. -/
structure RegistryState where
  global_queue_registry_ptr : Ptr
  mem : RegistryMem

/-- The registry that the pointer points to. -/
def RegistryState.registry (s : RegistryState) : QueueRegistry :=
  s.mem.registries s.global_queue_registry_ptr

/-- The address of the entry of a process. -/
def RegistryState.entryOf (s : RegistryState) (pid : BitVec 32) : Ptr :=
  entryAt s.registry.queue_array pid

/-- The entry of a process. -/
def RegistryState.entry (s : RegistryState) (pid : BitVec 32) : ProcQueueEntry :=
  s.mem.entries (s.entryOf pid)

/-- All fields of the entry of a process are stored. -/
def RegistryState.storeEntry (s : RegistryState) (pid : BitVec 32) (e : ProcQueueEntry) :
    RegistryState :=
  { s with mem := { s.mem with entries := Function.update s.mem.entries (s.entryOf pid) e } }

/-- `is_pid_invalid`. -/
def pidInvalid (pid num_procs : BitVec 32) : Bool := pid.slt 0 || num_procs.sle pid

def registerProcessQueue (s : RegistryState) (pid : BitVec 32) (queue_instance : Ptr) :
    RegistryState × BitVec 32 :=
  if queue_instance = 0 then (s, E_INVALID_INPUT)
  else if s.global_queue_registry_ptr = 0 then (s, E_NOT_INITIALIZED)
  else if pidInvalid pid s.registry.num_processes_configured then (s, E_INVALID_PID)
  else if (s.entry pid).actual_queue ≠ 0 then (s, E_ALREADY_REGISTERED)
  else (s.storeEntry pid ⟨pid, queue_instance, 0, 0⟩, E_SUCCESS)

def unregisterProcessQueue (s : RegistryState) (pid : BitVec 32) : RegistryState × BitVec 32 :=
  if s.global_queue_registry_ptr = 0 then (s, E_NOT_INITIALIZED)
  else if pidInvalid pid s.registry.num_processes_configured then (s, E_INVALID_PID)
  else if (s.entry pid).actual_queue = 0 then (s, E_NOT_REGISTERED)
  else (s.storeEntry pid ⟨-1, 0, 0, 0⟩, E_SUCCESS)

def getProcessQueueSafe (s : RegistryState) (pid : BitVec 32) : Ptr :=
  if s.global_queue_registry_ptr = 0 then 0
  else if pidInvalid pid s.registry.num_processes_configured then 0
  else if (s.entry pid).owner_pid ≠ pid then 0
  else (s.entry pid).actual_queue

def getProcessQueue (s : RegistryState) (pid : BitVec 32) : Ptr :=
  if s.global_queue_registry_ptr = 0 then 0
  else if pidInvalid pid s.registry.num_processes_configured then 0
  else (s.entry pid).actual_queue

/-! ## Calls -/

/-- A call of one of the four functions. -/
inductive RegistryCall
  | register (pid : BitVec 32) (queue_instance : Ptr)
  | unregister (pid : BitVec 32)
  | get (pid : BitVec 32)
  | getSafe (pid : BitVec 32)

/-- What a call returns: a status, or a queue. -/
inductive RegistryRet
  | status (n : BitVec 32)
  | queue (p : Ptr)
  deriving DecidableEq

/-- A call, with what it returns. -/
def RegistryCall.run (s : RegistryState) : RegistryCall → RegistryState × RegistryRet
  | .register pid queue_instance =>
    ((registerProcessQueue s pid queue_instance).1,
      .status (registerProcessQueue s pid queue_instance).2)
  | .unregister pid => ((unregisterProcessQueue s pid).1, .status (unregisterProcessQueue s pid).2)
  | .get pid => (s, .queue (getProcessQueue s pid))
  | .getSafe pid => (s, .queue (getProcessQueueSafe s pid))

/-- A step of a run of calls. -/
def RegistryStep (s : RegistryState) (c : RegistryCall × RegistryRet) (s' : RegistryState) : Prop :=
  c.1.run s = (s', c.2)

/-! ## The partial map -/

/-- A partial map from processes to queues. -/
abbrev QueueMap := BitVec 32 → Option Ptr

/-- A process that a registry of a capacity has an entry for. -/
def InRange (n pid : BitVec 32) : Prop := 0 ≤ pid.toInt ∧ pid.toInt < n.toInt

instance (n pid : BitVec 32) : Decidable (InRange n pid) := inferInstanceAs (Decidable (_ ∧ _))

/-- The null queue stands for none. -/
def QueueMap.queue (f : QueueMap) (pid : BitVec 32) : Ptr := (f pid).getD 0

/-- What the calls are to do with a map that has room for the processes below `n`. -/
def RegistryCall.spec (n : BitVec 32) (f : QueueMap) : RegistryCall → QueueMap × RegistryRet
  | .register pid queue_instance =>
    if queue_instance = 0 then (f, .status E_INVALID_INPUT)
    else if ¬InRange n pid then (f, .status E_INVALID_PID)
    else if f pid ≠ none then (f, .status E_ALREADY_REGISTERED)
    else (Function.update f pid (some queue_instance), .status E_SUCCESS)
  | .unregister pid =>
    if ¬InRange n pid then (f, .status E_INVALID_PID)
    else if f pid = none then (f, .status E_NOT_REGISTERED)
    else (Function.update f pid none, .status E_SUCCESS)
  | .get pid | .getSafe pid => (f, .queue (f.queue pid))

/-- A step of a run of calls of the map. -/
def MapStep (n : BitVec 32) (f : QueueMap) (c : RegistryCall × RegistryRet) (f' : QueueMap) : Prop :=
  c.1.spec n f = (f', c.2)

/-- The entries of a registry are those of a map. -/
structure Represents (n : BitVec 32) (s : RegistryState) (f : QueueMap) : Prop where
  initialized : s.global_queue_registry_ptr ≠ 0
  num : s.registry.num_processes_configured = n
  owner : ∀ pid, InRange n pid → (s.entry pid).owner_pid = if f pid = none then -1 else pid
  queue : ∀ pid, InRange n pid → (s.entry pid).actual_queue = f.queue pid
  inRange : ∀ pid, f pid ≠ none → InRange n pid
  notNull : ∀ pid, f pid ≠ some 0

variable {n pid pid' : BitVec 32} {s s' : RegistryState} {f f' : QueueMap} {e : ProcQueueEntry}
  {queue_instance : Ptr}

theorem pidInvalid_iff : pidInvalid pid n = true ↔ ¬InRange n pid := by
  unfold pidInvalid InRange
  rw [Bool.or_eq_true, BitVec.slt_iff_toInt_lt, BitVec.sle_iff_toInt_le, not_and_or, not_le, not_lt]
  rfl

/-- A process with an entry has a positive number. -/
theorem InRange.lt (h : InRange n pid) : pid.toNat < 2 ^ 31 := by
  have hcond := BitVec.toInt_eq_toNat_cond pid
  have hlt := pid.isLt
  have hpos := h.1
  split_ifs at hcond
  · omega
  · omega

theorem entry_storeEntry (h : InRange n pid) (h' : InRange n pid') :
    (s.storeEntry pid e).entry pid' = if pid' = pid then e else s.entry pid' := by
  change Function.update s.mem.entries (s.entryOf pid) e (s.entryOf pid') = _
  split_ifs with heq
  · rw [heq, Function.update_self]
  · refine Function.update_of_ne (fun haddr => heq ?_) _ _
    exact entryAt_inj h'.lt h.lt haddr

namespace Represents

/-- A process is registered exactly when its entry has a queue. -/
theorem queue_eq_zero (h : Represents n s f) (hpid : InRange n pid) :
    (s.entry pid).actual_queue = 0 ↔ f pid = none := by
  rw [h.queue pid hpid]
  unfold QueueMap.queue
  cases hf : f pid with
  | none => simp
  | some q =>
    have hq : q ≠ 0 := fun h0 => h.notNull pid (by rw [hf, h0])
    exact ⟨fun h0 => absurd h0 hq, fun hnone => absurd hnone (Option.some_ne_none q)⟩

/-- What a call answers that stores the entry of a process, whose place in the map it changes. -/
theorem store (h : Represents n s f) (hpid : InRange n pid) {v : Option Ptr}
    (howner : e.owner_pid = if v = none then -1 else pid) (hqueue : e.actual_queue = v.getD 0)
    (hnull : v ≠ some 0) :
    Represents n (s.storeEntry pid e) (Function.update f pid v) := by
  refine ⟨h.initialized, h.num, ?_, ?_, ?_, ?_⟩
  · intro p hp
    rw [entry_storeEntry hpid hp, Function.update_apply]
    split_ifs with heq hv
    · rw [howner, if_pos hv]
    · rw [howner, if_neg hv, heq]
    · rw [h.owner p hp, if_pos ‹_›]
    · rw [h.owner p hp, if_neg ‹_›]
  · intro p hp
    unfold QueueMap.queue
    rw [entry_storeEntry hpid hp, Function.update_apply]
    split_ifs with heq
    · exact hqueue
    · exact h.queue p hp
  · intro p hp
    rw [Function.update_apply] at hp
    split_ifs at hp with heq
    · rw [heq]
      exact hpid
    · exact h.inRange p hp
  · intro p
    rw [Function.update_apply]
    split_ifs
    · exact hnull
    · exact h.notNull p

theorem register (h : Represents n s f) (pid : BitVec 32) (queue_instance : Ptr) :
    let c := RegistryCall.register pid queue_instance
    Represents n (c.run s).1 (c.spec n f).1 ∧ (c.run s).2 = (c.spec n f).2 := by
  dsimp only [RegistryCall.run, RegistryCall.spec]
  unfold registerProcessQueue
  rw [h.num]
  by_cases hnull : queue_instance = 0
  · rw [if_pos hnull, if_pos hnull]
    exact ⟨h, rfl⟩
  · rw [if_neg hnull, if_neg hnull, if_neg h.initialized]
    by_cases hpid : InRange n pid
    · rw [if_neg (pidInvalid_iff.not.mpr (not_not.mpr hpid)), if_neg (not_not.mpr hpid)]
      by_cases hfree : f pid = none
      · rw [if_neg (not_not.mpr ((h.queue_eq_zero hpid).mpr hfree)), if_neg (not_not.mpr hfree)]
        exact ⟨h.store hpid rfl rfl (fun h0 => hnull (Option.some.inj h0)), rfl⟩
      · rw [if_pos ((h.queue_eq_zero hpid).not.mpr hfree), if_pos hfree]
        exact ⟨h, rfl⟩
    · rw [if_pos (pidInvalid_iff.mpr hpid), if_pos hpid]
      exact ⟨h, rfl⟩

theorem unregister (h : Represents n s f) (pid : BitVec 32) :
    let c := RegistryCall.unregister pid
    Represents n (c.run s).1 (c.spec n f).1 ∧ (c.run s).2 = (c.spec n f).2 := by
  dsimp only [RegistryCall.run, RegistryCall.spec]
  unfold unregisterProcessQueue
  rw [h.num, if_neg h.initialized]
  by_cases hpid : InRange n pid
  · rw [if_neg (pidInvalid_iff.not.mpr (not_not.mpr hpid)), if_neg (not_not.mpr hpid)]
    by_cases hfree : f pid = none
    · rw [if_pos ((h.queue_eq_zero hpid).mpr hfree), if_pos hfree]
      exact ⟨h, rfl⟩
    · rw [if_neg ((h.queue_eq_zero hpid).not.mpr hfree), if_neg hfree]
      exact ⟨h.store hpid rfl rfl (by simp), rfl⟩
  · rw [if_pos (pidInvalid_iff.mpr hpid), if_pos hpid]
    exact ⟨h, rfl⟩

/-- A process out of range has no queue. -/
theorem queue_of_not_inRange (h : Represents n s f) (hpid : ¬InRange n pid) : f.queue pid = 0 := by
  have hnone : f pid = none := by
    by_contra hsome
    exact hpid (h.inRange pid hsome)
  unfold QueueMap.queue
  rw [hnone]
  rfl

theorem getProcessQueue (h : Represents n s f) (pid : BitVec 32) :
    Llvm.getProcessQueue s pid = f.queue pid := by
  unfold Llvm.getProcessQueue
  rw [h.num, if_neg h.initialized]
  by_cases hpid : InRange n pid
  · rw [if_neg (pidInvalid_iff.not.mpr (not_not.mpr hpid)), h.queue pid hpid]
  · rw [if_pos (pidInvalid_iff.mpr hpid), h.queue_of_not_inRange hpid]

/-- The test of the owner finds out what the queue says. -/
theorem getProcessQueueSafe (h : Represents n s f) (pid : BitVec 32) :
    Llvm.getProcessQueueSafe s pid = f.queue pid := by
  unfold Llvm.getProcessQueueSafe
  rw [h.num, if_neg h.initialized]
  by_cases hpid : InRange n pid
  · rw [if_neg (pidInvalid_iff.not.mpr (not_not.mpr hpid)), h.owner pid hpid, h.queue pid hpid]
    by_cases hfree : f pid = none
    · have hne : (-1 : BitVec 32) ≠ pid := by
        intro heq
        have hpos := hpid.1
        rw [← heq] at hpos
        exact absurd hpos (by decide)
      rw [if_pos hfree, if_pos hne]
      unfold QueueMap.queue
      rw [hfree]
      rfl
    · rw [if_neg hfree, if_neg (not_not.mpr rfl)]
  · rw [if_pos (pidInvalid_iff.mpr hpid), h.queue_of_not_inRange hpid]

/-- A call is that of the map. -/
theorem step (h : Represents n s f) (c : RegistryCall) :
    Represents n (c.run s).1 (c.spec n f).1 ∧ (c.run s).2 = (c.spec n f).2 := by
  cases c with
  | register pid queue_instance => exact h.register pid queue_instance
  | unregister pid => exact h.unregister pid
  | get pid => exact ⟨h, congrArg RegistryRet.queue (h.getProcessQueue pid)⟩
  | getSafe pid => exact ⟨h, congrArg RegistryRet.queue (h.getProcessQueueSafe pid)⟩

/-- A run of calls is one of the map. -/
theorem run {as : List (RegistryCall × RegistryRet)} (h : Represents n s f)
    (hrun : Run RegistryStep s as s') : ∃ f', Run (MapStep n) f as f' ∧ Represents n s' f' := by
  induction hrun with
  | nil => exact ⟨f, Run.nil, h⟩
  | @snoc as c s₁ s₂ _ hst ih =>
    obtain ⟨f₁, hrun, hrep⟩ := ih
    obtain ⟨hrep', hret⟩ := hrep.step c.1
    have hst : c.1.run s₁ = (s₂, c.2) := hst
    rw [hst] at hrep' hret
    exact ⟨_, hrun.snoc (Prod.ext rfl hret.symm), hrep'⟩

end Represents

/-- What `initialize_global_queue_registry` leaves. -/
def Initialised (registry_rw_lock : Ptr) (s : RegistryState) : Prop :=
  s.global_queue_registry_ptr ≠ 0 ∧
    RegistryFull registry_rw_lock s.mem s.global_queue_registry_ptr

theorem Initialised.represents {registry_rw_lock : Ptr} (h : Initialised registry_rw_lock s) :
    Represents s.registry.num_processes_configured s fun _ => none := by
  have hentry : ∀ pid, InRange s.registry.num_processes_configured pid →
      s.entry pid = ⟨-1, 0, 0, 0⟩ := by
    intro pid hpid
    refine h.2.entries pid ?_
    have hn : (s.registry.num_processes_configured.toInt : ℤ) =
      s.registry.num_processes_configured.toNat := (lt_of_toInt_pos h.2.num).1
    have hp : pid.toInt = pid.toNat := BitVec.toInt_eq_toNat_of_lt (by have := hpid.lt; omega)
    have hlt := hpid.2
    rw [hn, hp] at hlt
    exact_mod_cast hlt
  refine ⟨h.1, rfl, ?_, ?_, ?_, ?_⟩
  · intro pid hpid
    rw [hentry pid hpid, if_pos rfl]
  · intro pid hpid
    rw [hentry pid hpid]
    rfl
  · exact fun _ hne => absurd rfl hne
  · exact fun _ => (Option.some_ne_none 0).symm

/-- What a registry is while the map is `f`. -/
structure RegistryIs (n : BitVec 32) (s : RegistryState) (f : QueueMap) : Prop where
  /-- A process owns its entry exactly when that has a queue, and nobody does otherwise. -/
  owner : ∀ pid, InRange n pid →
    ((s.entry pid).owner_pid = pid ↔ (s.entry pid).actual_queue ≠ 0) ∧
      ((s.entry pid).actual_queue = 0 → (s.entry pid).owner_pid = -1)
  registers : ∀ pid queue_instance, (registerProcessQueue s pid queue_instance).2 = E_SUCCESS ↔
    InRange n pid ∧ queue_instance ≠ 0 ∧ f pid = none
  unregisters : ∀ pid, (unregisterProcessQueue s pid).2 = E_SUCCESS ↔ f pid ≠ none
  /-- A call that fails changes nothing. -/
  registerFails : ∀ pid queue_instance, (registerProcessQueue s pid queue_instance).2 ≠ E_SUCCESS →
    (registerProcessQueue s pid queue_instance).1 = s
  unregisterFails : ∀ pid, (unregisterProcessQueue s pid).2 ≠ E_SUCCESS →
    (unregisterProcessQueue s pid).1 = s
  /-- The status of a call, with the code of its error, is that of the map. -/
  answers : ∀ c : RegistryCall, (c.run s).2 = (c.spec n f).2
  lookups : ∀ pid, getProcessQueue s pid = f.queue pid ∧ getProcessQueueSafe s pid = f.queue pid

theorem register_fails (s : RegistryState) (pid : BitVec 32) (queue_instance : Ptr)
    (h : (registerProcessQueue s pid queue_instance).2 ≠ E_SUCCESS) :
    (registerProcessQueue s pid queue_instance).1 = s := by
  unfold registerProcessQueue at h ⊢
  split_ifs at h ⊢
  all_goals first | rfl | exact absurd rfl h

theorem unregister_fails (s : RegistryState) (pid : BitVec 32)
    (h : (unregisterProcessQueue s pid).2 ≠ E_SUCCESS) : (unregisterProcessQueue s pid).1 = s := by
  unfold unregisterProcessQueue at h ⊢
  split_ifs at h ⊢
  all_goals first | rfl | exact absurd rfl h

/-- When the map takes a queue. -/
theorem spec_register : ((RegistryCall.register pid queue_instance).spec n f).2 = .status E_SUCCESS ↔
    InRange n pid ∧ queue_instance ≠ 0 ∧ f pid = none := by
  by_cases hnull : queue_instance = 0
  · simp [RegistryCall.spec, hnull, E_SUCCESS, E_INVALID_INPUT]
  · have hnull : ¬queue_instance = 0#64 := hnull
    by_cases hpid : InRange n pid
    · by_cases hfree : f pid = none
      · simp [RegistryCall.spec, hnull, hpid, hfree]
      · simp [RegistryCall.spec, hnull, hpid, hfree, E_SUCCESS, E_ALREADY_REGISTERED]
    · simp [RegistryCall.spec, hnull, hpid, E_SUCCESS, E_INVALID_PID]

/-- When the map drops one. -/
theorem spec_unregister : ((RegistryCall.unregister pid).spec n f).2 = .status E_SUCCESS ↔
    InRange n pid ∧ f pid ≠ none := by
  by_cases hpid : InRange n pid
  · by_cases hfree : f pid = none
    · simp [RegistryCall.spec, hpid, hfree, E_SUCCESS, E_NOT_REGISTERED]
    · simp [RegistryCall.spec, hpid, hfree]
  · simp [RegistryCall.spec, hpid, E_SUCCESS, E_INVALID_PID]

theorem Represents.is (h : Represents n s f) : RegistryIs n s f := by
  have hanswers : ∀ c : RegistryCall, (c.run s).2 = (c.spec n f).2 := fun c => (h.step c).2
  refine ⟨?_, ?_, ?_, register_fails s, unregister_fails s, hanswers,
    fun pid => ⟨h.getProcessQueue pid, h.getProcessQueueSafe pid⟩⟩
  · intro pid hpid
    have hne : (-1 : BitVec 32) ≠ pid := by
      intro heq
      have hpos := hpid.1
      rw [← heq] at hpos
      exact absurd hpos (by decide)
    rw [h.owner pid hpid, Ne, h.queue_eq_zero hpid]
    split_ifs with hfree
    · exact ⟨⟨fun h0 => absurd h0 hne, fun h0 => absurd hfree h0⟩, fun _ => rfl⟩
    · exact ⟨⟨fun _ => hfree, fun _ => rfl⟩, fun h0 => absurd h0 hfree⟩
  · intro pid queue_instance
    have hret := hanswers (.register pid queue_instance)
    have heq : (registerProcessQueue s pid queue_instance).2 = E_SUCCESS ↔
        ((RegistryCall.register pid queue_instance).spec n f).2 = .status E_SUCCESS := by
      rw [← hret]
      exact (RegistryRet.status.injEq _ _).symm.to_iff
    rw [heq]
    rw [spec_register]
  · intro pid
    have hret := hanswers (.unregister pid)
    have heq : (unregisterProcessQueue s pid).2 = E_SUCCESS ↔
        ((RegistryCall.unregister pid).spec n f).2 = .status E_SUCCESS := by
      rw [← hret]
      exact (RegistryRet.status.injEq _ _).symm.to_iff
    rw [heq]
    rw [spec_unregister]
    exact and_iff_right_of_imp (h.inRange pid)

/-- From the initialised registry on, in every sequence of calls, the registry is the partial map
that the same calls lead to, with the same answers. -/
theorem registry_is_map {registry_rw_lock : Ptr} {as : List (RegistryCall × RegistryRet)}
    (hinit : Initialised registry_rw_lock s) (hrun : Run RegistryStep s as s') :
    ∃ f, Run (MapStep s.registry.num_processes_configured) (fun _ => none) as f ∧
      RegistryIs s.registry.num_processes_configured s' f := by
  obtain ⟨f, hmap, hrep⟩ := hinit.represents.run hrun
  exact ⟨f, hmap, hrep.is⟩

/-- A registry for three processes. -/
def threeEntries : RegistryState where
  global_queue_registry_ptr := 64
  mem := ⟨fun _ => ⟨3, 128, 8⟩, fun _ => ⟨-1, 0, 0, 0⟩⟩

theorem threeEntries_initialised : Initialised 8 threeEntries :=
  ⟨by decide, by decide, by decide, rfl, fun _ _ => rfl⟩

/-- Process 2 registers a queue, and does it again. -/
theorem registry_is_map_twice : ∃ s f, RegistryIs 3 s f ∧
    Run RegistryStep threeEntries
      [(.register 2 256, .status E_SUCCESS), (.register 2 512, .status E_ALREADY_REGISTERED)] s := by
  have hfirst : RegistryStep threeEntries (.register 2 256, .status E_SUCCESS)
      (threeEntries.storeEntry 2 ⟨2, 256, 0, 0⟩) := rfl
  have hsecond : RegistryStep (threeEntries.storeEntry 2 ⟨2, 256, 0, 0⟩)
      (.register 2 512, .status E_ALREADY_REGISTERED)
      (threeEntries.storeEntry 2 ⟨2, 256, 0, 0⟩) := rfl
  have hrun := (Run.single hfirst).snoc hsecond
  obtain ⟨f, -, his⟩ := registry_is_map threeEntries_initialised hrun
  exact ⟨_, f, his, hrun⟩

end Minix.Llvm
