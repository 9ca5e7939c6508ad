import Minix.Kernel.SchedInv

/-!
# The table at the start

The part of `main` of `kernel/stmain.c` that sets up the process table. The kernel starts with the
tasks, the servers and the first user; the processes that these start later are given beside them,
so that a run can start with any number of live users. What `main` does not set is left as it is:
the memory maps, the shadows, and the links that no queue leads to.
-/

namespace Minix.Kernel

open Lib

/-- `P_SLOT_FREE`. -/
def SLOT_FREE : PFlags := { PFlags.zero with slotFree := true }

/-- The table before `main` has looked at it: every slot is free, and every queue is empty. -/
def clearTable (s : State) : State :=
  { s with
    p_flags := fun _ => SLOT_FREE
    p_int_blocked := fun _ => false
    p_int_held := fun _ => false
    p_nextheld := fun _ => none
    p_callerq := fun _ => none
    p_pending := fun _ => 0
    p_pendcount := fun _ => 0
    rdy_head := fun _ => none
    rdy_tail := fun _ => none
    held_head := none
    held_tail := none
    sig_procs := 0
    log := [] }

/-- `isidlehardware(n)`, of the entry. -/
def isidlehardware (p : Slot) : Bool := p == idleSlot || p == hardwareSlot

/-- Set up the entry of one process. -/
def bootProc (s : State) (rp : Slot) : Option State :=
  let s := s.setFlags rp PFlags.zero
  if !isidlehardware rp then ready s rp else some s

/-- The entries that `main` sets up: the tasks, and the processes up to `LOW_USER`. -/
def bootSlots : List Slot :=
  (List.finRange (NR_TASKS + NR_PROCS)).filter (·.val ≤ NR_TASKS + LOW_USER)

/-- Start the ball rolling, with the other `users`. -/
def main (s : State) (users : List Slot) : Option State := do
  let s ← (bootSlots ++ users).foldlM bootProc (clearTable s)
  some (pickProc { s with bill_ptr := hardwareSlot })

/-- The table as it is loaded, with all its bytes zero. -/
def zeroState : State where
  p_flags _ := PFlags.zero
  p_map _ := ⟨0, 0, 0⟩
  p_shadow _ := 0
  p_int_blocked _ := false
  p_int_held _ := false
  p_nextheld _ := none
  p_callerq _ := none
  p_sendlink _ := none
  p_messbuf _ := 0
  p_getfrom _ := 0
  p_nextready _ := none
  p_pending _ := 0
  p_pendcount _ := 0
  rdy_head _ := none
  rdy_tail _ := none
  proc_ptr := idleSlot
  bill_ptr := idleSlot
  held_head := none
  held_tail := none
  sig_procs := 0
  sys_m := 0
  mem _ := ⟨0, 0, fun _ => 0⟩
  log := []

/-- The states that the kernel starts in. -/
def Boot (s : State) : Prop := ∃ s₀ users, (bootSlots ++ users).Nodup ∧ main s₀ users = some s

variable {s s' : State} {rq : Queue → List Slot} {p rp : Slot} {l users : List Slot}

/-- The processes that are never made ready may have their flags cleared. -/
theorem ReadyInv.setExcepted (h : ReadyInv s rq) (h0 : s.p_flags rp ≠ PFlags.zero)
    (hi : isidlehardware rp) : ReadyInv (s.setFlags rp PFlags.zero) rq where
  queues := h.queues
  zero q p hp := by
    have hne : p ≠ rp := fun e => h0 (e ▸ h.zero q p hp)
    rw [s.setFlags_of_ne _ hne]
    exact h.zero q p hp
  mem p hp hp' hz := by
    have hne : p ≠ rp := by
      rintro rfl
      simp [isidlehardware, hp, hp'] at hi
    rw [s.setFlags_of_ne _ hne] at hz
    exact h.mem p hp hp' hz
  sig := setFlags_sig h.sig (by simp [PFlags.zero])

/-- Setting up a process queues it, unless it is one of the two that are never ready. -/
theorem bootProc_spec (h : ReadyOk s) (hf : s.p_flags rp = SLOT_FREE) :
    ∃ s', bootProc s rp = some s' ∧ Reflagged s rp PFlags.zero s' ∧ ReadyOk s' := by
  obtain ⟨rq, hrq⟩ := h
  have hne : s.p_flags rp ≠ PFlags.zero := by
    rw [hf]
    decide
  have hz : (s.p_flags rp).clear SLOT_FREE = PFlags.zero := by
    rw [hf]
    decide
  unfold bootProc
  by_cases hi : isidlehardware rp = true
  · simp only [hi, Bool.not_true, Bool.false_eq_true, if_false]
    exact ⟨_, rfl, (Resched.refl s).setFlags, rq, hrq.setExcepted hne hi⟩
  · have hsig : ((s.p_flags rp).clear SLOT_FREE).pending →
        ((s.p_flags rp).clear SLOT_FREE).sigPending := by
      rw [hz]
      decide
    obtain ⟨s', hs', hr, -⟩ := unblock_spec hrq hne hsig
    have hre := unblock_reflagged hs'
    rw [hz] at hre
    unfold unblock at hs'
    simp only [State.setFlags_self, hz, if_true] at hs'
    simp only [hi, Bool.not_false, if_true]
    exact ⟨s', hs', hre, hr⟩

/-- `s'` is `s` with other flags and other ready queues. -/
def Booted (s s' : State) : Prop :=
  ∃ flags nextready head tail proc bill, s' = { s with
    p_flags := flags, p_nextready := nextready, rdy_head := head, rdy_tail := tail,
    proc_ptr := proc, bill_ptr := bill }

/-- Setting up free entries clears their flags, and queues the processes. -/
theorem foldlM_bootProc (h : ReadyOk s) (hl : l.Nodup) (hf : ∀ p ∈ l, s.p_flags p = SLOT_FREE) :
    ∃ s', l.foldlM bootProc s = some s' ∧ Booted s s' ∧ ReadyOk s' ∧
      ∀ p, s'.p_flags p = if p ∈ l then PFlags.zero else s.p_flags p := by
  induction l generalizing s with
  | nil => exact ⟨s, rfl, ⟨_, _, _, _, _, _, rfl⟩, h, by simp⟩
  | cons x l ih =>
    obtain ⟨s₁, h₁, hre, hr⟩ := bootProc_spec h (hf x (by simp))
    obtain ⟨hxl, hnd⟩ := List.nodup_cons.mp hl
    have hf₁ : ∀ p ∈ l, s₁.p_flags p = SLOT_FREE := by
      intro p hp
      have hne : p ≠ x := fun e => hxl (e ▸ hp)
      rw [hre.flags, Function.update_of_ne hne]
      exact hf p (by simp [hp])
    obtain ⟨s', hs', hb, hr', hflags⟩ := ih hr hnd hf₁
    refine ⟨s', ?_, ?_, hr', fun p => ?_⟩
    · rw [List.foldlM_cons, h₁]
      exact hs'
    · obtain ⟨_, _, _, _, _, rfl⟩ := hre
      obtain ⟨_, _, _, _, _, _, rfl⟩ := hb
      exact ⟨_, _, _, _, _, _, rfl⟩
    · rw [hflags, hre.flags]
      by_cases hp : p = x
      · subst hp
        simp
      · simp [hp]

/-- The empty table is in order. -/
theorem clearTable_ready (s : State) : ReadyOk (clearTable s) := by
  refine ⟨fun _ => [], ⟨⟨fun _ => rfl, by simp⟩, by simp, by simp⟩, by simp, fun p _ _ h => ?_,
    fun p h => ?_⟩
  · replace h : SLOT_FREE = PFlags.zero := h
    exact absurd h (by decide)
  · replace h : SLOT_FREE.pending = true := h
    exact absurd h (by decide)

/-- The tasks are among the entries that `main` sets up. -/
theorem istaskp_mem_bootSlots (h : istaskp p) : p ∈ bootSlots := by
  unfold istaskp at h
  rw [Bool.and_eq_true] at h
  have := of_decide_eq_true h.1
  simp only [bootSlots, List.mem_filter, List.mem_finRange, true_and, decide_eq_true_eq]
  omega

/-- After `main`, the processes that it has set up are runnable, and the others are free. -/
theorem main_spec (s₀ : State) (hu : (bootSlots ++ users).Nodup) :
    ∃ s, main s₀ users = some s ∧ Booted (clearTable s₀) s ∧ SchedInv s ∧
      ∀ p, s.p_flags p = if p ∈ bootSlots ++ users then PFlags.zero else SLOT_FREE := by
  obtain ⟨s₁, h₁, hb, hr, hflags⟩ := foldlM_bootProc (clearTable_ready s₀) hu fun p _ => rfl
  have hpick := pickProc_resched { s₁ with bill_ptr := hardwareSlot }
  have hflags' : ∀ p, (pickProc { s₁ with bill_ptr := hardwareSlot }).p_flags p =
      if p ∈ bootSlots ++ users then PFlags.zero else SLOT_FREE := by
    intro p
    rw [hpick.flags]
    exact hflags p
  refine ⟨_, by rw [main, h₁]; rfl, ?_, ?_, hflags'⟩
  · obtain ⟨_, _, _, _, _, _, rfl⟩ := hb
    obtain ⟨_, _, _, _, _, he⟩ := hpick
    rw [he]
    exact ⟨_, _, _, _, _, _, rfl⟩
  · obtain ⟨rq, hrq⟩ := hr
    have hq : Queues { s₁ with bill_ptr := hardwareSlot } rq := hrq.queues
    have hi : ReadyInv { s₁ with bill_ptr := hardwareSlot } rq :=
      ⟨hq, hrq.zero, hrq.mem, hrq.sig⟩
    refine ⟨⟨rq, hi.resched hpick (pickProc_queues hq) fun _ _ => Iff.rfl⟩, pickProc_running _,
      fun p hp => ?_, ?_⟩
    · rw [hflags', if_pos (by simp [istaskp_mem_bootSlots hp])]
      decide
    · obtain ⟨_, _, _, _, _, _, rfl⟩ := hb
      obtain ⟨_, _, _, _, _, he⟩ := hpick
      rw [he]
      exact ⟨by simp [clearTable], by simp [clearTable]⟩

/-- The scheduler's invariant holds at the start. -/
theorem Boot.sched (h : Boot s) : SchedInv s := by
  obtain ⟨s₀, users, hu, hs⟩ := h
  obtain ⟨s₁, h₁, -, hi, -⟩ := main_spec s₀ hu
  rw [hs] at h₁
  exact Option.some.inj h₁ ▸ hi

end Minix.Kernel
