import Minix.Kernel.Shadow

/-!
# The ready queues while a process changes its queue

A process that becomes a shadow, or ceases to be one, is taken off its queue first and put on the
other afterwards, and `do_xit` takes a process off its queue before its slot is free. `ReadyBut` is
`ReadyInv` but for the processes that are `out`: they are on no queue, whatever their flags.
-/

namespace Minix.Kernel

open Lib

/-- The ready queues are in order, but for the processes that are on none of them. -/
structure ReadyBut (s : State) (rq : Queue → List Slot) (out : Slot → Prop) : Prop where
  /-- The pointers stand for the lists. -/
  queues : Queues s rq
  /-- A queued process has no flag set, and is not one of those that are out. -/
  zero : ∀ q p, p ∈ rq q → s.p_flags p = PFlags.zero ∧ ¬out p
  /-- The others without flags are queued, the two that never are excepted. -/
  mem : ∀ p, p ≠ idleSlot → p ≠ hardwareSlot → s.p_flags p = PFlags.zero → ¬out p →
    p ∈ rq (queueOf s p)
  sig : ∀ p, (s.p_flags p).pending → (s.p_flags p).sigPending

/-- The ready queues are in order, but for the processes that are out. -/
def OkBut (s : State) (out : Slot → Prop) : Prop := ∃ rq, ReadyBut s rq out

variable {s s' : State} {rq : Queue → List Slot} {out : Slot → Prop} {p x : Slot} {f : PFlags}

/-- The queues are in order when nothing is out. -/
theorem OkBut.ready (h : OkBut s out) (ho : ∀ p, ¬out p) : ReadyOk s := by
  obtain ⟨rq, hrq⟩ := h
  exact ⟨rq, hrq.queues, fun q p hp => (hrq.zero q p hp).1,
    fun p hi hh h0 => hrq.mem p hi hh h0 (ho p), hrq.sig⟩

/-- When the queues are in order, nothing is out. -/
theorem ReadyOk.but (h : ReadyOk s) : OkBut s fun _ => False := by
  obtain ⟨rq, hrq⟩ := h
  exact ⟨rq, hrq.queues, fun q p hp => ⟨hrq.zero q p hp, id⟩,
    fun p hi hh h0 _ => hrq.mem p hi hh h0, hrq.sig⟩

/-- Other words for what is out. -/
theorem OkBut.iff {out' : Slot → Prop} (h : OkBut s out) (ho : ∀ p, out' p ↔ out p) :
    OkBut s out' := by
  obtain rfl : out' = out := funext fun p => propext (ho p)
  exact h

/-- Fields that the queues do not depend on may change, and for a process that is on no queue, those
that they do depend on. -/
theorem OkBut.congr (h : OkBut s out) (hf : s'.p_flags = s.p_flags)
    (hn : ∀ x, ¬out x → s.p_flags x = PFlags.zero →
      s'.p_nextready x = s.p_nextready x ∧ s'.p_shadow x = s.p_shadow x)
    (hh : s'.rdy_head = s.rdy_head) (ht : s'.rdy_tail = s.rdy_tail) : OkBut s' out := by
  obtain ⟨rq, hrq⟩ := h
  have hcls : ∀ x, ¬out x → s.p_flags x = PFlags.zero → queueOf s' x = queueOf s x := by
    intro x ho h0
    unfold queueOf isshadowp
    rw [(hn x ho h0).2]
  refine ⟨rq, ?_, ?_, ?_, ?_⟩
  · unfold Queues
    rw [hh, ht]
    refine hrq.queues.congr (fun q x hx => ?_) fun q x hx => ?_
    · exact (hn x (hrq.zero q x hx).2 (hrq.zero q x hx).1).1
    · exact hcls x (hrq.zero q x hx).2 (hrq.zero q x hx).1
  · rw [hf]
    exact hrq.zero
  · intro p hi hw h0 ho
    rw [hf] at h0
    rw [hcls p ho h0]
    exact hrq.mem p hi hw h0 ho
  · rw [hf]
    exact hrq.sig

/-- Fields that the queues do not depend on do not matter to them. -/
theorem ReadyOk.congr (h : ReadyOk s) (hf : s'.p_flags = s.p_flags)
    (hn : s'.p_nextready = s.p_nextready) (hs : s'.p_shadow = s.p_shadow)
    (hh : s'.rdy_head = s.rdy_head) (ht : s'.rdy_tail = s.rdy_tail) : ReadyOk s' := by
  have hok : OkBut s' fun _ => False :=
    h.but.congr hf (fun x _ _ => ⟨congrFun hn x, congrFun hs x⟩) hh ht
  exact hok.ready fun _ => id

/-- Taking a process off its queue. -/
theorem OkBut.unready (h : OkBut s out) (p : Slot) :
    ∃ s', unready s p = some s' ∧ Resched s s' ∧ OkBut s' fun x => out x ∨ x = p := by
  obtain ⟨rq, hrq⟩ := h
  obtain ⟨s', hs', hq, -⟩ := unready_spec hrq.queues p
  have hre : Resched s s' := removeReady_resched (unready_eq s p ▸ hs')
  have hmem : ∀ q x, x ∈ Function.update rq (queueOf s p) ((rq (queueOf s p)).erase p) q ↔
      x ∈ rq q ∧ x ≠ p := fun _ _ =>
    hrq.queues.chains.mem_update_erase fun _ hq => hrq.queues.notMem rfl hq
  refine ⟨s', hs', hre, _, hq, fun q x hx => ?_, fun x hi hh h0 ho => ?_, ?_⟩
  · obtain ⟨hx, hne⟩ := (hmem q x).mp hx
    rw [hre.flags]
    exact ⟨(hrq.zero q x hx).1, not_or.mpr ⟨(hrq.zero q x hx).2, hne⟩⟩
  · rw [hre.flags] at h0
    rw [hre.queueOf, hmem]
    exact ⟨hrq.mem x hi hh h0 (not_or.mp ho).1, (not_or.mp ho).2⟩
  · rw [hre.flags]
    exact hrq.sig

/-- Taking a process off its queue, if it is on one. -/
theorem OkBut.unreadyIf (h : OkBut s out) (p : Slot) :
    ∃ s', unreadyIf s p = some s' ∧ Resched s s' ∧ OkBut s' fun x => out x ∨ x = p := by
  unfold Kernel.unreadyIf
  by_cases h0 : s.p_flags p = PFlags.zero
  · rw [if_pos h0]
    exact h.unready p
  · rw [if_neg h0]
    obtain ⟨rq, hrq⟩ := h
    refine ⟨s, rfl, Resched.refl s, rq, hrq.queues, fun q x hx => ?_, fun x hi hh hz ho => ?_,
      hrq.sig⟩
    · refine ⟨(hrq.zero q x hx).1, not_or.mpr ⟨(hrq.zero q x hx).2, ?_⟩⟩
      rintro rfl
      exact h0 (hrq.zero q x hx).1
    · exact hrq.mem x hi hh hz (not_or.mp ho).1

/-- Queueing a process that is out and has no flag set. -/
theorem OkBut.pushReady (h : OkBut s out) (hp : out p) (h0 : s.p_flags p = PFlags.zero) :
    ∃ s', Kernel.ready s p = some s' ∧ Resched s s' ∧ OkBut s' fun x => out x ∧ x ≠ p := by
  obtain ⟨rq, hrq⟩ := h
  obtain ⟨s', hs', hq, -⟩ := ready_spec hrq.queues fun hm => (hrq.zero _ _ hm).2 hp
  have hre : Resched s s' := addReady_resched (ready_eq s p ▸ hs')
  refine ⟨s', hs', hre, _, hq, fun q x hx => ?_, fun x hi hh hz ho => ?_, ?_⟩
  · rw [hre.flags]
    rcases mem_update_append.mp hx with hx | ⟨-, rfl⟩
    · exact ⟨(hrq.zero q x hx).1, fun ho => (hrq.zero q x hx).2 ho.1⟩
    · exact ⟨h0, fun ho => ho.2 rfl⟩
  · rw [hre.flags] at hz
    rw [hre.queueOf]
    refine mem_update_append.mpr ?_
    by_cases hx : x = p
    · subst hx
      exact Or.inr ⟨rfl, rfl⟩
    · exact Or.inl (hrq.mem x hi hh hz fun hox => ho ⟨hox, hx⟩)
  · rw [hre.flags]
    exact hrq.sig

/-- Queueing a process that is out, if it has no flag set. -/
theorem OkBut.readyIf (h : OkBut s out) (hp : out p) :
    ∃ s', readyIf s p = some s' ∧ Resched s s' ∧ OkBut s' fun x => out x ∧ x ≠ p := by
  unfold Kernel.readyIf
  by_cases h0 : s.p_flags p = PFlags.zero
  · rw [if_pos h0]
    exact h.pushReady hp h0
  · rw [if_neg h0]
    obtain ⟨rq, hrq⟩ := h
    refine ⟨s, rfl, Resched.refl s, rq, hrq.queues, fun q x hx => ?_, fun x hi hh hz ho => ?_,
      hrq.sig⟩
    · exact ⟨(hrq.zero q x hx).1, fun ho => (hrq.zero q x hx).2 ho.1⟩
    · refine hrq.mem x hi hh hz fun hox => ho ⟨hox, ?_⟩
      rintro rfl
      exact h0 hz

/-- Flags for a process that is out: it belongs on no queue. -/
theorem OkBut.setFlags (h : OkBut s out) (hp : out p) (hf : f ≠ PFlags.zero)
    (hsig : f.pending → f.sigPending) : OkBut (s.setFlags p f) fun x => out x ∧ x ≠ p := by
  obtain ⟨rq, hrq⟩ := h
  refine ⟨rq, hrq.queues, fun q x hx => ?_, fun x hi hh hz ho => ?_, setFlags_sig hrq.sig hsig⟩
  · have hne : x ≠ p := fun e => (hrq.zero q x hx).2 (e ▸ hp)
    rw [s.setFlags_of_ne f hne]
    exact ⟨(hrq.zero q x hx).1, fun ho => (hrq.zero q x hx).2 ho.1⟩
  · have hne : x ≠ p := by
      rintro rfl
      rw [s.setFlags_self] at hz
      exact hf hz
    rw [s.setFlags_of_ne f hne] at hz
    exact hrq.mem x hi hh hz fun hox => ho ⟨hox, hne⟩

/-- The shadow of a process that is out, or not ready. -/
theorem OkBut.setShadow (h : OkBut s out) (hp : out p ∨ s.p_flags p ≠ PFlags.zero) (c : ℕ) :
    OkBut (s.setShadow p c) out := by
  refine h.congr rfl (fun x ho h0 => ⟨rfl, ?_⟩) rfl rfl
  refine Function.update_of_ne ?_ _ _
  rintro rfl
  exact hp.elim ho fun hne => hne h0

end Minix.Kernel
