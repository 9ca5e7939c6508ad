import Minix.Kernel.Interrupts

/-!
# Runs with interrupts

`IrqStep` is one atomic region: a call of `interrupt` by a handler, at any value of `k_reenter` and
`switching`; one of the two parts of a turn of `unhold`; a call of `mini_send` or `mini_rec`, by
anybody; or something that has nothing to do with interrupts. They come in any order. Between the
two parts of a turn of `unhold` interrupts are enabled, so that every other step may come there,
also those of another `unhold`.

`interrupts_kept` follows an interrupt from the call of `interrupt` on. While `unhold` has its task
in hand it is in none of the three places where it is otherwise: `lost_in_hand`.
-/

namespace Minix.Kernel

open Lib Lib.Rendezvous

/-- The kernel, and the tasks that `unhold` has taken off the queue and is about to call `interrupt`
for. -/
structure IrqState where
  kernel : State
  inHand : List Slot

/-- The atomic regions. -/
inductive IrqAction
  /-- A handler calls `interrupt`. -/
  | interrupt (task : Slot) (competing : Bool)
  /-- `unhold` takes the first task off the queue, and enables interrupts. -/
  | takeOff (rp : Slot)
  /-- `unhold` calls `interrupt` for a task that it took off the queue. -/
  | again (rp : Slot) (competing : Bool)
  | miniSend (caller : Slot) (dest : ℤ) (m_ptr : Addr)
  | miniRec (caller : Slot) (src : ℤ) (m_ptr : Addr)
  /-- Anything that leaves interrupts, their messages and the maps alone. -/
  | other

/-- The action is a call of `interrupt` for the task. -/
def IrqAction.Raises (task : Slot) : IrqAction → Prop
  | .interrupt rp _ => rp = task
  | .again rp _ => rp = task
  | _ => False

/-- One atomic region. -/
inductive IrqStep : IrqState → IrqAction → IrqState → Prop
  | interrupt {m : IrqState} {s : State} {task : Slot} {competing : Bool}
      (h : interrupt m.kernel task competing = some s) :
      IrqStep m (.interrupt task competing) ⟨s, m.inHand⟩
  | takeOff {m : IrqState} {rp : Slot} (h : m.kernel.held_head = some rp) :
      IrqStep m (.takeOff rp) ⟨offHeld m.kernel rp, rp :: m.inHand⟩
  | again {m : IrqState} {s : State} {rp : Slot} {competing : Bool} (hrp : rp ∈ m.inHand)
      (h : interrupt m.kernel rp competing = some s) :
      IrqStep m (.again rp competing) ⟨s, m.inHand.erase rp⟩
  | miniSend {m : IrqState} {s : State} {caller : Slot} {dest r : ℤ} {m_ptr : Addr}
      (h : miniSend m.kernel caller dest m_ptr = some (r, s)) :
      IrqStep m (.miniSend caller dest m_ptr) ⟨s, m.inHand⟩
  | miniRec {m : IrqState} {s : State} {caller : Slot} {src r : ℤ} {m_ptr : Addr}
      (h : miniRec m.kernel caller src m_ptr = some (r, s)) :
      IrqStep m (.miniRec caller src m_ptr) ⟨s, m.inHand⟩
  | other {m : IrqState} {s : State} (h : irqFields s = irqFields m.kernel) :
      IrqStep m .other ⟨s, m.inHand⟩

/-- `main` has set up the table, and `unhold` was not called. -/
def IrqStart (m : IrqState) : Prop := Boot m.kernel ∧ m.inHand = []

/-- What every region keeps. -/
structure IrqInv (m : IrqState) : Prop where
  queue : HeldQueue m.kernel
  buffered : Buffered m.kernel

/-- An interrupt for the task has come since the history had `n` events, and was not lost. -/
def Owed (m : IrqState) (n : ℕ) (p : Slot) : Prop :=
  m.kernel.p_int_held p = true ∨ m.kernel.p_int_blocked p = true ∨ p ∈ m.inHand ∨
    SignalledSince m.kernel n p

variable {m m' m₀ m₁ m₂ : IrqState} {s : State} {a : IrqAction} {as : List IrqAction}
  {p rp task : Slot} {n : ℕ}

/-! ## One region -/

/-- What was moved is not lost. -/
theorem Owed.moves (h : Owed m n p) (hn : n ≤ m.kernel.log.length) (hm : Moves m.kernel s) :
    Owed ⟨s, m.inHand⟩ n p := by
  have hheld : s.p_int_held = m.kernel.p_int_held := congrArg (·.1) hm.held
  rcases h with h | h | h | h
  · exact Or.inl (by rw [hheld]; exact h)
  · rcases hm.blocked p h with h | h
    · exact Or.inr (Or.inl h)
    · exact Or.inr (Or.inr (Or.inr (h.mono hn (List.prefix_refl _))))
  · exact Or.inr (Or.inr (Or.inl h))
  · exact Or.inr (Or.inr (Or.inr (h.mono le_rfl hm.log)))

/-- Nor is what was held up, blocked or delivered when another interrupt came. -/
theorem Owed.raised {l : List Slot} (h : Owed m n p) (hn : n ≤ m.kernel.log.length)
    (hr : Raised m.kernel rp s) (hl : p ∈ m.inHand → p = rp ∨ p ∈ l) : Owed ⟨s, l⟩ n p := by
  have hsig : SignalledSince s m.kernel.log.length p → Owed ⟨s, l⟩ n p := fun h =>
    Or.inr (Or.inr (Or.inr (h.mono hn (List.prefix_refl _))))
  rcases h with h | h | h | h
  · exact Or.inl (hr.held p h)
  · rcases hr.blocked p h with h | h
    · exact Or.inr (Or.inl h)
    · exact hsig h
  · rcases hl h with rfl | hl
    · -- `unhold` has called `interrupt` for it.
      rcases hr.raised with h | h | h
      · exact Or.inl h
      · exact Or.inr (Or.inl h)
      · exact hsig h
    · exact Or.inr (Or.inr (Or.inl hl))
  · exact Or.inr (Or.inr (Or.inr (h.mono le_rfl hr.log)))

/-- What the functions keep that leave interrupts where they are. -/
theorem IrqInv.moves (h : IrqInv m) (hm : Moves m.kernel s) : IrqInv ⟨s, m.inHand⟩ :=
  ⟨h.queue.congr hm.held, hm.buffered h.buffered⟩

/-- Every region keeps the queue and the messages in order, and the history grows. -/
theorem IrqStep.inv (h : IrqStep m a m') (hi : IrqInv m) :
    IrqInv m' ∧ m.kernel.log <+: m'.kernel.log := by
  cases h with
  | interrupt h =>
    have hr := interrupt_raised hi.queue hi.buffered h
    exact ⟨⟨hr.queue, hr.buffered⟩, hr.log⟩
  | takeOff h => exact ⟨⟨hi.queue.offHeld h, hi.buffered⟩, List.prefix_refl _⟩
  | again _ h =>
    have hr := interrupt_raised hi.queue hi.buffered h
    exact ⟨⟨hr.queue, hr.buffered⟩, hr.log⟩
  | miniSend h => exact ⟨hi.moves (miniSend_moves h), (miniSend_moves h).log⟩
  | miniRec h => exact ⟨hi.moves (miniRec_moves h), (miniRec_moves h).log⟩
  | other h => exact ⟨hi.moves (Moves.of_eq h), (Moves.of_eq h).log⟩

/-- No region loses an interrupt. -/
theorem IrqStep.owed (h : IrqStep m a m') (hi : IrqInv m) (ho : Owed m n p)
    (hn : n ≤ m.kernel.log.length) : Owed m' n p := by
  cases h with
  | interrupt h => exact ho.raised hn (interrupt_raised hi.queue hi.buffered h) Or.inr
  | takeOff h =>
    rename_i rp
    rcases ho with ho | ho | ho | ho
    · by_cases hp : p = rp
      · exact Or.inr (Or.inr (Or.inl (by simp [hp])))
      · refine Or.inl ?_
        show Function.update m.kernel.p_int_held rp false p = true
        rw [Function.update_of_ne hp]
        exact ho
    · exact Or.inr (Or.inl ho)
    · exact Or.inr (Or.inr (Or.inl (List.mem_cons_of_mem rp ho)))
    · exact Or.inr (Or.inr (Or.inr ho))
  | again _ h =>
    refine ho.raised hn (interrupt_raised hi.queue hi.buffered h) fun hp => ?_
    rw [or_iff_not_imp_left]
    exact fun hne => (List.mem_erase_of_ne hne).mpr hp
  | miniSend h => exact ho.moves hn (miniSend_moves h)
  | miniRec h => exact ho.moves hn (miniRec_moves h)
  | other h => exact ho.moves hn (Moves.of_eq h)

/-- After a call of `interrupt` for a task it has an interrupt. -/
theorem IrqStep.raises (h : IrqStep m a m') (hi : IrqInv m) (ha : a.Raises task) :
    Owed m' m.kernel.log.length task := by
  have hof : ∀ {l}, Raised m.kernel task m'.kernel → m'.inHand = l →
      Owed m' m.kernel.log.length task := by
    intro l hr hl
    rcases hr.raised with h | h | h
    · exact Or.inl h
    · exact Or.inr (Or.inl h)
    · exact Or.inr (Or.inr (Or.inr h))
  cases h with
  | interrupt h =>
    obtain rfl : _ = task := ha
    exact hof (interrupt_raised hi.queue hi.buffered h) rfl
  | again _ h =>
    obtain rfl : _ = task := ha
    exact hof (interrupt_raised hi.queue hi.buffered h) rfl
  | takeOff => exact absurd ha id
  | miniSend => exact absurd ha id
  | miniRec => exact absurd ha id
  | other => exact absurd ha id

/-! ## Runs -/

/-- The history is empty at the start, and so is the queue. -/
theorem Boot.held (h : Boot s) : HeldQueue s ∧ s.log = [] ∧ s.held_head = none ∧
    s.held_tail = none ∧ (∀ p, s.p_int_held p = false) ∧ ∀ p, s.p_int_blocked p = false := by
  obtain ⟨s₀, users, hu, hs⟩ := h
  obtain ⟨s₁, h₁, hb, -, -⟩ := main_spec s₀ hu
  obtain rfl := Option.some.inj (h₁.symm.trans hs)
  obtain ⟨_, _, _, _, _, _, rfl⟩ := hb
  exact ⟨⟨[], rfl, List.nodup_nil, rfl, by simp [clearTable]⟩, rfl, rfl, rfl, fun _ => rfl, fun _ => rfl⟩

/-- The invariant holds in every state of every run. -/
theorem IrqInv.of_reachable (h : Reachable IrqStart IrqStep m) : IrqInv m := by
  refine Reachable.invariant (P := IrqInv) h (fun m hm => ?_) fun _ _ _ hi hst => (hst.inv hi).1
  obtain ⟨hq, hlog, -⟩ := hm.1.held
  refine ⟨hq, fun pre p b post he => ?_⟩
  rw [hlog] at he
  simp at he

/-- No run loses an interrupt. -/
theorem run_owed (hr : Run IrqStep m as m') (hi : IrqInv m) (ho : Owed m n p)
    (hn : n ≤ m.kernel.log.length) : Owed m' n p := by
  have hrun : IrqInv m' ∧ Owed m' n p ∧ n ≤ m'.kernel.log.length := by
    refine Run.invariant (P := fun m => IrqInv m ∧ Owed m n p ∧ n ≤ m.kernel.log.length) hr
      ⟨hi, ho, hn⟩ fun m a m' h hst => ?_
    obtain ⟨hi, ho, hn⟩ := h
    obtain ⟨hi', hlog⟩ := hst.inv hi
    exact ⟨hi', hst.owed hi ho hn, hn.trans hlog.length_le⟩
  exact hrun.2.1

/-- The first interrupt that is held up is the head of the queue. -/
theorem held_first : ∃ s s', Boot s ∧ interrupt s 6 true = some s' ∧ s'.held_head = some 6 ∧
    (∀ p, s'.p_int_blocked p = false) ∧ s'.log = [] := by
  obtain ⟨s, hs, -⟩ := main_spec zeroState (show (bootSlots ++ []).Nodup by decide)
  have hb : Boot s := ⟨zeroState, [], by decide, hs⟩
  obtain ⟨hq, hlog, -, -, hheld, hblocked⟩ := hb.held
  obtain ⟨s', h', hq', hheld', -, hblocked', -, hlog'⟩ := hold_spec hq 6
  refine ⟨s, s', hb, h', ?_, by rw [hblocked']; exact hblocked, hlog'.trans hlog⟩
  obtain ⟨l, hc, -, -, hmem⟩ := hq'
  have hl : ∀ p, p ∈ l ↔ p = 6 := by
    intro p
    rw [hmem, hheld', hheld]
    simp
  cases l with
  | nil => simpa using (hl 6).mpr rfl
  | cons x l =>
    rw [hc.1, (hl x).mp List.mem_cons_self]

end Minix.Kernel
