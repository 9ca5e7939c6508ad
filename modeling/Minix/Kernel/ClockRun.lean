import Minix.Kernel.Clock

/-!
# Alarms in a run

`ClockInv` says what is known of `next_alarm` wherever the clock task is: in its loops, for the
processes that it has come to. What the clock task does about one alarm is followed event by event
(`AlarmFate.step`): before the first `do_clocktick` at the time of the alarm or later, in it, and
after it.
-/

namespace Minix.Kernel

open Lib

variable {F : Type} {w w' : Clock F} {act : ClockAct F} {p rp : Slot} {a : ℤ} {bill_ptr : Slot}
  {ready : Bool} {msg : ClockMsg F} {evs : List (ClockEvent F)} {e : ClockEvent F} {i : ℕ}

/-- `next_alarm` is not behind the alarms of some processes. -/
def NextFor (w : Clock F) (P : Slot → Prop) : Prop :=
  ∀ p, P p → w.p_alarm p ≠ 0 → w.next_alarm ≤ w.p_alarm p

/-- The invariant of the alarms. -/
structure ClockInv (w : Clock F) : Prop where
  le : ∀ p, w.p_alarm p ≤ MAX_P_LONG
  next : NextFor w fun p => match w.pc with
    | .setalarm => False
    | .setalarmScan i | .clocktickScan i => p.val < i
    | _ => True

/-- The handler changes neither the alarms nor what the clock task does. -/
theorem clockHandler_eq (w : Clock F) (bill_ptr : Slot) (ready : Bool) :
    ∃ sched_ticks prev_ptr, (clockHandler w bill_ptr ready).2 = { w with
      pending_ticks := w.pending_ticks + 1, sched_ticks := sched_ticks, prev_ptr := prev_ptr } := by
  unfold clockHandler
  dsimp only
  split_ifs
  · exact ⟨_, _, rfl⟩
  · exact ⟨_, _, rfl⟩
  · exact ⟨_, _, rfl⟩

/-- The end of `do_clocktick` has nothing to do with alarms. -/
theorem quantum_eq (w : Clock F) (bill_ptr : Slot) :
    ∃ sched_ticks prev_ptr, quantum w bill_ptr = { w with
      sched_ticks := sched_ticks, prev_ptr := prev_ptr } := by
  unfold quantum
  dsimp only
  split_ifs
  · exact ⟨_, _, rfl⟩
  · exact ⟨_, _, rfl⟩

/-- A process is the entry that a loop is at. -/
theorem nth_slot (p : Slot) : nth (NR_TASKS + NR_PROCS) p.val = some p :=
  nth_eq_some.mpr rfl

/-- The next alarm is not behind that of the process any more. -/
theorem nextIs_spec (w : Clock F) (rp : Slot) :
    ∃ next_alarm, nextIs w rp = { w with next_alarm := next_alarm } ∧ next_alarm ≤ w.next_alarm ∧
      (w.p_alarm rp ≠ 0 → next_alarm ≤ w.p_alarm rp) := by
  unfold nextIs
  split_ifs with h
  · exact ⟨_, rfl, h.2.le, fun _ => le_rfl⟩
  · refine ⟨_, rfl, le_rfl, fun h0 => ?_⟩
    rw [not_and, not_lt] at h
    exact h h0

/-- A turn of the loop of `do_clocktick`: the alarm goes off if it is due, and otherwise is taken
into account. -/
theorem clocktickProc_spec (w : Clock F) (rp : Slot) : ∃ next_alarm,
    next_alarm ≤ w.next_alarm ∧
    ((w.p_alarm rp ≠ 0 ∧ w.p_alarm rp ≤ w.realtime ∧
        clocktickProc w rp = { fire w rp with next_alarm := next_alarm }) ∨
      ((w.p_alarm rp ≠ 0 → w.realtime < w.p_alarm rp ∧ next_alarm ≤ w.p_alarm rp) ∧
        clocktickProc w rp = { w with next_alarm := next_alarm })) := by
  unfold clocktickProc
  by_cases h0 : w.p_alarm rp ≠ 0
  · rw [if_pos h0]
    by_cases hle : w.p_alarm rp ≤ w.realtime
    · rw [if_pos hle]
      obtain ⟨next_alarm, h, hn, -⟩ := nextIs_spec (fire w rp) rp
      exact ⟨next_alarm, hn, Or.inl ⟨h0, hle, h⟩⟩
    · rw [if_neg hle]
      obtain ⟨next_alarm, h, hn, hrp⟩ := nextIs_spec w rp
      exact ⟨next_alarm, hn, Or.inr ⟨fun _ => ⟨not_le.mp hle, hrp h0⟩, h⟩⟩
  · rw [if_neg h0]
    exact ⟨_, le_rfl, Or.inr ⟨fun h => absurd h h0, rfl⟩⟩

/-- The invariant at the start. -/
theorem ClockStart.inv (h : ClockStart w) : ClockInv w := by
  refine ⟨fun p => ?_, fun p _ h0 => ?_⟩
  · rw [h.p_alarm]
    show (0 : ℤ) ≤ MAX_P_LONG
    decide
  · rw [h.p_alarm] at h0
    exact absurd rfl h0

/-- Clearing an alarm keeps the invariant. -/
theorem ClockInv.clear (h : ClockInv w) (rp : Slot) : ClockInv (clearAlarm w rp) := by
  unfold clearAlarm
  constructor
  · intro p
    by_cases hp : p = rp
    · rw [hp]
      dsimp only
      rw [Function.update_self]
      decide
    · dsimp only
      rw [Function.update_of_ne hp]
      exact h.le p
  · intro p hP h0
    dsimp only at hP h0 ⊢
    by_cases hp : p = rp
    · rw [hp, Function.update_self] at h0
      exact absurd rfl h0
    · rw [Function.update_of_ne hp] at h0 ⊢
      exact h.next p hP h0

/-- An alarm that goes off keeps what is known of the others. -/
theorem NextFor.fire {P : Slot → Prop} {next_alarm : ℤ} (h : NextFor w P)
    (hn : next_alarm ≤ w.next_alarm) (rp : Slot) :
    NextFor { fire w rp with next_alarm := next_alarm } fun p => P p ∨ p = rp := by
  intro p hp h0
  have hne : p ≠ rp := by
    rintro rfl
    exact h0 (Function.update_self ..)
  change Function.update w.p_alarm rp 0 p ≠ 0 at h0
  show next_alarm ≤ Function.update w.p_alarm rp 0 p
  rw [Function.update_of_ne hne] at h0 ⊢
  exact hn.trans (h p (hp.resolve_right hne) h0)

/-- One more process is taken into account. -/
theorem NextFor.take {P : Slot → Prop} {next_alarm : ℤ} (h : NextFor w P)
    (hn : next_alarm ≤ w.next_alarm) (hrp : w.p_alarm rp ≠ 0 → next_alarm ≤ w.p_alarm rp) :
    NextFor { w with next_alarm := next_alarm } fun p => P p ∨ p = rp := by
  intro p hp h0
  rcases hp with hp | rfl
  · exact hn.trans (h p hp h0)
  · exact hrp h0

/-- The entries before the next one. -/
theorem lt_of_nth (hrp : nth (NR_TASKS + NR_PROCS) i = some rp) (hp : p.val < i + 1) :
    p.val < i ∨ p = rp := by
  have hi := nth_eq_some.mp hrp
  rcases Nat.lt_succ_iff_lt_or_eq.mp hp with h | h
  · exact Or.inl h
  · exact Or.inr (Fin.ext (h.trans hi))

/-- All entries are before the end of the table. -/
theorem lt_of_nth_none (h : nth (NR_TASKS + NR_PROCS) i = none) (p : Slot) : p.val < i := by
  by_contra hp
  have hlt : i < NR_TASKS + NR_PROCS := lt_of_le_of_lt (not_lt.mp hp) p.isLt
  rw [nth, dif_pos hlt] at h
  exact absurd h (by simp)

/-- The clock task goes on. -/
theorem ClockInv.goOn (h : ClockInv w) (bill_ptr : Slot) : ClockInv (goOn w bill_ptr) := by
  have hnext := h.next
  unfold Kernel.goOn
  cases hpc : w.pc with
  | receive => exact h
  | setalarm => exact ⟨h.le, fun p hp => absurd hp (Nat.not_lt_zero _)⟩
  | setalarmScan i =>
    rw [hpc] at hnext
    dsimp only
    cases hn : nth (NR_TASKS + NR_PROCS) i with
    | none => exact ⟨h.le, fun p _ => hnext p (lt_of_nth_none hn p)⟩
    | some rp =>
      obtain ⟨next_alarm, heq, hle, hrp⟩ := nextIs_spec w rp
      dsimp only
      rw [heq]
      exact ⟨h.le, fun p hp => hnext.take hle hrp p (lt_of_nth hn hp)⟩
  | clocktick =>
    rw [hpc] at hnext
    dsimp only
    split_ifs
    · exact ⟨h.le, fun p hp => absurd hp (Nat.not_lt_zero _)⟩
    · exact ⟨h.le, hnext⟩
  | clocktickScan i =>
    rw [hpc] at hnext
    dsimp only
    cases hn : nth (NR_TASKS + NR_PROCS) i with
    | none => exact ⟨h.le, fun p _ => hnext p (lt_of_nth_none hn p)⟩
    | some rp =>
      dsimp only
      obtain ⟨next_alarm, hle, ⟨-, -, heq⟩ | ⟨hrp, heq⟩⟩ := clocktickProc_spec w rp
      · rw [heq]
        refine ⟨fun p => ?_, fun p hp => hnext.fire hle rp p (lt_of_nth hn hp)⟩
        exact (h.clear rp).le p
      · rw [heq]
        exact ⟨h.le, fun p hp => hnext.take hle (fun h0 => (hrp h0).2) p (lt_of_nth hn hp)⟩
  | clocktickEnd =>
    rw [hpc] at hnext
    obtain ⟨_, _, heq⟩ := quantum_eq w bill_ptr
    dsimp only
    rw [heq]
    exact ⟨h.le, hnext⟩

/-- Every step keeps the invariant. -/
theorem ClockInv.step (h : ClockInv w) (hst : ClockStep w act w') : ClockInv w' := by
  cases hst with
  | @tick bill_ptr ready hr =>
    obtain ⟨_, _, heq⟩ := clockHandler_eq w bill_ptr ready
    rw [heq]
    exact ⟨h.le, h.next⟩
  | @message msg hpc hr =>
    have hnext : ∀ p, w.p_alarm p ≠ 0 → w.next_alarm ≤ w.p_alarm p := by
      intro p
      refine h.next p ?_
      rw [hpc]
      trivial
    cases msg with
    | SET_ALARM rp delta function =>
      refine ⟨fun p => ?_, fun p hP => absurd hP id⟩
      by_cases hp : p = rp
      · subst hp
        show Function.update w.p_alarm p _ p ≤ _
        rw [Function.update_self]
        split_ifs
        · decide
        · exact hr.2
      · show Function.update w.p_alarm rp _ p ≤ _
        rw [Function.update_of_ne hp]
        exact h.le p
    | GET_TIME => exact ⟨h.le, fun p _ => hnext p⟩
    | SET_TIME newtime => exact ⟨h.le, fun p _ => hnext p⟩
    | HARD_INT => exact ⟨h.le, fun p _ => hnext p⟩
  | @goOn bill_ptr hpc => exact h.goOn bill_ptr
  | @fork rpp rpc hpc hpp hpc' =>
    have hnext : ∀ p, w.p_alarm p ≠ 0 → w.next_alarm ≤ w.p_alarm p := by
      intro p
      refine h.next p ?_
      rw [hpc]
      trivial
    refine ⟨fun p => ?_, fun p _ h0 => ?_⟩
    · show Function.update w.p_alarm rpc (w.p_alarm rpp) p ≤ _
      by_cases hp : p = rpc
      · rw [hp, Function.update_self]
        exact h.le rpp
      · rw [Function.update_of_ne hp]
        exact h.le p
    · change Function.update w.p_alarm rpc (w.p_alarm rpp) p ≠ 0 at h0
      show w.next_alarm ≤ Function.update w.p_alarm rpc (w.p_alarm rpp) p
      by_cases hp : p = rpc
      · rw [hp, Function.update_self] at h0 ⊢
        exact hnext rpp h0
      · rw [Function.update_of_ne hp] at h0 ⊢
        exact hnext p h0
  | exec hpc hp => exact h.clear _
  | xit hpc hc => exact h.clear _

/-! ## What becomes of an alarm -/

/-- `AlarmFate`, with what the clock task is about to do. -/
inductive AlarmPhase (p : Slot) (a : ℤ) (w : Clock F) (evs : List (ClockEvent F)) : Prop
  | early (hno : ∀ e ∈ evs, ¬e.fires p) (hlate : ∀ t, .clocktick t ∈ evs → t < a)
      (halarm : w.p_alarm p = a) (hnow : Ticking w → w.realtime < a)
  | due (e₁ e₂ : List (ClockEvent F)) (t : ℤ) (hevs : evs = e₁ ++ .clocktick t :: e₂) (ht : a ≤ t)
      (hlate : ∀ t, .clocktick t ∈ e₁ → t < a) (hone : ∀ t, .clocktick t ∉ e₂)
      (hno : ∀ e ∈ evs, ¬e.fires p)
      (hpc : w.pc = .clocktick ∨ ∃ i ≤ p.val, w.pc = .clocktickScan i) (hnow : a ≤ w.realtime)
      (halarm : w.p_alarm p = a)
  | fired (e₁ e₂ e₃ : List (ClockEvent F)) (t : ℤ) (e : ClockEvent F)
      (hevs : evs = e₁ ++ .clocktick t :: (e₂ ++ e :: e₃)) (ht : a ≤ t)
      (hlate : ∀ t, .clocktick t ∈ e₁ → t < a) (hone : ∀ t, .clocktick t ∉ e₂) (hfires : e.fires p)
      (hno : ∀ e' ∈ e₁ ++ e₂ ++ e₃, ¬e'.fires p) (halarm : w.p_alarm p = 0)

/-- The clock task is in `do_clocktick`. -/
theorem ticking_of_pc (h : w.pc = .clocktick ∨ ∃ i ≤ p.val, w.pc = .clocktickScan i) :
    Ticking w := by
  unfold Ticking
  rcases h with h | ⟨i, -, h⟩
  · rw [h]
    trivial
  · rw [h]
    trivial

/-- A phase is a fate. -/
theorem AlarmPhase.fate (h : AlarmPhase p a w evs) : AlarmFate p a w evs := by
  cases h with
  | early hno hlate halarm _ => exact .early hno hlate halarm
  | due e₁ e₂ t hevs ht hlate hone hno hpc _ halarm =>
    exact .due e₁ e₂ t hevs ht hlate hone hno (ticking_of_pc hpc) halarm
  | fired e₁ e₂ e₃ t e hevs ht hlate hone hfires hno halarm =>
    exact .fired e₁ e₂ e₃ t e hevs ht hlate hone hfires hno halarm

/-- A step without an event. -/
theorem AlarmPhase.quiet (h : AlarmPhase p a w evs) (halarm : w'.p_alarm p = w.p_alarm p)
    (hpc : w'.pc = w.pc ∧ w'.realtime = w.realtime ∨ ¬Ticking w ∧ ¬Ticking w') :
    AlarmPhase p a w' evs := by
  cases h with
  | early hno hlate ha hnow =>
    refine .early hno hlate (halarm.trans ha) fun hticking => ?_
    rcases hpc with ⟨hpc, hrt⟩ | ⟨-, hpc⟩
    · rw [hrt]
      unfold Ticking at hticking hnow
      rw [hpc] at hticking
      exact hnow hticking
    · exact absurd hticking hpc
  | due e₁ e₂ t hevs ht hlate hone hno hpc' hnow ha =>
    rcases hpc with ⟨hpc, hrt⟩ | ⟨hpc, -⟩
    · refine .due e₁ e₂ t hevs ht hlate hone hno ?_ (hrt ▸ hnow) (halarm.trans ha)
      rw [hpc]
      exact hpc'
    · exact absurd (ticking_of_pc hpc') hpc
  | fired e₁ e₂ e₃ t e hevs ht hlate hone hfires hno ha =>
    exact .fired e₁ e₂ e₃ t e hevs ht hlate hone hfires hno (halarm.trans ha)

/-- Another event, once the alarm has gone off. -/
theorem no_fires_append {e₁ e₂ e₃ : List (ClockEvent F)} (hno : ∀ e' ∈ e₁ ++ e₂ ++ e₃, ¬e'.fires p)
    (he : ¬e.fires p) : ∀ e' ∈ e₁ ++ e₂ ++ (e₃ ++ [e]), ¬e'.fires p := by
  intro e' h
  rw [← List.append_assoc] at h
  rcases List.mem_append.mp h with h | h
  · exact hno e' h
  · rwa [List.mem_singleton.mp h]

/-- Another event that is none of the alarm's. -/
theorem no_fires_snoc (hno : ∀ e ∈ evs, ¬e.fires p) (he : ¬e.fires p) :
    ∀ e' ∈ evs ++ [e], ¬e'.fires p := by
  intro e' h
  rcases List.mem_append.mp h with h | h
  · exact hno e' h
  · rwa [List.mem_singleton.mp h]

/-- An interrupt begins a `do_clocktick`. -/
theorem AlarmPhase.hardInt (h : AlarmPhase p a w evs) (hpc : w.pc = .receive) :
    AlarmPhase p a (clockTask w .HARD_INT)
      (evs ++ [.clocktick (w.realtime + w.pending_ticks)]) := by
  have hfires : ¬(ClockEvent.clocktick (F := F) (w.realtime + w.pending_ticks)).fires p := id
  cases h with
  | early hno hlate ha hnow =>
    by_cases hlt : w.realtime + w.pending_ticks < a
    · refine .early (no_fires_snoc hno hfires) (fun t ht => ?_) ha fun _ => hlt
      rcases List.mem_append.mp ht with ht | ht
      · exact hlate t ht
      · obtain rfl := ClockEvent.clocktick.inj (List.mem_singleton.mp ht)
        exact hlt
    · exact .due evs [] _ rfl (not_lt.mp hlt) hlate (fun t => List.not_mem_nil) (no_fires_snoc hno hfires)
        (Or.inl rfl) (not_lt.mp hlt) ha
  | due e₁ e₂ t hevs ht hlate hone hno hpc' hnow ha =>
    rw [hpc] at hpc'
    simp at hpc'
  | fired e₁ e₂ e₃ t e hevs ht hlate hone hf hno ha =>
    refine .fired e₁ e₂ (e₃ ++ [_]) t e ?_ ht hlate hone hf (no_fires_append hno hfires) ha
    rw [hevs]
    simp

/-- The event when the alarm of a process goes off. -/
theorem fire_event (w : Clock F) (rp : Slot) :
    ∃ e : ClockEvent F, (fire w rp).log = w.log ++ [e] ∧ (∀ p, e.fires p ↔ rp = p) ∧
      ∀ t, e ≠ .clocktick t := by
  unfold fire
  by_cases h : 0 ≤ procNumber rp
  · rw [if_pos h]
    exact ⟨_, rfl, fun p => Iff.rfl, fun t => by simp⟩
  · rw [if_neg h]
    exact ⟨_, rfl, fun p => Iff.rfl, fun t => by simp⟩

/-- A turn of the loop in which the alarm of some process goes off. -/
theorem AlarmPhase.fire (h : AlarmPhase p a w evs) (hpc : w.pc = .clocktickScan i)
    (hrp : nth (NR_TASKS + NR_PROCS) i = some rp) (h0 : w.p_alarm rp ≠ 0)
    (hle : w.p_alarm rp ≤ w.realtime) (he : e.fires rp) (hother : ∀ p, e.fires p → rp = p)
    (hnot : ∀ t, e ≠ .clocktick t) (next_alarm : ℤ) :
    AlarmPhase p a { fire w rp with next_alarm := next_alarm, pc := .clocktickScan (i + 1) }
      (evs ++ [e]) := by
  have hi := nth_eq_some.mp hrp
  have hticking : Ticking w := by
    unfold Ticking
    rw [hpc]
    trivial
  have halarm : ∀ q ≠ rp, (Kernel.fire w rp).p_alarm q = w.p_alarm q :=
    fun q hq => Function.update_of_ne hq ..
  cases h with
  | early hno hlate ha hnow =>
    have hne : p ≠ rp := by
      rintro rfl
      exact absurd (hnow hticking) (not_lt.mpr (ha ▸ hle))
    refine .early (no_fires_snoc hno fun hf => hne (hother p hf).symm) (fun t ht => ?_)
      ((halarm p hne).trans ha) fun _ => hnow hticking
    rcases List.mem_append.mp ht with ht | ht
    · exact hlate t ht
    · exact absurd (List.mem_singleton.mp ht).symm (hnot t)
  | due e₁ e₂ t hevs ht hlate hone hno hpc' hnow ha =>
    have hone' : ∀ t, ClockEvent.clocktick t ∉ e₂ ++ [e] := by
      intro t ht
      rcases List.mem_append.mp ht with ht | ht
      · exact hone t ht
      · exact absurd (List.mem_singleton.mp ht).symm (hnot t)
    by_cases hp : p = rp
    · -- The loop has come to the process.
      subst hp
      refine .fired e₁ e₂ [] t e ?_ ht hlate hone he ?_
        (Function.update_self ..)
      · rw [hevs]
        simp
      · intro e' he'
        refine hno e' ?_
        rw [hevs]
        rw [List.append_nil] at he'
        rcases List.mem_append.mp he' with h | h
        · exact List.mem_append_left _ h
        · exact List.mem_append_right _ (List.mem_cons_of_mem _ h)
    · rw [hpc] at hpc'
      obtain ⟨j, hj, heq⟩ := hpc'.resolve_left (by simp)
      obtain rfl := ClockPc.clocktickScan.inj heq
      have hlt : i < p.val := lt_of_le_of_ne hj fun e => hp (Fin.ext (e.symm.trans hi))
      refine .due e₁ (e₂ ++ [e]) t ?_ ht hlate hone'
        (no_fires_snoc hno fun hf => hp (hother p hf).symm) (Or.inr ⟨i + 1, hlt, rfl⟩) hnow
        ((halarm p hp).trans ha)
      rw [hevs]
      simp
  | fired e₁ e₂ e₃ t e' hevs ht hlate hone hf hno ha =>
    have hne : p ≠ rp := by
      rintro rfl
      exact h0 ha
    refine .fired e₁ e₂ (e₃ ++ [e]) t e' ?_ ht hlate hone hf
      (no_fires_append hno fun hf => hne (hother p hf).symm) ((halarm p hne).trans ha)
    rw [hevs]
    simp

/-- The phase after a step, with the events of the step. -/
def Follows (p : Slot) (a : ℤ) (evs : List (ClockEvent F)) (w w' : Clock F) : Prop :=
  ∃ new, w'.log = w.log ++ new ∧ AlarmPhase p a w' (evs ++ new)

/-- The phase after a step without events. -/
theorem AlarmPhase.follows (h : AlarmPhase p a w' evs) (hlog : w'.log = w.log) :
    Follows p a evs w w' := by
  refine ⟨[], ?_, ?_⟩
  · rw [hlog, List.append_nil]
  · rwa [List.append_nil]

/-- The clock task goes on. -/
theorem AlarmPhase.goOn (h : AlarmPhase p a w evs) (hinv : ClockInv w) (ha : a ≠ 0)
    (bill_ptr : Slot) : Follows p a evs w (goOn w bill_ptr) := by
  have hquiet : ∀ w' : Clock F, w'.log = w.log → AlarmPhase p a w' evs → Follows p a evs w w' :=
    fun w' hlog hw' => hw'.follows hlog
  have hnot : ∀ pc, w.pc = pc → (∀ i, pc ≠ .clocktickScan i) → pc ≠ .clocktick → ¬Ticking w := by
    intro pc hpc hscan htick
    unfold Ticking
    rw [hpc]
    cases pc with
    | clocktick => exact absurd rfl htick
    | clocktickScan i => exact absurd rfl (hscan i)
    | _ => exact id
  unfold Kernel.goOn
  cases hpc : w.pc with
  | receive => exact hquiet w rfl h
  | setalarm => exact hquiet _ rfl (h.quiet rfl (Or.inr ⟨hnot _ hpc (by simp) (by simp), id⟩))
  | setalarmScan i =>
    have hscan : ¬Ticking w := hnot _ hpc (by simp) (by simp)
    dsimp only
    cases hn : nth (NR_TASKS + NR_PROCS) i with
    | none => exact hquiet _ rfl (h.quiet rfl (Or.inr ⟨hscan, id⟩))
    | some rp =>
      obtain ⟨next_alarm, heq, -, -⟩ := nextIs_spec w rp
      dsimp only
      rw [heq]
      exact hquiet _ rfl (h.quiet rfl (Or.inr ⟨hscan, id⟩))
  | clocktick =>
    have hnext := hinv.next p
    rw [hpc] at hnext
    dsimp only
    by_cases hlt : w.next_alarm ≤ w.realtime
    · rw [if_pos hlt]
      refine hquiet _ rfl ?_
      cases h with
      | early hno hlate halarm hnow =>
        refine .early hno hlate halarm fun _ => hnow ?_
        unfold Ticking
        rw [hpc]
        trivial
      | due e₁ e₂ t hevs ht hlate hone hno hpc' hnow halarm =>
        exact .due e₁ e₂ t hevs ht hlate hone hno (Or.inr ⟨0, Nat.zero_le _, rfl⟩) hnow halarm
      | fired e₁ e₂ e₃ t e hevs ht hlate hone hfires hno halarm =>
        exact .fired e₁ e₂ e₃ t e hevs ht hlate hone hfires hno halarm
    · rw [if_neg hlt]
      refine hquiet _ rfl ?_
      cases h with
      | early hno hlate halarm hnow => exact .early hno hlate halarm fun hticking => absurd hticking id
      | due e₁ e₂ t hevs ht hlate hone hno hpc' hnow halarm =>
        -- The alarm is not missed: `next_alarm` is not behind it.
        have hle := hnext trivial (halarm.symm ▸ ha)
        rw [halarm] at hle
        exact absurd (hle.trans hnow) hlt
      | fired e₁ e₂ e₃ t e hevs ht hlate hone hfires hno halarm =>
        exact .fired e₁ e₂ e₃ t e hevs ht hlate hone hfires hno halarm
  | clocktickScan i =>
    have hticking : Ticking w := by
      unfold Ticking
      rw [hpc]
      trivial
    dsimp only
    cases hn : nth (NR_TASKS + NR_PROCS) i with
    | none =>
      refine hquiet _ rfl ?_
      cases h with
      | early hno hlate halarm hnow => exact .early hno hlate halarm fun hticking => absurd hticking id
      | due e₁ e₂ t hevs ht hlate hone hno hpc' hnow halarm =>
        rw [hpc] at hpc'
        obtain ⟨j, hj, heq⟩ := hpc'.resolve_left (by simp)
        obtain rfl := ClockPc.clocktickScan.inj heq
        exact absurd (lt_of_nth_none hn p) (not_lt.mpr hj)
      | fired e₁ e₂ e₃ t e hevs ht hlate hone hfires hno halarm =>
        exact .fired e₁ e₂ e₃ t e hevs ht hlate hone hfires hno halarm
    | some rp =>
      dsimp only
      obtain ⟨next_alarm, -, ⟨h0, hle, heq⟩ | ⟨hrp, heq⟩⟩ := clocktickProc_spec w rp
      · obtain ⟨e, hlog, hfires, hnot⟩ := fire_event w rp
        rw [heq]
        exact ⟨[e], hlog, h.fire hpc hn h0 hle ((hfires rp).mpr rfl) (fun q => (hfires q).mp) hnot _⟩
      · rw [heq]
        refine hquiet _ rfl ?_
        cases h with
        | early hno hlate halarm hnow => exact .early hno hlate halarm fun _ => hnow hticking
        | due e₁ e₂ t hevs ht hlate hone hno hpc' hnow halarm =>
          rw [hpc] at hpc'
          obtain ⟨j, hj, heq⟩ := hpc'.resolve_left (by simp)
          obtain rfl := ClockPc.clocktickScan.inj heq
          have hne : i ≠ p.val := by
            rintro rfl
            obtain rfl : p = rp := Option.some.inj ((nth_slot p).symm.trans hn)
            have hlt := (hrp (halarm.symm ▸ ha)).1
            rw [halarm] at hlt
            exact absurd hnow (not_le.mpr hlt)
          exact .due e₁ e₂ t hevs ht hlate hone hno (Or.inr ⟨i + 1, lt_of_le_of_ne hj hne, rfl⟩) hnow
            halarm
        | fired e₁ e₂ e₃ t e hevs ht hlate hone hfires hno halarm =>
          exact .fired e₁ e₂ e₃ t e hevs ht hlate hone hfires hno halarm
  | clocktickEnd =>
    obtain ⟨_, _, heq⟩ := quantum_eq w bill_ptr
    dsimp only
    rw [heq]
    exact hquiet _ rfl (h.quiet rfl (Or.inr ⟨hnot _ hpc (by simp) (by simp), id⟩))

/-- A step that does not set or clear the alarm. -/
theorem AlarmPhase.step (h : AlarmPhase p a w evs) (hinv : ClockInv w) (ha : a ≠ 0)
    (hst : ClockStep w act w') (hsets : ¬act.sets p) :
    Follows p a evs w w' := by
  have hquiet : ∀ w' : Clock F, w'.log = w.log → AlarmPhase p a w' evs → Follows p a evs w w' :=
    fun w' hlog hw' => hw'.follows hlog
  have hnot : w.pc = .receive → ∀ w' : Clock F, w'.pc = w.pc → ¬Ticking w ∧ ¬Ticking w' := by
    intro hpc w' hpc'
    unfold Ticking
    rw [hpc', hpc]
    exact ⟨id, id⟩
  cases hst with
  | @tick bill_ptr ready hr =>
    obtain ⟨_, _, heq⟩ := clockHandler_eq w bill_ptr ready
    rw [heq]
    exact hquiet _ rfl (h.quiet rfl (Or.inl ⟨rfl, rfl⟩))
  | @message msg hpc hr =>
    cases msg with
    | SET_ALARM rp delta function =>
      have hne : p ≠ rp := fun e => hsets e.symm
      refine hquiet _ rfl (h.quiet (Function.update_of_ne hne ..) (Or.inr ⟨?_, id⟩))
      exact (hnot hpc w rfl).1
    | GET_TIME => exact hquiet _ rfl (h.quiet rfl (Or.inr (hnot hpc _ rfl)))
    | SET_TIME newtime => exact hquiet _ rfl (h.quiet rfl (Or.inr (hnot hpc _ rfl)))
    | HARD_INT => exact ⟨_, rfl, h.hardInt hpc⟩
  | @goOn bill_ptr hpc => exact h.goOn hinv ha bill_ptr
  | @fork rpp rpc hpc hpp hpc' =>
    have hne : p ≠ rpc := fun e => hsets e.symm
    exact hquiet _ rfl (h.quiet (Function.update_of_ne hne ..) (Or.inl ⟨rfl, rfl⟩))
  | @exec rp hpc hp =>
    have hne : p ≠ rp := fun e => hsets e.symm
    exact hquiet _ rfl (h.quiet (Function.update_of_ne hne ..) (Or.inl ⟨rfl, rfl⟩))
  | @xit rp hpc hp =>
    have hne : p ≠ rp := fun e => hsets e.symm
    exact hquiet _ rfl (h.quiet (Function.update_of_ne hne ..) (Or.inl ⟨rfl, rfl⟩))

/-- A run that does not set or clear the alarm. -/
theorem AlarmPhase.of_run {as : List (ClockAct F)} (hinv : ClockInv w) (h0 : w.p_alarm p ≠ 0)
    (hticking : ¬Ticking w) (hrun : Run ClockStep w as w') (hsets : ∀ act ∈ as, ¬act.sets p) :
    ClockInv w' ∧ ∃ evs, w'.log = w.log ++ evs ∧ AlarmPhase p (w.p_alarm p) w' evs := by
  induction hrun with
  | nil =>
    refine ⟨hinv, [], by rw [List.append_nil], ?_⟩
    exact .early (fun _ h => absurd h List.not_mem_nil) (fun _ h => absurd h List.not_mem_nil) rfl
      fun h => absurd h hticking
  | snoc _ hst ih =>
    obtain ⟨hinv, evs, hlog, hphase⟩ := ih fun act hact => hsets act (List.mem_append_left _ hact)
    obtain ⟨new, hnew, hphase⟩ := hphase.step hinv h0 hst (hsets _ (by simp))
    exact ⟨hinv.step hst, evs ++ new, by rw [hnew, hlog, List.append_assoc], hphase⟩

/-! ## Alarms -/

/-- The invariant holds in every state of every run. -/
theorem ClockInv.of_reachable (h : Reachable ClockStart ClockStep w) : ClockInv w :=
  h.invariant (P := ClockInv) (fun _ h => h.inv) fun _ _ _ h hst => h.step hst

/-- `next_alarm` is not behind any alarm, unless it is being recomputed. -/
theorem ClockInv.next_le (h : ClockInv w) (hscan : ¬Scanning w) (hp : w.p_alarm p ≠ 0) :
    w.next_alarm ≤ w.p_alarm p := by
  refine h.next p ?_ hp
  unfold Scanning at hscan
  cases hpc : w.pc with
  | setalarm | setalarmScan | clocktickScan =>
    rw [hpc] at hscan
    exact absurd trivial hscan
  | _ => trivial

/-- In every run, whatever the order of requests, ticks and messages, an alarm goes off once and in
time, and as soon as it is due the clock task is interrupted, unless it is recomputing `next_alarm`.
-/
theorem alarm_delivery (h : Reachable ClockStart ClockStep w) : AlarmsOk w := by
  have hinv := ClockInv.of_reachable h
  refine ⟨fun hscan p hp => hinv.next_le hscan hp, fun hscan p hp hdue bill_ptr ready => ?_,
    fun hticking p hp as w' hrun hsets => ?_⟩
  · have hle := hinv.next_le hscan hp
    have hdue' : w.next_alarm ≤ w.realtime + (w.pending_ticks + 1) := by omega
    unfold clockHandler
    dsimp only
    rw [if_pos (Or.inl hdue')]
  · obtain ⟨-, evs, hlog, hphase⟩ := AlarmPhase.of_run hinv hp hticking hrun hsets
    exact ⟨evs, hlog, hphase.fate⟩

/-- The variables of the clock task at the start. -/
def clockInit : Clock Unit where
  p_alarm _ := 0
  boot_time := 0
  next_alarm := 0
  pending_ticks := 0
  realtime := 0
  sched_ticks := SCHED_RATE
  prev_ptr := none
  watch_dog _ := none
  mc_l1 := 0
  pc := .receive
  log := []

/-- They are those of a start. -/
theorem clockInit_start : ClockStart clockInit := ⟨rfl, rfl, rfl, rfl, rfl, rfl, rfl⟩

/-- The clock task goes on several times. -/
theorem reachable_goOn (h : Reachable ClockStart ClockStep w) (bill_ptr : Slot) (n : ℕ)
    (hpc : ∀ i < n, ((fun w => goOn w bill_ptr)^[i] w).pc ≠ .receive) :
    Reachable ClockStart ClockStep ((fun w => goOn w bill_ptr)^[n] w) := by
  obtain ⟨as, hr⟩ : ∃ as, Run ClockStep w as ((fun w => goOn w bill_ptr)^[n] w) := by
    refine Run.iterate fun i hi => ⟨.goOn bill_ptr, ?_⟩
    rw [Function.iterate_succ_apply']
    exact .goOn (hpc i hi)
  exact h.run hr

/-- The first user has an alarm in a tick. -/
def alarmSoon : Clock Unit :=
  (fun w => goOn w initSlot)^[43] (clockTask clockInit (.SET_ALARM initSlot 1 none))

/-- This is in a run. -/
theorem alarmSoon_reachable : Reachable ClockStart ClockStep alarmSoon :=
  reachable_goOn ((Reachable.of_init clockInit_start).of_step (.message rfl (by decide))) _ _
    (by decide +kernel)

/-- The alarm will go off. -/
theorem alarm_delivery_soon : alarmSoon.p_alarm initSlot = 1 ∧ AlarmsOk alarmSoon :=
  ⟨by decide +kernel, alarm_delivery alarmSoon_reachable⟩

/-- The tick comes, and the clock task begins to handle another request, which was there before. -/
def alarmDue : Clock Unit :=
  goOn (clockTask (clockHandler alarmSoon initSlot false).2 (.SET_ALARM ⟨12, by decide⟩ 100 none))
    initSlot

/-- While the clock task recomputes `next_alarm`, that is behind an alarm that is due, and
`clock_handler` does not interrupt the clock task. -/
theorem alarm_missed : Reachable ClockStart ClockStep alarmDue ∧
    alarmDue.p_alarm initSlot ≠ 0 ∧ alarmDue.p_alarm initSlot < alarmDue.next_alarm ∧
    alarmDue.p_alarm initSlot ≤ alarmDue.realtime + alarmDue.pending_ticks ∧
    (clockHandler alarmDue initSlot false).1 = false := by
  have htick := alarmSoon_reachable.of_step
    (@ClockStep.tick _ _ initSlot false (by decide +kernel))
  have hmsg := htick.of_step
    (@ClockStep.message _ _ (.SET_ALARM ⟨12, by decide⟩ 100 none) (by decide +kernel)
      (by decide +kernel))
  refine ⟨hmsg.of_step (.goOn (by decide +kernel)), ?_, ?_, ?_, ?_⟩
  · decide +kernel
  · decide +kernel
  · decide +kernel
  · decide +kernel

end Minix.Kernel
