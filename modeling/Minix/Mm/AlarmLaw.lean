import Minix.Kernel.ClockRun
import Minix.Lib.Words
import Minix.Mm.Alarms

/-!
# The arithmetic of alarms

`alarm(s1)` goes from `do_alarm` of the memory manager through `set_alarm` to `do_setalarm` of the
clock task. The ticks are an unsigned product, the message and the times are longs, and the seconds
left come back as an `int`. Here the times of the clock task are cut to longs where it
computes them (`setalarmLong`), and the other steps are those of `Kernel.ClockStep`.

`AlarmLaw` is what a process can rely on: the alarm does not go off before its time, and the next
call tells what is left of it. `alarm_law` says that this is so exactly if the product and the time
at which the alarm goes off fit.
-/

namespace Minix.Mm

open Lib
open Kernel (Clock ClockAct ClockEvent ClockStep ClockStart ClockInv AlarmPhase Follows Ticking Slot
  NR_TASKS NR_PROCS HZ MAX_P_LONG SCHED_RATE istaskp clockTask goOn)

variable {F : Type}

/-- `do_setalarm` with times that are longs, up to the loop over the table. -/
def setalarmLong (w : Clock F) (rp : Slot) (delta_ticks : ℤ) (function : Option F) : Clock F :=
  let realtime := w.realtime + w.pending_ticks
  { w with
    realtime := realtime
    pending_ticks := 0
    mc_l1 := if w.p_alarm rp = 0 then 0 else (long32 (w.p_alarm rp - realtime)).tdiv HZ
    p_alarm := Function.update w.p_alarm rp
      (if delta_ticks = 0 then 0 else long32 (realtime + delta_ticks))
    watch_dog := if istaskp rp then Function.update w.watch_dog rp function else w.watch_dog
    pc := .setalarm }

/-- The action is a request for an alarm. -/
def IsSetalarm : ClockAct F → Prop
  | .message (.SET_ALARM _ _ _) => True
  | _ => False

/-- A step of the clock, whose requests are cut to longs. -/
inductive LongStep (w : Clock F) : ClockAct F → Clock F → Prop
  | setalarm {rp : Slot} {delta_ticks : ℤ} {function : Option F} (hpc : w.pc = .receive) :
      LongStep w (.message (.SET_ALARM rp delta_ticks function))
        (setalarmLong w rp delta_ticks function)
  | other {act : ClockAct F} {w' : Clock F} (hact : ¬IsSetalarm act) (hst : ClockStep w act w') :
      LongStep w act w'

/-- `set_alarm` asks the clock task for an alarm in a number of seconds. -/
def alarmCall (w : Clock F) (rp : Slot) (sec : ℕ) : Clock F :=
  setalarmLong w rp (alarmTicks sec) none

/-- What `alarm` returns. -/
def alarmReturn (w : Clock F) (rp : Slot) (sec : ℕ) : ℤ := int16 (alarmCall w rp sec).mc_l1

/-- The action is a tick of the clock. -/
def isTick : ClockAct F → Bool
  | .tick _ _ => true
  | _ => false

/-- Number of ticks of a run. -/
def tickCount (as : List (ClockAct F)) : ℕ := as.countP isTick

/-- After a call of `alarm`, as long as the time has not passed and nothing else sets or clears the
alarm of the process: it does not go off, and another call tells how many seconds are left. -/
structure AlarmLaw (w : Clock F) (p : Slot) (s1 : ℕ) : Prop where
  early : ∀ as w', Run LongStep (alarmCall w p s1) as w' → (∀ act ∈ as, ¬act.sets p) →
    (tickCount as : ℤ) < HZ * s1 → ∃ evs, w'.log = w.log ++ evs ∧ ∀ e ∈ evs, ¬e.fires p
  left : ∀ as w', Run LongStep (alarmCall w p s1) as w' → (∀ act ∈ as, ¬act.sets p) →
    (tickCount as : ℤ) < HZ * s1 → w'.pc = .receive →
    ∀ s2, alarmReturn w' p s2 = (HZ * s1 - tickCount as) / HZ

section Law

variable {w w' : Clock F} {act : ClockAct F} {as : List (ClockAct F)} {p : Slot} {s1 : ℕ} {a : ℤ}
  {evs : List (ClockEvent F)}

/-! ## Steps with longs -/

theorem setalarmLong_inv (h : ClockInv w) (rp : Slot) (delta_ticks : ℤ) (function : Option F) :
    ClockInv (setalarmLong w rp delta_ticks function) := by
  refine ⟨fun p => ?_, fun p hP => absurd hP id⟩
  show Function.update w.p_alarm rp _ p ≤ _
  by_cases hp : p = rp
  · rw [hp, Function.update_self]
    split
    · decide
    · exact Int.le_of_lt_add_one (long32_range _).2
  · rw [Function.update_of_ne hp]
    exact h.le p

theorem LongStep.inv (h : ClockInv w) (hst : LongStep w act w') : ClockInv w' := by
  cases hst with
  | setalarm hpc => exact setalarmLong_inv h _ _ _
  | other hact hst => exact h.step hst

/-- What is known of the time: `do_clocktick` has not begun later than now. -/
structure TimeInv (w : Clock F) : Prop where
  realtime : 0 ≤ w.realtime
  pending : 0 ≤ w.pending_ticks
  le : w.realtime + w.pending_ticks ≤ MAX_P_LONG
  clockticks : ∀ t, .clocktick t ∈ w.log → t ≤ w.realtime + w.pending_ticks

/-- What the clock task goes on with takes no time, and begins no `do_clocktick`. -/
theorem goOn_time (w : Clock F) (bill_ptr : Slot) :
    (goOn w bill_ptr).realtime = w.realtime ∧ (goOn w bill_ptr).pending_ticks = w.pending_ticks ∧
      ∀ t, .clocktick t ∈ (goOn w bill_ptr).log → .clocktick t ∈ w.log := by
  unfold goOn
  split
  · exact ⟨rfl, rfl, fun _ => id⟩
  · exact ⟨rfl, rfl, fun _ => id⟩
  · split
    · next rp _ =>
      obtain ⟨_, heq, -⟩ := Kernel.nextIs_spec w rp
      rw [heq]
      exact ⟨rfl, rfl, fun _ => id⟩
    · exact ⟨rfl, rfl, fun _ => id⟩
  · split <;> exact ⟨rfl, rfl, fun _ => id⟩
  · split
    · next rp _ =>
      obtain ⟨_, -, ⟨-, -, heq⟩ | ⟨-, heq⟩⟩ := Kernel.clocktickProc_spec w rp
      · obtain ⟨e, hlog, -, hnot⟩ := Kernel.fire_event w rp
        rw [heq]
        refine ⟨rfl, rfl, fun t ht => ?_⟩
        change .clocktick t ∈ (Kernel.fire w rp).log at ht
        rw [hlog, List.mem_append, List.mem_singleton] at ht
        exact ht.resolve_right fun he => hnot t he.symm
      · rw [heq]
        exact ⟨rfl, rfl, fun _ => id⟩
    · exact ⟨rfl, rfl, fun _ => id⟩
  · obtain ⟨_, _, heq⟩ := Kernel.quantum_eq w bill_ptr
    rw [heq]
    exact ⟨rfl, rfl, fun _ => id⟩

/-- Time goes on with the ticks. -/
theorem LongStep.time (h : TimeInv w) (hst : LongStep w act w') :
    TimeInv w' ∧ w'.realtime + w'.pending_ticks =
      w.realtime + w.pending_ticks + if isTick act then 1 else 0 := by
  have hreal := h.realtime
  have hpending := h.pending
  have hle := h.le
  cases hst with
  | setalarm hpc =>
    refine ⟨⟨?_, le_rfl, ?_, fun t ht => ?_⟩, ?_⟩
    · show 0 ≤ w.realtime + w.pending_ticks
      omega
    · show w.realtime + w.pending_ticks + 0 ≤ MAX_P_LONG
      omega
    · show t ≤ w.realtime + w.pending_ticks + 0
      rw [add_zero]
      exact h.clockticks t ht
    · rfl
  | other hact hst =>
    cases hst with
    | @tick bill_ptr ready hr =>
      obtain ⟨_, _, heq⟩ := Kernel.clockHandler_eq w bill_ptr ready
      rw [heq]
      refine ⟨⟨hreal, ?_, ?_, fun t ht => ?_⟩, ?_⟩
      · show 0 ≤ w.pending_ticks + 1
        omega
      · show w.realtime + (w.pending_ticks + 1) ≤ MAX_P_LONG
        omega
      · have := h.clockticks t ht
        show t ≤ w.realtime + (w.pending_ticks + 1)
        omega
      · show w.realtime + (w.pending_ticks + 1) = w.realtime + w.pending_ticks + 1
        omega
    | @message msg hpc hr =>
      have hnow : TimeInv { w with
          realtime := w.realtime + w.pending_ticks
          pending_ticks := 0 } := by
        refine ⟨?_, le_rfl, ?_, fun t ht => ?_⟩
        · show 0 ≤ w.realtime + w.pending_ticks
          omega
        · show w.realtime + w.pending_ticks + 0 ≤ MAX_P_LONG
          omega
        · show t ≤ w.realtime + w.pending_ticks + 0
          rw [add_zero]
          exact h.clockticks t ht
      cases msg with
      | SET_ALARM => exact absurd trivial hact
      | GET_TIME => exact ⟨⟨hnow.realtime, hnow.pending, hnow.le, hnow.clockticks⟩, rfl⟩
      | SET_TIME => exact ⟨⟨hnow.realtime, hnow.pending, hnow.le, hnow.clockticks⟩, rfl⟩
      | HARD_INT =>
        refine ⟨⟨hnow.realtime, hnow.pending, hnow.le, fun t ht => ?_⟩, rfl⟩
        change .clocktick t ∈ w.log ++ [.clocktick (w.realtime + w.pending_ticks)] at ht
        show t ≤ w.realtime + w.pending_ticks + 0
        obtain ht | ht := List.mem_append.mp ht
        · exact hnow.clockticks t ht
        · obtain rfl := ClockEvent.clocktick.inj (List.mem_singleton.mp ht)
          rw [add_zero]
    | @goOn bill_ptr hpc =>
      obtain ⟨hr, hp, hlog⟩ := goOn_time w bill_ptr
      refine ⟨⟨?_, ?_, ?_, fun t ht => ?_⟩, ?_⟩
      · rw [hr]
        exact hreal
      · rw [hp]
        exact hpending
      · rw [hr, hp]
        exact hle
      · rw [hr, hp]
        exact h.clockticks t (hlog t ht)
      · rw [hr, hp]
        exact (add_zero _).symm
    | fork | exec | xit => exact ⟨⟨hreal, hpending, hle, h.clockticks⟩, (add_zero _).symm⟩

theorem ticks_concat (as : List (ClockAct F)) (act : ClockAct F) :
    (tickCount (as ++ [act]) : ℤ) = tickCount as + if isTick act then 1 else 0 := by
  unfold tickCount
  rw [List.countP_append, List.countP_singleton]
  split <;> rfl

/-- What is known of the alarms and of the time. -/
structure LawInv (w : Clock F) : Prop where
  clock : ClockInv w
  time : TimeInv w

theorem LawInv.step (h : LawInv w) (hst : LongStep w act w') : LawInv w' :=
  ⟨hst.inv h.clock, (hst.time h.time).1⟩

theorem LawInv.of_reachable (h : Reachable ClockStart LongStep w) : LawInv w := by
  refine h.invariant (P := LawInv) (fun w h => ⟨h.inv, ?_⟩) fun _ _ _ h hst => h.step hst
  refine ⟨h.realtime.ge, h.pending_ticks.ge, ?_, fun t ht => ?_⟩
  · rw [h.realtime, h.pending_ticks]
    decide
  · rw [h.log] at ht
    cases ht

/-- A step that does not set or clear the alarm. -/
theorem phase_step (h : AlarmPhase p a w evs) (hinv : LawInv w) (ha : a ≠ 0)
    (hst : LongStep w act w') (hsets : ¬act.sets p) : Follows p a evs w w' := by
  cases hst with
  | @setalarm rp delta_ticks function hpc =>
    have hne : p ≠ rp := fun e => hsets e.symm
    have hidle : ¬Ticking w := by
      unfold Ticking
      rw [hpc]
      exact id
    have h' : AlarmPhase p a (setalarmLong w rp delta_ticks function) evs :=
      h.quiet (Function.update_of_ne hne ..) (.inr ⟨hidle, id⟩)
    exact h'.follows rfl
  | other hact hst => exact h.step hinv.clock ha hst hsets

/-- A run that does not set or clear the alarm. -/
theorem phase_run (h : AlarmPhase p a w evs) (hinv : LawInv w) (ha : a ≠ 0)
    (hrun : Run LongStep w as w') (hsets : ∀ act ∈ as, ¬act.sets p) : Follows p a evs w w' := by
  have hall : LawInv w' ∧ Follows p a evs w w' := by
    induction hrun with
    | nil => exact ⟨hinv, h.follows rfl⟩
    | snoc _ hst ih =>
      obtain ⟨hinv', new, hlog, hphase⟩ := ih fun act hact => hsets act (List.mem_append_left _ hact)
      obtain ⟨more, hmore, hphase'⟩ := phase_step hphase hinv' ha hst (hsets _ (by simp))
      refine ⟨hinv'.step hst, new ++ more, ?_, ?_⟩
      · rw [hmore, hlog, List.append_assoc]
      · rw [← List.append_assoc]
        exact hphase'
  exact hall.2

/-- An alarm that has been set, while the clock task is not in `do_clocktick`. -/
theorem phase_start (halarm : w.p_alarm p = a) (hidle : ¬Ticking w) : AlarmPhase p a w [] :=
  .early (fun _ h => absurd h List.not_mem_nil) (fun _ h => absurd h List.not_mem_nil) halarm
    fun h => absurd h hidle

/-- The time at the end of a run. -/
theorem time_run (hinv : LawInv w) (hrun : Run LongStep w as w') :
    LawInv w' ∧ w'.realtime + w'.pending_ticks = w.realtime + w.pending_ticks + tickCount as := by
  induction hrun with
  | nil => exact ⟨hinv, (add_zero _).symm⟩
  | snoc _ hst ih =>
    obtain ⟨hinv', htime⟩ := ih
    refine ⟨hinv'.step hst, ?_⟩
    rw [(hst.time hinv'.time).2, htime, ticks_concat]
    omega

/-! ## The clock task comes to an end -/

/-- How far the clock task is from the end of what it does. -/
def stepsLeft : Kernel.ClockPc → ℕ
  | .receive => 0
  | .setalarm => NR_TASKS + NR_PROCS + 3
  | .setalarmScan i => NR_TASKS + NR_PROCS - i + 1
  | .clocktick => NR_TASKS + NR_PROCS + 4
  | .clocktickScan i => NR_TASKS + NR_PROCS - i + 2
  | .clocktickEnd => 1

theorem lt_of_nth {i : ℕ} {rp : Slot} (h : Lib.nth (NR_TASKS + NR_PROCS) i = some rp) :
    i < NR_TASKS + NR_PROCS := by
  have hi := Lib.nth_eq_some.mp h
  have hlt := rp.isLt
  omega

theorem stepsLeft_goOn (w : Clock F) (bill_ptr : Slot) (hpc : w.pc ≠ .receive) :
    stepsLeft (goOn w bill_ptr).pc < stepsLeft w.pc := by
  unfold goOn
  cases h : w.pc with
  | receive => exact absurd h hpc
  | setalarm =>
    show NR_TASKS + NR_PROCS - 0 + 1 < NR_TASKS + NR_PROCS + 3
    omega
  | setalarmScan i =>
    dsimp only
    split
    · next rp hrp =>
      have hlt := lt_of_nth hrp
      show NR_TASKS + NR_PROCS - (i + 1) + 1 < NR_TASKS + NR_PROCS - i + 1
      omega
    · exact Nat.succ_pos _
  | clocktick =>
    dsimp only
    split
    · show NR_TASKS + NR_PROCS - 0 + 2 < NR_TASKS + NR_PROCS + 4
      omega
    · show 1 < NR_TASKS + NR_PROCS + 4
      omega
  | clocktickScan i =>
    dsimp only
    split
    · next rp hrp =>
      have hlt := lt_of_nth hrp
      show NR_TASKS + NR_PROCS - (i + 1) + 2 < NR_TASKS + NR_PROCS - i + 2
      omega
    · show 1 < NR_TASKS + NR_PROCS - i + 2
      omega
  | clocktickEnd => exact Nat.one_pos

/-- Outside of `do_clocktick` no alarm goes off. -/
theorem goOn_idle (hidle : ¬Ticking w) (bill_ptr : Slot) :
    ¬Ticking (goOn w bill_ptr) ∧ (goOn w bill_ptr).p_alarm = w.p_alarm ∧
      (goOn w bill_ptr).log = w.log := by
  unfold goOn
  cases h : w.pc with
  | receive => exact ⟨hidle, rfl, rfl⟩
  | setalarm => exact ⟨id, rfl, rfl⟩
  | setalarmScan i =>
    dsimp only
    split
    · next rp _ =>
      obtain ⟨_, heq, -⟩ := Kernel.nextIs_spec w rp
      rw [heq]
      exact ⟨id, rfl, rfl⟩
    · exact ⟨id, rfl, rfl⟩
  | clocktick | clocktickScan =>
    unfold Ticking at hidle
    rw [h] at hidle
    exact absurd trivial hidle
  | clocktickEnd =>
    obtain ⟨_, _, heq⟩ := Kernel.quantum_eq w bill_ptr
    dsimp only
    rw [heq]
    exact ⟨id, rfl, rfl⟩

/-- The clock task waits for a message again, before the next tick. -/
theorem exists_receive (p : Slot) (w : Clock F) : ∃ as w', Run LongStep w as w' ∧
    w'.pc = .receive ∧ tickCount as = 0 ∧ (∀ act ∈ as, ¬act.sets p) ∧
    (¬Ticking w → w'.p_alarm = w.p_alarm ∧ w'.log = w.log) := by
  induction hn : stepsLeft w.pc using Nat.strong_induction_on generalizing w with
  | _ n ih =>
    by_cases hpc : w.pc = .receive
    · exact ⟨[], w, .nil, hpc, rfl, fun _ h => absurd h List.not_mem_nil, fun _ => ⟨rfl, rfl⟩⟩
    · have hlt := stepsLeft_goOn w Kernel.initSlot hpc
      rw [hn] at hlt
      obtain ⟨as, w', hrun, hreceive, hticks, hsets, hsame⟩ := ih _ hlt _ rfl
      have hone : LongStep w (.goOn Kernel.initSlot) (goOn w Kernel.initSlot) := .other id (.goOn hpc)
      refine ⟨.goOn Kernel.initSlot :: as, w', (Run.single hone).append hrun, hreceive, ?_, ?_, ?_⟩
      · unfold tickCount at hticks ⊢
        rw [List.countP_cons, hticks]
        rfl
      · intro act hact
        obtain rfl | hact := List.mem_cons.mp hact
        · exact id
        · exact hsets act hact
      · intro hidle
        obtain ⟨hidle', halarm, hlog⟩ := goOn_idle hidle Kernel.initSlot
        obtain ⟨halarm', hlog'⟩ := hsame hidle'
        exact ⟨halarm'.trans halarm, hlog'.trans hlog⟩

/-! ## The law -/

theorem alarmTicks_range (sec : ℕ) : 0 ≤ alarmTicks sec ∧ alarmTicks sec < 65536 := by
  unfold alarmTicks HZ
  omega

theorem alarmTicks_eq {sec : ℕ} (h : HZ * sec < 2 ^ 16) : alarmTicks sec = HZ * sec := by
  unfold alarmTicks HZ at *
  omega

/-- The time of an alarm after the call. -/
theorem alarmCall_alarm (w : Clock F) (p : Slot) (sec : ℕ) : (alarmCall w p sec).p_alarm p =
    if alarmTicks sec = 0 then 0 else long32 (w.realtime + w.pending_ticks + alarmTicks sec) :=
  Function.update_self ..

theorem alarmCall_idle (w : Clock F) (p : Slot) (sec : ℕ) : ¬Ticking (alarmCall w p sec) := id

/-- What an alarm that fits goes through until its time comes. -/
theorem alarm_waits (hinv : LawInv w) (hpc : w.pc = .receive) (hs1 : 0 < s1) (hticks : HZ * s1 < 2 ^ 16)
    (hfits : w.realtime + w.pending_ticks + HZ * s1 ≤ MAX_P_LONG)
    (hrun : Run LongStep (alarmCall w p s1) as w') (hsets : ∀ act ∈ as, ¬act.sets p)
    (hearly : (tickCount as : ℤ) < HZ * s1) :
    (∃ evs, w'.log = w.log ++ evs ∧ ∀ e ∈ evs, ¬e.fires p) ∧
      w'.p_alarm p = w.realtime + w.pending_ticks + HZ * s1 ∧
      w'.realtime + w'.pending_ticks = w.realtime + w.pending_ticks + tickCount as := by
  have hreal := hinv.time.realtime
  have hpending := hinv.time.pending
  have hpos : 0 < HZ * s1 := mul_pos (by decide) (by exact_mod_cast hs1)
  have hcall : LawInv (alarmCall w p s1) := hinv.step (.setalarm hpc)
  have halarm : (alarmCall w p s1).p_alarm p = w.realtime + w.pending_ticks + HZ * s1 := by
    rw [alarmCall_alarm, alarmTicks_eq hticks, if_neg hpos.ne']
    unfold MAX_P_LONG at hfits
    exact long32_of_range (by omega) (by omega)
  have hne : (alarmCall w p s1).p_alarm p ≠ 0 := by
    rw [halarm]
    omega
  obtain ⟨hinv', htime⟩ := time_run hcall hrun
  have hnow : (alarmCall w p s1).realtime + (alarmCall w p s1).pending_ticks =
      w.realtime + w.pending_ticks := add_zero _
  rw [hnow] at htime
  rw [halarm] at hne
  obtain ⟨evs, hlog, hphase⟩ :=
    phase_run (phase_start halarm (alarmCall_idle w p s1)) hcall hne hrun hsets
  rw [List.nil_append] at hphase
  cases hphase with
  | early hno _ hset _ => exact ⟨⟨evs, hlog, hno⟩, hset, htime⟩
  | due _ _ _ _ _ _ _ hno _ _ hset => exact ⟨⟨evs, hlog, hno⟩, hset, htime⟩
  | fired e₁ e₂ e₃ t e hevs ht _ _ _ _ _ =>
    -- A `do_clocktick` at the time of the alarm would be in the future.
    have hmem : .clocktick t ∈ w'.log := by
      rw [hlog, hevs]
      simp
    have hle := hinv'.time.clockticks t hmem
    omega

theorem AlarmLaw.of_fits (hinv : LawInv w) (hpc : w.pc = .receive) (hs1 : 0 < s1)
    (hticks : HZ * s1 < 2 ^ 16) (hfits : w.realtime + w.pending_ticks + HZ * s1 ≤ MAX_P_LONG) :
    AlarmLaw w p s1 := by
  constructor
  · intro as w' hrun hsets hearly
    exact (alarm_waits hinv hpc hs1 hticks hfits hrun hsets hearly).1
  · intro as w' hrun hsets hearly _ s2
    obtain ⟨-, halarm, htime⟩ := alarm_waits hinv hpc hs1 hticks hfits hrun hsets hearly
    have hreal := hinv.time.realtime
    have hpending := hinv.time.pending
    have hpos : 0 ≤ HZ * s1 - tickCount as := by omega
    have hne : w'.p_alarm p ≠ 0 := by
      rw [halarm]
      omega
    have hleft : w'.p_alarm p - (w'.realtime + w'.pending_ticks) = HZ * s1 - tickCount as := by
      rw [halarm, htime]
      omega
    have hlong : long32 (HZ * s1 - tickCount as) = HZ * s1 - tickCount as :=
      long32_of_range (by omega) (by omega)
    show int16 (if w'.p_alarm p = 0 then 0 else
      (long32 (w'.p_alarm p - (w'.realtime + w'.pending_ticks))).tdiv HZ) = _
    rw [if_neg hne, hleft, hlong, Int.tdiv_eq_ediv_of_nonneg hpos]
    unfold HZ at *
    exact int16_of_range (by omega) (by omega)

/-- The call and what the clock task does until it waits for a message, without a tick. -/
theorem alarm_answered (hinv : LawInv w) (hpc : w.pc = .receive) (p : Slot) (s1 : ℕ) :
    ∃ as w', Run LongStep (alarmCall w p s1) as w' ∧ w'.pc = .receive ∧ tickCount as = 0 ∧
      (∀ act ∈ as, ¬act.sets p) ∧ LawInv w' ∧
      w'.p_alarm p = (if alarmTicks s1 = 0 then 0 else
        long32 (w.realtime + w.pending_ticks + alarmTicks s1)) ∧
      w'.realtime + w'.pending_ticks = w.realtime + w.pending_ticks ∧ w'.log = w.log := by
  have hcall : LawInv (alarmCall w p s1) := hinv.step (.setalarm hpc)
  obtain ⟨as, w', hrun, hreceive, hzero, hsets, hsame⟩ := exists_receive p (alarmCall w p s1)
  obtain ⟨halarm, hlog⟩ := hsame (alarmCall_idle w p s1)
  obtain ⟨hinv', htime⟩ := time_run hcall hrun
  refine ⟨as, w', hrun, hreceive, hzero, hsets, hinv', ?_, ?_, hlog⟩
  · rw [halarm, alarmCall_alarm]
  · rw [htime, hzero]
    show w.realtime + w.pending_ticks + 0 + 0 = _
    omega

/-- The seconds that are left at once tell whether the product fits. -/
theorem AlarmLaw.product (h : AlarmLaw w p s1) (hinv : LawInv w) (hpc : w.pc = .receive)
    (hs1 : 0 < s1) : HZ * s1 < 2 ^ 16 := by
  obtain ⟨as, w', hrun, hreceive, hzero, hsets, -, halarm, htime, -⟩ := alarm_answered hinv hpc p s1
  have hpos : ((tickCount as : ℕ) : ℤ) < HZ * s1 := by
    rw [hzero]
    unfold HZ
    omega
  have hleft := h.left as w' hrun hsets hpos hreceive 0
  have hreturn : alarmReturn w' p 0 = int16 (if w'.p_alarm p = 0 then 0 else
      (long32 (w'.p_alarm p - (w'.realtime + w'.pending_ticks))).tdiv HZ) := rfl
  obtain ⟨hlo, hhi⟩ := alarmTicks_range s1
  have hseconds : (HZ * s1 - ((0 : ℕ) : ℤ)) / HZ = s1 := by
    unfold HZ
    omega
  rw [hreturn, hzero, hseconds] at hleft
  have hnot_zero : w'.p_alarm p ≠ 0 := by
    intro hnone
    rw [if_pos hnone, int16_of_range (by decide) (by decide)] at hleft
    omega
  rw [if_neg hnot_zero, halarm, htime] at hleft
  rw [halarm] at hnot_zero
  by_cases hdelta : alarmTicks s1 = 0
  · rw [if_pos hdelta] at hnot_zero
    exact absurd rfl hnot_zero
  rw [if_neg hdelta, long32_long32_sub, add_sub_cancel_left,
    long32_of_range (by omega) (by omega), Int.tdiv_eq_ediv_of_nonneg hlo] at hleft
  unfold alarmTicks HZ at *
  rw [int16_of_range (by omega) (by omega)] at hleft
  omega

/-- An alarm at a time beyond the longs goes off at the next `do_clocktick`. -/
theorem AlarmLaw.time (h : AlarmLaw w p s1) (hinv : LawInv w) (hpc : w.pc = .receive)
    (hs1 : 0 < s1) : w.realtime + w.pending_ticks + HZ * s1 ≤ MAX_P_LONG := by
  by_contra hbeyond
  have hticks := h.product hinv hpc hs1
  obtain ⟨as, w₁, hrun, hreceive, hzero, hsets, hinv₁, halarm, htime, hlog⟩ :=
    alarm_answered hinv hpc p s1
  have hpast : w₁.p_alarm p < 0 := by
    have hle := hinv.time.le
    rw [halarm, alarmTicks_eq hticks, if_neg (by unfold HZ; omega), long32_eq]
    unfold MAX_P_LONG HZ at *
    split <;> omega
  -- The clock task begins a `do_clocktick`, and comes to its end.
  have htick : LongStep w₁ (.message .HARD_INT) (clockTask w₁ .HARD_INT) :=
    .other id (.message hreceive trivial)
  obtain ⟨bs, w₂, hrun', hreceive', hzero', hsets', -⟩ := exists_receive p (clockTask w₁ .HARD_INT)
  have hrest := (Run.single htick).append hrun'
  have hidle : ¬Ticking w₁ := by
    unfold Ticking
    rw [hreceive]
    exact id
  have hsets₂ : ∀ act ∈ [ClockAct.message .HARD_INT] ++ bs, ¬act.sets p := by
    intro act hact
    obtain hact | hact := List.mem_append.mp hact
    · rw [List.mem_singleton.mp hact]
      exact id
    · exact hsets' act hact
  obtain ⟨first, hfirst, hphase₁⟩ := phase_step (phase_start rfl hidle) hinv₁ hpast.ne htick id
  obtain ⟨new, hnew, hphase⟩ := phase_run hphase₁ (hinv₁.step htick) hpast.ne hrun' hsets'
  have hbegun : first = [.clocktick (w₁.realtime + w₁.pending_ticks)] :=
    List.append_cancel_left (hfirst.symm.trans rfl)
  rw [List.nil_append] at hphase
  have hquiet : ∃ evs, w₂.log = w.log ++ evs ∧ ∀ e ∈ evs, ¬e.fires p := by
    refine h.early _ w₂ (hrun.append hrest) ?_ ?_
    · intro act hact
      obtain hact | hact := List.mem_append.mp hact
      · exact hsets act hact
      · exact hsets₂ act hact
    · have hnone : tickCount (as ++ ([.message .HARD_INT] ++ bs)) = 0 := by
        unfold tickCount at *
        rw [List.countP_append, List.countP_append, hzero, hzero']
        rfl
      rw [hnone]
      unfold HZ
      omega
  obtain ⟨evs, hevs, hno⟩ := hquiet
  have hsame : evs = first ++ new := by
    rw [hnew, hfirst, hlog, List.append_assoc] at hevs
    exact (List.append_cancel_left hevs).symm
  rw [← hsame] at hphase
  have hreal := hinv₁.time.realtime
  have hpending := hinv₁.time.pending
  cases hphase with
  | early _ hlate _ _ =>
    have hmem : .clocktick (w₁.realtime + w₁.pending_ticks) ∈ evs := by
      rw [hsame, hbegun]
      exact List.mem_append_left _ (List.mem_singleton_self _)
    have hlt := hlate _ hmem
    omega
  | due _ _ _ _ _ _ _ _ hscan _ _ =>
    rw [hreceive'] at hscan
    obtain hscan | ⟨_, _, hscan⟩ := hscan
    · cases hscan
    · cases hscan
  | fired e₁ e₂ e₃ t e heq _ _ _ hfires _ _ =>
    refine hno e ?_ hfires
    rw [heq]
    simp

end Law

/-- The law of alarms holds exactly if the number of ticks fits in an unsigned word and the time at
which the alarm goes off in a long. -/
theorem alarm_law {w : Clock F} {p : Slot} {s1 : ℕ} (h : Reachable ClockStart LongStep w)
    (hpc : w.pc = .receive) (hs1 : 0 < s1) :
    AlarmLaw w p s1 ↔
      HZ * s1 < 2 ^ 16 ∧ w.realtime + w.pending_ticks + HZ * s1 ≤ MAX_P_LONG := by
  have hinv := LawInv.of_reachable h
  constructor
  · exact fun hlaw => ⟨hlaw.product hinv hpc hs1, hlaw.time hinv hpc hs1⟩
  · rintro ⟨hticks, hfits⟩
    exact .of_fits hinv hpc hs1 hticks hfits

/-- A process asks for an alarm in ten seconds when the system has just been started. -/
theorem alarm_law_init : AlarmLaw Kernel.clockInit Kernel.initSlot 10 :=
  (alarm_law (.of_init Kernel.clockInit_start) rfl (by decide)).mpr ⟨by decide, by decide⟩

/-- The second call after `alarm(1093)` returns 0. -/
theorem alarm_forgotten :
    ¬ AlarmLaw Kernel.clockInit Kernel.initSlot 1093 ∧ alarmTicks 1093 = 44 := by
  refine ⟨fun h => ?_, by decide⟩
  have hinv : LawInv Kernel.clockInit := .of_reachable (.of_init Kernel.clockInit_start)
  exact absurd (h.product hinv rfl (by decide)) (by decide)

end Minix.Mm
