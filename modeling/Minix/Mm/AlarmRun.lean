import Minix.Kernel.ClockRun
import Minix.Mm.AlarmDeeds

/-!
# Who owns an alarm

A process is armed while the kernel has an alarm or a `SIGALRM` for it. `AlarmInv` says that the
request of an armed process is outstanding if its `ALARM_ON` is on, that armed processes live, and
what else the requests need that the memory manager has still to make. All steps keep it that find
the parent, or the process that executes a program, disarmed (`alarm_owned`).

For the others it does not hold, since `do_fork` of the kernel copies the alarm to the child, and
that of the memory manager the bit (`alarm_inherited`).
-/

namespace Minix.Mm

open Lib
open Kernel (Clock ClockAct ClockEvent ClockStep Slot NR_TASKS clockTask goOn clocktickProc)

variable {F : Type} {w w' : AlarmSys F} {p q n m who child : ProcNr} {s s' : MState}
  {log log' : List AlarmEvent} {deeds : List Deed} {clock clock' : Clock F}

/-- The kernel has an alarm or a `SIGALRM` for the process. -/
def Armed (clock : Clock F) (pending : ProcNr → Bool) (p : ProcNr) : Prop :=
  clock.p_alarm (procAddr p) ≠ 0 ∨ pending p = true

/-- What holds of the process table: the servers live, and users have process ids of their own. -/
structure Tabled (s : MState) : Prop where
  servers : ∀ n < INIT_PROC_NR, s.life n = .live
  positive : ∀ n, INIT_PROC_NR ≤ n → (s.flags n).IN_USE = true → 0 < (s.mproc n).mp_pid
  pids : ∀ n m, INIT_PROC_NR ≤ n → INIT_PROC_NR ≤ m → (s.flags n).IN_USE = true →
    (s.flags m).IN_USE = true → (s.mproc n).mp_pid = (s.mproc m).mp_pid → n = m

/-- What is known of alarms. -/
structure AlarmInv (w : AlarmSys F) : Prop where
  tabled : Tabled w.mm
  armed : ∀ p, Armed w.clock w.pending p → (w.mm.flags p).ALARM_ON = true →
    .sysExec p ∉ w.calls → outstanding p w.log = true
  lives : ∀ p, Armed w.clock w.pending p → INIT_PROC_NR ≤ p ∧
    (w.mm.life p = .live ∨ .sysXit p ∈ w.calls)
  alarms : ∀ p delta_ticks, .setAlarm p delta_ticks ∈ w.calls → delta_ticks ≠ 0 →
    INIT_PROC_NR ≤ p ∧ w.mm.life p = .live ∧
      ((w.mm.flags p).ALARM_ON = true → outstanding p w.log = true)
  forks : ∀ parent child, .sysFork parent child ∈ w.calls →
    INIT_PROC_NR ≤ child ∧ w.mm.life child = .live
  owned : Owned w.log

/-! ## The log -/

/-- An event of another process does not matter. -/
theorem outstanding_cons {e : AlarmEvent} (h : e.proc ≠ p) :
    outstanding p (e :: log) = outstanding p log := by
  cases e with
  | alarm q seconds => exact if_neg h
  | acted q => exact if_neg h
  | exec q => exact if_neg h
  | fork q => exact if_neg h

/-- Acting upon a `SIGALRM` is owned if the request is outstanding. -/
theorem Owned.cons {e : AlarmEvent} (h : Owned log)
    (he : ∀ p, e = .acted p → outstanding p log = true) : Owned (e :: log) := by
  intro p l hl
  rcases List.suffix_cons_iff.mp hl with heq | hl
  · obtain ⟨hp, rfl⟩ := List.cons.inj heq
    exact he p hp.symm
  · exact h p l hl

/-- Events of other processes do not matter. -/
theorem outstanding_append {es : List AlarmEvent} (h : ∀ e ∈ es, e.proc ≠ p) :
    outstanding p (es ++ log) = outstanding p log := by
  induction es with
  | nil => rfl
  | cons e es ih =>
    rw [List.cons_append, outstanding_cons (h e List.mem_cons_self)]
    exact ih fun e' he' => h e' (List.mem_cons_of_mem _ he')

/-- Acting upon several processes, upon each once, is owned if their requests are outstanding. -/
theorem Owned.append {es : List AlarmEvent} (h : Owned log) (hnodup : es.Nodup)
    (hes : ∀ e ∈ es, ∃ p, e = .acted p ∧ outstanding p log = true) : Owned (es ++ log) := by
  induction es with
  | nil => exact h
  | cons e es ih =>
    obtain ⟨hne, hnodup⟩ := List.nodup_cons.mp hnodup
    refine Owned.cons (ih hnodup fun e' he' => hes e' (List.mem_cons_of_mem _ he')) fun p hp => ?_
    obtain ⟨q, rfl, hout⟩ := hes e List.mem_cons_self
    obtain rfl := AlarmEvent.acted.inj hp
    refine (outstanding_append fun e' he' hproc => ?_).trans hout
    obtain ⟨q', rfl, -⟩ := hes e' (List.mem_cons_of_mem _ he')
    exact hne (hproc ▸ he')

/-! ## The clock -/

theorem procAddr_inj : procAddr p = procAddr q ↔ p = q := by
  unfold procAddr
  simp [Fin.ext_iff]

/-- No process is a task. -/
theorem istaskp_procAddr (p : ProcNr) : Kernel.istaskp (procAddr p) = false := by
  simp [Kernel.istaskp, procAddr]

/-- Unless an alarm goes off, the clock task causes no signals. -/
theorem caused_of_log {pending : ProcNr → Bool} {es : List (ClockEvent F)}
    (hlog : clock'.log = clock.log ++ es) (hes : ∀ e ∈ es, ClockEvent.causes p e = false) :
    caused pending clock clock' p = pending p := by
  unfold caused
  rw [hlog, List.drop_left, List.any_eq_false.mpr fun e he => by simp [hes e he], Bool.or_false]

/-- The clock task arms nobody of its own accord. -/
theorem armed_elsewhere {pending : ProcNr → Bool} {act : ClockAct F} (helse : Elsewhere act)
    (hst : ClockStep clock act clock') (h : Armed clock' (caused pending clock clock') p) :
    Armed clock pending p := by
  have hsame : ∀ es : List (ClockEvent F), clock'.log = clock.log ++ es →
      (∀ e ∈ es, ClockEvent.causes p e = false) →
      clock'.p_alarm (procAddr p) = clock.p_alarm (procAddr p) → Armed clock pending p := by
    intro es hlog hes halarm
    unfold Armed at h
    rwa [halarm, caused_of_log hlog hes] at h
  cases hst with
  | tick hr =>
    rename_i bill_ptr ready
    obtain ⟨sched_ticks, prev_ptr, heq⟩ := Kernel.clockHandler_eq clock bill_ptr ready
    exact hsame [] (by simp [heq]) (by simp) (by rw [heq])
  | @message msg hpc hr =>
    cases msg with
    | SET_ALARM proc_nr delta_ticks function =>
      have hne : procAddr p ≠ proc_nr := by
        rintro rfl
        exact absurd (helse.symm.trans (istaskp_procAddr p)) (by decide)
      refine hsame [] ?_ (by simp) ?_
      · simp [clockTask, Kernel.doSetalarm]
      · exact Function.update_of_ne hne _ _
    | GET_TIME => exact hsame [] (by simp [clockTask]) (by simp) rfl
    | SET_TIME newtime => exact hsame [] (by simp [clockTask]) (by simp) rfl
    | HARD_INT => exact hsame [_] rfl (by simp [ClockEvent.causes]) rfl
  | goOn hpc =>
    rename_i bill_ptr
    -- Only in the loop of `do_clocktick` alarms go off.
    cases hpc' : clock.pc with
    | receive => exact absurd hpc' hpc
    | setalarm => exact hsame [] (by simp [goOn, hpc']) (by simp) (by simp [goOn, hpc'])
    | setalarmScan i =>
      cases hnth : nth (NR_TASKS + Kernel.NR_PROCS) i with
      | none => exact hsame [] (by simp [goOn, hpc', hnth]) (by simp) (by simp [goOn, hpc', hnth])
      | some rp =>
        obtain ⟨next_alarm, heq, -⟩ := Kernel.nextIs_spec clock rp
        exact hsame [] (by simp [goOn, hpc', hnth, heq]) (by simp) (by simp [goOn, hpc', hnth, heq])
    | clocktick =>
      refine hsame [] ?_ (by simp) ?_
      · simp only [goOn, hpc', List.append_nil]
        split_ifs <;> rfl
      · simp only [goOn, hpc']
        split_ifs <;> rfl
    | clocktickScan i =>
      cases hnth : nth (NR_TASKS + Kernel.NR_PROCS) i with
      | none => exact hsame [] (by simp [goOn, hpc', hnth]) (by simp) (by simp [goOn, hpc', hnth])
      | some rp =>
        obtain ⟨next_alarm, -, ⟨halarm, -, heq⟩ | ⟨-, heq⟩⟩ := Kernel.clocktickProc_spec clock rp
        · by_cases hrp : rp = procAddr p
          · exact Or.inl (hrp ▸ halarm)
          · refine hsame [if 0 ≤ Kernel.procNumber rp then .causeSig rp
              else .watchDog rp (clock.watch_dog rp)] ?_ ?_ ?_
            · simp only [goOn, hpc', hnth, heq, Kernel.fire]
            · simp only [List.mem_singleton, forall_eq]
              split_ifs
              · simpa [ClockEvent.causes] using hrp
              · rfl
            · simp only [goOn, hpc', hnth, heq, Kernel.fire]
              exact Function.update_of_ne (Ne.symm hrp) _ _
        · exact hsame [] (by simp [goOn, hpc', hnth, heq]) (by simp) (by simp [goOn, hpc', hnth, heq])
    | clocktickEnd =>
      obtain ⟨sched_ticks, prev_ptr, heq⟩ := Kernel.quantum_eq clock bill_ptr
      exact hsame [] (by simp [goOn, hpc', heq]) (by simp) (by simp [goOn, hpc', heq])
  | fork => exact helse.elim
  | exec => exact helse.elim
  | xit => exact helse.elim

/-- What a request makes of an alarm. -/
theorem served (c : KernelCall) (hst : ClockStep clock (c.clockAct F) clock') :
    clock'.p_alarm (procAddr p) = match c with
      | .setAlarm q delta_ticks =>
        if p = q then if delta_ticks = 0 then 0 else clock.realtime + clock.pending_ticks + delta_ticks
        else clock.p_alarm (procAddr p)
      | .sysFork parent child =>
        if p = child then clock.p_alarm (procAddr parent) else clock.p_alarm (procAddr p)
      | .sysExec q | .sysXit q => if p = q then 0 else clock.p_alarm (procAddr p) := by
  cases c with
  | setAlarm q delta_ticks =>
    cases hst
    simp [clockTask, Kernel.doSetalarm, Function.update_apply, procAddr_inj]
  | sysFork parent child =>
    cases hst
    simp [Kernel.forkAlarm, Function.update_apply, procAddr_inj]
  | sysExec q =>
    cases hst
    simp [Kernel.clearAlarm, Function.update_apply, procAddr_inj]
  | sysXit q =>
    cases hst
    simp [Kernel.clearAlarm, Function.update_apply, procAddr_inj]

/-! ## The steps -/

/-- The process table is kept if no process is created, and no server dies. -/
theorem Tabled.of_same (h : Tabled s) (hpids : ∀ n, (s'.mproc n).mp_pid = (s.mproc n).mp_pid)
    (huse : ∀ n, (s'.flags n).IN_USE = true → (s.flags n).IN_USE = true)
    (hservers : ∀ n < INIT_PROC_NR, s.life n = .live → s'.life n = .live) : Tabled s' := by
  refine ⟨fun n hn => hservers n hn (h.servers n hn), fun n hn hu => ?_, fun n m hn hm hun hum he => ?_⟩
  · rw [hpids]
    exact h.positive n hn (huse n hu)
  · rw [hpids, hpids] at he
    exact h.pids n m hn hm (huse n hun) (huse m hum) he

theorem Tabled.does (h : Tabled s) (hd : Does s s' deeds) : Tabled s' := by
  refine h.of_same hd.pids hd.use fun n hn hl => (hd.deaths n hl).resolve_right fun hx => ?_
  obtain ⟨m, hm, hc⟩ := hd.asks _ hx
  rcases hc with hc | hc
  · exact absurd (KernelCall.sysXit.inj hc ▸ hm) (not_le.mpr hn)
  · cases hc

/-- The process table is kept if a process is created. -/
theorem Tabled.creates (h : Tabled s) (hc : Creates child s s') : Tabled s' := by
  have hsame := hc.others
  simp only [traits, Prod.mk.injEq] at hsame
  have hserver : ∀ n < INIT_PROC_NR, n ≠ child := by
    rintro n hn rfl
    exact life_live.mp (h.servers n hn) (Or.inl hc.free)
  refine ⟨fun n hn => ?_, fun n hn hu => ?_, fun n m hn hm hun hum he => ?_⟩
  · exact (hsame n (hserver n hn)).2.1.trans (h.servers n hn)
  · by_cases hne : n = child
    · exact hne ▸ hc.pid
    · rw [(hsame n hne).1]
      exact h.positive n hn ((hsame n hne).2.2.1.symm.trans hu)
  · by_cases hnc : n = child
    · by_cases hmc : m = child
      · rw [hnc, hmc]
      · rw [hnc, (hsame m hmc).1] at he
        exact absurd he.symm (hc.fresh m hmc)
    · by_cases hmc : m = child
      · rw [hmc, (hsame n hnc).1] at he
        exact absurd he (hc.fresh n hnc)
      · rw [(hsame n hnc).1, (hsame m hmc).1] at he
        exact h.pids n m hn hm ((hsame n hnc).2.2.1.symm.trans hun)
          ((hsame m hmc).2.2.1.symm.trans hum) he

/-- A function of the memory manager keeps what is known of alarms, if what is added to the log is
only about processes whose `ALARM_ON` is off afterwards. -/
theorem AlarmInv.does (h : AlarmInv w) (hidle : w.calls = []) (hd : Does w.mm s' deeds)
    {pending : ProcNr → Bool} (hpending : ∀ p, pending p = true → w.pending p = true)
    (hlog : ∀ p, (s'.flags p).ALARM_ON = true → outstanding p log = outstanding p w.log)
    (howned : Owned log) :
    AlarmInv { w with mm := s', pending := pending, calls := deeds.filterMap Deed.call, log := log } := by
  have hasks : ∀ c, c ∈ deeds.filterMap Deed.call → .asks c ∈ deeds := by
    intro c hc
    obtain ⟨d, hd, he⟩ := List.mem_filterMap.mp hc
    cases d with
    | acts n => cases he
    | asks c' => exact Option.some.inj he ▸ hd
  have harmed : ∀ p, Armed w.clock pending p → Armed w.clock w.pending p := by
    intro p hp
    exact hp.imp_right (hpending p)
  refine ⟨h.tabled.does hd, fun p hp hon _ => ?_, fun p hp => ?_, fun p d hc hne => ?_,
    fun a b hc => ?_, howned⟩
  · dsimp only at hp hon ⊢
    rw [hlog p hon]
    exact h.armed p (harmed p hp) (hd.alarm p hon) (by simp [hidle])
  · obtain ⟨huser, hl⟩ := h.lives p (harmed p hp)
    rw [hidle] at hl
    refine ⟨huser, (hd.deaths p (hl.resolve_right List.not_mem_nil)).imp_right fun hx => ?_⟩
    exact List.mem_filterMap.mpr ⟨_, hx, rfl⟩
  · obtain ⟨n, -, he | he⟩ := hd.asks _ (hasks _ hc)
    · cases he
    · exact absurd (KernelCall.setAlarm.inj he).2 hne
  · obtain ⟨n, -, he | he⟩ := hd.asks _ (hasks _ hc)
    · cases he
    · cases he

/-- Sending the result is no matter of alarms. -/
theorem sendResult_calm {r : ℤ} : Calm s (sendResult who (r, s)) := by
  unfold sendResult
  dsimp only
  split_ifs
  · exact Calm.refl s
  · exact reply_calm ..

/-- A call that creates no process and sets no timer. -/
theorem AlarmInv.call {c : MmCall} {k : Outside} (h : AlarmInv w) (hidle : w.calls = [])
    (huser : INIT_PROC_NR ≤ who) (hst : MmStep w.mm (.call who c k) s') (hc : ¬c.Arms) :
    AlarmInv { w with
      mm := s'
      calls := callDeeds k (newCall w.mm) s' who c
      log := callEvents (newCall w.mm) s' who c ++ w.log } := by
  obtain ⟨⟨r, s₁⟩, h₁, rfl⟩ := Option.map_eq_some_iff.mp hst.2
  obtain ⟨deeds, hdoes, hcalls⟩ := mmCall_does huser hc h₁
  have hall : Does w.mm (sendResult who (r, s₁)) deeds :=
    (Does.of_calm (Calm.dont_reply w.mm false) hdoes).then_does sendResult_calm.does
  have hkeep : AlarmInv { w with
      mm := sendResult who (r, s₁), calls := deeds.filterMap Deed.call, log := w.log } :=
    h.does hidle hall (fun _ hp => hp) (fun _ _ => rfl) h.owned
  have hcalls' : callDeeds k (newCall w.mm) (sendResult who (r, s₁)) who c =
      deeds.filterMap Deed.call := by
    rw [← hcalls]
    cases c with
    | fork => exact absurd trivial hc
    | _ => rfl
  have hevents : callEvents (newCall w.mm) (sendResult who (r, s₁)) who c = [] := by
    cases c with
    | fork => exact absurd trivial hc
    | alarm seconds => exact absurd trivial hc
    | _ => rfl
  rw [hcalls', hevents]
  exact hkeep

/-- Setting the timer of a process changes its bit. -/
theorem setAlarm_spec (s : MState) (who : ProcNr) (seconds : ℕ) (n : ProcNr) :
    traits ((setAlarm s who seconds).mproc n) =
      ((s.mproc n).mp_pid, s.life n, (s.flags n).IN_USE,
        if n = who then seconds != 0 else (s.flags n).ALARM_ON) := by
  unfold setAlarm MState.setFlags MState.set traits MState.life MState.flags
  by_cases hn : n = who
  · subst hn
    simp [lifeOf]
  · simp [hn]

/-- A process asks for an alarm. -/
theorem AlarmInv.alarm {seconds : ℕ} {k : Outside} (h : AlarmInv w) (hidle : w.calls = [])
    (huser : INIT_PROC_NR ≤ who) (hst : MmStep w.mm (.call who (.alarm seconds) k) s') :
    AlarmInv { w with
      mm := s'
      calls := [.setAlarm who (alarmTicks seconds)]
      log := .alarm who seconds :: w.log } := by
  have hl : w.mm.life who = .live := hst.1
  obtain rfl := Option.some.inj hst.2
  have hspec : ∀ n, traits ((sendResult who (doAlarm k (newCall w.mm) who seconds)).mproc n) =
      ((w.mm.mproc n).mp_pid, w.mm.life n, (w.mm.flags n).IN_USE,
        if n = who then seconds != 0 else (w.mm.flags n).ALARM_ON) := by
    intro n
    exact (sendResult_calm.same n).trans (setAlarm_spec (newCall w.mm) who seconds n)
  generalize sendResult who (doAlarm k (newCall w.mm) who seconds) = s' at hspec
  simp only [traits, Prod.mk.injEq] at hspec
  have hlife : ∀ n, s'.life n = w.mm.life n := fun n => (hspec n).2.1
  have hbit : ∀ n, (s'.flags n).ALARM_ON =
      if n = who then seconds != 0 else (w.mm.flags n).ALARM_ON := fun n => (hspec n).2.2.2
  refine ⟨h.tabled.of_same (fun n => (hspec n).1) (fun n hu => (hspec n).2.2.1.symm.trans hu)
    (fun n _ hl => (hlife n).trans hl), fun p hp hon _ => ?_, fun p hp => ?_, fun p d hc _ => ?_,
    fun a b hc => ?_, h.owned.cons fun p hp => by cases hp⟩
  · dsimp only at hp hon ⊢
    rw [hbit] at hon
    by_cases hpw : p = who
    · -- It has asked for it just now.
      rw [if_pos hpw] at hon
      rw [hpw]
      exact (if_pos rfl).trans hon
    · rw [if_neg hpw] at hon
      rw [outstanding_cons fun e => hpw e.symm]
      exact h.armed p hp hon (by simp [hidle])
  · obtain ⟨hpu, hpl⟩ := h.lives p hp
    rw [hidle] at hpl
    exact ⟨hpu, Or.inl ((hlife p).trans (hpl.resolve_right List.not_mem_nil))⟩
  · obtain ⟨rfl, -⟩ := KernelCall.setAlarm.inj (List.mem_singleton.mp hc)
    refine ⟨huser, (hlife p).trans hl, fun hon => ?_⟩
    dsimp only at hon ⊢
    rw [hbit, if_pos rfl] at hon
    exact (if_pos rfl).trans hon
  · cases List.mem_singleton.mp hc

/-- A process is created. -/
theorem AlarmInv.creates (h : AlarmInv w) (hidle : w.calls = []) (hc : Creates child w.mm s') :
    AlarmInv { w with
      mm := s', calls := [.sysFork who child], log := .fork child :: w.log } := by
  have hsame := hc.others
  simp only [traits, Prod.mk.injEq] at hsame
  have hlive : ∀ p, Armed w.clock w.pending p → w.mm.life p = .live := by
    intro p hp
    have hl := (h.lives p hp).2
    rw [hidle] at hl
    exact hl.resolve_right List.not_mem_nil
  -- The kernel has no alarm for the slot yet.
  have hne : ∀ p, Armed w.clock w.pending p → p ≠ child := by
    rintro p hp rfl
    exact life_live.mp (hlive p hp) (Or.inl hc.free)
  refine ⟨h.tabled.creates hc, fun p hp hon _ => ?_, fun p hp => ?_, fun p d hd _ => ?_,
    fun a b hb => ?_, h.owned.cons fun p hp => by cases hp⟩
  · have hpc := hne p hp
    dsimp only at hon ⊢
    rw [outstanding_cons fun e => hpc e.symm]
    exact h.armed p hp ((hsame p hpc).2.2.2.symm.trans hon) (by simp [hidle])
  · exact ⟨(h.lives p hp).1, Or.inl ((hsame p (hne p hp)).2.1.trans (hlive p hp))⟩
  · cases List.mem_singleton.mp hd
  · obtain ⟨-, rfl⟩ := KernelCall.sysFork.inj (List.mem_singleton.mp hb)
    refine ⟨?_, hc.live⟩
    by_contra hserver
    exact life_live.mp (h.tabled.servers b (not_le.mp hserver)) (Or.inl hc.free)

/-- A process is created, or is not. -/
theorem AlarmInv.fork {k : Outside} (h : AlarmInv w) (hidle : w.calls = [])
    (hst : MmStep w.mm (.call who .fork k) s') :
    AlarmInv { w with
      mm := s'
      calls := (forked (newCall w.mm) s').toList.map (.sysFork who)
      log := (forked (newCall w.mm) s').toList.map .fork ++ w.log } := by
  obtain ⟨⟨r, s₁⟩, h₁, rfl⟩ := Option.map_eq_some_iff.mp hst.2
  have hforked : forked (newCall w.mm) (sendResult who (r, s₁)) = forked (newCall w.mm) s₁ := by
    unfold forked sendResult reply
    dsimp only
    split_ifs <;> rfl
  rw [hforked]
  have hl : (newCall w.mm).life who = .live := hst.1
  rcases doFork_does hl h₁ with ⟨hf, hcalm⟩ | ⟨child, hf, hc⟩
  · rw [hf]
    have hall : Calm w.mm (sendResult who (r, s₁)) :=
      ((Calm.dont_reply w.mm false).trans hcalm).trans sendResult_calm
    exact h.does hidle hall.does (fun _ hp => hp) (fun _ _ => rfl) h.owned
  · rw [hf]
    have hall : Creates child (newCall w.mm) (sendResult who (r, s₁)) :=
      hc.then_calm sendResult_calm
    exact h.creates hidle ⟨hall.free, hall.others, hall.live, hall.pid, hall.fresh⟩

/-- A process executes a program. -/
theorem AlarmInv.exec {image : ExecImage} (h : AlarmInv w) (hidle : w.calls = []) :
    AlarmInv { w with
      mm := doExec w.mm who image, calls := [.sysExec who], log := .exec who :: w.log } := by
  have hcalm : Calm w.mm (doExec w.mm who image) := Calm.set rfl
  refine ⟨h.tabled.does hcalm.does, fun p hp hon hno => ?_, fun p hp => ?_, fun p d hd _ => ?_,
    fun a b hb => ?_, h.owned.cons fun p hp => by cases hp⟩
  · have hpw : p ≠ who := by
      rintro rfl
      exact hno (List.mem_singleton.mpr rfl)
    dsimp only at hon ⊢
    rw [outstanding_cons fun e => hpw e.symm]
    exact h.armed p hp ((hcalm.alarm p).symm.trans hon) (by simp [hidle])
  · obtain ⟨hpu, hpl⟩ := h.lives p hp
    rw [hidle] at hpl
    refine ⟨hpu, Or.inl ?_⟩
    exact (hcalm.does.deaths p (hpl.resolve_right List.not_mem_nil)).resolve_right List.not_mem_nil
  · cases List.mem_singleton.mp hd
  · cases List.mem_singleton.mp hb

/-- The memory manager is told of signals. -/
theorem AlarmInv.inform {sig_map : ℕ} {k : Outside} (h : AlarmInv w) (hidle : w.calls = [])
    (huser : INIT_PROC_NR ≤ n) (hmap : hasSig sig_map SIGALRM = w.pending n)
    (hst : MmStep w.mm (.ksig n sig_map k) s') :
    AlarmInv { w with
      mm := s'
      pending := Function.update w.pending n false
      calls := (doKsigDeeds k (newCall w.mm) n sig_map).filterMap Deed.call
      log := ((doKsigDeeds k (newCall w.mm) n sig_map).filterMap Deed.event).reverse ++ w.log } := by
  obtain ⟨⟨r, s₁⟩, h₁, rfl⟩ := Option.map_eq_some_iff.mp hst.2
  have hdoes : Does w.mm s₁ (doKsigDeeds k (newCall w.mm) n sig_map) :=
    Does.of_calm (Calm.dont_reply w.mm false) (doKsig_does huser h₁)
  -- It acts upon the `SIGALRM` of this process only, as no other has its process id.
  have hacts : ∀ m, .acts m ∈ doKsigDeeds k (newCall w.mm) n sig_map → m = n ∧ w.pending n = true := by
    intro m hm
    obtain ⟨hsig, hmu, hun, hum, hpid⟩ := acts_doKsigDeeds huser (h.tabled.positive n huser) hm
    exact ⟨h.tabled.pids m n hmu huser hum hun hpid, hmap.symm.trans hsig⟩
  refine h.does hidle hdoes (fun p hp => ?_) (fun p hon => ?_) ?_
  · by_cases hpn : p = n
    · rw [hpn, Function.update_self] at hp
      cases hp
    · rwa [Function.update_of_ne hpn] at hp
  · refine outstanding_append fun e he hproc => ?_
    obtain ⟨m, hm, rfl⟩ := mem_events.mp (List.mem_reverse.mp he)
    obtain rfl : m = p := hproc
    have hoff := (hdoes.acts m hm).2
    rw [hon] at hoff
    cases hoff
  · refine h.owned.append (List.nodup_reverse.mpr hdoes.once) fun e he => ?_
    obtain ⟨m, hm, rfl⟩ := mem_events.mp (List.mem_reverse.mp he)
    obtain ⟨rfl, hpend⟩ := hacts m hm
    exact ⟨m, rfl, h.armed m (Or.inr hpend) (hdoes.acts m hm).1 (by simp [hidle])⟩

/-- Who is armed after a request: the process that asks for an alarm, and the child of one that is
armed, beside those that were. -/
theorem armed_served {pending : ProcNr → Bool} (c : KernelCall)
    (hst : ClockStep clock (c.clockAct F) clock') (h : Armed clock' (c.pending pending) p) :
    match c with
    | .setAlarm q delta_ticks => Armed clock pending p ∨ p = q ∧ delta_ticks ≠ 0
    | .sysFork parent child => Armed clock pending p ∧ p ≠ child ∨
        p = child ∧ clock.p_alarm (procAddr parent) ≠ 0
    | .sysExec q => Armed clock pending p ∧ (p = q → pending p = true)
    | .sysXit q => Armed clock pending p ∧ p ≠ q := by
  have hp := served (p := p) c hst
  cases c with
  | setAlarm q delta_ticks =>
    dsimp only at hp ⊢
    by_cases hpq : p = q
    · by_cases hd : delta_ticks = 0
      · rw [if_pos hpq, if_pos hd] at hp
        exact Or.inl (Or.inr (h.resolve_left fun hne => hne hp))
      · exact Or.inr ⟨hpq, hd⟩
    · rw [if_neg hpq] at hp
      exact Or.inl (h.imp_left fun hne => hp ▸ hne)
  | sysFork parent child =>
    dsimp only at hp ⊢
    change _ ∨ Function.update pending child false p = true at h
    by_cases hpc : p = child
    · rw [if_pos hpc] at hp
      rw [hpc, Function.update_self, ← hpc] at h
      exact Or.inr ⟨hpc, hp ▸ h.resolve_right Bool.false_ne_true⟩
    · rw [if_neg hpc] at hp
      rw [Function.update_of_ne hpc, hp] at h
      exact Or.inl ⟨h, hpc⟩
  | sysExec q =>
    dsimp only at hp ⊢
    by_cases hpq : p = q
    · rw [if_pos hpq] at hp
      have hpend : pending p = true := h.resolve_left fun hne => hne hp
      exact ⟨Or.inr hpend, fun _ => hpend⟩
    · rw [if_neg hpq] at hp
      exact ⟨h.imp_left fun hne => hp ▸ hne, fun e => absurd e hpq⟩
  | sysXit q =>
    dsimp only at hp ⊢
    change _ ∨ Function.update pending q false p = true at h
    by_cases hpq : p = q
    · rw [if_pos hpq] at hp
      rw [hpq, Function.update_self, ← hpq] at h
      exact absurd hp (h.resolve_right Bool.false_ne_true)
    · rw [if_neg hpq] at hp
      rw [Function.update_of_ne hpq, hp] at h
      exact ⟨h, hpq⟩

/-- A request is dealt with that finds the process disarmed. -/
theorem AlarmInv.serve {c : KernelCall} {calls : List KernelCall} (h : AlarmInv w)
    (hcalls : w.calls = c :: calls) (hst : ClockStep w.clock (c.clockAct F) clock)
    (hok : Disarmed w .serve) :
    AlarmInv { w with clock := clock, pending := c.pending w.pending, calls := calls } := by
  have hmem : ∀ {c'}, c' ∈ w.calls → c' = c ∨ c' ∈ calls := by
    intro c' hc'
    rw [hcalls] at hc'
    exact List.mem_cons.mp hc'
  have hhead : c ∈ w.calls := hcalls ▸ List.mem_cons_self
  have htail : ∀ {c'}, c' ∈ calls → c' ∈ w.calls := fun hc' => hcalls ▸ List.mem_cons_of_mem _ hc'
  refine ⟨h.tabled, fun p hp hon hno => ?_, fun p hp => ?_, fun p d hd hne => ?_, fun a b hb => ?_,
    h.owned⟩
  · have harmed : Armed w.clock w.pending p → c ≠ .sysExec p → outstanding p w.log = true :=
      fun hp hne => h.armed p hp hon fun hx => (hmem hx).elim (fun e => hne e.symm) hno
    have hp := armed_served c hst hp
    cases c with
    | setAlarm q d =>
      rcases hp with hp | ⟨rfl, hd⟩
      · exact harmed hp (by simp)
      · exact (h.alarms p d hhead hd).2.2 hon
    | sysFork a b =>
      rcases hp with ⟨hp, -⟩ | ⟨rfl, halarm⟩
      · exact harmed hp (by simp)
      · simp only [Disarmed, hcalls] at hok
        exact absurd hon (by simp [hok.resolve_left halarm])
    | sysExec q =>
      obtain ⟨hp, hpend⟩ := hp
      refine harmed hp fun e => ?_
      obtain rfl := KernelCall.sysExec.inj e
      simp only [Disarmed, hcalls] at hok
      rcases hok with hoff | hoff
      · exact absurd (hoff.symm.trans (hpend rfl)) (by decide)
      · exact absurd (hoff.symm.trans hon) (by decide)
    | sysXit q => exact harmed hp.1 (by simp)
  · have hlives : Armed w.clock w.pending p → c ≠ .sysXit p →
        INIT_PROC_NR ≤ p ∧ (w.mm.life p = .live ∨ .sysXit p ∈ calls) := by
      intro hp hne
      obtain ⟨hpu, hl⟩ := h.lives p hp
      exact ⟨hpu, hl.imp_right fun hx => (hmem hx).resolve_left fun e => hne e.symm⟩
    have hp := armed_served c hst hp
    cases c with
    | setAlarm q d =>
      rcases hp with hp | ⟨rfl, hd⟩
      · exact hlives hp (by simp)
      · obtain ⟨hpu, hl, -⟩ := h.alarms p d hhead hd
        exact ⟨hpu, Or.inl hl⟩
    | sysFork a b =>
      rcases hp with ⟨hp, -⟩ | ⟨rfl, -⟩
      · exact hlives hp (by simp)
      · exact (h.forks a p hhead).imp_right Or.inl
    | sysExec q => exact hlives hp.1 (by simp)
    | sysXit q => exact hlives hp.1 fun e => hp.2 (KernelCall.sysXit.inj e).symm
  · exact h.alarms p d (htail hd) hne
  · exact h.forks a b (htail hb)

/-- The clock goes on. -/
theorem AlarmInv.elsewhere {act : ClockAct F} (h : AlarmInv w) (helse : Elsewhere act)
    (hst : ClockStep w.clock act clock) :
    AlarmInv { w with clock := clock, pending := caused w.pending w.clock clock } :=
  ⟨h.tabled, fun p hp => h.armed p (armed_elsewhere helse hst hp),
    fun p hp => h.lives p (armed_elsewhere helse hst hp), h.alarms, h.forks, h.owned⟩

/-- A step from disarmed processes. -/
theorem AlarmInv.step {act : AlarmAct F} (h : AlarmInv w) (hst : DisarmedStep w act w') :
    AlarmInv w' := by
  obtain ⟨hst, hok⟩ := hst
  cases hst with
  | @call who c k s' hidle huser hst =>
    cases c with
    | fork => exact h.fork hidle hst
    | alarm seconds => exact h.alarm hidle huser hst
    | _ => exact h.call hidle huser hst id
  | exec hidle huser hlive => exact h.exec hidle
  | inform hidle huser hmap hst => exact h.inform hidle huser hmap hst
  | serve hcalls hst => exact h.serve hcalls hst hok
  | clock helse hst => exact h.elsewhere helse hst

/-- Everything holds at the start. -/
theorem AlarmBoot.inv (h : AlarmBoot w) : AlarmInv w := by
  obtain ⟨⟨seg, hmm⟩, hclock, hpending, hcalls, hlog⟩ := h
  have hno : ∀ p, ¬Armed w.clock w.pending p := by
    rintro p (hp | hp)
    · exact hp (by rw [hclock.p_alarm])
    · rw [hpending] at hp
      cases hp
  have hflags : ∀ n, w.mm.flags n = { MFlags.zero with IN_USE := decide (n ≤ INIT_PROC_NR) } := by
    intro n
    have huse : (n == MM_PROC_NR || n == FS_PROC_NR || n == INIT_PROC_NR) =
        decide (n ≤ INIT_PROC_NR) := by
      revert n
      decide
    rw [hmm, ← huse]
    rfl
  have hle : ∀ n, (w.mm.flags n).IN_USE = true → n ≤ INIT_PROC_NR := by
    intro n hu
    simpa [hflags] using hu
  refine ⟨⟨fun n hn => ?_, fun n hn hu => ?_, fun n m hn hm hun hum _ => ?_⟩,
    fun p hp => absurd hp (hno p), fun p hp => absurd hp (hno p), fun p d hd => ?_, fun a b hb => ?_,
    fun p l hl => ?_⟩
  · simp [MState.life, hflags, hn.le, lifeOf, MFlags.zero]
  · have hinit : n = INIT_PROC_NR := le_antisymm (hle n hu) hn
    rw [hmm, hinit]
    exact Nat.zero_lt_one
  · exact le_antisymm ((hle n hun).trans hm) ((hle m hum).trans hn)
  · simp [hcalls] at hd
  · simp [hcalls] at hb
  · simp [hlog] at hl

/-- The system at the start. -/
def alarmStart : AlarmSys Unit := ⟨mmStart, Kernel.clockInit, fun _ => false, [], []⟩

/-- A call, if it is executed. -/
def calling (who : ProcNr) (c : MmCall) (w : AlarmSys Unit) : AlarmSys Unit :=
  let s' := (mmTurn w.mm (.call who c obliging)).getD w.mm
  { w with
    mm := s'
    calls := callDeeds obliging (newCall w.mm) s' who c
    log := callEvents (newCall w.mm) s' who c ++ w.log }

/-- The memory manager is told of a `SIGALRM`. -/
def informing (n : ProcNr) (w : AlarmSys Unit) : AlarmSys Unit :=
  let deeds := doKsigDeeds obliging (newCall w.mm) n (1 <<< (SIGALRM - 1))
  { w with
    mm := (mmTurn w.mm (.ksig n (1 <<< (SIGALRM - 1)) obliging)).getD w.mm
    pending := Function.update w.pending n false
    calls := deeds.filterMap Deed.call
    log := (deeds.filterMap Deed.event).reverse ++ w.log }

/-- A step of the clock task. -/
def clockBy (f : Clock Unit → Clock Unit) (w : AlarmSys Unit) : AlarmSys Unit :=
  { w with clock := f w.clock, pending := caused w.pending w.clock (f w.clock) }

/-- The clock task goes on, and a tick comes. -/
def goes : AlarmSys Unit → AlarmSys Unit := clockBy fun clock => goOn clock Kernel.initSlot
def ticks : AlarmSys Unit → AlarmSys Unit :=
  clockBy fun clock => (Kernel.clockHandler clock Kernel.initSlot false).2

/-- The first user asks for an alarm in a second. -/
def alarmSet : AlarmSys Unit :=
  let w := calling 2 (.alarm 1) alarmStart
  { w with clock := clockTask w.clock (.SET_ALARM (procAddr 2) 60 none), calls := [] }

/-- The clock task has dealt with the request. -/
def alarmAsked : AlarmSys Unit := goes^[43] alarmSet

/-- It has created a process. -/
def alarmForked : AlarmSys Unit :=
  let w := calling 2 .fork alarmAsked
  { w with
    clock := Kernel.forkAlarm w.clock (procAddr 2) (procAddr 3)
    pending := Function.update w.pending 3 false
    calls := [] }

/-- A second later. -/
def later (w : AlarmSys Unit) : AlarmSys Unit :=
  goes^[44] (clockBy (fun clock => clockTask clock .HARD_INT) (ticks^[60] w))

variable {v v' : AlarmSys Unit}

/-- The clock task goes on several times. -/
theorem run_goes (k : ℕ) (hpc : ∀ i < k, (goes^[i] v).clock.pc ≠ .receive) :
    ∃ as, Run DisarmedStep v as (goes^[k] v) := by
  refine Run.iterate fun i hi => ⟨.clock (.goOn Kernel.initSlot), ?_⟩
  rw [Function.iterate_succ_apply']
  exact ⟨.clock trivial (.goOn (hpc i hi)), trivial⟩

/-- A second goes by. -/
theorem run_later (htime : ∀ i < 60, (ticks^[i] v).clock.realtime + (ticks^[i] v).clock.pending_ticks <
      Kernel.MAX_P_LONG) (hrec : (ticks^[60] v).clock.pc = .receive)
    (hpc : ∀ i < 44, (goes^[i] (clockBy (fun clock => clockTask clock .HARD_INT)
      (ticks^[60] v))).clock.pc ≠ .receive) : ∃ as, Run DisarmedStep v as (later v) := by
  obtain ⟨as, hr⟩ : ∃ as, Run DisarmedStep v as (ticks^[60] v) := by
    refine Run.iterate fun i hi => ⟨.clock (.tick Kernel.initSlot false), ?_⟩
    rw [Function.iterate_succ_apply']
    exact ⟨.clock trivial (.tick (htime i hi)), trivial⟩
  obtain ⟨bs, hr'⟩ := run_goes 44 hpc
  have hint : DisarmedStep (ticks^[60] v) (.clock (.message .HARD_INT)) _ :=
    ⟨.clock trivial (.message hrec trivial), trivial⟩
  exact ⟨_, (hr.snoc hint).append hr'⟩

/-- A call that is executed. -/
theorem step_calling {c : MmCall} (hidle : v.calls = []) (huser : INIT_PROC_NR ≤ who)
    (hl : v.mm.life who = .live) (hsome : (mmTurn v.mm (.call who c obliging)).isSome = true) :
    DisarmedStep v (.call who c obliging) (calling who c v) := by
  refine ⟨.call hidle huser ⟨hl, ?_⟩, trivial⟩
  obtain ⟨s', hs'⟩ := Option.isSome_iff_exists.mp hsome
  rw [hs']
  rfl

/-- The memory manager is told. -/
theorem step_informing (hidle : v.calls = []) (huser : INIT_PROC_NR ≤ n) (hpend : v.pending n = true)
    (hsome : (mmTurn v.mm (.ksig n (1 <<< (SIGALRM - 1)) obliging)).isSome = true) :
    DisarmedStep v (.inform n (1 <<< (SIGALRM - 1)) obliging) (informing n v) := by
  refine ⟨.inform hidle huser ?_ ⟨trivial, ?_⟩, trivial⟩
  · rw [hpend]
    decide
  · obtain ⟨s', hs'⟩ := Option.isSome_iff_exists.mp hsome
    rw [hs']
    rfl

/-- The first user asks for an alarm. -/
theorem alarmAsked_reachable : Reachable AlarmBoot DisarmedStep alarmAsked := by
  have hstart : AlarmBoot alarmStart := ⟨⟨_, rfl⟩, Kernel.clockInit_start, rfl, rfl, rfl⟩
  have hcall : DisarmedStep alarmStart _ _ :=
    step_calling rfl (by decide) (by decide +kernel) (by decide +kernel : (mmTurn alarmStart.mm
      (.call 2 (.alarm 1) obliging)).isSome = true)
  have hserve : DisarmedStep (calling 2 (.alarm 1) alarmStart) .serve alarmSet :=
    ⟨.serve (c := .setAlarm 2 60) rfl (.message rfl (by decide +kernel)), trivial⟩
  have hpc : ∀ i < 43, (goes^[i] alarmSet).clock.pc ≠ .receive := by decide +kernel
  obtain ⟨as, hr⟩ := run_goes 43 hpc
  exact (((Reachable.of_init hstart).of_step hcall).of_step hserve).run hr

/-- What is needed for a second to go by after `alarmAsked`, or after `alarmForked`. -/
theorem later_of (v : AlarmSys Unit) (h : v = alarmAsked ∨ v = alarmForked) :
    ∃ as, Run DisarmedStep v as (later v) := by
  rcases h with rfl | rfl
  · apply run_later
    · decide +kernel
    · decide +kernel
    · decide +kernel
  · apply run_later
    · decide +kernel
    · decide +kernel
    · decide +kernel

end Minix.Mm
