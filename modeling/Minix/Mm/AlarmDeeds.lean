import Minix.Mm.Alarms

/-!
# What the memory manager does about alarms

`Does s s' deeds` says what comes of a function of the memory manager that does `deeds`: no process
is created, no `ALARM_ON` is turned on, the kernel is told of every process that dies, and the bit
is off of those for whom a `SIGALRM` was acted upon. It is put together along the code
(`Does.trans`).
-/

namespace Minix.Mm

open Lib

/-- What comes of a function that does `deeds`. -/
structure Does (s s' : MState) (deeds : List Deed) : Prop where
  pids : ∀ n, (s'.mproc n).mp_pid = (s.mproc n).mp_pid
  use : ∀ n, (s'.flags n).IN_USE = true → (s.flags n).IN_USE = true
  alarm : ∀ n, (s'.flags n).ALARM_ON = true → (s.flags n).ALARM_ON = true
  deaths : ∀ n, s.life n = .live → s'.life n = .live ∨ .asks (.sysXit n) ∈ deeds
  acts : ∀ n, .acts n ∈ deeds → (s.flags n).ALARM_ON = true ∧ (s'.flags n).ALARM_ON = false
  once : (deeds.filterMap Deed.event).Nodup
  asks : ∀ c, .asks c ∈ deeds → ∃ n, INIT_PROC_NR ≤ n ∧ (c = .sysXit n ∨ c = .setAlarm n 0)

/-- What `Does` looks at in an entry. -/
def traits (p : MProc) : ℕ × Life × Bool × Bool :=
  (p.mp_pid, lifeOf p.mp_flags, p.mp_flags.IN_USE, p.mp_flags.ALARM_ON)

variable {s s' s'' : MState} {n rmp child mp who : ProcNr} {f : MProc → MProc} {k : Outside}
  {deeds deeds' : List Deed} {sig_nr send_uid : ℕ} {proc_id : ℤ}

/-! ## Functions that do nothing about alarms -/

/-- The entries are, as far as alarms go, as they were. -/
structure Calm (s s' : MState) : Prop where
  same : ∀ n, traits (s'.mproc n) = traits (s.mproc n)

theorem Calm.refl (s : MState) : Calm s s := ⟨fun _ => rfl⟩

theorem Calm.trans (h : Calm s s') (h' : Calm s' s'') : Calm s s'' :=
  ⟨fun n => (h'.same n).trans (h.same n)⟩

/-- An assignment to other fields. -/
theorem Calm.set (h : traits (f (s.mproc n)) = traits (s.mproc n)) : Calm s (s.set n f) := by
  refine ⟨fun m => ?_⟩
  by_cases hm : m = n
  · subst hm
    simpa [MState.set] using h
  · simp [MState.set, hm]

theorem Calm.alarm (h : Calm s s') (n : ProcNr) : (s'.flags n).ALARM_ON = (s.flags n).ALARM_ON :=
  congrArg (fun t => t.2.2.2) (h.same n)

theorem Calm.does (h : Calm s s') : Does s s' [] := by
  have h := h.same
  simp only [traits, Prod.mk.injEq] at h
  constructor
  · exact fun n => (h n).1
  · exact fun n hn => (h n).2.2.1.symm.trans hn
  · exact fun n hn => (h n).2.2.2.symm.trans hn
  · exact fun n hn => Or.inl ((h n).2.1.trans hn)
  · exact fun n hn => absurd hn List.not_mem_nil
  · exact List.nodup_nil
  · exact fun c hc => absurd hc List.not_mem_nil

/-- The events of deeds are that it was acted upon signals. -/
theorem mem_events {e : AlarmEvent} :
    e ∈ deeds.filterMap Deed.event ↔ ∃ n, .acts n ∈ deeds ∧ e = .acted n := by
  rw [List.mem_filterMap]
  constructor
  · rintro ⟨d, hd, he⟩
    cases d with
    | acts n => exact ⟨n, hd, (Option.some.inj he).symm⟩
    | asks c => cases he
  · rintro ⟨n, hn, rfl⟩
    exact ⟨_, hn, rfl⟩

/-- One function after the other. -/
theorem Does.trans (h : Does s s' deeds) (h' : Does s' s'' deeds') :
    Does s s'' (deeds ++ deeds') := by
  constructor
  · exact fun n => (h'.pids n).trans (h.pids n)
  · exact fun n hn => h.use n (h'.use n hn)
  · exact fun n hn => h.alarm n (h'.alarm n hn)
  · intro n hn
    rcases h.deaths n hn with hl | hd
    · exact (h'.deaths n hl).imp_right (List.mem_append_right _)
    · exact Or.inr (List.mem_append_left _ hd)
  · intro n hn
    rcases List.mem_append.mp hn with hn | hn
    · -- The bit stays off.
      obtain ⟨hon, hoff⟩ := h.acts n hn
      refine ⟨hon, ?_⟩
      by_contra hon'
      have hon'' := h'.alarm n (by simpa using hon')
      rw [hoff] at hon''
      cases hon''
    · exact ⟨h.alarm n (h'.acts n hn).1, (h'.acts n hn).2⟩
  · rw [List.filterMap_append]
    refine h.once.append h'.once fun e he he' => ?_
    -- The bit was off when the second function began.
    obtain ⟨n, hn, rfl⟩ := mem_events.mp he
    obtain ⟨m, hm, hnm⟩ := mem_events.mp he'
    obtain rfl := AlarmEvent.acted.inj hnm
    have hoff := (h.acts n hn).2
    rw [(h'.acts n hm).1] at hoff
    cases hoff
  · intro c hc
    exact (List.mem_append.mp hc).elim (h.asks c) (h'.asks c)

/-- A function before which nothing is done. -/
theorem Does.of_calm (h : Calm s s') (h' : Does s' s'' deeds) : Does s s'' deeds := h.does.trans h'

/-- A function after which nothing is done. -/
theorem Does.then_does (h : Does s s' deeds) (h' : Does s' s'' []) : Does s s'' deeds := by
  rw [← List.append_nil deeds]
  exact h.trans h'

theorem reply_calm (q : ProcNr) (r r2 : ℤ) : Calm s (reply s q r r2) := by
  refine ⟨fun m => ?_⟩
  unfold reply
  split_ifs <;> rfl

theorem unpause_calm (s : MState) (rmp : ProcNr) : Calm s (unpause s rmp) := by
  unfold unpause
  split_ifs
  · exact Calm.trans (Calm.set rfl) (reply_calm ..)
  · exact Calm.trans (Calm.set rfl) (reply_calm ..)
  · exact Calm.refl s

theorem stopProc_calm : Calm s (stopProc k s rmp sig_nr) := by
  unfold stopProc
  have hstop : Calm s (s.setFlags rmp fun f => { f with STOPPED := true }) := Calm.set rfl
  dsimp only
  split_ifs
  · exact Calm.refl s
  · exact hstop.trans (Calm.trans (Calm.set rfl) (reply_calm ..))
  · exact hstop.trans (Calm.set rfl)

theorem dumpCore_calm : Calm s (dumpCore k s rmp sig_nr) := by
  unfold dumpCore
  split_ifs
  · exact Calm.refl s
  · exact Calm.set rfl

/-- The growth of the stack does not touch the process id. -/
theorem adjust_pid (n : ProcNr) (p : MProc) (data_clicks : ℕ) (sp : ℤ) :
    (adjust n p data_clicks sp).2.mp_pid = p.mp_pid := by
  unfold adjust moveStack
  split_ifs
  · rfl
  · dsimp only
    split_ifs <;> rfl

/-- The growth of the stack is no matter of alarms. -/
theorem adjust_traits (n : ProcNr) (p : MProc) (data_clicks : ℕ) (sp : ℤ) :
    traits (adjust n p data_clicks sp).2 = traits p := by
  unfold traits
  rw [adjust_pid, adjust_flags]

theorem catchSig_calm : Calm s (catchSig k s rmp sig_nr).2 := by
  unfold catchSig
  dsimp only
  exact Calm.trans (Calm.set rfl) (Calm.set (adjust_traits ..))

/-! ## Exiting -/

/-- A slot is cleaned up, and with it perhaps one of a process that hangs. -/
structure Frees (child : ProcNr) (s s' : MState) : Prop where
  pids : ∀ n, (s'.mproc n).mp_pid = (s.mproc n).mp_pid
  use : ∀ n, (s'.flags n).IN_USE = true → (s.flags n).IN_USE = true
  alarm : ∀ n, (s'.flags n).ALARM_ON = (s.flags n).ALARM_ON
  live : ∀ n ≠ child, s.life n = .live → s'.life n = .live

/-- Of the slots that are released, one was not in use any more. -/
theorem Frees.trans (h : Frees child s s') (h' : Frees n s' s'')
    (hn : s'.life n ≠ .live ∨ n = child) : Frees child s s'' := by
  refine ⟨fun m => (h'.pids m).trans (h.pids m), fun m hm => h.use m (h'.use m hm),
    fun m => (h'.alarm m).trans (h.alarm m), fun m hm hl => ?_⟩
  have hl' := h.live m hm hl
  refine h'.live m (fun e => ?_) hl'
  subst e
  exact hn.elim (fun hz => hz hl') hm

theorem Frees.then (h : Frees child s s') (h' : Frees child s' s'') : Frees child s s'' :=
  h.trans h' (Or.inr rfl)

/-- A function that frees nothing. -/
theorem Frees.of_calm (h : Calm s s') : Frees child s s' :=
  ⟨h.does.pids, h.does.use, h.alarm, fun n _ hl =>
    (h.does.deaths n hl).resolve_right List.not_mem_nil⟩

/-- An assignment to flags: those of the child may be released. -/
theorem Frees.setFlags {g : MFlags → MFlags}
    (huse : (g (s.flags n)).IN_USE = true → (s.flags n).IN_USE = true)
    (halarm : (g (s.flags n)).ALARM_ON = (s.flags n).ALARM_ON)
    (hlive : n = child ∨ lifeOf (g (s.flags n)) = s.life n) : Frees child s (s.setFlags n g) := by
  refine ⟨fun m => ?_, fun m hm => ?_, fun m => ?_, fun m hm hl => ?_⟩
  · by_cases hn : m = n
    · subst hn
      simp [MState.setFlags, MState.set]
    · simp [MState.setFlags, MState.set, hn]
  · by_cases hn : m = n
    · subst hn
      rw [setFlags_self] at hm
      exact huse hm
    · rwa [setFlags_of_ne hn] at hm
  · by_cases hn : m = n
    · subst hn
      rw [setFlags_self]
      exact halarm
    · rw [setFlags_of_ne hn]
  · unfold MState.life at hl hlive ⊢
    by_cases hn : m = n
    · subst hn
      rw [setFlags_self]
      exact (hlive.resolve_left hm).trans hl
    · rwa [setFlags_of_ne hn]

theorem releaseSlot_frees (s : MState) (child : ProcNr) : Frees child s (releaseSlot s child) := by
  have hflags : ∀ t : MState, Frees child t (releaseFlags t child (s.mproc child).mp_parent) := by
    intro t
    unfold releaseFlags
    refine (Frees.setFlags id rfl (Or.inl rfl)).then ((Frees.setFlags id rfl (Or.inr rfl)).then
      (Frees.setFlags (fun hu => ?_) rfl (Or.inl rfl)))
    cases hu
  exact (Frees.of_calm (reply_calm ..)).then ((hflags _).then (Frees.of_calm ⟨fun _ => rfl⟩))

/-- Giving a child to `INIT` frees nothing but slots of those that hang. -/
theorem disinherit_frees {clean : MState → ProcNr → Option MState} {st st' : MState × Bool}
    (hclean : ∀ s rp s', clean s rp = some s' → Frees rp s s')
    (h : disinherit clean child st rmp = some st') : Frees child st.1 st'.1 := by
  unfold disinherit at h
  dsimp only at h
  have hset : Frees child st.1 (st.1.set rmp fun p => { p with mp_parent := INIT_PROC_NR }) :=
    Frees.of_calm (Calm.set rfl)
  split_ifs at h with _ hwait
  · obtain ⟨s₁, h₁, rfl⟩ := Option.map_eq_some_iff.mp h
    refine hset.trans (hclean _ _ _ h₁) (Or.inl fun hl => ?_)
    exact life_live.mp hl (Or.inr hwait.2)
  · obtain rfl := Option.some.inj h
    exact hset
  · obtain rfl := Option.some.inj h
    exact Frees.of_calm (Calm.refl _)

theorem cleanup_frees {depth : ℕ} (h : cleanup depth s child = some s') : Frees child s s' := by
  induction depth generalizing s child s' with
  | zero => cases h
  | succ depth ih =>
    obtain ⟨st, h₁, rfl⟩ := Option.map_eq_some_iff.mp h
    refine foldlM_keeps (P := fun st => Frees child s st.1) (fun st rp st' hst hb => ?_)
      (releaseSlot_frees s child) h₁
    exact hst.then (disinherit_frees (fun _ _ _ => ih) hb)

/-- What is done in the end about a process that exits. -/
theorem endProc_frees (h : endProc s rmp = some s') : Frees rmp s s' := by
  unfold endProc at h
  split_ifs at h
  · exact cleanup_frees h
  · obtain rfl := Option.some.inj h
    exact Frees.setFlags id rfl (Or.inl rfl)

/-- A timer is turned off. -/
theorem setAlarm_does : Does s (setAlarm s rmp 0) [] := by
  have hquiet : ∀ n, (setAlarm s rmp 0).life n = s.life n :=
    setFlags_life (fun _ => rfl) (fun _ => rfl)
  unfold setAlarm at hquiet ⊢
  constructor
  · intro n
    by_cases hn : n = rmp
    · subst hn
      simp [MState.setFlags, MState.set]
    · simp [MState.setFlags, MState.set, hn]
  · intro n hu
    by_cases hn : n = rmp
    · subst hn
      rwa [setFlags_self] at hu
    · rwa [setFlags_of_ne hn] at hu
  · intro n ha
    by_cases hn : n = rmp
    · subst hn
      rw [setFlags_self] at ha
      cases ha
    · rwa [setFlags_of_ne hn] at ha
  · exact fun n hl => Or.inl ((hquiet n).trans hl)
  · exact fun n hn => absurd hn List.not_mem_nil
  · exact List.nodup_nil
  · exact fun c hc => absurd hc List.not_mem_nil

/-- The kernel is asked to turn off the timer, and told of the exit. -/
theorem mmExit_does {exit_status : ℤ} (huser : INIT_PROC_NR ≤ rmp)
    (h : mmExit s rmp exit_status = some s') : Does s s' (exitDeeds s rmp) := by
  obtain ⟨s₁, h₁, rfl⟩ := Option.map_eq_some_iff.mp h
  have hset : Calm s ((s.record (.exit rmp .mmExit)).set rmp fun p =>
      { p with mp_exitstatus := (exit_status % 2 ^ 8).toNat }) := ⟨(Calm.set rfl).same⟩
  have hfrees : Frees rmp s s₁ := Frees.then (Frees.of_calm hset) (endProc_frees h₁)
  have hdies : Does s s₁ (exitDeeds s rmp) := by
    refine ⟨hfrees.pids, hfrees.use, fun n hn => (hfrees.alarm n).symm.trans hn, fun n hl => ?_,
      fun n hn => ?_, ?_, fun c hc => ?_⟩
    · by_cases hn : n = rmp
      · right
        simp [exitDeeds, hn]
      · exact Or.inl (hfrees.live n hn hl)
    · unfold exitDeeds at hn
      split_ifs at hn <;> simp at hn
    · unfold exitDeeds
      split_ifs
      · exact List.nodup_nil
      · exact List.nodup_nil
    · refine ⟨rmp, huser, ?_⟩
      unfold exitDeeds at hc
      split_ifs at hc
      · simpa [or_comm] using hc
      · exact Or.inl (by simpa using hc)
  refine hdies.then_does ?_
  unfold tellExit
  dsimp only
  split_ifs
  · exact setAlarm_does.then_does (Calm.does ⟨fun _ => rfl⟩)
  · exact Calm.does ⟨fun _ => rfl⟩

/-! ## Signals -/

/-- What is done about an exit depends on the bit only. -/
theorem exitDeeds_congr (h : (s'.flags rmp).ALARM_ON = (s.flags rmp).ALARM_ON) :
    exitDeeds s' rmp = exitDeeds s rmp := by
  unfold exitDeeds
  rw [h]

theorem killProc_does (huser : INIT_PROC_NR ≤ rmp) (h : killProc k s rmp sig_nr = some s') :
    Does s s' (exitDeeds s rmp) := by
  unfold killProc at h
  dsimp only at h
  have hset : Calm s (s.set rmp fun p => { p with mp_sigstatus := sig_nr }) := Calm.set rfl
  split_ifs at h
  · have hcalm : Calm s (dumpCore k _ rmp sig_nr) := hset.trans dumpCore_calm
    rw [← exitDeeds_congr (hcalm.alarm rmp)]
    exact Does.of_calm hcalm (mmExit_does huser h)
  · rw [← exitDeeds_congr (hset.alarm rmp)]
    exact Does.of_calm hset (mmExit_does huser h)

theorem sigProc_does (huser : INIT_PROC_NR ≤ rmp) (h : sigProc k s rmp sig_nr = some s') :
    Does s s' (sigDeeds k s rmp sig_nr) := by
  unfold sigProc at h
  unfold sigDeeds kills
  split_ifs at h with hu ht hc
  · obtain rfl := Option.some.inj h
    simpa [hu] using (Calm.refl s).does
  · obtain rfl := Option.some.inj h
    simpa [ht] using stopProc_calm.does
  · have htrace : ((s.flags rmp).TRACED && sig_nr != SIGKILL) = false := by simpa using ht
    have hcatch : Calm s (catchSig k s rmp sig_nr).2 := catchSig_calm
    dsimp only at h
    split_ifs at h with hroom
    · obtain rfl := Option.some.inj h
      simpa [hroom, hc] using hcatch.does
    · have hkill := killProc_does huser h
      rw [exitDeeds_congr (hcatch.alarm rmp)] at hkill
      simpa [hu, htrace, hroom] using Does.of_calm hcatch hkill
  · have htrace : ((s.flags rmp).TRACED && sig_nr != SIGKILL) = false := by simpa using ht
    simpa [hu, htrace, hc] using killProc_does huser h

/-- A `SIGALRM` that is sent turns the bit off, and any other signal leaves it. -/
theorem alarmGone_does (hon : sig_nr = SIGALRM → (s.flags rmp).ALARM_ON = true) :
    Does s (alarmGone s rmp sig_nr true) (if sig_nr = SIGALRM then [.acts rmp] else []) := by
  have hoff : Does s (s.setFlags rmp fun f => { f with ALARM_ON := false }) [] := setAlarm_does
  unfold alarmGone
  by_cases hsig : sig_nr = SIGALRM
  · rw [if_pos ⟨hsig, rfl⟩, if_pos hsig]
    refine ⟨hoff.pids, hoff.use, hoff.alarm, fun n hl => ?_, fun n hn => ?_, ?_, fun c hc => ?_⟩
    · exact Or.inl ((hoff.deaths n hl).resolve_right List.not_mem_nil)
    · obtain rfl : n = rmp := by simpa using hn
      exact ⟨hon hsig, by simp⟩
    · exact List.nodup_singleton _
    · simp at hc
  · rw [if_neg fun h => hsig h.1, if_neg hsig]
    exact (Calm.refl s).does

/-- A turn of the loop of `check_sig`. -/
theorem checkSigProc_does {visit : Visit} (huser : INIT_PROC_NR ≤ rmp)
    (h : checkSigProc k mp proc_id sig_nr send_uid s rmp = some (visit, s')) :
    Does s s' (visitDeeds k mp proc_id sig_nr send_uid s rmp) := by
  unfold checkSigProc at h
  unfold visitDeeds
  dsimp only at h
  by_cases hu : (s.flags rmp).IN_USE = false
  · rw [if_pos hu] at h
    obtain ⟨-, rfl⟩ := Prod.mk.inj (Option.some.inj h)
    rw [if_pos (Or.inl hu)]
    exact (Calm.refl s).does
  rw [if_neg hu] at h
  by_cases ha : sig_nr = SIGALRM ∧ (s.flags rmp).ALARM_ON = false
  · rw [if_pos ha] at h
    obtain ⟨-, rfl⟩ := Prod.mk.inj (Option.some.inj h)
    rw [if_pos (Or.inr (Or.inl ha))]
    exact (Calm.refl s).does
  rw [if_neg ha] at h
  cases hs : sendSig s mp proc_id sig_nr send_uid rmp with
  | false =>
    rw [hs, if_pos rfl] at h
    obtain ⟨-, rfl⟩ := Prod.mk.inj (Option.some.inj h)
    rw [if_pos (Or.inr (Or.inr rfl))]
    have hsame : alarmGone s rmp sig_nr false = s := by simp [alarmGone]
    rw [hsame]
    exact (Calm.refl s).does
  | true =>
    rw [hs, if_neg Bool.true_eq_false_eq_False] at h
    have hgone : Does s (alarmGone s rmp sig_nr true)
        (if sig_nr = SIGALRM then [.acts rmp] else []) := by
      refine alarmGone_does fun hsig => ?_
      by_contra hon
      exact ha ⟨hsig, by simpa using hon⟩
    have hignore : ((alarmGone s rmp sig_nr true).mproc rmp).mp_ignore = (s.mproc rmp).mp_ignore :=
      (alarmGone_spec (k := k) s rmp sig_nr true).2.2.1
    rw [hignore] at h
    rw [if_neg (by simp [hu, ha])]
    refine hgone.trans ?_
    split_ifs at h ⊢ with hi
    · obtain ⟨-, rfl⟩ := Prod.mk.inj (Option.some.inj h)
      exact (Calm.refl _).does
    · obtain ⟨s₁, h₁, h₂⟩ := Option.map_eq_some_iff.mp h
      obtain ⟨-, rfl⟩ := Prod.mk.inj h₂
      exact (sigProc_does huser h₁).then_does (unpause_calm s₁ rmp).does

/-- The loop of `check_sig`. -/
theorem checkSigFrom_does {l : List ProcNr} {count count' : ℕ} (huser : ∀ n ∈ l, INIT_PROC_NR ≤ n)
    (h : checkSigFrom k mp proc_id sig_nr send_uid l count s = some (count', s')) :
    Does s s' (checkSigDeeds k mp proc_id sig_nr send_uid l s) := by
  induction l generalizing s count with
  | nil =>
    obtain ⟨-, rfl⟩ := Prod.mk.inj (Option.some.inj h)
    exact (Calm.refl s).does
  | cons rmp l ih =>
    obtain ⟨⟨visit, s₁⟩, h₁, h₂⟩ := Option.bind_eq_some_iff.mp h
    have hturn := checkSigProc_does (huser rmp List.mem_cons_self) h₁
    have hl : ∀ n ∈ l, INIT_PROC_NR ≤ n := fun n hn => huser n (List.mem_cons_of_mem _ hn)
    rw [checkSigDeeds, h₁]
    refine hturn.trans ?_
    cases visit with
    | skipped => exact ih hl h₂
    | ignored => exact ih hl h₂
    | sent =>
      dsimp only at h₂ ⊢
      split_ifs at h₂ with hid
      · obtain ⟨-, rfl⟩ := Prod.mk.inj (Option.some.inj h₂)
        rw [if_pos ⟨rfl, hid⟩]
        exact (Calm.refl _).does
      · rw [if_neg fun hd => hid hd.2]
        exact ih hl h₂

/-- Users are the processes from `INIT` on. -/
theorem mem_userProcs : n ∈ userProcs ↔ INIT_PROC_NR ≤ n := by
  revert n
  decide

/-- Whether a reply is sent is no matter of alarms. -/
theorem Calm.dont_reply (s : MState) (b : Bool) : Calm s { s with dont_reply := b } := ⟨fun _ => rfl⟩

theorem checkSig_does {r sig : ℤ} (h : checkSig k s mp proc_id sig send_uid = some (r, s')) :
    Does s s' (if sig < 1 ∨ NSIG < sig then []
      else checkSigDeeds k mp proc_id sig.toNat send_uid userProcs s) := by
  unfold checkSig at h
  split_ifs at h ⊢
  · obtain ⟨-, rfl⟩ := Prod.mk.inj (Option.some.inj h)
    exact (Calm.refl s).does
  · obtain ⟨⟨count, s₁⟩, h₁, h₂⟩ := Option.bind_eq_some_iff.mp h
    obtain ⟨-, rfl⟩ := Prod.mk.inj (Option.some.inj h₂)
    refine (checkSigFrom_does (fun n hn => mem_userProcs.mp hn) h₁).then_does ?_
    split_ifs
    · exact (Calm.dont_reply s₁ true).does
    · exact (Calm.refl s₁).does

/-- The loop of `do_ksig` over the signals. -/
theorem ksigFrom_does {sig_map : ℕ} {l : List ℕ} (hl : ∀ j ∈ l, 1 ≤ j ∧ j ≤ NSIG)
    (h : ksigFrom k proc_id sig_map l s = some s') : Does s s' (ksigDeeds k proc_id sig_map l s) := by
  induction l generalizing s with
  | nil =>
    obtain rfl := Option.some.inj h
    exact (Calm.refl s).does
  | cons j l ih =>
    have hrest : ∀ i ∈ l, 1 ≤ i ∧ i ≤ NSIG := fun i hi => hl i (List.mem_cons_of_mem _ hi)
    rw [ksigFrom] at h
    rw [ksigDeeds]
    split_ifs at h ⊢
    · obtain ⟨⟨r, s₁⟩, h₁, h₂⟩ := Option.bind_eq_some_iff.mp h
      have hsig := checkSig_does h₁
      have hj := hl j List.mem_cons_self
      rw [if_neg (by omega), Int.toNat_natCast] at hsig
      rw [h₁]
      exact hsig.trans (ih hrest h₂)
    · exact ih hrest h

theorem stackFault_does (huser : INIT_PROC_NR ≤ rmp) (h : stackFault k s rmp = some s') :
    Does s s' (faultDeeds k s rmp) := by
  unfold stackFault at h
  unfold faultDeeds
  dsimp only at h ⊢
  have hset : Calm s (s.set rmp fun _ => (adjust rmp (s.mproc rmp) (s.mproc rmp).segD.mem_len
      (k.sp rmp SIGSTKFLT - CLICK_SIZE)).2) := Calm.set (adjust_traits ..)
  split_ifs at h ⊢
  · obtain rfl := Option.some.inj h
    exact hset.does
  · exact Does.of_calm (hset.trans (Calm.set rfl)) (sigProc_does huser h)

/-- What `do_ksig` does before its loop. -/
theorem ksigStart_does {sig_map : ℕ} (huser : INIT_PROC_NR ≤ n)
    (h : ksigStart k s n sig_map = some s') :
    Does s s' (if sig_map = 1 <<< (SIGSTKFLT - 1) then
      faultDeeds k (s.set MM_PROC_NR fun p => { p with mp_procgrp := (s.mproc n).mp_procgrp }) n
      else []) := by
  unfold ksigStart at h
  dsimp only at h
  split_ifs at h ⊢
  · exact Does.of_calm (Calm.set rfl) (stackFault_does huser h)
  · obtain rfl := Option.some.inj h
    exact (Calm.set rfl).does

/-- Signals that originate in the kernel. -/
theorem doKsig_does {r : ℤ} {sig_map : ℕ} (huser : INIT_PROC_NR ≤ n)
    (h : doKsig k s n sig_map = some (r, s')) : Does s s' (doKsigDeeds k s n sig_map) := by
  unfold doKsig at h
  unfold doKsigDeeds
  dsimp only at h ⊢
  refine Does.of_calm (Calm.dont_reply s true) ?_
  split_ifs at h with hgone
  · obtain ⟨-, rfl⟩ := Prod.mk.inj (Option.some.inj h)
    rw [if_pos hgone]
    exact (Calm.refl _).does
  · obtain ⟨s₁, h₁, h⟩ := Option.bind_eq_some_iff.mp h
    obtain ⟨s₂, h₂, h⟩ := Option.bind_eq_some_iff.mp h
    obtain ⟨-, rfl⟩ := Prod.mk.inj (Option.some.inj h)
    rw [if_neg hgone, h₁]
    exact (ksigStart_does huser h₁).trans (ksigFrom_does (by decide) h₂)

/-! ## Whom the kernel's signals are for -/

/-- Sending a signal is not acting upon a `SIGALRM`. -/
theorem acts_sigDeeds : .acts n ∉ sigDeeds k s rmp sig_nr := by
  unfold sigDeeds exitDeeds
  split_ifs <;> simp

/-- A turn of the loop of `check_sig` acts upon a `SIGALRM` if it is sent. -/
theorem acts_visitDeeds (h : .acts n ∈ visitDeeds k mp proc_id sig_nr send_uid s rmp) :
    n = rmp ∧ sig_nr = SIGALRM ∧ (s.flags rmp).IN_USE = true ∧
      sendSig s mp proc_id sig_nr send_uid rmp = true := by
  unfold visitDeeds at h
  split_ifs at h with hno hsig hi
  · exact absurd h List.not_mem_nil
  · rw [List.append_nil, List.mem_singleton] at h
    exact ⟨Deed.acts.inj h, hsig, by simp_all⟩
  · rw [List.mem_append, List.mem_singleton] at h
    exact ⟨Deed.acts.inj (h.resolve_right acts_sigDeeds), hsig, by simp_all⟩
  · exact absurd h List.not_mem_nil
  · exact absurd h acts_sigDeeds

/-- A signal to one process is sent to no other. -/
theorem sendSig_pid (hid : 0 < proc_id) (h : sendSig s mp proc_id sig_nr send_uid rmp = true) :
    ((s.mproc rmp).mp_pid : ℤ) = proc_id := by
  by_contra hne
  have hne' : proc_id ≠ (s.mproc rmp).mp_pid := fun e => hne e.symm
  have hall : proc_id ≠ -1 := by omega
  simp [sendSig, hid, hne', hall] at h

/-- A signal to one process is acted upon for no other. -/
theorem acts_checkSigDeeds {l : List ProcNr} (huser : ∀ n ∈ l, INIT_PROC_NR ≤ n)
    (h : .acts n ∈ checkSigDeeds k mp proc_id sig_nr send_uid l s) :
    sig_nr = SIGALRM ∧ n ∈ l ∧ (s.flags n).IN_USE = true ∧
      (0 < proc_id → ((s.mproc n).mp_pid : ℤ) = proc_id) := by
  induction l generalizing s with
  | nil => exact absurd h List.not_mem_nil
  | cons rmp l ih =>
    have hl : ∀ n ∈ l, INIT_PROC_NR ≤ n := fun n hn => huser n (List.mem_cons_of_mem _ hn)
    rw [checkSigDeeds, List.mem_append] at h
    rcases h with h | h
    · obtain ⟨rfl, hsig, hu, hsend⟩ := acts_visitDeeds h
      exact ⟨hsig, List.mem_cons_self, hu, fun hid => sendSig_pid hid hsend⟩
    · cases hturn : checkSigProc k mp proc_id sig_nr send_uid s rmp with
      | none =>
        rw [hturn] at h
        exact absurd h List.not_mem_nil
      | some st =>
        obtain ⟨visit, s₁⟩ := st
        rw [hturn] at h
        dsimp only at h
        have hdoes := checkSigProc_does (huser rmp List.mem_cons_self) hturn
        split_ifs at h
        · exact absurd h List.not_mem_nil
        · obtain ⟨hsig, hn, hu, hpid⟩ := ih hl h
          rw [hdoes.pids] at hpid
          exact ⟨hsig, List.mem_cons_of_mem _ hn, hdoes.use n hu, hpid⟩

theorem acts_ksigDeeds {sig_map : ℕ} {l : List ℕ} (hid : 0 < proc_id)
    (hl : ∀ j ∈ l, 1 ≤ j ∧ j ≤ NSIG) (h : .acts n ∈ ksigDeeds k proc_id sig_map l s) :
    hasSig sig_map SIGALRM = true ∧ INIT_PROC_NR ≤ n ∧ (s.flags n).IN_USE = true ∧
      ((s.mproc n).mp_pid : ℤ) = proc_id := by
  induction l generalizing s with
  | nil => exact absurd h List.not_mem_nil
  | cons j l ih =>
    have hrest : ∀ i ∈ l, 1 ≤ i ∧ i ≤ NSIG := fun i hi => hl i (List.mem_cons_of_mem _ hi)
    rw [ksigDeeds] at h
    split_ifs at h with hj
    · rcases List.mem_append.mp h with h | h
      · obtain ⟨rfl, hn, hu, hpid⟩ := acts_checkSigDeeds (fun n hn => mem_userProcs.mp hn) h
        exact ⟨hj, mem_userProcs.mp hn, hu, hpid hid⟩
      · cases hsig : checkSig k s MM_PROC_NR (ksigId proc_id j) j SUPER_USER with
        | none =>
          rw [hsig] at h
          exact absurd h List.not_mem_nil
        | some st =>
          obtain ⟨r, s₁⟩ := st
          rw [hsig] at h
          have hdoes := checkSig_does hsig
          obtain ⟨hmap, hn, hu, hpid⟩ := ih hrest h
          rw [hdoes.pids] at hpid
          exact ⟨hmap, hn, hdoes.use n hu, hpid⟩
    · exact ih hrest h

/-- A stack fault is no `SIGALRM`. -/
theorem acts_faultDeeds : .acts n ∉ faultDeeds k s rmp := by
  unfold faultDeeds
  dsimp only
  split_ifs
  · exact List.not_mem_nil
  · exact acts_sigDeeds

/-- The signals of the kernel for a process are acted upon for no other. -/
theorem acts_doKsigDeeds {m : ProcNr} {sig_map : ℕ} (huser : INIT_PROC_NR ≤ m)
    (hpid : (s.flags m).IN_USE = true → 0 < (s.mproc m).mp_pid)
    (h : .acts n ∈ doKsigDeeds k s m sig_map) :
    hasSig sig_map SIGALRM = true ∧ INIT_PROC_NR ≤ n ∧ (s.flags m).IN_USE = true ∧
      (s.flags n).IN_USE = true ∧ (s.mproc n).mp_pid = (s.mproc m).mp_pid := by
  unfold doKsigDeeds at h
  dsimp only at h
  change _ ∈ if (s.flags m).IN_USE = false ∨ (s.flags m).HANGING = true then [] else _ at h
  by_cases hgone : (s.flags m).IN_USE = false ∨ (s.flags m).HANGING = true
  · rw [if_pos hgone] at h
    exact absurd h List.not_mem_nil
  have hu : (s.flags m).IN_USE = true := by
    by_contra hno
    exact hgone (Or.inl (by simpa using hno))
  rw [if_neg hgone, List.mem_append] at h
  rcases h with h | h
  · split_ifs at h
    · exact absurd h acts_faultDeeds
    · exact absurd h List.not_mem_nil
  · cases hstart : ksigStart k { s with dont_reply := true } m sig_map with
    | none =>
      rw [hstart] at h
      exact absurd h List.not_mem_nil
    | some s₁ =>
      rw [hstart] at h
      have hdoes := ksigStart_does huser hstart
      obtain ⟨hmap, hn, hun, hp⟩ :=
        acts_ksigDeeds (Int.natCast_pos.mpr (hpid hu)) (by decide) h
      rw [hdoes.pids] at hp
      exact ⟨hmap, hn, hu, hdoes.use n hun, Int.natCast_inj.mp hp⟩

/-! ## Calls -/

/-- Waiting may release the slot of a process that hangs. -/
theorem waitFrom_does {r : ℤ} {l : List ProcNr} {children : ℕ}
    (h : waitFrom who l children s = some (r, s')) : Does s s' [] := by
  induction l generalizing children with
  | nil =>
    unfold waitFrom at h
    split_ifs at h
    · obtain ⟨-, rfl⟩ := Prod.mk.inj (Option.some.inj h)
      exact Does.of_calm (Calm.set rfl) (Calm.dont_reply _ true).does
    · obtain ⟨-, rfl⟩ := Prod.mk.inj (Option.some.inj h)
      exact (Calm.refl s).does
  | cons rp l ih =>
    unfold waitFrom at h
    split_ifs at h with hchild hhang hstop
    · obtain ⟨s₁, h₁, h₂⟩ := Option.map_eq_some_iff.mp h
      obtain ⟨-, rfl⟩ := Prod.mk.inj h₂
      have hfrees := cleanup_frees h₁
      refine Does.then_does ?_ (Calm.dont_reply _ true).does
      refine ⟨hfrees.pids, hfrees.use, fun n hn => (hfrees.alarm n).symm.trans hn, fun n hl => ?_,
        fun n hn => absurd hn List.not_mem_nil, List.nodup_nil, fun c hc => absurd hc List.not_mem_nil⟩
      refine Or.inl (hfrees.live n (fun e => ?_) hl)
      exact life_live.mp (e ▸ hl) (Or.inr hhang)
    · obtain ⟨-, rfl⟩ := Prod.mk.inj (Option.some.inj h)
      exact Does.of_calm ((reply_calm ..).trans (Calm.set rfl)) (Calm.dont_reply _ true).does
    · exact ih h
    · exact ih h

/-- Processes that are traced are users. -/
theorem findproc_user {pid : ℤ} (h : findproc s pid = some child) : INIT_PROC_NR ≤ child := by
  have huser : ∀ n ∈ mprocs.drop (INIT_PROC_NR + 1), INIT_PROC_NR ≤ n := by decide
  exact huser child (List.mem_of_find?_eq_some h)

/-- A signal to a process that is resumed. -/
theorem traceSig_does (huser : INIT_PROC_NR ≤ child) (h : traceSig k s child sig_nr = some s') :
    Does s s' (sigDeeds k (s.setFlags child fun f => { f with TRACED := false }) child sig_nr) := by
  obtain ⟨s₁, h₁, h₂⟩ := Option.bind_eq_some_iff.mp h
  obtain rfl := Option.some.inj h₂
  exact (Does.of_calm (Calm.set rfl) (sigProc_does huser h₁)).then_does (Calm.set rfl).does

theorem doTrace_does {r request pid data : ℤ} (h : doTrace k s who request pid data = some (r, s')) :
    Does s s' (traceDeeds k s request pid data) := by
  unfold doTrace at h
  unfold traceDeeds
  by_cases hreq : request = 0
  · rw [if_pos hreq] at h
    obtain ⟨-, rfl⟩ := Prod.mk.inj (Option.some.inj h)
    have hcalm : Calm s (s.setFlags who fun f => { f with TRACED := true }) := Calm.set rfl
    cases findproc s pid with
    | none => exact hcalm.does
    | some child =>
      dsimp only
      rw [if_pos (Or.inl hreq)]
      exact hcalm.does
  rw [if_neg hreq] at h
  cases hchild : findproc s pid with
  | none =>
    rw [hchild] at h
    obtain ⟨-, rfl⟩ := Prod.mk.inj (Option.some.inj h)
    exact (Calm.refl s).does
  | some child =>
    rw [hchild] at h
    dsimp only at h ⊢
    have huser := findproc_user hchild
    unfold traceChild at h
    by_cases hstop : (s.flags child).STOPPED = false
    · rw [if_pos hstop] at h
      obtain ⟨-, rfl⟩ := Prod.mk.inj (Option.some.inj h)
      rw [if_pos (Or.inr hstop)]
      exact (Calm.refl s).does
    rw [if_neg hstop] at h
    rw [if_neg (by simp [hreq, hstop])]
    by_cases h8 : request = 8
    · rw [if_pos h8] at h
      obtain ⟨s₁, h₁, h₂⟩ := Option.map_eq_some_iff.mp h
      obtain ⟨-, rfl⟩ := Prod.mk.inj h₂
      rw [if_pos h8]
      exact mmExit_does huser h₁
    rw [if_neg h8] at h ⊢
    by_cases h7 : request = 7 ∧ 0 < data ∧ data ≤ NSIG
    · rw [if_pos h7.1, if_neg (not_lt.mpr h7.2.2)] at h
      obtain ⟨s₁, h₁, h₂⟩ := Option.map_eq_some_iff.mp h
      obtain ⟨-, rfl⟩ := Prod.mk.inj h₂
      obtain ⟨s₂, h₃, rfl⟩ := Option.map_eq_some_iff.mp h₁
      rw [if_pos h7.2.1] at h₃
      rw [if_pos h7]
      exact (traceSig_does huser h₃).then_does (Calm.set rfl).does
    · -- The process goes on without a signal, or does not.
      rw [if_neg h7]
      split_ifs at h with hreq' hbig
      · obtain ⟨-, rfl⟩ := Prod.mk.inj (Option.some.inj h)
        exact (Calm.refl s).does
      · obtain ⟨s₁, h₁, h₂⟩ := Option.map_eq_some_iff.mp h
        obtain ⟨-, rfl⟩ := Prod.mk.inj h₂
        obtain ⟨s₂, h₃, rfl⟩ := Option.map_eq_some_iff.mp h₁
        rw [if_neg fun hpos => h7 ⟨hreq', hpos, not_lt.mp hbig⟩] at h₃
        obtain rfl := Option.some.inj h₃
        exact (Calm.set rfl).does
      · obtain ⟨-, rfl⟩ := Prod.mk.inj (Option.some.inj h)
        exact (Calm.refl s).does

/-- The calls that have to do with alarms in a way of their own. -/
def MmCall.Arms : MmCall → Prop
  | .fork | .alarm _ => True
  | _ => False

/-- A call that creates no process and sets no timer. -/
theorem mmCall_does {c : MmCall} {r : ℤ} (huser : INIT_PROC_NR ≤ who) (hc : ¬c.Arms)
    (h : mmCall k s who c = some (r, s')) :
    ∃ deeds, Does s s' deeds ∧ callDeeds k s s' who c = deeds.filterMap Deed.call := by
  cases c with
  | fork => exact absurd trivial hc
  | alarm seconds => exact absurd trivial hc
  | exit status =>
    obtain ⟨s₁, h₁, h₂⟩ := Option.map_eq_some_iff.mp h
    obtain ⟨-, rfl⟩ := Prod.mk.inj h₂
    exact ⟨_, (mmExit_does huser h₁).then_does (Calm.dont_reply _ true).does, rfl⟩
  | wait => exact ⟨[], waitFrom_does h, rfl⟩
  | kill pid kill_sig => exact ⟨_, checkSig_does h, rfl⟩
  | trace request pid data => exact ⟨_, doTrace_does h, rfl⟩
  | signal sig func =>
    refine ⟨[], Calm.does ?_, rfl⟩
    have hset : Calm s (s.set who fun p => setFunc p sig.toNat func) := by
      apply Calm.set
      unfold setFunc
      split <;> rfl
    obtain rfl : (doSignal s who sig func).2 = s' := congrArg Prod.snd (Option.some.inj h)
    unfold doSignal
    split_ifs
    · exact Calm.refl s
    · exact Calm.refl s
    · exact hset
    · exact hset
  | pause =>
    obtain ⟨-, rfl⟩ := Prod.mk.inj (Option.some.inj h)
    exact ⟨[], Does.of_calm (Calm.set rfl) (Calm.dont_reply _ true).does, rfl⟩
  | setuid usr_id =>
    refine ⟨[], Calm.does ?_, rfl⟩
    have hset : Calm s (s.set who fun p => { p with mp_realuid := usr_id, mp_effuid := usr_id }) :=
      Calm.set rfl
    obtain rfl : (doSetuid s who usr_id).2 = s' := congrArg Prod.snd (Option.some.inj h)
    unfold doSetuid
    split_ifs
    · exact Calm.refl s
    · exact hset

/-! ## Creating processes -/

/-- Nothing else than the process id of the child changes, which differs from all others. -/
theorem findPid_spec {fuel : ℕ} (h : findPid child fuel s = some s') :
    s'.procs_in_use = s.procs_in_use ∧ (∀ n ≠ child, s'.mproc n = s.mproc n) ∧
      ∃ pid, 0 < pid ∧ (∀ n ≠ child, (s.mproc n).mp_pid ≠ pid) ∧
        s'.mproc child = { s.mproc child with mp_pid := pid } := by
  obtain ⟨pid, rfl, hfree⟩ := findPid_found h
  exact ⟨rfl, fun n hn => s.withPid_of_ne pid hn, pid, by exact_mod_cast hfree.pos, hfree.other_pid,
    s.withPid_self child pid⟩

/-- A process is created in a slot that was free. -/
structure Creates (child : ProcNr) (s s' : MState) : Prop where
  free : (s.flags child).IN_USE = false
  others : ∀ n ≠ child, traits (s'.mproc n) = traits (s.mproc n)
  live : s'.life child = .live
  pid : 0 < (s'.mproc child).mp_pid
  fresh : ∀ n ≠ child, (s.mproc n).mp_pid ≠ (s'.mproc child).mp_pid

theorem Creates.then_calm (h : Creates child s s') (hc : Calm s' s'') : Creates child s s'' := by
  have hsame := hc.same
  simp only [traits, Prod.mk.injEq] at hsame
  refine ⟨h.free, fun n hn => (hc.same n).trans (h.others n hn), (hsame child).2.1.trans h.live, ?_, ?_⟩
  · rw [(hsame child).1]
    exact h.pid
  · rw [(hsame child).1]
    exact h.fresh

/-- A fork that is refused does nothing, and another one creates a process. -/
theorem doFork_does {r : ℤ} (hl : s.life who = .live) (h : doFork k s who = some (r, s')) :
    forked s s' = none ∧ Calm s s' ∨ ∃ child, forked s s' = some child ∧ Creates child s s' := by
  have hnone : ∀ {r r' : ℤ}, some (r, s) = some (r', s') → forked s s' = none ∧ Calm s s' := by
    intro r r' h
    obtain ⟨-, rfl⟩ := Prod.mk.inj (Option.some.inj h)
    exact ⟨if_pos rfl, Calm.refl s⟩
  unfold doFork at h
  split_ifs at h
  · exact Or.inl (hnone h)
  · exact Or.inl (hnone h)
  · exact Or.inl (hnone h)
  · obtain ⟨child, hchild, h⟩ := Option.bind_eq_some_iff.mp h
    obtain ⟨s₁, h₁, h⟩ := Option.bind_eq_some_iff.mp h
    obtain ⟨-, rfl⟩ := Prod.mk.inj (Option.some.inj h)
    obtain ⟨huse, hothers, pid, hpos, hfresh, hnew⟩ := findPid_spec h₁
    have hfree : (s.flags child).IN_USE = false := by simpa using List.find?_some hchild
    have hset : ∀ n ≠ child, ({ s with procs_in_use := s.procs_in_use + 1 }.set child fun _ =>
        childOf who (s.mproc who)).mproc n = s.mproc n := by
      intro n hn
      simp [MState.set, hn]
    have hcreates : Creates child s s₁ := by
      refine ⟨hfree, fun n hn => ?_, ?_, ?_, fun n hn => ?_⟩
      · rw [hothers n hn, hset n hn]
      · unfold MState.life MState.flags
        rw [hnew]
        simp only [MState.set, Function.update_self]
        exact hl
      · rw [hnew]
        exact hpos
      · rw [hnew, ← hset n hn]
        exact hfresh n hn
    have hgrp : Calm s₁ (setProcgrp s₁ who child) := by
      unfold setProcgrp
      split_ifs
      · exact Calm.set rfl
      · exact Calm.refl s₁
    have hreply : Calm (setProcgrp s₁ who child)
        (reply ((setProcgrp s₁ who child).record (.fork child)) child 0 0) :=
      ⟨(reply_calm child 0 0).same⟩
    refine Or.inr ⟨child, ?_, hcreates.then_calm (hgrp.trans hreply)⟩
    -- There is one more process, and its slot is the first that was free.
    have hcount : (reply ((setProcgrp s₁ who child).record (.fork child)) child 0 0).procs_in_use =
        s.procs_in_use + 1 := by
      unfold reply setProcgrp
      split_ifs <;> exact huse
    unfold forked
    rw [hcount, if_neg (by omega)]
    exact hchild

end Minix.Mm
