import Minix.Mm.Lives

/-!
# What calls do to the exits

`Once` is the invariant: since a process was created it has not exited twice, has not exited at all
while it lives, and has exited once while it hangs. An exit of a live process keeps it, and one of a
process that hangs breaks it for good. `Outcome ok s s'` says of a function that it keeps the
invariant if, and only if, `ok`; these conditions are put together along the code (`Outcome.trans`).

The tests of `check_sig` exclude a process that hangs, except that a signal of the superuser to
everybody (`proc_id == -1`) overrides that test. `SparesFrom` says that it does no harm: wherever
the loop comes to a process that hangs, the signal does not lead to `mm_exit`.
-/

namespace Minix.Mm

open Lib

/-- No process has exited twice since the fork that created it. -/
def ExitOnce (log : List MmEvent) : Prop :=
  ∀ n step, OncePer (MmEvent.fork n) (.exit n step) log

/-- What is known of the exits. -/
structure Once (s : MState) : Prop where
  once : ExitOnce s.log
  live : ∀ n step, s.life n = .live → times (MmEvent.fork n) (.exit n step) s.log = 0
  zombie : ∀ n, s.life n = .zombie → times (MmEvent.fork n) (.exit n .mmExit) s.log = 1

/-- The invariant is kept if `ok`, and broken for good if not. -/
structure Outcome (ok : Prop) (s s' : MState) : Prop where
  grows : s.log <:+ s'.log
  keeps : Once s → ok → Once s'
  breaks : Once s → ¬ok → ¬ExitOnce s'.log

variable {s s' s'' : MState} {n m rmp mp : ProcNr} {k : Outside} {ok ok' : Prop} {sig_nr : ℕ}

/-- Twice is twice forever. -/
theorem ExitOnce.of_suffix {l log : List MmEvent} (h : ExitOnce log) (hl : l <:+ log) : ExitOnce l :=
  fun n step => (h n step).of_suffix hl

/-- A quiet function keeps the invariant. -/
theorem Once.quiet (h : Once s) (hq : Quiet s s') : Once s' := by
  refine ⟨by rw [hq.log]; exact h.once, fun n step hn => ?_, fun n hn => ?_⟩
  · rcases hq.life n with e | e
    · rw [hq.log]
      exact h.live n step (e.symm.trans hn)
    · rw [e] at hn
      cases hn
  · rcases hq.life n with e | e
    · rw [hq.log]
      exact h.zombie n (e.symm.trans hn)
    · rw [e] at hn
      cases hn

/-- The events of an exit, as far as a process is concerned. -/
theorem times_exit (n rmp : ProcNr) (step : ExitStep) (log : List MmEvent) :
    times (MmEvent.fork n) (.exit n step)
        (.exit rmp .freeMem :: .exit rmp .sysXit :: .exit rmp .mmExit :: log) =
      times (MmEvent.fork n) (.exit n step) log + if n = rmp then 1 else 0 := by
  by_cases hn : n = rmp
  · subst hn
    rw [if_pos rfl]
    cases step <;> simp [times_event, times_other]
  · have hne : rmp ≠ n := fun e => hn e.symm
    rw [if_neg hn, times_other, times_other, times_other, Nat.add_zero]
    all_goals simp [hne]

/-- A log with an exit, if the process has not exited before. -/
theorem exitOnce_exit {log : List MmEvent} (h : ExitOnce log)
    (h0 : ∀ step, times (MmEvent.fork rmp) (.exit rmp step) log = 0) :
    ExitOnce (.exit rmp .freeMem :: .exit rmp .sysXit :: .exit rmp .mmExit :: log) := by
  intro n step
  have hle : times (MmEvent.fork n) (.exit n step)
      (.exit rmp .freeMem :: .exit rmp .sysXit :: .exit rmp .mmExit :: log) ≤ 1 := by
    rw [times_exit]
    by_cases hn : n = rmp
    · subst hn
      rw [h0 step, if_pos rfl]
    · rw [if_neg hn]
      exact (h n step).times_le
  have hcons : ∀ (x : MmEvent) (l : List MmEvent), x ≠ .fork n →
      times (MmEvent.fork n) (.exit n step) (x :: l) ≤ 1 →
      times (MmEvent.fork n) (.exit n step) l ≤ 1 := fun x l hx => (times_le_cons hx).trans
  have hle₁ := hcons _ _ (by simp) hle
  have hle₂ := hcons _ _ (by simp) hle₁
  rw [oncePer_cons, oncePer_cons, oncePer_cons]
  exact ⟨hle, hle₁, hle₂, h n step⟩

/-- The exit of a live process keeps the invariant. -/
theorem Once.exited (h : Once s) (he : Exited rmp s s') (hl : s.life rmp = .live) : Once s' := by
  refine ⟨?_, fun n step hn => ?_, fun n hn => ?_⟩
  · rw [he.log]
    exact exitOnce_exit h.once fun step => h.live rmp step hl
  · have hne : n ≠ rmp := fun e => he.gone (e ▸ hn)
    rw [he.log, times_exit, if_neg hne]
    rcases he.others n hne with e | e
    · exact h.live n step (e.symm.trans hn)
    · rw [e] at hn
      cases hn
  · rw [he.log, times_exit]
    by_cases hne : n = rmp
    · subst hne
      rw [if_pos rfl, h.live n .mmExit hl]
    · rw [if_neg hne]
      rcases he.others n hne with e | e
      · exact h.zombie n (e.symm.trans hn)
      · rw [e] at hn
        cases hn

/-- The exit of a process that hangs breaks it. -/
theorem Once.exited_twice (h : Once s) (he : Exited rmp s s') (hl : s.life rmp = .zombie) :
    ¬ExitOnce s'.log := by
  intro honce
  have hle := (honce rmp .mmExit).times_le
  rw [he.log, times_exit, if_pos rfl, h.zombie rmp hl] at hle
  omega

/-! ## Outcomes -/

theorem Outcome.quiet (h : Quiet s s') : Outcome True s s' :=
  ⟨by rw [h.log], fun ho _ => ho.quiet h, fun _ hno => absurd trivial hno⟩

theorem Outcome.exited (h : Exited rmp s s') (hl : s.life rmp ≠ .free) :
    Outcome (s.life rmp ≠ .zombie) s s' := by
  refine ⟨?_, fun ho hz => ?_, fun ho hz => ?_⟩
  · rw [h.log]
    exact ⟨[_, _, _], rfl⟩
  · refine ho.exited h ?_
    cases he : s.life rmp <;> simp_all
  · exact ho.exited_twice h (not_not.mp hz)

theorem Outcome.congr (h : Outcome ok s s') (he : ok ↔ ok') : Outcome ok' s s' := by
  rwa [propext he] at h

/-- One function after the other. -/
theorem Outcome.trans (h : Outcome ok s s') (h' : Outcome ok' s' s'') :
    Outcome (ok ∧ ok') s s'' := by
  refine ⟨h.grows.trans h'.grows, fun ho hok => h'.keeps (h.keeps ho hok.1) hok.2,
    fun ho hno honce => ?_⟩
  have hok : ok := by
    by_contra hn
    exact h.breaks ho hn (honce.of_suffix h'.grows)
  exact h'.breaks (h.keeps ho hok) (fun hok' => hno ⟨hok, hok'⟩) honce

/-- Quiet functions around another one do not matter. -/
theorem Outcome.of_quiet (hq : Quiet s s') (h : Outcome ok s' s'') : Outcome ok s s'' :=
  ((Outcome.quiet hq).trans h).congr (by simp)

theorem Outcome.then_quiet (h : Outcome ok s s') (hq : Quiet s' s'') : Outcome ok s s'' :=
  (h.trans (Outcome.quiet hq)).congr (by simp)

/-! ## Signals -/

/-- What a signal does depends on whether it kills a process that hangs. -/
theorem sigProc_outcome (h : sigProc k s rmp sig_nr = some s') :
    Outcome (¬(s.life rmp = .zombie ∧ kills k s rmp sig_nr = true)) s s' := by
  obtain ⟨hquiet, hexit⟩ := sigProc_spec h
  cases hk : kills k s rmp sig_nr with
  | false => exact (Outcome.quiet (hquiet hk)).congr (by simp)
  | true =>
    have huse : s.life rmp ≠ .free := by
      unfold kills at hk
      unfold MState.life lifeOf
      split_ifs <;> simp_all
    exact (Outcome.exited (hexit hk) huse).congr (by simp)

/-- `check_sig` sends the signal to the process, and the signal leads to `mm_exit`. -/
def struck (k : Outside) (mp : ProcNr) (proc_id : ℤ) (sig_nr send_uid : ℕ) (s : MState)
    (rmp : ProcNr) : Bool :=
  (s.flags rmp).IN_USE && (sig_nr != SIGALRM || (s.flags rmp).ALARM_ON) &&
    sendSig s mp proc_id sig_nr send_uid rmp && !hasSig (s.mproc rmp).mp_ignore sig_nr &&
    kills k s rmp sig_nr

/-- Wherever the loop of `check_sig` comes to a process that hangs, it does not strike it. -/
def SparesFrom (k : Outside) (mp : ProcNr) (proc_id : ℤ) (sig_nr send_uid : ℕ) :
    List ProcNr → MState → Prop
  | [], _ => True
  | rmp :: rest, s =>
    ¬(s.life rmp = .zombie ∧ struck k mp proc_id sig_nr send_uid s rmp = true) ∧
      ∀ visit s', checkSigProc k mp proc_id sig_nr send_uid s rmp = some (visit, s') →
        SparesFrom k mp proc_id sig_nr send_uid rest s'

/-- Turning off a bit of the alarm changes nothing else. -/
theorem alarmGone_spec (s : MState) (rmp : ProcNr) (sig_nr : ℕ) (send_sig : Bool) :
    Quiet s (alarmGone s rmp sig_nr send_sig) ∧
      (alarmGone s rmp sig_nr send_sig).life rmp = s.life rmp ∧
      ((alarmGone s rmp sig_nr send_sig).mproc rmp).mp_ignore = (s.mproc rmp).mp_ignore ∧
      kills k (alarmGone s rmp sig_nr send_sig) rmp sig_nr = kills k s rmp sig_nr := by
  unfold alarmGone
  split_ifs
  · refine ⟨Quiet.setFlags rfl rfl, ?_, ?_, ?_⟩
    · apply setFlags_life
      · exact fun _ => rfl
      · exact fun _ => rfl
    · simp [MState.setFlags, MState.set]
    · unfold kills
      rw [catchSig_room, setFlags_self]
      simp [MState.setFlags, MState.set]
  · exact ⟨Quiet.refl s, rfl, rfl, rfl⟩

variable {proc_id : ℤ} {send_uid : ℕ}

/-- A turn of the loop of `check_sig`. -/
theorem checkSigProc_outcome {visit : Visit}
    (h : checkSigProc k mp proc_id sig_nr send_uid s rmp = some (visit, s')) :
    Outcome (¬(s.life rmp = .zombie ∧ struck k mp proc_id sig_nr send_uid s rmp = true)) s s' := by
  obtain ⟨hquiet, hlife, hignore, hkills⟩ := alarmGone_spec (k := k) s rmp sig_nr
    (sendSig s mp proc_id sig_nr send_uid rmp)
  unfold checkSigProc at h
  dsimp only at h
  unfold struck
  split_ifs at h with hu ha hs hi
  · obtain ⟨-, rfl⟩ := Prod.mk.inj (Option.some.inj h)
    exact (Outcome.quiet (Quiet.refl s)).congr (by simp [hu])
  · obtain ⟨-, rfl⟩ := Prod.mk.inj (Option.some.inj h)
    exact (Outcome.quiet (Quiet.refl s)).congr (by simp [ha])
  · obtain ⟨-, rfl⟩ := Prod.mk.inj (Option.some.inj h)
    exact (Outcome.quiet hquiet).congr (by simp [hs])
  · obtain ⟨-, rfl⟩ := Prod.mk.inj (Option.some.inj h)
    rw [hignore] at hi
    exact (Outcome.quiet hquiet).congr (by simp [hi])
  · obtain ⟨s₁, h₁, h₂⟩ := Option.map_eq_some_iff.mp h
    obtain ⟨-, rfl⟩ := Prod.mk.inj h₂
    have hsig := Outcome.of_quiet hquiet ((sigProc_outcome h₁).then_quiet (unpause_quiet s₁ rmp))
    rw [hlife, hkills] at hsig
    rw [hignore] at hi
    refine hsig.congr ?_
    have halarm : (sig_nr != SIGALRM || (s.flags rmp).ALARM_ON) = true := by
      rw [not_and_or] at ha
      simpa using ha
    simp [hu, hs, hi, halarm]

/-- Only a signal of the superuser to everybody is sent to a process that hangs. -/
theorem sendSig_zombie (hz : s.life rmp = .zombie)
    (h : sendSig s mp proc_id sig_nr send_uid rmp = true) : proc_id = -1 := by
  by_contra hne
  have hh : (s.flags rmp).HANGING = true := by
    unfold MState.life lifeOf at hz
    split_ifs at hz with h₁ h₂
    simpa using h₂
  unfold MState.flags at hh
  simp [sendSig, hne, hh] at h

/-- A signal to one process or to a group spares those that hang. -/
theorem sparesFrom_of_ne (h : proc_id ≠ -1) (l : List ProcNr) (s : MState) :
    SparesFrom k mp proc_id sig_nr send_uid l s := by
  induction l generalizing s with
  | nil => trivial
  | cons rmp l ih =>
    refine ⟨fun hz => ?_, fun _ s' _ => ih s'⟩
    have hst := hz.2
    unfold struck at hst
    simp only [Bool.and_eq_true] at hst
    exact h (sendSig_zombie hz.1 hst.1.1.2)

/-- The loop of `check_sig`. -/
theorem checkSigFrom_outcome {l : List ProcNr} {count count' : ℕ}
    (h : checkSigFrom k mp proc_id sig_nr send_uid l count s = some (count', s')) :
    Outcome (SparesFrom k mp proc_id sig_nr send_uid l s) s s' := by
  induction l generalizing s count with
  | nil =>
    obtain ⟨-, rfl⟩ := Prod.mk.inj (Option.some.inj h)
    exact Outcome.quiet (Quiet.refl s)
  | cons rmp l ih =>
    obtain ⟨⟨visit, s₁⟩, h₁, h₂⟩ := Option.bind_eq_some_iff.mp h
    have hturn := checkSigProc_outcome h₁
    -- The states in which the loop goes on are those that the turn leads to.
    have hspares : SparesFrom k mp proc_id sig_nr send_uid (rmp :: l) s ↔
        ¬(s.life rmp = .zombie ∧ struck k mp proc_id sig_nr send_uid s rmp = true) ∧
          SparesFrom k mp proc_id sig_nr send_uid l s₁ := by
      refine and_congr_right fun _ => ⟨fun hall => hall visit s₁ h₁, fun hl v s₂ hv => ?_⟩
      obtain ⟨-, rfl⟩ := Prod.mk.inj (Option.some.inj (h₁.symm.trans hv))
      exact hl
    rw [hspares]
    cases visit with
    | skipped => exact hturn.trans (ih h₂)
    | ignored => exact hturn.trans (ih h₂)
    | sent =>
      dsimp only at h₂
      split_ifs at h₂ with hid
      · obtain ⟨-, rfl⟩ := Prod.mk.inj (Option.some.inj h₂)
        refine hturn.congr ⟨fun ht => ⟨ht, sparesFrom_of_ne (by omega) l _⟩, And.left⟩
      · exact hturn.trans (ih h₂)

end Minix.Mm
