import Minix.Lib.Epoch
import Minix.Mm.Signal

/-!
# The life of a process

A slot is free, or has a process in it that lives, or that has exited and hangs. Of every function
of the memory manager it is said what it does to the lives. Nearly all of them are `Quiet`: they let
nobody exit, and change no life except that hanging processes are cleaned up. `mmExit` is an
`Exited`, whatever the life of the process was before; whether a signal leads to it is decided by
`kills`.
-/

namespace Minix.Mm

open Kernel (NR_PROCS)
open Lib

/-- What is in a slot. -/
inductive Life
  | free
  | live
  | zombie
  deriving DecidableEq, Repr

/-- What the flags say is in a slot. -/
def lifeOf (f : MFlags) : Life :=
  if f.IN_USE = false then .free else if f.HANGING = false then .live else .zombie

/-- What is in a slot. -/
def MState.life (s : MState) (n : ProcNr) : Life := lifeOf (s.flags n)

/-- Live processes are in use and do not hang. -/
theorem life_live {s : MState} {n : ProcNr} :
    s.life n = .live ↔ ¬((s.flags n).IN_USE = false ∨ (s.flags n).HANGING = true) := by
  unfold MState.life lifeOf
  split_ifs <;> simp_all

/-- Nobody exits, and processes disappear at most. -/
structure Quiet (s s' : MState) : Prop where
  log : s'.log = s.log
  life : ∀ n, s'.life n = s.life n ∨ s'.life n = .free

/-- The process exits, and others disappear at most. -/
structure Exited (rmp : ProcNr) (s s' : MState) : Prop where
  log : s'.log = .exit rmp .freeMem :: .exit rmp .sysXit :: .exit rmp .mmExit :: s.log
  others : ∀ n ≠ rmp, s'.life n = s.life n ∨ s'.life n = .free
  gone : s'.life rmp ≠ .live

variable {s s' s'' : MState} {n m rmp child mp : ProcNr} {k : Outside} {f : MProc → MProc}
  {g : MFlags → MFlags} {sig_nr : ℕ}

/-! ## Assignments -/

/-- A slot after an assignment to its fields. -/
@[simp]
theorem set_flags_self : (s.set n f).flags n = (f (s.mproc n)).mp_flags := by
  simp [MState.set, MState.flags]

/-- Another slot after an assignment. -/
theorem set_flags_of_ne (h : m ≠ n) : (s.set n f).flags m = s.flags m := by
  simp [MState.set, MState.flags, h]

/-- Flags after an assignment. -/
@[simp]
theorem setFlags_self : (s.setFlags n g).flags n = g (s.flags n) := set_flags_self

/-- Flags of another slot after an assignment. -/
theorem setFlags_of_ne (h : m ≠ n) : (s.setFlags n g).flags m = s.flags m := set_flags_of_ne h

@[simp]
theorem set_log : (s.set n f).log = s.log := rfl

@[simp]
theorem setFlags_log : (s.setFlags n g).log = s.log := rfl

theorem Quiet.refl (s : MState) : Quiet s s := ⟨rfl, fun _ => Or.inl rfl⟩

theorem Quiet.trans (h : Quiet s s') (h' : Quiet s' s'') : Quiet s s'' := by
  refine ⟨h'.log.trans h.log, fun n => ?_⟩
  rcases h'.life n with e | e
  · rw [e]
    exact h.life n
  · exact Or.inr e

/-- A function that leaves the log and the flags as they are. -/
theorem Quiet.of_flags (hl : s'.log = s.log) (hf : s'.flags = s.flags) : Quiet s s' := by
  refine ⟨hl, fun n => Or.inl ?_⟩
  unfold MState.life
  rw [hf]

/-- An assignment to fields that keeps the life of the process, or frees its slot. -/
theorem Quiet.set (h : lifeOf (f (s.mproc n)).mp_flags = s.life n ∨
    lifeOf (f (s.mproc n)).mp_flags = .free) : Quiet s (s.set n f) := by
  refine ⟨rfl, fun m => ?_⟩
  unfold MState.life at h ⊢
  by_cases hm : m = n
  · subst hm
    rw [set_flags_self]
    exact h
  · rw [set_flags_of_ne hm]
    exact Or.inl rfl

/-- An assignment to other flags than those that decide about the life. -/
theorem Quiet.setFlags (hu : (g (s.flags n)).IN_USE = (s.flags n).IN_USE)
    (hh : (g (s.flags n)).HANGING = (s.flags n).HANGING) : Quiet s (s.setFlags n g) := by
  refine Quiet.set (Or.inl ?_)
  show lifeOf (g (s.flags n)) = lifeOf (s.flags n)
  unfold lifeOf
  rw [hu, hh]

theorem reply_quiet (proc_nr : ProcNr) (result res2 : ℤ) :
    Quiet s (reply s proc_nr result res2) := by
  unfold reply
  split_ifs
  · exact Quiet.refl s
  · exact Quiet.of_flags rfl rfl

theorem setAlarm_quiet (proc_nr : ProcNr) (sec : ℕ) : Quiet s (setAlarm s proc_nr sec) :=
  Quiet.setFlags rfl rfl

/-- An exit, and a quiet function after it. -/
theorem Exited.trans (h : Exited rmp s s') (h' : Quiet s' s'') : Exited rmp s s'' := by
  refine ⟨h'.log.trans h.log, fun n hn => ?_, fun hl => ?_⟩
  · rcases h'.life n with e | e
    · rw [e]
      exact h.others n hn
    · exact Or.inr e
  · rcases h'.life rmp with e | e
    · exact h.gone (e.symm.trans hl)
    · rw [e] at hl
      cases hl

/-- A quiet function, and an exit after it. -/
theorem Exited.of_quiet (h : Quiet s s') (h' : Exited rmp s' s'') : Exited rmp s s'' := by
  refine ⟨by rw [h'.log, h.log], fun n hn => ?_, h'.gone⟩
  rcases h'.others n hn with e | e
  · rw [e]
    exact h.life n
  · exact Or.inr e

/-! ## Cleaning up -/

/-- Setting a flag that has nothing to do with the life of a process. -/
theorem setFlags_life (hu : ∀ f, (g f).IN_USE = f.IN_USE) (hh : ∀ f, (g f).HANGING = f.HANGING)
    (m : ProcNr) : (s.setFlags n g).life m = s.life m := by
  unfold MState.life
  by_cases hm : m = n
  · subst hm
    rw [setFlags_self]
    unfold lifeOf
    rw [hu, hh]
  · rw [setFlags_of_ne hm]

/-- The slot whose flags are released is free. -/
theorem releaseFlags_self (s : MState) (child parent : ProcNr) :
    (releaseFlags s child parent).life child = .free := by
  unfold releaseFlags MState.life
  rw [setFlags_self]
  rfl

/-- Releasing the flags of a slot frees it, and changes no other life. -/
theorem releaseFlags_quiet (s : MState) (child parent : ProcNr) :
    Quiet s (releaseFlags s child parent) := by
  refine ⟨rfl, fun n => ?_⟩
  by_cases hn : n = child
  · rw [hn]
    exact Or.inr (releaseFlags_self s child parent)
  · -- Of the others, the parent is no longer waiting.
    left
    unfold releaseFlags
    have hchild : ∀ (s : MState) (g : MFlags → MFlags), (s.setFlags child g).life n = s.life n := by
      intro s g
      unfold MState.life
      rw [setFlags_of_ne hn]
    refine (hchild _ _).trans ((setFlags_life ?_ ?_ n).trans (hchild _ _))
    · exact fun _ => rfl
    · exact fun _ => rfl

/-- Releasing a slot frees it. -/
theorem releaseSlot_quiet (s : MState) (child : ProcNr) : Quiet s (releaseSlot s child) :=
  (reply_quiet _ _ _).trans
    ((releaseFlags_quiet _ child (s.mproc child).mp_parent).trans (Quiet.of_flags rfl rfl))

/-- The slot that is released is free. -/
theorem releaseSlot_self (s : MState) (child : ProcNr) : (releaseSlot s child).life child = .free :=
  releaseFlags_self _ child _

/-- A loop of quiet steps is quiet. -/
theorem foldlM_quiet {α β : Type*} {body : MState × β → α → Option (MState × β)}
    (hbody : ∀ st a st', body st a = some st' → Quiet st.1 st'.1) :
    ∀ {l : List α} {st st' : MState × β}, l.foldlM body st = some st' → Quiet st.1 st'.1 := by
  intro l
  induction l with
  | nil =>
    intro st st' h
    obtain rfl : st = st' := by simpa using h
    exact Quiet.refl _
  | cons a l ih =>
    intro st st' h
    rw [List.foldlM_cons] at h
    obtain ⟨st₁, h₁, h₂⟩ := Option.bind_eq_some_iff.mp h
    exact (hbody st a st₁ h₁).trans (ih h₂)

/-- Giving a child to `INIT` is quiet, if cleaning up is. -/
theorem disinherit_quiet {clean : MState → ProcNr → Option MState} {st st' : MState × Bool}
    (hclean : ∀ s rp s', clean s rp = some s' → Quiet s s')
    (h : disinherit clean child st rmp = some st') : Quiet st.1 st'.1 := by
  unfold disinherit at h
  dsimp only at h
  have hset : Quiet st.1 (st.1.set rmp fun p => { p with mp_parent := INIT_PROC_NR }) :=
    Quiet.set (Or.inl rfl)
  split_ifs at h
  · obtain ⟨s₁, h₁, rfl⟩ := Option.map_eq_some_iff.mp h
    exact hset.trans (hclean _ _ _ h₁)
  · obtain rfl := Option.some.inj h
    exact hset
  · obtain rfl := Option.some.inj h
    exact Quiet.refl _

/-- Cleaning up frees slots. -/
theorem cleanup_quiet {depth : ℕ} (h : cleanup depth s child = some s') : Quiet s s' := by
  induction depth generalizing s child s' with
  | zero => cases h
  | succ depth ih =>
    obtain ⟨st, h₁, rfl⟩ := Option.map_eq_some_iff.mp h
    exact (releaseSlot_quiet s child).trans
      (foldlM_quiet (fun st rp st' hst => disinherit_quiet (fun _ _ _ => ih) hst) h₁)

/-- The slot that is cleaned up is free. -/
theorem cleanup_self {depth : ℕ} (h : cleanup depth s child = some s') : s'.life child = .free := by
  cases depth with
  | zero => cases h
  | succ depth =>
    obtain ⟨st, h₁, rfl⟩ := Option.map_eq_some_iff.mp h
    have hq := foldlM_quiet (fun st rp st' hst => disinherit_quiet (fun _ _ _ => cleanup_quiet) hst) h₁
    rcases hq.life child with e | e
    · rw [e]
      exact releaseSlot_self s child
    · exact e

/-- The parent of a process that is released does not wait. -/
theorem releaseSlot_waiting (s : MState) (child : ProcNr) :
    ((releaseSlot s child).flags (s.mproc child).mp_parent).WAITING = false := by
  show ((releaseFlags _ child (s.mproc child).mp_parent).flags (s.mproc child).mp_parent).WAITING = _
  unfold releaseFlags
  by_cases hp : (s.mproc child).mp_parent = child
  · rw [hp, setFlags_self, setFlags_self]
  · rw [setFlags_of_ne hp, setFlags_self]

/-- A loop of steps that keep a property. -/
theorem foldlM_keeps {α β : Type*} {body : β → α → Option β} {P : β → Prop}
    (hbody : ∀ st a st', P st → body st a = some st' → P st') {l : List α} {st st' : β} (h : P st)
    (hl : l.foldlM body st = some st') : P st' := by
  induction l generalizing st with
  | nil =>
    obtain rfl : st = st' := by simpa using hl
    exact h
  | cons a l ih =>
    rw [List.foldlM_cons] at hl
    obtain ⟨st₁, h₁, h₂⟩ := Option.bind_eq_some_iff.mp hl
    exact ih (hbody _ _ _ h h₁) h₂

/-- A loop of steps that lead on, as long as `P` holds. -/
theorem foldlM_isSome {α β : Type*} {body : β → α → Option β} {P : β → Prop}
    (hbody : ∀ st a, P st → ∃ st', body st a = some st' ∧ P st') (l : List α) {st : β} (h : P st) :
    (l.foldlM body st).isSome = true := by
  induction l generalizing st with
  | nil => rfl
  | cons a l ih =>
    obtain ⟨st', hst', h'⟩ := hbody st a h
    rw [List.foldlM_cons, hst']
    exact ih h'

/-- Cleaning up a child of `INIT` does not call itself. -/
theorem cleanup_of_init (depth : ℕ) (h : (s.mproc child).mp_parent = INIT_PROC_NR) :
    (cleanup (depth + 1) s child).isSome = true := by
  have hwait := releaseSlot_waiting s child
  rw [h] at hwait
  rw [cleanup, Option.isSome_map]
  refine foldlM_isSome (P := fun st => st.2 = false) (fun st rp hst => ?_) mprocs hwait
  unfold disinherit
  dsimp only
  split_ifs with hp hw
  · rw [hst] at hw
    exact absurd hw.1 (by decide)
  · exact ⟨_, rfl, hst⟩
  · exact ⟨_, rfl, hst⟩

/-- Cleaning up comes to an end. -/
theorem cleanup_isSome (s : MState) (child : ProcNr) :
    (cleanup cleanupDepth s child).isSome = true := by
  show (cleanup 2 s child).isSome = true
  rw [cleanup, Option.isSome_map]
  refine foldlM_isSome (P := fun _ => True) (fun st rp _ => ?_) mprocs trivial
  unfold disinherit
  dsimp only
  split_ifs
  · have hinit : ((st.1.set rp fun p => { p with mp_parent := INIT_PROC_NR }).mproc rp).mp_parent =
        INIT_PROC_NR := by simp [MState.set]
    obtain ⟨s', hs'⟩ := Option.isSome_iff_exists.mp (cleanup_of_init 0 hinit)
    exact ⟨(s', false), by rw [hs']; rfl, trivial⟩
  · exact ⟨_, rfl, trivial⟩
  · exact ⟨_, rfl, trivial⟩

/-! ## Exiting -/

/-- The process is gone after the first part of `mm_exit`. -/
theorem endProc_spec (h : endProc s rmp = some s') :
    s'.log = s.log ∧ (∀ n ≠ rmp, s'.life n = s.life n ∨ s'.life n = .free) ∧ s'.life rmp ≠ .live := by
  unfold endProc at h
  split_ifs at h with hw
  · have hq := cleanup_quiet h
    refine ⟨hq.log, fun n _ => hq.life n, ?_⟩
    rw [cleanup_self h]
    decide
  · obtain rfl := Option.some.inj h
    refine ⟨rfl, fun n hn => Or.inl ?_, ?_⟩
    · unfold MState.life
      rw [setFlags_of_ne hn]
    · unfold MState.life
      rw [setFlags_self]
      unfold lifeOf
      split_ifs <;> simp_all

/-- `mm_exit` makes each of its steps once. -/
theorem mmExit_exited {exit_status : ℤ} (h : mmExit s rmp exit_status = some s') :
    Exited rmp s s' := by
  unfold mmExit at h
  obtain ⟨s₁, h₁, rfl⟩ := Option.map_eq_some_iff.mp h
  obtain ⟨hlog, hothers, hgone⟩ := endProc_spec h₁
  have hset : ∀ n, ((s.record (.exit rmp .mmExit)).set rmp fun p =>
      { p with mp_exitstatus := (exit_status % 2 ^ 8).toNat }).life n = s.life n := by
    intro n
    unfold MState.life
    by_cases hn : n = rmp
    · rw [hn, set_flags_self]
      rfl
    · rw [set_flags_of_ne hn]
      rfl
  have htell : Quiet s₁ (if (s₁.flags rmp).ALARM_ON then setAlarm s₁ rmp 0 else s₁) := by
    split_ifs
    · exact setAlarm_quiet rmp 0
    · exact Quiet.refl s₁
  have hexit : Exited rmp s ((s₁.record (.exit rmp .sysXit)).record (.exit rmp .freeMem)) := by
    refine ⟨?_, fun n hn => ?_, hgone⟩
    · show _ :: _ :: s₁.log = _
      rw [hlog]
      rfl
    · rw [← hset n]
      exact hothers n hn
  exact hexit.trans ⟨congrArg (fun l => _ :: _ :: l) htell.log, htell.life⟩

/-! ## Signals -/

/-- The signal leads to `mm_exit` in `sig_proc`. -/
def kills (k : Outside) (s : MState) (rmp : ProcNr) (sig_nr : ℕ) : Bool :=
  (s.flags rmp).IN_USE && !((s.flags rmp).TRACED && sig_nr != SIGKILL) &&
    !(hasSig (s.mproc rmp).mp_catch sig_nr && (catchSig k s rmp sig_nr).1)

/-- The growth of the stack does not touch the flags. -/
theorem adjust_flags (n : ProcNr) (p : MProc) (data_clicks : ℕ) (sp : ℤ) :
    (adjust n p data_clicks sp).2.mp_flags = p.mp_flags := by
  unfold adjust moveStack
  split_ifs
  · rfl
  · dsimp only
    split_ifs <;> rfl

theorem stopProc_quiet : Quiet s (stopProc k s rmp sig_nr) := by
  unfold stopProc
  have hstop : Quiet s (s.setFlags rmp fun f => { f with STOPPED := true }) :=
    Quiet.setFlags rfl rfl
  dsimp only
  split_ifs
  · exact Quiet.refl s
  · exact hstop.trans (Quiet.trans (Quiet.setFlags rfl rfl) (reply_quiet _ _ _))
  · exact hstop.trans (Quiet.set (Or.inl rfl))

theorem dumpCore_quiet : Quiet s (dumpCore k s rmp sig_nr) := by
  unfold dumpCore
  split_ifs
  · exact Quiet.refl s
  · exact Quiet.set (Or.inl rfl)

theorem catchSig_quiet : Quiet s (catchSig k s rmp sig_nr).2 := by
  unfold catchSig
  dsimp only
  refine Quiet.trans (Quiet.set (Or.inl rfl)) (Quiet.set (Or.inl ?_))
  rw [adjust_flags]
  rfl

theorem unpause_quiet (s : MState) (rmp : ProcNr) : Quiet s (unpause s rmp) := by
  unfold unpause
  split_ifs
  · exact Quiet.trans (Quiet.setFlags rfl rfl) (reply_quiet _ _ _)
  · exact Quiet.trans (Quiet.setFlags rfl rfl) (reply_quiet _ _ _)
  · exact Quiet.refl s

/-- The default action is to exit. -/
theorem killProc_exited (h : killProc k s rmp sig_nr = some s') : Exited rmp s s' := by
  unfold killProc at h
  refine Exited.of_quiet ?_ (mmExit_exited h)
  have hset : Quiet s (s.set rmp fun p => { p with mp_sigstatus := sig_nr }) :=
    Quiet.set (Or.inl rfl)
  split_ifs
  · exact hset.trans dumpCore_quiet
  · exact hset

/-- What a signal does. -/
theorem sigProc_spec (h : sigProc k s rmp sig_nr = some s') :
    (kills k s rmp sig_nr = false → Quiet s s') ∧ (kills k s rmp sig_nr = true → Exited rmp s s') := by
  unfold sigProc at h
  unfold kills
  split_ifs at h with hu ht hc
  · obtain rfl := Option.some.inj h
    exact ⟨fun _ => Quiet.refl s, fun hk => by simp [hu] at hk⟩
  · obtain rfl := Option.some.inj h
    exact ⟨fun _ => stopProc_quiet, fun hk => by simp [ht] at hk⟩
  · dsimp only at h
    split_ifs at h with hroom
    · obtain rfl := Option.some.inj h
      exact ⟨fun _ => catchSig_quiet, fun hk => by simp [hc, hroom] at hk⟩
    · refine ⟨fun hk => ?_, fun _ => Exited.of_quiet catchSig_quiet (killProc_exited h)⟩
      simp [hu, hc, hroom] at hk
      simp_all
  · refine ⟨fun hk => ?_, fun _ => killProc_exited h⟩
    simp [hu, hc] at hk
    simp_all

/-- Whether the segments can be adjusted depends on the segments. -/
theorem adjust_congr {p p' : MProc} (hD : p'.segD = p.segD) (hS : p'.segS = p.segS)
    (n : ProcNr) (data_clicks : ℕ) (sp : ℤ) :
    (adjust n p' data_clicks sp).1 = (adjust n p data_clicks sp).1 := by
  unfold adjust moveStack
  rw [hD, hS]
  split_ifs
  · rfl
  · dsimp only
    split_ifs <;> simp_all

/-- Whether there is room on the stack for a signal does not depend on the flags. -/
theorem catchSig_room (g : MFlags → MFlags) :
    (catchSig k (s.setFlags rmp g) rmp sig_nr).1 = (catchSig k s rmp sig_nr).1 := by
  have hset : ∀ (s : MState) (f : MProc → MProc), (s.set rmp f).mproc rmp = f (s.mproc rmp) :=
    fun s f => by simp [MState.set]
  unfold catchSig
  dsimp only
  rw [hset, hset]
  unfold MState.setFlags
  rw [hset]
  apply adjust_congr
  · rfl
  · rfl

end Minix.Mm
