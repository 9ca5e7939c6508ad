import Minix.Mm.FamilyCalls
import Minix.Mm.Returns

/-!
# Waiting and exiting

Runs of the calls of `mm/main.c` in which nothing is sent to everybody, nobody is traced and no
server exits. A `Chronicle` is a run with the events that its turns come to, and every run has one.
As the events keep what holds of families and their past, so do runs (`wait_exit`).
-/

namespace Minix.Mm

open Lib

/-- The call is to wait. -/
def MmCall.isWait : MmCall → Bool
  | .wait => true
  | _ => false

/-- The call that is accepted, if the message is one. -/
def MmAction.called : MmAction → Option (ProcNr × Bool)
  | .call who c _ => some (who, c.isWait)
  | .ksig _ _ _ => none

/-- No signal is sent to everybody, and nobody is traced. -/
def MmAction.Ordinary : MmAction → Prop
  | .call _ (.kill pid _) _ => pid ≠ -1
  | .call _ (.trace _ _ _) _ => False
  | .call _ _ _ => True
  | .ksig _ sig_map _ => hasSig sig_map SIGKILL = false

/-- A process that waits for a child or for a signal makes no call. -/
def MmAction.Unblocked (s : MState) : MmAction → Prop
  | .call who _ _ => (s.flags who).WAITING = false ∧ (s.flags who).PAUSED = false
  | .ksig _ _ _ => True

/-- A turn of the main loop that does not end a server. -/
structure FamilyStep (s : MState) (a : MmAction) (s' : MState) : Prop where
  step : MmStep s a s'
  ordinary : a.Ordinary
  unblocked : a.Unblocked s
  stay : ServersStay s'.log

/-- A run, and the events that its turns come to, newest first. -/
inductive Chronicle (s₀ : MState) : List MmAction → MState → List FamEvent → Prop
  | boot : Chronicle s₀ [] s₀ []
  | turn {as : List MmAction} {s s' : MState} {hist hist' es : List FamEvent} {a : MmAction} :
      Chronicle s₀ as s hist → FamilyStep s a s' →
      Run AnnalsStep ⟨famOf s, none, hist⟩ es ⟨famOf s', none, hist'⟩ →
      es.filterMap FamEvent.called = a.called.toList → Chronicle s₀ (as ++ [a]) s' hist'

variable {s s' s₀ : MState} {hist hist' es : List FamEvent} {as : List MmAction} {a : MmAction}
  {who n : ProcNr} {k : Outside} {r : ℤ} {wait : Bool}

/-! ## Turns -/

/-- What a turn comes to. -/
def Turns (s : MState) (hist : List FamEvent) (a : MmAction) (s' : MState) : Prop :=
  Settled (famOf s') ∧ ∃ es hist', Run AnnalsStep ⟨famOf s, none, hist⟩ es ⟨famOf s', none, hist'⟩ ∧
    es.filterMap FamEvent.called = a.called.toList

/-- Every routine that performs a call leaves it done. -/
theorem mmCall_done {c : MmCall} (hl : s.life who = .live) (hs : s.dont_reply = false)
    (hodd : ∀ x, ((famOf s).member x).odd = false) (ha : (MmAction.call who c k).Ordinary)
    (h : mmCall k s who c = some (r, s')) : Done who c.isWait s r s' := by
  have hresult : ∀ {p : ℤ × MState}, some p = some (r, s') → p.2.dont_reply = false →
      Serves (some (who, false)) s (some (who, false)) p.2 → Done who false s r s' := by
    rintro p hp hd hserves
    obtain rfl := Option.some.inj hp
    exact Or.inr ⟨hd, hserves, fun h => by cases h⟩
  cases c with
  | fork => exact doFork_done hl hs h
  | exit status => exact doMmExit_done hl h
  | wait => exact doWait_done hl hs hodd h
  | kill pid kill_sig => exact doKill_done ha hs h
  | trace request pid data => exact ha.elim
  | signal sig func =>
    have hmember : ∀ p sig_nr, memberOf (setFunc p sig_nr func) =
        { memberOf p with catches := (setFunc p sig_nr func).mp_catch } := by
      intro p sig_nr
      unfold setFunc
      split <;> rfl
    have hset : Serves (some (who, false)) s (some (who, false))
        (s.set who fun p => setFunc p sig.toNat func) := Serves.set_mark hl (hmember _ _)
    refine hresult h ?_ ?_
    · unfold doSignal
      split_ifs <;> exact hs
    · unfold doSignal
      split_ifs
      · exact Serves.refl s
      · exact Serves.refl s
      · exact hset
      · exact hset
  | alarm seconds =>
    exact hresult h hs (Serves.of_same List.suffix_rfl (famOf_alarm s who _))
  | pause =>
    have hpause := doPause_done hl
    rw [Option.some.inj h] at hpause
    exact hpause
  | setuid usr_id =>
    have hset : Serves (some (who, false)) s (some (who, false))
        (s.set who fun p => { p with mp_realuid := usr_id, mp_effuid := usr_id }) :=
      Serves.of_same List.suffix_rfl (famOf_set_same rfl)
    refine hresult h ?_ ?_
    · unfold doSetuid
      split_ifs <;> exact hs
    · unfold doSetuid
      split_ifs
      · exact Serves.refl s
      · exact hset

/-- No call is among the events of a function. -/
theorem filterMap_called (hc : ∀ e ∈ es, e.called = none) : es.filterMap FamEvent.called = [] :=
  List.filterMap_eq_nil_iff.mpr hc

/-- A call is accepted of a process that does not wait. -/
theorem call_event (hl : s.life who = .live)
    (hfree : (s.flags who).WAITING = false ∧ (s.flags who).PAUSED = false) :
    AnnalsStep ⟨famOf s, none, hist⟩ (.call who wait)
      ((famOf s).annals (some (who, wait)) (.call who wait :: hist)) := by
  have hwait : (s.mproc who).mp_flags.WAITING = false := hfree.1
  have hpause : (s.mproc who).mp_flags.PAUSED = false := hfree.2
  refine ⟨⟨rfl, hl, ?_, ?_⟩, ?_⟩
  · simp [famOf_member, memberOf, hwait]
  · simp [famOf_member, memberOf, hpause]
  · have hl' : ((famOf s).member who).life = .live := hl
    simp [Annals.next, Family.annals, Family.after, busyAfter, Option.filter_some, hl']

/-- A turn of the main loop comes to events. -/
theorem FamilyStep.turns (h : FamilyStep s a s') (hk : Kept ⟨famOf s, none, hist⟩)
    (hst : Settled (famOf s)) : Turns s hist a s' := by
  obtain ⟨⟨hcan, hturn⟩, ha, hfree, hstay⟩ := h
  cases a with
  | call who c k =>
    obtain ⟨⟨r, s₁⟩, h₁, rfl⟩ := Option.map_eq_some_iff.mp hturn
    have hl : s.life who = .live := hcan
    have hdone : Done who c.isWait (newCall s) r s₁ :=
      mmCall_done (s := newCall s) hl rfl hk.kin.plain ha h₁
    have hcall : AnnalsStep ⟨famOf s, none, hist⟩ (.call who c.isWait)
        ((famOf s).annals (some (who, c.isWait)) (.call who c.isWait :: hist)) := call_event hl hfree
    have hk' := hk.run (Run.single hcall)
    obtain ⟨hst', hist', es, hr, hc⟩ := hdone.sendResult.run _ hstay hk' hst
    refine ⟨hst', _, hist', (Run.single hcall).append hr, ?_⟩
    rw [List.filterMap_append, filterMap_called hc, List.append_nil]
    rfl
  | ksig proc_nr sig_map k =>
    obtain ⟨⟨r, s₁⟩, h₁, rfl⟩ := Option.map_eq_some_iff.mp hturn
    have hserves : Serves none (newCall s) none s₁ := doKsig_serves ha h₁
    obtain ⟨hst', hist', es, hr, hc⟩ := hserves.run hist hstay hk hst
    exact ⟨hst', es, hist', hr, filterMap_called hc⟩

/-! ## Runs -/

/-- The processes when the tables have been initialized: the servers. -/
theorem mmInit_member (seg : ProcNr → MemMap × MemMap × MemMap) (n : ProcNr) :
    (famOf (mmInit seg)).member n =
      ⟨if n ≤ INIT_PROC_NR then .live else .free, false, false, false, MM_PROC_NR,
        if n = INIT_PROC_NR then INIT_PID else 0, 0, 0⟩ := by
  have huse : (n == MM_PROC_NR || n == FS_PROC_NR || n == INIT_PROC_NR) = decide (n ≤ INIT_PROC_NR) := by
    revert n
    decide
  rw [famOf_member, Member.mk.injEq]
  simp only [memberOf, mmInit, huse, lifeOf, MFlags.zero, waitStatus]
  by_cases hn : n ≤ INIT_PROC_NR
  · simp [hn]
  · simp [hn]

/-- Everything holds when the tables have been initialized. -/
theorem MmBoot.kept (h : MmBoot s) : Kept ⟨famOf s, none, []⟩ ∧ Settled (famOf s) := by
  obtain ⟨seg, rfl⟩ := h
  have hm := mmInit_member seg
  have hzombie : ∀ n, ((famOf (mmInit seg)).member n).life ≠ .zombie := by
    intro n
    rw [hm]
    dsimp only
    split_ifs <;> decide
  have hwait : ∀ n, ((famOf (mmInit seg)).member n).waiting = false := fun n => by rw [hm]
  refine ⟨⟨?_, ?_, ?_, ?_⟩, fun n hn => absurd hn (hzombie n)⟩
  · refine ⟨fun n hn => ?_, fun n _ => ?_, fun n hn hl => ?_, fun n => ?_, fun n _ hw => ?_, ?_⟩
    · rw [hm]
      exact if_pos hn
    · rw [hm n, hm MM_PROC_NR]
      decide
    · rw [hm] at hl
      exact absurd (if_neg (not_le.mpr hn)) hl
    · rw [hm]
    · rw [hwait] at hw
      cases hw
    · have hslots : (famOf (mmInit seg)).slots = Finset.univ.filter (· ≤ INIT_PROC_NR) := by
        ext n
        rw [mem_slots, hm, Finset.mem_filter]
        dsimp only
        split_ifs with hn
        · simp [hn]
        · simp [hn]
      rw [hslots]
      rfl
  · exact ⟨fun n _ => rfl, fun n hn => absurd hn (hzombie n), trivial⟩
  · refine ⟨fun n => ⟨fun wait hb => ?_, fun _ _ => rfl, fun _ hw => ?_, fun _ _ _ _ wait hw => ?_, ?_⟩,
      trivial⟩
    · cases hb
    · exact absurd ((hwait n).symm.trans hw) (by decide)
    · cases hw
    · exact ⟨Nat.zero_le 1, fun _ e he => absurd he List.not_mem_nil⟩
  · refine ⟨rfl, rfl, trivial, fun n => ⟨oncePer_nil, fun _ => rfl, fun _ hf => ?_⟩⟩
    exact absurd hf List.not_mem_nil

/-- A chronicle keeps what events keep. -/
theorem Chronicle.kept (h : Chronicle s₀ as s hist) (h₀ : MmBoot s₀) :
    Kept ⟨famOf s, none, hist⟩ ∧ Settled (famOf s) := by
  induction h with
  | boot => exact h₀.kept
  | turn hch hstep hr _ ih =>
    obtain ⟨hst, -⟩ := hstep.turns ih.1 ih.2
    exact ⟨ih.1.run hr, hst⟩

/-- Every run has a chronicle. -/
theorem exists_chronicle (h : Run FamilyStep s₀ as s) (h₀ : MmBoot s₀) :
    ∃ hist, Chronicle s₀ as s hist := by
  induction h with
  | nil => exact ⟨[], .boot⟩
  | snoc _ hstep ih =>
    obtain ⟨hist, hch⟩ := ih
    obtain ⟨hk, hst⟩ := hch.kept h₀
    obtain ⟨-, es, hist', hr, hc⟩ := hstep.turns hk hst
    exact ⟨hist', hch.turn hstep hr hc⟩

/-- The events of a run are recorded. -/
theorem annals_hist {A A' : Annals} (h : Run AnnalsStep A es A') : A'.hist = es.reverse ++ A.hist := by
  induction h with
  | nil => rfl
  | snoc _ hst ih =>
    obtain ⟨-, rfl⟩ := hst
    rw [List.reverse_append]
    exact congrArg (List.cons _) ih

/-- The calls that are recorded are those of the run. -/
theorem Chronicle.calls (h : Chronicle s₀ as s hist) :
    hist.filterMap FamEvent.called = (as.filterMap MmAction.called).reverse := by
  induction h with
  | boot => rfl
  | @turn as s s' hist hist' es a _ _ hr hc ih =>
    have hhist := annals_hist hr
    dsimp only at hhist
    rw [hhist, List.filterMap_append, ih, List.filterMap_reverse, hc, List.filterMap_append,
      List.reverse_append]
    cases ha : a.called <;> simp [ha]

/-- What a chronicle says about waiting and exiting. -/
structure WaitExit (as : List MmAction) (s : MState) (hist : List FamEvent) : Prop where
  /-- The calls are those that were made, and the replies, creations and exits those that happened.
  -/
  calls : hist.filterMap FamEvent.called = (as.filterMap MmAction.called).reverse
  replies : hist.filterMap FamEvent.reply = s.replies
  log : hist.filterMap FamEvent.logged = s.log.filter MmEvent.ofFamily
  /-- Every call was answered once before the next, with what ends a wait if it was one. -/
  answered : Answered hist
  interrupted : Interrupted hist
  /-- The last call was answered once, unless the process still waits or has died. -/
  last : ∀ who, s.life who = .live → (s.flags who).WAITING = false → (s.flags who).PAUSED = false →
    AnsweredOnce who hist
  pending : ∀ who, s.life who = .live → (s.flags who).WAITING = true → lastCall who hist = some true ∧
    answers who hist = []
  atMost : ∀ who, (answers who hist).length ≤ 1
  /-- Those who died in the lifetime of their parent were reported when their slots were released.
  -/
  reported : Reported hist
  zombies : ∀ n, s.life n = .zombie ↔ (death n hist).isSome
  /-- A slot was released once since a process was created in it, unless it is still in use. -/
  once : ∀ n, OncePer (.forked n) (.released n) (hist.filterMap FamEvent.slot)
  released : ∀ n, .forked n ∈ hist.filterMap FamEvent.slot →
    times (.forked n) (.released n) (hist.filterMap FamEvent.slot) =
      if (s.flags n).IN_USE then 0 else 1

/-- What holds of families and their past, said of a state. -/
theorem Kept.waitExit (h : Kept ⟨famOf s, none, hist⟩) (hc : Chronicle s₀ as s hist) :
    WaitExit as s hist := by
  refine ⟨hc.calls, h.recorded.replies, h.recorded.log, h.heard.all, h.recorded.interrupted,
    fun who hl hw hp => ?_, fun who hl hw => ?_, fun who => ((h.heard.each who).atMost).1,
    h.mourned.reported, fun n => ⟨fun hz => ?_, fun hd => ?_⟩, fun n => (h.recorded.slots n).once,
    fun n hf => ?_⟩
  · have hw' : (s.mproc who).mp_flags.WAITING = false := hw
    have hp' : (s.mproc who).mp_flags.PAUSED = false := hp
    refine (h.heard.each who).answered hl ?_ ?_ fun wait hb => by cases hb
    · simp [famOf_member, memberOf, hw']
    · simp [famOf_member, memberOf, hp']
  · have hwait : ((famOf s).member who).waiting = true :=
      (waiting_of_use (by rw [hl]; decide)).trans hw
    exact ⟨(h.heard.each who).asked hl hwait, (h.heard.each who).pending hl (Or.inl hwait)⟩
  · obtain ⟨d, hd, -⟩ := h.mourned.dead n hz
    have hd' : death n hist = some d := hd
    rw [hd']
    rfl
  · by_contra hz
    have hnone : death n hist = none := h.mourned.others n hz
    rw [hnone] at hd
    cases hd
  · have hslot := h.recorded.slots n
    split_ifs with hu
    · refine hslot.fresh fun hfree => ?_
      have hfree' : s.life n = .free := hfree
      unfold MState.life lifeOf at hfree'
      split_ifs at hfree' with hu'
      exact absurd hu (by simp [hu'])
    · exact hslot.gone (if_pos (by simpa [MState.flags] using hu)) hf

/-- The slots in use are counted, and so are the parents of those in them; no process waits while it
has a child that hangs; and every turn comes to an end. Every run has a chronicle, and in every
chronicle each call is answered once, each process that died in the lifetime of its parent is
reported once, to the parent or to `INIT`, and each slot is released once. -/
theorem wait_exit (h₀ : MmBoot s₀) (h : Run FamilyStep s₀ as s) :
    s.procs_in_use = (Finset.univ.filter fun n => (s.flags n).IN_USE = true).card ∧
      (∀ n, (s.flags n).IN_USE = true → (s.flags (s.mproc n).mp_parent).IN_USE = true) ∧
      (∀ n, (s.flags n).IN_USE = true → (s.flags n).HANGING = true →
        (s.flags (s.mproc n).mp_parent).WAITING = false) ∧
      (∀ a, ∃ s', mmTurn s a = some s') ∧
      (∃ hist, Chronicle s₀ as s hist) ∧ ∀ hist, Chronicle s₀ as s hist → WaitExit as s hist := by
  obtain ⟨hist, hc⟩ := exists_chronicle h h₀
  obtain ⟨hk, hst⟩ := hc.kept h₀
  have hkin : Kin (famOf s) := hk.kin
  have huse : ∀ n, ((famOf s).member n).life ≠ .free ↔ (s.flags n).IN_USE = true := by
    intro n
    refine ⟨use_of_life, fun hu hfree => ?_⟩
    have hfree' : lifeOf (s.flags n) = .free := hfree
    unfold lifeOf at hfree'
    split_ifs at hfree' with hu'
    exact absurd hu (by simp [hu'])
  have hcount : Counted s := by
    have hslots : (famOf s).slots = Finset.univ.filter fun n => (s.flags n).IN_USE = true := by
      ext n
      rw [mem_slots, huse]
      simp
    unfold Counted
    rw [← hslots]
    exact hkin.count
  refine ⟨hcount, fun n hu => ?_, fun n hu hh => ?_, fun a => ?_, ⟨hist, hc⟩, fun hist' hc' => ?_⟩
  · exact (huse _).mp (hkin.parents n ((huse n).mpr hu))
  · have hz : s.life n = .zombie := (hanging_iff (hkin.plain n)).mp hh
    have hparent : s.life (s.mproc n).mp_parent ≠ .free := hkin.parents n ((huse n).mpr hu)
    rw [← waiting_of_use hparent]
    exact hst n hz
  · exact Option.isSome_iff_exists.mp (mmTurn_isSome hcount a)
  · exact (hc'.kept h₀).1.waitExit hc'

/-- The flags of a process that lives and does not wait. -/
def runs : MFlags := { MFlags.zero with IN_USE := true }

/-- `INIT` makes a child and waits for it, and the child exits. -/
theorem wait_exit_child : ∃ s, Run FamilyStep mmStart
      [.call 2 .fork obliging, .call 2 .wait obliging, .call 3 (.exit 5) obliging] s ∧
    (2, 3, 1280) ∈ s.replies ∧ s.procs_in_use = 3 ∧ ∃ hist, WaitExit
      [.call 2 .fork obliging, .call 2 .wait obliging, .call 3 (.exit 5) obliging] s hist := by
  have hrun : ((mmTurn mmStart (.call 2 .fork obliging)).bind fun s₁ =>
      (mmTurn s₁ (.call 2 .wait obliging)).bind fun s₂ =>
      (mmTurn s₂ (.call 3 (.exit 5) obliging)).bind fun s₃ =>
        some ([mmStart.flags 2, s₁.flags 2, s₂.flags 3], [s₁.log, s₂.log, s₃.log],
          decide (s₃.replies = [(2, 3, 1280), (2, 3, 0), (3, 0, 0)] ∧ s₃.procs_in_use = 3))) =
      some ([runs, runs, runs], [[.fork 3], [.fork 3],
        [.exit 3 .freeMem, .exit 3 .sysXit, .exit 3 .mmExit, .fork 3]], true) := by
    decide +kernel
  simp only [Option.bind_eq_some_iff, Option.some.injEq, Prod.mk.injEq, List.cons.injEq,
    and_true, decide_eq_true_eq] at hrun
  obtain ⟨s₁, h₁, s₂, h₂, s₃, h₃, ⟨hf₀, hf₁, hf₂⟩, ⟨hl₁, hl₂, hl₃⟩, hreplies, hcount⟩ := hrun
  have hlive : ∀ {s : MState} {n : ProcNr}, s.flags n = runs →
      s.life n = .live ∧ (s.flags n).WAITING = false ∧ (s.flags n).PAUSED = false := by
    intro s n h
    unfold MState.life
    rw [h]
    exact ⟨rfl, rfl, rfl⟩
  have hfork : ServersStay [.fork 3] := by
    intro n _
    simp
  have hexit : ServersStay [.exit 3 .freeMem, .exit 3 .sysXit, .exit 3 .mmExit, .fork 3] := by
    rintro n hn hm
    simp at hm
    subst hm
    exact absurd hn (by decide)
  have hr : Run FamilyStep mmStart [.call 2 .fork obliging, .call 2 .wait obliging,
      .call 3 (.exit 5) obliging] s₃ :=
    ((Run.single ⟨⟨(hlive hf₀).1, h₁⟩, trivial, (hlive hf₀).2, hl₁ ▸ hfork⟩).snoc
      ⟨⟨(hlive hf₁).1, h₂⟩, trivial, (hlive hf₁).2, hl₂ ▸ hfork⟩).snoc
      ⟨⟨(hlive hf₂).1, h₃⟩, trivial, (hlive hf₂).2, hl₃ ▸ hexit⟩
  obtain ⟨-, -, -, -, ⟨hist, hc⟩, hall⟩ := wait_exit ⟨_, rfl⟩ hr
  refine ⟨s₃, hr, ?_, hcount, hist, hall hist hc⟩
  rw [hreplies]
  simp

end Minix.Mm
