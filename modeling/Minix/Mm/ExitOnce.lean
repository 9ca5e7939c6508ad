import Minix.Lib.Run
import Minix.Mm.Outcomes

/-!
# A process exits once

The calls of `mm/main.c`, in any order. A caller is a process that lives; the kernel sends a signal
to any process. `Spared` is the condition on a call and the state before it, under which no process
that hangs is made to exit again: signals to everybody do not strike one, and a process that hangs
is not resumed with a signal, or told to exit, by its tracer. As long as every call is spared, no
process exits twice, and the first call that is not makes one exit twice (`exit_once`).
-/

namespace Minix.Mm

open Lib

/-- The calls of user processes that have to do with processes and signals. -/
inductive MmCall
  | fork
  | exit (status : ℤ)
  | wait
  | kill (pid kill_sig : ℤ)
  | trace (request pid data : ℤ)
  | signal (sig : ℤ) (func : Option ℕ)
  | alarm (seconds : ℕ)
  | pause
  | setuid (usr_id : ℕ)

/-- What the memory manager gets a message about, and what it is answered meanwhile. -/
inductive MmAction
  | call (who : ProcNr) (c : MmCall) (k : Outside)
  | ksig (proc_nr : ProcNr) (sig_map : ℕ) (k : Outside)

/-- Perform the alarm(seconds) system call. -/
def doAlarm (k : Outside) (s : MState) (who : ProcNr) (seconds : ℕ) : ℤ × MState :=
  (k.seconds_left, setAlarm s who seconds)

/-- The case `SETUID` of `do_getset`. -/
def doSetuid (s : MState) (who : ProcNr) (usr_id : ℕ) : ℤ × MState :=
  if (s.mproc who).mp_realuid ≠ usr_id ∧ (s.mproc who).mp_effuid ≠ SUPER_USER then (EPERM, s)
  else (OK, s.set who fun p => { p with mp_realuid := usr_id, mp_effuid := usr_id })

/-- The routine that performs the call. -/
def mmCall (k : Outside) (s : MState) (who : ProcNr) : MmCall → Option (ℤ × MState)
  | .fork => doFork k s who
  | .exit status => doMmExit s who status
  | .wait => doWait s who
  | .kill pid kill_sig => doKill k s who pid kill_sig
  | .trace request pid data => doTrace k s who request pid data
  | .signal sig func => some (doSignal s who sig func)
  | .alarm seconds => some (doAlarm k s who seconds)
  | .pause => some (doPause s who)
  | .setuid usr_id => some (doSetuid s who usr_id)

/-- `main` sets some flags before a call. -/
def newCall (s : MState) : MState := { s with dont_reply := false }

/-- `main` sends the results back to the user. -/
def sendResult (who : ProcNr) (r : ℤ × MState) : MState :=
  if r.2.dont_reply then r.2 else reply r.2 who r.1 0

/-- One turn of the main loop. -/
def mmTurn (s : MState) : MmAction → Option MState
  | .call who c k => (mmCall k (newCall s) who c).map (sendResult who)
  | .ksig proc_nr sig_map k => (doKsig k (newCall s) proc_nr sig_map).map Prod.snd

/-- Callers are alive. -/
def CanCall (s : MState) : MmAction → Prop
  | .call who _ _ => s.life who = .live
  | .ksig _ _ _ => True

/-- One turn of the main loop. -/
def MmStep (s : MState) (a : MmAction) (s' : MState) : Prop := CanCall s a ∧ mmTurn s a = some s'

/-- The tables have been initialized. -/
def MmBoot (s : MState) : Prop := ∃ seg, s = mmInit seg

/-- The signals of a bit map spare those that hang. -/
def SparesKsig (k : Outside) (proc_id : ℤ) (sig_map : ℕ) : List ℕ → MState → Prop
  | [], _ => True
  | j :: rest, s =>
    if hasSig sig_map j then
      SparesFrom k MM_PROC_NR (ksigId proc_id j) j SUPER_USER userProcs s ∧
        ∀ r s', checkSig k s MM_PROC_NR (ksigId proc_id j) j SUPER_USER = some (r, s') →
          SparesKsig k proc_id sig_map rest s'
    else SparesKsig k proc_id sig_map rest s

/-- The request does not make a process exit that hangs. -/
def SparesTraced (k : Outside) (s : MState) (request pid data : ℤ) : Prop :=
  ∀ child, findproc s pid = some child → (s.flags child).STOPPED = true →
    s.life child = .zombie → request ≠ 8 ∧ (request = 7 → 0 < data → data ≤ NSIG →
      kills k (s.setFlags child fun f => { f with TRACED := false }) child data.toNat = false)

/-- What hangs is out of reach of the call. -/
def Spared (s : MState) : MmAction → Prop
  | .call who (.kill pid kill_sig) k => 1 ≤ kill_sig → kill_sig ≤ NSIG →
      SparesFrom k who pid kill_sig.toNat (s.mproc who).mp_effuid userProcs (newCall s)
  | .call _ (.trace request pid data) k => SparesTraced k (newCall s) request pid data
  | .ksig proc_nr sig_map k => s.life proc_nr = .live →
      ∀ s', ksigStart k { newCall s with dont_reply := true } proc_nr sig_map = some s' →
        SparesKsig k (s.mproc proc_nr).mp_pid sig_map ksigs s'
  | _ => True

variable {s s' : MState} {who rmp child mp : ProcNr} {k : Outside} {r : ℤ}

/-! ## Forking -/

/-- A process is created in a slot. -/
structure Forked (rmc : ProcNr) (s s' : MState) : Prop where
  log : s'.log = .fork rmc :: s.log
  others : ∀ n ≠ rmc, s'.life n = s.life n ∨ s'.life n = .free
  new : s'.life rmc ≠ .zombie

/-- A new process has not exited. -/
theorem Outcome.forked {rmc : ProcNr} (h : Forked rmc s s') : Outcome True s s' := by
  have htimes : ∀ n step, times (MmEvent.fork n) (.exit n step) s'.log =
      if n = rmc then 0 else times (MmEvent.fork n) (.exit n step) s.log := by
    intro n step
    rw [h.log]
    by_cases hn : n = rmc
    · subst hn
      rw [if_pos rfl, times_reset]
    · rw [if_neg hn, times_other (by simpa using fun e => hn e.symm) (by simp)]
  refine ⟨by rw [h.log]; exact List.suffix_cons _ _, fun ho _ => ⟨?_, ?_, ?_⟩,
    fun _ hno => absurd trivial hno⟩
  · intro n step
    have hle := htimes n step
    rw [h.log] at hle ⊢
    rw [oncePer_cons, hle]
    refine ⟨?_, ho.once n step⟩
    split_ifs
    · omega
    · exact (ho.once n step).times_le
  · intro n step hn
    rw [htimes]
    split_ifs with hne
    · rfl
    · rcases h.others n hne with e | e
      · exact ho.live n step (e.symm.trans hn)
      · rw [e] at hn
        cases hn
  · intro n hn
    have hne : n ≠ rmc := fun e => h.new (e ▸ hn)
    rw [htimes, if_neg hne]
    rcases h.others n hne with e | e
    · exact ho.zombie n (e.symm.trans hn)
    · rw [e] at hn
      cases hn

/-- Looking for a process id is quiet. -/
theorem findPid_quiet {rmc : ProcNr} {fuel : ℕ} (h : findPid rmc fuel s = some s') : Quiet s s' := by
  obtain ⟨pid, rfl, -⟩ := findPid_found h
  exact (Quiet.of_flags rfl rfl : Quiet s { s with next_pid := pid }).trans (Quiet.set (Or.inl rfl))

/-- Setting the process group is quiet. -/
theorem setProcgrp_quiet (s : MState) (who rmc : ProcNr) : Quiet s (setProcgrp s who rmc) := by
  unfold setProcgrp
  split_ifs
  · exact Quiet.set (Or.inl rfl)
  · exact Quiet.refl s

/-- A child of a live process is created. -/
theorem makeChild_outcome (hwho : s.life who = .live) (h : makeChild s who = some (r, s')) :
    Outcome True s s' := by
  obtain ⟨rmc, -, h⟩ := Option.bind_eq_some_iff.mp h
  obtain ⟨s₁, h₁, h⟩ := Option.bind_eq_some_iff.mp h
  obtain ⟨-, rfl⟩ := Prod.mk.inj (Option.some.inj h)
  -- The entry is that of the parent, which lives.
  have hchild : ∀ n, (({ s with procs_in_use := s.procs_in_use + 1 }.set rmc fun _ =>
      childOf who (s.mproc who)).life n) = if n = rmc then .live else s.life n := by
    intro n
    unfold MState.life
    split_ifs with hn
    · subst hn
      rw [set_flags_self]
      exact hwho
    · rw [set_flags_of_ne hn]
      rfl
  have hq := (findPid_quiet h₁).trans (setProcgrp_quiet s₁ who rmc)
  have hforked : Forked rmc s ((setProcgrp s₁ who rmc).record (.fork rmc)) := by
    refine ⟨congrArg (fun l => MmEvent.fork rmc :: l) hq.log, fun n hn => ?_, fun hz => ?_⟩
    · rcases hq.life n with e | e
      · left
        exact e.trans ((hchild n).trans (if_neg hn))
      · exact Or.inr e
    · rcases hq.life rmc with e | e
      · cases (e.trans ((hchild rmc).trans (if_pos rfl))).symm.trans hz
      · cases e.symm.trans hz
  exact (Outcome.forked hforked).then_quiet (reply_quiet _ _ _)

/-- A fork that is refused does nothing, and another one creates a process. -/
theorem doFork_outcome (hwho : s.life who = .live) (h : doFork k s who = some (r, s')) :
    Outcome True s s' := by
  unfold doFork at h
  have hrefused : some (EAGAIN, s) = some (r, s') → Outcome True s s' := fun e => by
    obtain ⟨-, rfl⟩ := Prod.mk.inj (Option.some.inj e)
    exact Outcome.quiet (Quiet.refl s)
  split_ifs at h
  · exact hrefused h
  · exact hrefused h
  · exact hrefused h
  · exact makeChild_outcome hwho h

/-! ## The other calls -/

/-- Setting a flag of `main` does nothing. -/
theorem Quiet.of_reply (b : Bool) : Quiet s { s with dont_reply := b } := Quiet.of_flags rfl rfl

/-- A process exits once that lives. -/
theorem doMmExit_outcome {status : ℤ} (hwho : s.life who = .live)
    (h : doMmExit s who status = some (r, s')) : Outcome True s s' := by
  obtain ⟨s₁, h₁, h₂⟩ := Option.map_eq_some_iff.mp h
  obtain ⟨-, rfl⟩ := Prod.mk.inj h₂
  have hexit := Outcome.exited (mmExit_exited h₁) (by rw [hwho]; decide)
  exact (hexit.then_quiet (Quiet.of_reply true)).congr (by simp [hwho])

/-- Waiting is quiet. -/
theorem waitFrom_quiet {l : List ProcNr} {children : ℕ}
    (h : waitFrom who l children s = some (r, s')) : Quiet s s' := by
  induction l generalizing children with
  | nil =>
    rw [waitFrom] at h
    split_ifs at h
    · obtain ⟨-, rfl⟩ := Prod.mk.inj (Option.some.inj h)
      exact Quiet.trans (Quiet.setFlags rfl rfl) (Quiet.of_reply true)
    · obtain ⟨-, rfl⟩ := Prod.mk.inj (Option.some.inj h)
      exact Quiet.refl s
  | cons rp l ih =>
    rw [waitFrom] at h
    split_ifs at h
    · obtain ⟨s₁, h₁, h₂⟩ := Option.map_eq_some_iff.mp h
      obtain ⟨-, rfl⟩ := Prod.mk.inj h₂
      exact (cleanup_quiet h₁).trans (Quiet.of_reply true)
    · obtain ⟨-, rfl⟩ := Prod.mk.inj (Option.some.inj h)
      exact (reply_quiet _ _ _).trans (Quiet.trans (Quiet.set (Or.inl rfl)) (Quiet.of_reply true))
    · exact ih h
    · exact ih h

/-- `check_sig` keeps the invariant if it spares those that hang. -/
theorem checkSig_outcome {proc_id sig_nr : ℤ} {send_uid : ℕ}
    (h : checkSig k s mp proc_id sig_nr send_uid = some (r, s')) :
    Outcome (1 ≤ sig_nr → sig_nr ≤ NSIG →
      SparesFrom k mp proc_id sig_nr.toNat send_uid userProcs s) s s' := by
  unfold checkSig at h
  split_ifs at h with hsig
  · obtain ⟨-, rfl⟩ := Prod.mk.inj (Option.some.inj h)
    refine (Outcome.quiet (Quiet.refl s)).congr ⟨fun _ h₁ h₂ => ?_, fun _ => trivial⟩
    omega
  · obtain ⟨⟨count, s₁⟩, h₁, h₂⟩ := Option.bind_eq_some_iff.mp h
    obtain ⟨-, rfl⟩ := Prod.mk.inj (Option.some.inj h₂)
    have hq : Quiet s₁ (if (s₁.flags mp).IN_USE = false ∨ (s₁.flags mp).HANGING = true then
        { s₁ with dont_reply := true } else s₁) := by
      split_ifs
      · exact Quiet.of_reply true
      · exact Quiet.refl s₁
    refine ((checkSigFrom_outcome h₁).then_quiet hq).congr ⟨fun hs _ _ => hs, fun hs => hs ?_ ?_⟩
    · omega
    · omega

/-- A stack fault keeps the invariant for a process that does not hang. -/
theorem stackFault_outcome (hl : s.life rmp ≠ .zombie) (h : stackFault k s rmp = some s') :
    Outcome True s s' := by
  unfold stackFault at h
  dsimp only at h
  have hgrow : Quiet s (s.set rmp fun _ => (adjust rmp (s.mproc rmp) (s.mproc rmp).segD.mem_len
      (k.sp rmp SIGSTKFLT - CLICK_SIZE)).2) := by
    refine Quiet.set (Or.inl ?_)
    rw [adjust_flags]
    rfl
  have hcatch := hgrow.trans (Quiet.set (n := rmp) (f := fun p => { p with mp_catch := 0 }) (Or.inl rfl))
  split_ifs at h
  · obtain rfl := Option.some.inj h
    exact Outcome.quiet hgrow
  · refine (Outcome.of_quiet hcatch (sigProc_outcome h)).congr ⟨fun _ => trivial, fun _ hz => ?_⟩
    rcases hcatch.life rmp with e | e
    · exact hl (e.symm.trans hz.1)
    · cases e.symm.trans hz.1

/-- The loop of `do_ksig`. -/
theorem ksigFrom_outcome {proc_id : ℤ} {sig_map : ℕ} {l : List ℕ} (hl : ∀ j ∈ l, 1 ≤ j ∧ j ≤ NSIG)
    (h : ksigFrom k proc_id sig_map l s = some s') :
    Outcome (SparesKsig k proc_id sig_map l s) s s' := by
  induction l generalizing s with
  | nil =>
    obtain rfl := Option.some.inj h
    exact Outcome.quiet (Quiet.refl s)
  | cons j l ih =>
    have ih' := fun {s} h => ih (s := s) (fun i hi => hl i (by simp [hi])) h
    rw [ksigFrom] at h
    rw [SparesKsig]
    split_ifs at h ⊢ with hj
    · obtain ⟨⟨r, s₁⟩, h₁, h₂⟩ := Option.bind_eq_some_iff.mp h
      have hrange := hl j (by simp)
      refine ((checkSig_outcome h₁).trans (ih' h₂)).congr (and_congr ?_ ?_)
      · exact ⟨fun hs => hs (by omega) (by omega), fun hs _ _ => hs⟩
      · refine ⟨fun hs r' s₂ hs₂ => ?_, fun hs => hs r s₁ h₁⟩
        obtain ⟨-, rfl⟩ := Prod.mk.inj (Option.some.inj (h₁.symm.trans hs₂))
        exact hs
    · exact ih' h

/-- The signals that `do_ksig` looks for are signals. -/
theorem ksigs_range : ∀ j ∈ ksigs, 1 ≤ j ∧ j ≤ NSIG := by
  decide

/-- A stack fault, if there is one. -/
theorem ksigStart_outcome {sig_map : ℕ} (hl : s.life rmp ≠ .zombie)
    (h : ksigStart k s rmp sig_map = some s') : Outcome True s s' := by
  unfold ksigStart at h
  dsimp only at h
  have hgrp : Quiet s (s.set MM_PROC_NR fun p => { p with mp_procgrp := (s.mproc rmp).mp_procgrp }) :=
    Quiet.set (Or.inl rfl)
  split_ifs at h
  · refine Outcome.of_quiet hgrp (stackFault_outcome ?_ h)
    intro hz
    rcases hgrp.life rmp with e | e
    · exact hl (e.symm.trans hz)
    · cases e.symm.trans hz
  · obtain rfl := Option.some.inj h
    exact Outcome.quiet hgrp

/-- Signals that originate in the kernel. -/
theorem doKsig_outcome {sig_map : ℕ} (h : doKsig k s rmp sig_map = some (r, s')) :
    Outcome (s.life rmp = .live → ∀ s₁, ksigStart k { s with dont_reply := true } rmp sig_map = some s₁ →
      SparesKsig k (s.mproc rmp).mp_pid sig_map ksigs s₁) s s' := by
  unfold doKsig at h
  dsimp only at h
  have hflag : Quiet s { s with dont_reply := true } := Quiet.of_reply true
  split_ifs at h with hd
  · obtain ⟨-, rfl⟩ := Prod.mk.inj (Option.some.inj h)
    refine (Outcome.quiet hflag).congr ⟨fun _ hl => ?_, fun _ => trivial⟩
    exact absurd hd (life_live.mp hl)
  · obtain ⟨s₁, h₁, h⟩ := Option.bind_eq_some_iff.mp h
    obtain ⟨s₂, h₂, h⟩ := Option.bind_eq_some_iff.mp h
    obtain ⟨-, rfl⟩ := Prod.mk.inj (Option.some.inj h)
    have hl : s.life rmp = .live := life_live.mpr hd
    have hstart := ksigStart_outcome (s := { s with dont_reply := true }) (by
      show s.life rmp ≠ .zombie
      rw [hl]
      decide) h₁
    refine (Outcome.of_quiet hflag (hstart.trans (ksigFrom_outcome ksigs_range h₂))).congr ?_
    refine ⟨fun hs _ s₃ h₃ => ?_, fun hs => ⟨trivial, hs hl s₁ h₁⟩⟩
    obtain rfl := Option.some.inj (h₁.symm.trans h₃)
    exact hs.2

/-- Setting a flag that has nothing to do with the life of a process. -/
theorem Quiet.setTraced (b : Bool) : Quiet s (s.setFlags child fun f => { f with TRACED := b }) :=
  Quiet.setFlags rfl rfl

/-- Resuming a process that hangs with a signal may make it exit again. -/
theorem traceResume_outcome {data : ℤ} (h : traceResume k s child data = some s') :
    Outcome (s.life child = .zombie → 0 < data →
      kills k (s.setFlags child fun f => { f with TRACED := false }) child data.toNat = false) s s' := by
  obtain ⟨s₁, h₁, rfl⟩ := Option.map_eq_some_iff.mp h
  have hstop : Quiet s₁ (s₁.setFlags child fun f => { f with STOPPED := false }) :=
    Quiet.setFlags rfl rfl
  split_ifs at h₁ with hdata
  · obtain ⟨s₂, h₂, h₃⟩ := Option.bind_eq_some_iff.mp h₁
    obtain rfl := Option.some.inj h₃
    have hlife : (s.setFlags child fun f => { f with TRACED := false }).life child = s.life child := by
      apply setFlags_life
      · exact fun _ => rfl
      · exact fun _ => rfl
    have hsig := Outcome.of_quiet (Quiet.setTraced false) (sigProc_outcome h₂)
    rw [hlife] at hsig
    refine (hsig.then_quiet ((Quiet.setTraced true).trans hstop)).congr ?_
    simp [hdata]
  · obtain rfl := Option.some.inj h₁
    exact (Outcome.quiet hstop).congr ⟨fun _ _ hd => absurd hd hdata, fun _ => trivial⟩

/-- What a request does to the process that was found. -/
theorem traceChild_outcome {request data : ℤ} (hfree : s.life child ≠ .free)
    (h : traceChild k s child request data = some (r, s')) :
    Outcome ((s.flags child).STOPPED = true → s.life child = .zombie →
      request ≠ 8 ∧ (request = 7 → 0 < data → data ≤ NSIG →
        kills k (s.setFlags child fun f => { f with TRACED := false }) child data.toNat = false))
      s s' := by
  unfold traceChild at h
  have hnothing := Outcome.quiet (Quiet.refl s)
  split_ifs at h with hst h8 h7 hsig
  · obtain ⟨-, rfl⟩ := Prod.mk.inj (Option.some.inj h)
    exact hnothing.congr (by simp [hst])
  · obtain ⟨s₁, h₁, h₂⟩ := Option.map_eq_some_iff.mp h
    obtain ⟨-, rfl⟩ := Prod.mk.inj h₂
    rw [Bool.not_eq_false] at hst
    exact (Outcome.exited (mmExit_exited h₁) hfree).congr (by simp [hst, h8])
  · obtain ⟨-, rfl⟩ := Prod.mk.inj (Option.some.inj h)
    refine hnothing.congr ⟨fun _ _ _ => ⟨h8, fun _ _ hle => ?_⟩, fun _ => trivial⟩
    omega
  · obtain ⟨s₁, h₁, h₂⟩ := Option.map_eq_some_iff.mp h
    obtain ⟨-, rfl⟩ := Prod.mk.inj h₂
    rw [Bool.not_eq_false] at hst
    exact (traceResume_outcome h₁).congr (by simp [hst, h7, not_lt.mp hsig])
  · obtain ⟨-, rfl⟩ := Prod.mk.inj (Option.some.inj h)
    exact hnothing.congr ⟨fun _ _ _ => ⟨h8, fun h7' => absurd h7' h7⟩, fun _ => trivial⟩

/-- A request of a tracer. -/
theorem doTrace_outcome {request pid data : ℤ}
    (h : doTrace k s who request pid data = some (r, s')) :
    Outcome (SparesTraced k s request pid data) s s' := by
  unfold doTrace at h
  by_cases h0 : request = 0
  · rw [if_pos h0] at h
    obtain ⟨-, rfl⟩ := Prod.mk.inj (Option.some.inj h)
    refine (Outcome.quiet (Quiet.setTraced true)).congr ⟨fun _ _ _ _ _ => ?_, fun _ => trivial⟩
    omega
  · rw [if_neg h0] at h
    cases hfind : findproc s pid with
    | none =>
      rw [hfind] at h
      obtain ⟨-, rfl⟩ := Prod.mk.inj (Option.some.inj h)
      refine (Outcome.quiet (Quiet.refl s)).congr ⟨fun _ child hc => ?_, fun _ => trivial⟩
      cases hfind.symm.trans hc
    | some child =>
      rw [hfind] at h
      have hfree : s.life child ≠ .free := by
        have huse := List.find?_some hfind
        rw [Bool.and_eq_true] at huse
        unfold MState.life lifeOf
        rw [if_neg (by simp [huse.1])]
        split_ifs <;> decide
      -- The condition is about the child that was found.
      refine (traceChild_outcome hfree h).congr ⟨fun hs c hc => ?_, fun hs => hs child hfind⟩
      obtain rfl := Option.some.inj (hfind.symm.trans hc)
      exact hs

/-! ## Runs -/

/-- Sending the results is quiet. -/
theorem sendResult_quiet (who : ProcNr) (r : ℤ) (s : MState) : Quiet s (sendResult who (r, s)) := by
  unfold sendResult
  split_ifs
  · exact Quiet.refl s
  · exact reply_quiet _ _ _

/-- The calls that only assign to the fields of the caller. -/
theorem doSignal_quiet (s : MState) (who : ProcNr) (sig : ℤ) (func : Option ℕ) :
    Quiet s (doSignal s who sig func).2 := by
  have hflags : ∀ p sig_nr, (setFunc p sig_nr func).mp_flags = p.mp_flags := fun p sig_nr => by
    unfold setFunc
    split <;> rfl
  have hset : Quiet s (s.set who fun p => setFunc p sig.toNat func) :=
    Quiet.set (Or.inl (congrArg lifeOf (hflags _ _)))
  unfold doSignal
  split_ifs
  · exact Quiet.refl s
  · exact Quiet.refl s
  · exact hset
  · exact hset

/-- Changing the user is quiet. -/
theorem doSetuid_quiet (s : MState) (who : ProcNr) (usr_id : ℕ) :
    Quiet s (doSetuid s who usr_id).2 := by
  unfold doSetuid
  split_ifs
  · exact Quiet.refl s
  · dsimp only
    exact Quiet.set (Or.inl rfl)

/-- A call keeps the invariant exactly if it is spared. -/
theorem mmCall_outcome {c : MmCall} (hwho : s.life who = .live)
    (h : mmCall k (newCall s) who c = some (r, s')) : Outcome (Spared s (.call who c k)) s s' := by
  have hnew : Quiet s (newCall s) := Quiet.of_reply false
  have hlive : (newCall s).life who = .live := hwho
  refine Outcome.of_quiet hnew ?_
  have hresult : ∀ {p : ℤ × MState}, Quiet (newCall s) p.2 → some p = some (r, s') →
      Outcome True (newCall s) s' := fun hq e => by
    obtain rfl := Option.some.inj e
    exact Outcome.quiet hq
  cases c with
  | fork => exact doFork_outcome hlive h
  | exit status => exact doMmExit_outcome hlive h
  | wait => exact Outcome.quiet (waitFrom_quiet h)
  | kill pid kill_sig => exact checkSig_outcome h
  | trace request pid data => exact doTrace_outcome h
  | signal sig func => exact hresult (doSignal_quiet _ who sig func) h
  | alarm seconds => exact hresult (setAlarm_quiet who seconds) h
  | pause => exact hresult (Quiet.trans (Quiet.setFlags rfl rfl) (Quiet.of_reply true)) h
  | setuid usr_id => exact hresult (doSetuid_quiet _ who usr_id) h

/-- A turn of the main loop keeps the invariant exactly if the call is spared. -/
theorem MmStep.outcome {a : MmAction} (h : MmStep s a s') : Outcome (Spared s a) s s' := by
  obtain ⟨hcan, hturn⟩ := h
  cases a with
  | call who c k =>
    obtain ⟨⟨r, s₁⟩, h₁, rfl⟩ := Option.map_eq_some_iff.mp hturn
    exact (mmCall_outcome hcan h₁).then_quiet (sendResult_quiet who r s₁)
  | ksig proc_nr sig_map k =>
    obtain ⟨⟨r, s₁⟩, h₁, rfl⟩ := Option.map_eq_some_iff.mp hturn
    exact Outcome.of_quiet (Quiet.of_reply false) (doKsig_outcome h₁)

/-- Nobody has exited when the tables have been initialized. -/
theorem MmBoot.once (h : MmBoot s) : Once s := by
  obtain ⟨seg, rfl⟩ := h
  refine ⟨fun n step => oncePer_nil, fun n step _ => rfl, fun n hn => ?_⟩
  unfold MState.life lifeOf at hn
  split_ifs at hn with hu hh
  exact absurd rfl hh

/-- A turn of the main loop, for a call that is spared. -/
def SparedStep (s : MState) (a : MmAction) (s' : MState) : Prop := MmStep s a s' ∧ Spared s a

/-- As long as every call is spared, no process exits twice after the fork that created it; the
first call that is not spared makes one exit twice. -/
theorem exit_once (h : Reachable MmBoot SparedStep s) :
    ExitOnce s.log ∧ ∀ a s', MmStep s a s' → (Spared s a ↔ ExitOnce s'.log) := by
  have hinv : Once s := h.invariant (fun _ => MmBoot.once) fun _ _ _ ho hst =>
    hst.1.outcome.keeps ho hst.2
  refine ⟨hinv.once, fun a s' hst => ⟨fun hs => (hst.outcome.keeps hinv hs).once, fun ho => ?_⟩⟩
  by_contra hs
  exact hst.outcome.breaks hinv hs ho

/-- Others that do what they are asked for. -/
def obliging : Outside where
  memory := true
  sp := fun _ _ => 0
  stops := fun _ _ => true
  dumps := fun _ _ => false
  seconds_left := 0
  trace := OK

/-- The tables when the system starts, before anything is known of the segments. -/
def mmStart : MState := mmInit fun _ => (⟨0, 0, 0⟩, ⟨0, 0, 0⟩, ⟨0, 0, 0⟩)

/-- `INIT` makes a child, kills it, and waits for it. -/
theorem exit_once_killed : ∃ s, Run SparedStep mmStart
      [.call 2 .fork obliging, .call 2 (.kill 3 15) obliging, .call 2 .wait obliging] s ∧
    (ExitOnce s.log ∧ ∀ a s', MmStep s a s' → (Spared s a ↔ ExitOnce s'.log)) := by
  have hrun : ((mmTurn mmStart (.call 2 .fork obliging)).bind fun s₁ =>
      (mmTurn s₁ (.call 2 (.kill 3 15) obliging)).bind fun s₂ =>
      (mmTurn s₂ (.call 2 .wait obliging)).bind fun _ =>
        some (mmStart.life 2, s₁.life 2, s₂.life 2)) = some (.live, .live, .live) := by
    decide +kernel
  simp only [Option.bind_eq_some_iff, Option.some.injEq, Prod.mk.injEq] at hrun
  obtain ⟨s₁, h₁, s₂, h₂, s₃, h₃, hl₀, hl₁, hl₂⟩ := hrun
  have hr : Run SparedStep mmStart [.call 2 .fork obliging, .call 2 (.kill 3 15) obliging,
      .call 2 .wait obliging] s₃ :=
    ((Run.single ⟨⟨hl₀, h₁⟩, trivial⟩).snoc
      ⟨⟨hl₁, h₂⟩, fun _ _ => sparesFrom_of_ne (by decide) _ _⟩).snoc ⟨⟨hl₂, h₃⟩, trivial⟩
  exact ⟨s₃, hr, exit_once ⟨mmStart, _, ⟨_, rfl⟩, hr⟩⟩

/-- `INIT` makes a child, the child exits, and `INIT` sends a signal to everybody before it waits.
-/
theorem exit_twice : ∃ s, Run MmStep mmStart
      [.call 2 .fork obliging, .call 3 (.exit 0) obliging, .call 2 (.kill (-1) 15) obliging] s ∧
    ¬ExitOnce s.log := by
  have hrun : ((mmTurn mmStart (.call 2 .fork obliging)).bind fun s₁ =>
      (mmTurn s₁ (.call 3 (.exit 0) obliging)).bind fun s₂ =>
      (mmTurn s₂ (.call 2 (.kill (-1) 15) obliging)).bind fun s₃ =>
        some (mmStart.life 2, s₁.life 3, s₂.life 2,
          times (MmEvent.fork 3) (.exit 3 .mmExit) s₃.log)) = some (.live, .live, .live, 2) := by
    decide +kernel
  simp only [Option.bind_eq_some_iff, Option.some.injEq, Prod.mk.injEq] at hrun
  obtain ⟨s₁, h₁, s₂, h₂, s₃, h₃, hl₀, hl₁, hl₂, htimes⟩ := hrun
  refine ⟨s₃, ((Run.single ⟨hl₀, h₁⟩).snoc ⟨hl₁, h₂⟩).snoc ⟨hl₂, h₃⟩, fun honce => ?_⟩
  have hle := (honce 3 .mmExit).times_le
  omega

end Minix.Mm
