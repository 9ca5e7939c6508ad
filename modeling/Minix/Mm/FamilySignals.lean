import Minix.Mm.FamilySim
import Minix.Mm.Outcomes

/-!
# What signals do to families

A signal that is not sent to everybody reaches only processes that live. If it is caught, the
process is interrupted when it waits (`unpause`), and if not, the process exits; `unpause` does
nothing then.
-/

namespace Minix.Mm

open Lib

variable {F F' : Family} {hist : List FamEvent} {busy : Option (ProcNr × Bool)} {s s' s₁ : MState}
  {n who rmp mp : ProcNr} {k : Outside} {sig_nr send_uid : ℕ} {proc_id : ℤ} {f : MProc → MProc}

/-- A family in which lives and parents are the same, and nobody begins to wait. -/
theorem Settled.of_same (h : Settled F)
    (hf : ∀ x, (F'.member x).life = (F.member x).life ∧ (F'.member x).parent = (F.member x).parent ∧
      ((F.member x).waiting = false → (F'.member x).waiting = false)) : Settled F' := by
  intro x hx
  rw [(hf x).1] at hx
  rw [(hf x).2.1]
  exact (hf _).2.2 (h x hx)

/-- An assignment to the status of a process that lives, and to the signals that it catches. -/
theorem Serves.set_mark (hl : s.life n = .live) {status : ℤ} {catches : ℕ}
    (hf : memberOf (f (s.mproc n)) =
      { memberOf (s.mproc n) with status := status, catches := catches }) :
    Serves busy s busy (s.set n f) := by
  refine ⟨List.suffix_rfl, fun hist _ _ hst => ?_⟩
  rw [famOf_set, hf]
  refine ⟨hst.of_same fun x => ?_, _, Evolves.mark hl status catches⟩
  rw [put_member]
  split_ifs with hx
  · rw [hx]
    exact ⟨rfl, rfl, id⟩
  · exact ⟨rfl, rfl, id⟩

/-- The life of a process after an assignment that keeps the flags. -/
theorem set_life (h : (f (s.mproc n)).mp_flags = (s.mproc n).mp_flags) (x : ProcNr) :
    (s.set n f).life x = s.life x := by
  unfold MState.life MState.flags
  rw [set_mproc]
  split_ifs with hx
  · rw [hx, h]
  · rfl

/-- The default action, for a process that lives. -/
theorem killProc_serves (hl : s.life rmp = .live) (h : killProc k s rmp sig_nr = some s') :
    Serves busy s busy s' := by
  unfold killProc at h
  dsimp only at h
  have hset : Serves busy s busy (s.set rmp fun p => { p with mp_sigstatus := sig_nr }) :=
    Serves.set_mark hl rfl
  have hlive : (s.set rmp fun p => { p with mp_sigstatus := sig_nr }).life rmp = .live :=
    (set_life rfl rmp).trans hl
  split_ifs at h with hcore
  · have hdump : Serves busy (s.set rmp fun p => { p with mp_sigstatus := sig_nr }) busy
        (dumpCore k (s.set rmp fun p => { p with mp_sigstatus := sig_nr }) rmp sig_nr) ∧
        (dumpCore k (s.set rmp fun p => { p with mp_sigstatus := sig_nr }) rmp sig_nr).life rmp =
          .live := by
      unfold dumpCore
      split_ifs
      · exact ⟨Serves.refl _, hlive⟩
      · exact ⟨Serves.set_mark hlive rfl, (set_life rfl rmp).trans hlive⟩
    exact hset.trans (hdump.1.trans (mmExit_serves hdump.2 h))
  · exact hset.trans (mmExit_serves hlive h)

/-- The growth of the stack does not concern the family. -/
theorem adjust_member (n : ProcNr) (p : MProc) (data_clicks : ℕ) (sp : ℤ) :
    memberOf (adjust n p data_clicks sp).2 = memberOf p := by
  unfold adjust moveStack
  split_ifs
  · rfl
  · dsimp only
    split_ifs <;> rfl

/-- The family after a signal is no longer caught. -/
theorem catchSig_famOf (k : Outside) (s : MState) (rmp : ProcNr) (sig_nr : ℕ) :
    famOf (catchSig k s rmp sig_nr).2 = (famOf s).after (.caught rmp sig_nr) := by
  unfold catchSig
  dsimp only
  rw [famOf_set_same (adjust_member ..), famOf_set]
  rfl

/-- The flags of a process that is interrupted: one of its calls is terminated. -/
def wake (f : MFlags) : MFlags :=
  if f.PAUSED then { f with PAUSED := false } else { f with WAITING := false }

theorem wake_use (f : MFlags) : (wake f).IN_USE = f.IN_USE := by
  unfold wake
  split_ifs <;> rfl

theorem wake_hanging (f : MFlags) : (wake f).HANGING = f.HANGING := by
  unfold wake
  split_ifs <;> rfl

/-- Assignments that give the same flags. -/
theorem setFlags_congr {g g' : MFlags → MFlags} (h : g (s.flags n) = g' (s.flags n)) :
    s.setFlags n g = s.setFlags n g' := by
  unfold MState.setFlags MState.set
  have h' : g (s.mproc n).mp_flags = g' (s.mproc n).mp_flags := h
  dsimp only
  rw [h']

/-- What `unpause` does, whatever the process is suspended on. -/
theorem unpause_eq (s : MState) (n : ProcNr) : unpause s n =
    if ((s.flags n).PAUSED ∨ (s.flags n).WAITING) ∧ (s.flags n).HANGING = false then
      reply (s.setFlags n wake) n EINTR 0 else s := by
  unfold unpause
  by_cases hh : (s.flags n).HANGING = false
  · by_cases hp : (s.flags n).PAUSED = true
    · rw [if_pos ⟨hp, hh⟩, if_pos ⟨Or.inl hp, hh⟩]
      congr 1
      exact setFlags_congr (by simp [wake, hp])
    · rw [if_neg fun h => hp h.1]
      by_cases hw : (s.flags n).WAITING = true
      · rw [if_pos ⟨hw, hh⟩, if_pos ⟨Or.inr hw, hh⟩]
        congr 1
        exact setFlags_congr (by simp [wake, hp])
      · rw [if_neg fun h => hw h.1, if_neg]
        rintro ⟨h | h, -⟩
        · exact hp h
        · exact hw h
  · rw [if_neg fun h => hh h.2, if_neg fun h => hh h.2, if_neg fun h => hh h.2]

/-- Check to see if a process is suspended that does not live any more. -/
theorem unpause_dead (hl : s.life n ≠ .live) : famOf (unpause s n) = famOf s := by
  rw [unpause_eq]
  split_ifs with hw
  · have hdead := not_not.mp (mt life_live.mpr hl)
    have hfree : (s.mproc n).mp_flags.IN_USE = false := hdead.resolve_right (by simp [hw.2])
    have hhang : (s.mproc n).mp_flags.HANGING = false := hw.2
    rw [famOf_reply_dead (by rw [setFlags_life wake_use wake_hanging]; exact hl)]
    unfold MState.setFlags
    apply famOf_set_same
    simp [memberOf, lifeOf, waitStatus, wake_use, wake_hanging, hfree, hhang]
  · rfl

/-- A process that has caught a signal is interrupted, if it waits for something. -/
theorem Evolves.unpause (hl : s.life n = .live) (hk : Kept ((famOf s).annals busy hist))
    (hhist : hist.head? = some (.caught n sig_nr)) (hst : Settled (famOf s)) :
    Settled (famOf (unpause s n)) ∧
      ∃ hist', Evolves ((famOf s).annals busy hist) ((famOf (Mm.unpause s n)).annals busy hist') := by
  have hlive := life_live.mp hl
  rw [not_or, Bool.not_eq_false, Bool.not_eq_true] at hlive
  obtain ⟨huse, hhang⟩ := hlive
  have huse' : (s.mproc n).mp_flags.IN_USE = true := huse
  have hhang' : (s.mproc n).mp_flags.HANGING = false := hhang
  have hcalm := Kin.calm (F := famOf s) hk.kin n hl
  simp only [famOf_member, memberOf, huse', hhang', Bool.true_and, Bool.not_false] at hcalm
  rw [unpause_eq]
  split_ifs with hw
  · have hmember : memberOf { s.mproc n with mp_flags := wake (s.mproc n).mp_flags } =
        { memberOf (s.mproc n) with waiting := false, paused := false } := by
      rw [Member.mk.injEq]
      simp only [memberOf, lifeOf, wake_use, wake_hanging, huse', hhang', waitStatus]
      unfold wake
      split_ifs with hp
      · simp_all
      · simp_all
    have hwoken : famOf (reply (s.setFlags n wake) n EINTR 0) = (famOf s).after (.interrupted n) := by
      rw [famOf_reply (by rw [setFlags_life wake_use wake_hanging]; exact hl)]
      unfold MState.setFlags
      rw [famOf_set, hmember]
      rfl
    have hafter : ∀ x, (((famOf s).after (.interrupted n)).member x) = if x = n then
        { memberOf (s.mproc n) with waiting := false, paused := false } else memberOf (s.mproc x) :=
      fun x => put_member (famOf s) n x _
    rw [hwoken]
    refine ⟨hst.of_same fun x => ?_, _, Evolves.of_event ⟨hl, ?_, sig_nr, hhist⟩ rfl
      (annals_busy fun x => ?_).symm⟩
    · rw [hafter]
      split_ifs with hx
      · rw [hx]
        exact ⟨rfl, rfl, fun _ => rfl⟩
      · exact ⟨rfl, rfl, id⟩
    · show (memberOf (s.mproc n)).waiting = true ∨ (memberOf (s.mproc n)).paused = true
      simp only [memberOf, huse', hhang', Bool.true_and, Bool.not_false]
      exact hw.1.symm
    · rw [hafter]
      split_ifs with hx
      · rw [hx]
        rfl
      · rfl
  · exact ⟨hst, hist, Evolves.refl _⟩

/-- A signal for a process that lives, and that is not traced: it is caught, or the process exits.
-/
theorem sigProc_cases (hl : s.life rmp = .live) (hodd : (memberOf (s.mproc rmp)).odd = false)
    (h : sigProc k s rmp sig_nr = some s') :
    (hasSig (s.mproc rmp).mp_catch sig_nr = true ∧ (s' = (catchSig k s rmp sig_nr).2 ∨
      killProc k (catchSig k s rmp sig_nr).2 rmp sig_nr = some s')) ∨
      killProc k s rmp sig_nr = some s' := by
  have hlive := life_live.mp hl
  rw [not_or, Bool.not_eq_false, Bool.not_eq_true] at hlive
  obtain ⟨huse, hhang⟩ := hlive
  have huse' : (s.mproc rmp).mp_flags.IN_USE = true := huse
  have hhang' : (s.mproc rmp).mp_flags.HANGING = false := hhang
  have htraced : (s.flags rmp).TRACED = false := by
    show (s.mproc rmp).mp_flags.TRACED = false
    simp [memberOf, huse', hhang'] at hodd
    exact hodd.1
  unfold sigProc at h
  rw [if_neg (by simp [huse]), if_neg (by simp [htraced])] at h
  split_ifs at h with hc
  · dsimp only at h
    split_ifs at h with hroom
    · exact Or.inl ⟨hc, Or.inl (Option.some.inj h).symm⟩
    · exact Or.inl ⟨hc, Or.inr h⟩
  · exact Or.inr h

/-- Nothing is lost of what was recorded. -/
theorem Quiet.suffix (h : Quiet s s') : s.log <:+ s'.log := by
  rw [h.log]

/-- What `check_sig` does to a process that lives, when all tests have been passed. -/
theorem signal_serves (hl : s.life rmp = .live) (h : sigProc k s rmp sig_nr = some s') :
    Serves busy s busy (unpause s' rmp) := by
  have hgrows := ((sigProc_outcome h).then_quiet (unpause_quiet s' rmp)).grows
  refine ⟨hgrows, fun hist hstay hk hst => ?_⟩
  have hodd := Kin.plain (F := famOf s) hk.kin rmp
  have hkill : ∀ {s₁ : MState}, s₁.life rmp = .live → Serves busy s busy s₁ →
      killProc k s₁ rmp sig_nr = some s' → Settled (famOf (unpause s' rmp)) ∧
        ∃ hist', Evolves ((famOf s).annals busy hist) ((famOf (unpause s' rmp)).annals busy hist') := by
    intro s₁ hl₁ hs₁ hkp
    rw [unpause_dead (killProc_exited hkp).gone]
    refine (hs₁.trans (killProc_serves hl₁ hkp)).run hist ?_ hk hst
    rw [← (unpause_quiet s' rmp).log]
    exact hstay
  have hcaught := catchSig_famOf k s rmp sig_nr
  have hafter : ∀ x, ((famOf (catchSig k s rmp sig_nr).2).member x).life = ((famOf s).member x).life ∧
      ((famOf (catchSig k s rmp sig_nr).2).member x).parent = ((famOf s).member x).parent ∧
      ((famOf (catchSig k s rmp sig_nr).2).member x).waiting = ((famOf s).member x).waiting := by
    intro x
    rw [hcaught]
    simp only [Family.after, put_member]
    split_ifs with hx
    · rw [hx]
      exact ⟨rfl, rfl, rfl⟩
    · exact ⟨rfl, rfl, rfl⟩
  have hlive : (catchSig k s rmp sig_nr).2.life rmp = .live := (hafter rmp).1.trans hl
  have hsettled : Settled (famOf (catchSig k s rmp sig_nr).2) :=
    hst.of_same fun x => ⟨(hafter x).1, (hafter x).2.1, fun hw => (hafter x).2.2.trans hw⟩
  rcases sigProc_cases hl hodd h with ⟨hc, rfl | hkp⟩ | hkp
  · have hevent : Evolves ((famOf s).annals busy hist)
        ((famOf (catchSig k s rmp sig_nr).2).annals busy (.caught rmp sig_nr :: hist)) := by
      rw [hcaught]
      refine Evolves.of_event ⟨hl, hc⟩ rfl (annals_busy fun x => ?_).symm
      rw [← hcaught, (hafter x).1]
    obtain ⟨hst', hist', he⟩ := Evolves.unpause hlive (hevent.kept hk) rfl hsettled
    exact ⟨hst', hist', hevent.trans he⟩
  · -- There is no room on the stack; the signal is not caught any more all the same.
    have hmark : Serves busy s busy (catchSig k s rmp sig_nr).2 := by
      refine ⟨Quiet.suffix catchSig_quiet, fun hist _ _ _ => ⟨hsettled, ?_⟩⟩
      rw [hcaught]
      exact ⟨_, Evolves.mark hl ((famOf s).member rmp).status _⟩
    exact hkill hlive hmark hkp
  · exact hkill hl (Serves.refl s) hkp

/-- A stack fault that is not handled is not caught either. -/
theorem fault_serves (hl : s.life rmp = .live) (hc : (s.mproc rmp).mp_catch = 0)
    (h : sigProc k s rmp sig_nr = some s') : Serves busy s busy s' := by
  refine ⟨(sigProc_outcome h).grows, fun hist hstay hk hst => ?_⟩
  have hodd := Kin.plain (F := famOf s) hk.kin rmp
  have hno : hasSig (s.mproc rmp).mp_catch sig_nr = false := by
    rw [hc]
    exact Nat.zero_testBit _
  have hkp : killProc k s rmp sig_nr = some s' :=
    (sigProc_cases hl hodd h).resolve_left fun hcaught => Bool.noConfusion (hno.symm.trans hcaught.1)
  exact (killProc_serves hl hkp).run hist hstay hk hst

/-- A signal that is not sent to everybody is sent to processes that live. -/
theorem sendSig_live (huse : (s.flags rmp).IN_USE = true) (hid : proc_id ≠ -1)
    (h : sendSig s mp proc_id sig_nr send_uid rmp = true) : s.life rmp = .live := by
  by_contra hl
  have hz : s.life rmp = .zombie := by
    cases hlife : s.life rmp with
    | free =>
      unfold MState.life lifeOf at hlife
      split_ifs at hlife with hu
      exact absurd huse (by simp [hu])
    | live => exact absurd hlife hl
    | zombie => rfl
  exact hid (sendSig_zombie hz h)

/-- A turn of the loop of `check_sig`. -/
theorem checkSigProc_serves (hid : proc_id ≠ -1) {visit : Visit}
    (h : checkSigProc k mp proc_id sig_nr send_uid s rmp = some (visit, s')) :
    Serves busy s busy s' := by
  have halarm : famOf (alarmGone s rmp sig_nr (sendSig s mp proc_id sig_nr send_uid rmp)) = famOf s := by
    unfold alarmGone
    split_ifs
    · exact famOf_alarm s rmp false
    · rfl
  obtain ⟨hquiet, hlife, -⟩ := alarmGone_spec (k := k) s rmp sig_nr
    (sendSig s mp proc_id sig_nr send_uid rmp)
  have hgone : Serves busy s busy (alarmGone s rmp sig_nr (sendSig s mp proc_id sig_nr send_uid rmp)) :=
    Serves.of_same hquiet.suffix halarm
  unfold checkSigProc at h
  dsimp only at h
  split_ifs at h with hu ha hs hi
  · obtain ⟨-, rfl⟩ := Prod.mk.inj (Option.some.inj h)
    exact Serves.refl s
  · obtain ⟨-, rfl⟩ := Prod.mk.inj (Option.some.inj h)
    exact Serves.refl s
  · obtain ⟨-, rfl⟩ := Prod.mk.inj (Option.some.inj h)
    exact hgone
  · obtain ⟨-, rfl⟩ := Prod.mk.inj (Option.some.inj h)
    exact hgone
  · obtain ⟨s₁, h₁, h₂⟩ := Option.map_eq_some_iff.mp h
    obtain ⟨-, rfl⟩ := Prod.mk.inj h₂
    have hl : s.life rmp = .live :=
      sendSig_live (Bool.not_eq_false _ ▸ hu) hid (Bool.not_eq_false _ ▸ hs)
    exact hgone.trans (signal_serves (hlife.trans hl) h₁)

/-- The loop of `check_sig`. -/
theorem checkSigFrom_serves (hid : proc_id ≠ -1) {l : List ProcNr} {count count' : ℕ}
    (h : checkSigFrom k mp proc_id sig_nr send_uid l count s = some (count', s')) :
    Serves busy s busy s' := by
  induction l generalizing s count with
  | nil =>
    obtain ⟨-, rfl⟩ := Prod.mk.inj (Option.some.inj h)
    exact Serves.refl s
  | cons rmp l ih =>
    obtain ⟨⟨visit, s₁⟩, h₁, h₂⟩ := Option.bind_eq_some_iff.mp h
    have hturn : Serves busy s busy s₁ := checkSigProc_serves hid h₁
    cases visit with
    | skipped => exact hturn.trans (ih h₂)
    | ignored => exact hturn.trans (ih h₂)
    | sent =>
      dsimp only at h₂
      split_ifs at h₂
      · obtain ⟨-, rfl⟩ := Prod.mk.inj (Option.some.inj h₂)
        exact hturn
      · exact hturn.trans (ih h₂)

/-- A signal to a process, or to a group. -/
theorem checkSig_serves {r sig : ℤ} (hid : proc_id ≠ -1)
    (h : checkSig k s mp proc_id sig send_uid = some (r, s')) : Serves busy s busy s' := by
  unfold checkSig at h
  split_ifs at h
  · obtain ⟨-, rfl⟩ := Prod.mk.inj (Option.some.inj h)
    exact Serves.refl s
  · obtain ⟨⟨count, s₁⟩, h₁, h₂⟩ := Option.bind_eq_some_iff.mp h
    obtain ⟨-, rfl⟩ := Prod.mk.inj (Option.some.inj h₂)
    refine (checkSigFrom_serves hid h₁).trans (Serves.of_same ?_ ?_)
    · split_ifs
      · exact List.suffix_rfl
      · exact List.suffix_rfl
    · split_ifs
      · rfl
      · rfl

/-! ## Signals of the kernel -/

/-- The loop of `do_ksig`, when no signal is one to everybody. -/
theorem ksigFrom_serves {sig_map : ℕ} {l : List ℕ} (hid : 0 ≤ proc_id)
    (hkill : hasSig sig_map SIGKILL = false) (h : ksigFrom k proc_id sig_map l s = some s') :
    Serves busy s busy s' := by
  induction l generalizing s with
  | nil =>
    obtain rfl := Option.some.inj h
    exact Serves.refl s
  | cons j l ih =>
    rw [ksigFrom] at h
    split_ifs at h with hj
    · obtain ⟨⟨r, s₁⟩, h₁, h₂⟩ := Option.bind_eq_some_iff.mp h
      refine (checkSig_serves ?_ h₁).trans (ih h₂)
      have hjk : j ≠ SIGKILL := fun e => by
        rw [e, hkill] at hj
        cases hj
      unfold ksigId
      rw [if_neg hjk]
      split_ifs <;> omega
    · exact ih h

/-- A stack fault of a process that lives. -/
theorem stackFault_serves (hl : s.life rmp = .live) (h : stackFault k s rmp = some s') :
    Serves busy s busy s' := by
  unfold stackFault at h
  dsimp only at h
  have hgrow : Serves busy s busy (s.set rmp fun _ => (adjust rmp (s.mproc rmp)
      (s.mproc rmp).segD.mem_len (k.sp rmp SIGSTKFLT - CLICK_SIZE)).2) :=
    Serves.of_same List.suffix_rfl (famOf_set_same (adjust_member ..))
  have hlive := (set_life (f := fun _ => (adjust rmp (s.mproc rmp) (s.mproc rmp).segD.mem_len
      (k.sp rmp SIGSTKFLT - CLICK_SIZE)).2) (adjust_flags ..) rmp).trans hl
  split_ifs at h
  · obtain rfl := Option.some.inj h
    exact hgrow
  · refine hgrow.trans ((Serves.set_mark hlive rfl).trans
      (fault_serves ((set_life rfl rmp).trans hlive) ?_ h))
    rw [set_mproc, if_pos rfl]

/-- Signals that the kernel sends to a process. -/
theorem doKsig_serves {r : ℤ} {sig_map : ℕ} (hkill : hasSig sig_map SIGKILL = false)
    (h : doKsig k s n sig_map = some (r, s')) : Serves busy s busy s' := by
  unfold doKsig at h
  dsimp only at h
  have hreply : Serves busy s busy { s with dont_reply := true } :=
    Serves.of_same List.suffix_rfl rfl
  split_ifs at h with hdead
  · obtain ⟨-, rfl⟩ := Prod.mk.inj (Option.some.inj h)
    exact hreply
  · obtain ⟨s₁, h₁, h⟩ := Option.bind_eq_some_iff.mp h
    obtain ⟨s₂, h₂, h⟩ := Option.bind_eq_some_iff.mp h
    obtain ⟨-, rfl⟩ := Prod.mk.inj (Option.some.inj h)
    have hl : s.life n = .live := life_live.mpr hdead
    unfold ksigStart at h₁
    dsimp only at h₁
    have hgrp : Serves busy { s with dont_reply := true } busy
        (({ s with dont_reply := true } : MState).set MM_PROC_NR fun p =>
          { p with mp_procgrp := (s.mproc n).mp_procgrp }) :=
      Serves.of_same List.suffix_rfl (famOf_set_same rfl)
    have hrest : Serves busy s₁ busy s₂ := ksigFrom_serves (Int.natCast_nonneg _) hkill h₂
    split_ifs at h₁
    · refine hreply.trans (hgrp.trans ((stackFault_serves ?_ h₁).trans hrest))
      exact (set_life rfl n).trans hl
    · obtain rfl := Option.some.inj h₁
      exact hreply.trans (hgrp.trans hrest)

end Minix.Mm
