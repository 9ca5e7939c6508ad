import Minix.Mm.Cleanup

/-!
# What the functions do to families

`Serves busy s busy' s'` says of a function that what it does are events (`Evolves`), so that
whatever holds of families and their past goes on to hold; and that, when it is done, no process
that hangs has a parent that waits (`Settled`). The servers are taken not to exit.
-/

namespace Minix.Mm

open Lib

/-- No process that hangs has a parent that waits. -/
def Settled (F : Family) : Prop :=
  ∀ n, (F.member n).life = .zombie → (F.member (F.member n).parent).waiting = false

/-- A family and its past. The call of a process is executed as long as it lives. -/
def Family.annals (F : Family) (busy : Option (ProcNr × Bool)) (hist : List FamEvent) : Annals :=
  ⟨F, busy.filter fun b => (F.member b.1).life == .live, hist⟩

/-- Events happen, none of which is a call. -/
def Evolves (A A' : Annals) : Prop :=
  ∃ es, Run AnnalsStep A es A' ∧ ∀ e ∈ es, e.called = none

/-- No server exits. -/
def ServersStay (log : List MmEvent) : Prop := ∀ n ≤ INIT_PROC_NR, .exit n .mmExit ∉ log

/-- What a function does to the family. -/
structure Serves (busy : Option (ProcNr × Bool)) (s : MState) (busy' : Option (ProcNr × Bool))
    (s' : MState) : Prop where
  grows : s.log <:+ s'.log
  run : ∀ hist, ServersStay s'.log → Kept ((famOf s).annals busy hist) → Settled (famOf s) →
    Settled (famOf s') ∧
      ∃ hist', Evolves ((famOf s).annals busy hist) ((famOf s').annals busy' hist')

variable {A A' A'' : Annals} {F F' : Family} {e : FamEvent} {hist : List FamEvent}
  {busy busy' busy'' : Option (ProcNr × Bool)} {s s' s'' : MState} {n m r q who child rmp : ProcNr}

theorem Evolves.refl (A : Annals) : Evolves A A := ⟨[], .nil, fun _ he => absurd he List.not_mem_nil⟩

theorem Evolves.trans (h : Evolves A A') (h' : Evolves A' A'') : Evolves A A'' := by
  obtain ⟨es, hr, hc⟩ := h
  obtain ⟨es', hr', hc'⟩ := h'
  refine ⟨es ++ es', hr.append hr', fun e he => ?_⟩
  rcases List.mem_append.mp he with he | he
  · exact hc e he
  · exact hc' e he

/-- One event happens. -/
theorem Evolves.single (hc : A.can e) (he : e.called = none) : Evolves A (A.next e) := by
  refine ⟨[e], Run.single ⟨hc, rfl⟩, fun e' he' => ?_⟩
  rw [List.mem_singleton.mp he', he]

theorem Evolves.kept (h : Evolves A A') (hk : Kept A) : Kept A' := by
  obtain ⟨es, hr, -⟩ := h
  exact hk.run hr

/-- A function that the family does not notice. -/
theorem Serves.of_same (hlog : s.log <:+ s'.log) (hf : famOf s' = famOf s) :
    Serves busy s busy s' := by
  refine ⟨hlog, fun hist _ _ hst => ?_⟩
  rw [hf]
  exact ⟨hst, hist, Evolves.refl _⟩

theorem Serves.refl (s : MState) : Serves busy s busy s := Serves.of_same List.suffix_rfl rfl

/-- One function after the other. -/
theorem Serves.trans (h : Serves busy s busy' s') (h' : Serves busy' s' busy'' s'') :
    Serves busy s busy'' s'' := by
  refine ⟨h.grows.trans h'.grows, fun hist hlog hk hst => ?_⟩
  obtain ⟨hst', hist', he⟩ := h.run hist (fun n hn hm => hlog n hn (h'.grows.subset hm)) hk hst
  obtain ⟨hst'', hist'', he'⟩ := h'.run hist' hlog (he.kept hk) hst'
  exact ⟨hst'', hist'', he.trans he'⟩

/-- The call that is executed depends on the lives of processes. -/
theorem annals_busy {hist' : List FamEvent}
    (hlife : ∀ x, (F'.member x).life = .live ↔ (F.member x).life = .live) :
    (F'.annals busy hist').busy = (F.annals busy hist).busy := by
  have hsame : ∀ x, ((F'.member x).life == .live) = ((F.member x).life == .live) := by
    intro x
    rw [Bool.eq_iff_iff, beq_iff_eq, beq_iff_eq, hlife]
  simp only [Family.annals, hsame]

/-- A function that is one event. -/
theorem Evolves.of_event (hc : (F.annals busy hist).can e) (he : e.called = none)
    (hb : busyAfter (F.annals busy hist).busy e = ((F.after e).annals busy' hist).busy) :
    Evolves (F.annals busy hist) ((F.after e).annals busy' (e :: hist)) := by
  have hnext : (F.annals busy hist).next e = (F.after e).annals busy' (e :: hist) := by
    unfold Annals.next
    rw [hb]
    rfl
  rw [← hnext]
  exact Evolves.single hc he

/-! ## Cleaning up -/

/-- The call that is executed, after a process has been told of a child. -/
def toldOf (busy : Option (ProcNr × Bool)) (parent : ProcNr) : Option (ProcNr × Bool) :=
  if busy = some (parent, true) then none else busy

/-- Releasing a slot is an event. -/
theorem Evolves.release (hz : (F.member n).life = .zombie)
    (hw : (F.member (F.member n).parent).waiting = true ∨
      (F.annals busy hist).busy = some ((F.member n).parent, true)) :
    ∃ hist', Evolves (F.annals busy hist)
      ((F.release n).annals (toldOf busy (F.member n).parent) hist') := by
  have hlife : ∀ x, ((F.release n).member x).life = .live ↔ (F.member x).life = .live := by
    intro x
    unfold Family.release Family.after Member.afterRelease
    by_cases hx : x = n
    · simp [hx, hz]
    · simp [hx]
  refine ⟨_, Evolves.of_event ⟨hz, rfl, ?_, rfl, rfl, hw⟩ rfl ?_⟩
  · simp [Family.annals]
  · refine Eq.trans (b := ((F.annals _ hist).busy)) ?_ (annals_busy hlife).symm
    simp only [busyAfter, toldOf, Family.annals]
    cases busy with
    | none => rfl
    | some b =>
      obtain ⟨b, wait⟩ := b
      simp only [Option.filter_some]
      grind

/-- A process that hangs is no server. -/
theorem Kin.user (h : Kin F) (hz : (F.member n).life = .zombie) : INIT_PROC_NR < n := by
  by_contra hle
  have hserver := h.servers n (not_lt.mp hle)
  rw [hz] at hserver
  cases hserver

/-- The heir is a child that hangs. -/
theorem heir_spec {l : List ProcNr} (h : F.heir n l = some r) :
    (F.member r).parent = n ∧ (F.member r).life = .zombie := by
  have hr := List.find?_some h
  simpa using hr

/-- Cleaning up is releasing one slot, or two. -/
theorem Evolves.cleanup (hk : Kept (F.annals busy hist)) (hz : (F.member n).life = .zombie)
    (hw : (F.member (F.member n).parent).waiting = true ∨
      (F.annals busy hist).busy = some ((F.member n).parent, true)) :
    ∃ hist', Evolves (F.annals busy hist)
      ((F.cleanup n).annals (toldOf busy (F.member n).parent) hist') := by
  have hkin : Kin F := hk.kin
  obtain ⟨hist', he⟩ := Evolves.release hz hw
  unfold Family.cleanup
  split_ifs with hi
  · cases hheir : F.heir n mprocs with
    | none => exact ⟨hist', he⟩
    | some r =>
      obtain ⟨hrp, hrz⟩ := heir_spec hheir
      have hrn : r ≠ n := fun e =>
        hkin.selfless n (hkin.user hz) (by simp [hz]) (by rw [← e]; exact e ▸ hrp)
      have hr : ((F.release n).member r).life = .zombie ∧
          ((F.release n).member r).parent = INIT_PROC_NR := by
        unfold Family.release Family.after Member.afterRelease
        simp [hrn, hrp, hrz]
      obtain ⟨hist'', he'⟩ : ∃ hist'', Evolves
          ((F.release n).annals (toldOf busy (F.member n).parent) hist') _ :=
        Evolves.release hr.1 (Or.inl (by rw [hr.2]; exact hi))
      -- `INIT` waits, so that no call of it is executed.
      have hidle : busy ≠ some (INIT_PROC_NR, true) := by
        intro hb
        have hlive := hkin.servers INIT_PROC_NR le_rfl
        obtain ⟨-, hwait, -⟩ := (hk.heard.each INIT_PROC_NR).busy true (by simp [Family.annals, hb, hlive])
        unfold Family.release Family.after Member.afterRelease at hi
        simp [show (F.member INIT_PROC_NR).waiting = false from hwait] at hi
      have htold : toldOf (toldOf busy (F.member n).parent) ((F.release n).member r).parent =
          toldOf busy (F.member n).parent := by
        rw [hr.2]
        unfold toldOf
        grind
      rw [htold] at he'
      exact ⟨hist'', he.trans he'⟩
  · exact ⟨hist', he⟩

/-- When a process that hangs has been cleaned up, no other one needs to be. -/
theorem Settled.cleanup (hk : Kin F) (hz : (F.member n).life = .zombie)
    (h : ∀ x, x ≠ n → (F.member x).life = .zombie → (F.member (F.member x).parent).waiting = false) :
    Settled (F.cleanup n) := by
  have hrelease : ∀ (F : Family) n x, ((F.release n).member x) =
      (F.member x).afterRelease n (F.member n).parent x := fun F n x => rfl
  unfold Family.cleanup
  split_ifs with hi
  · cases hheir : F.heir n mprocs with
    | none =>
      have hnone : ∀ x, (F.member x).parent = n → (F.member x).life ≠ .zombie := by
        intro x hxp hxz
        have hall := List.find?_eq_none.mp hheir x (mem_mprocs x)
        simp [hxp, hxz] at hall
      intro x hx
      have hxn := hnone x
      have hxw := h x
      simp only [hrelease, Member.afterRelease] at hx ⊢
      grind
    | some r =>
      obtain ⟨hrp, hrz⟩ := heir_spec hheir
      intro x hx
      have hxw := h x
      simp only [hrelease, Member.afterRelease] at hx ⊢
      grind
  · intro x hx
    have hxw := h x
    simp only [hrelease, Member.afterRelease, Bool.not_eq_true] at hx hi ⊢
    grind

/-! ## Exiting -/

/-- Turn on the bit of a process that cannot be cleaned up yet. -/
def hang (s : MState) (n : ProcNr) : MState := s.setFlags n fun f => { f with HANGING := true }

/-- One assignment to an entry after another. -/
theorem set_set (s : MState) (n : ProcNr) (f g : MProc → MProc) :
    (s.set n f).set n g = s.set n (g ∘ f) := by
  unfold MState.set
  simp

/-- A reply does not depend on other processes. -/
theorem reply_set (f : MProc → MProc) (result res2 : ℤ) (hq : q ≠ n) :
    reply (s.set n f) q result res2 = (reply s q result res2).set n f := by
  unfold reply
  rw [set_flags_of_ne hq]
  split_ifs
  · rfl
  · rfl

/-- For `cleanup` it does not matter whether the process hangs. -/
theorem cleanup_hang (depth : ℕ) (hp : (s.mproc n).mp_parent ≠ n) :
    Mm.cleanup depth (hang s n) n = Mm.cleanup depth s n := by
  have hparent : ((hang s n).mproc n).mp_parent = (s.mproc n).mp_parent := by
    unfold hang MState.setFlags
    rw [set_mproc, if_pos rfl]
  have hsame : ∀ s q, releaseFlags (hang s n) n q = releaseFlags s n q := by
    intro s q
    unfold releaseFlags hang MState.setFlags
    rw [set_set]
    rfl
  have hslot : releaseSlot (hang s n) n = releaseSlot s n := by
    have hreply : ∀ r r2, reply (hang s n) (s.mproc n).mp_parent r r2 =
        hang (reply s (s.mproc n).mp_parent r r2) n := fun r r2 => by
      unfold hang MState.setFlags
      exact reply_set _ r r2 hp
    have hstatus : ((hang s n).mproc n).mp_pid = (s.mproc n).mp_pid ∧
        waitStatus ((hang s n).mproc n) = waitStatus (s.mproc n) := by
      unfold hang MState.setFlags
      rw [set_mproc, if_pos rfl]
      exact ⟨rfl, rfl⟩
    unfold releaseSlot
    dsimp only
    rw [hparent, hstatus.1, hstatus.2, hreply, hsame]
    rfl
  cases depth with
  | zero => rfl
  | succ depth =>
    unfold Mm.cleanup
    rw [hslot]

/-- What a process that exits is in the family. -/
theorem hang_famOf (hl : s.life n = .live) (hodd : (memberOf (s.mproc n)).odd = false) :
    famOf (hang s n) = (famOf s).put n { (famOf s).member n with life := .zombie, paused := false } := by
  have hlive := life_live.mp hl
  rw [not_or, Bool.not_eq_false, Bool.not_eq_true] at hlive
  have huse : (s.mproc n).mp_flags.IN_USE = true := hlive.1
  unfold hang MState.setFlags
  rw [famOf_set]
  congr 1
  rw [famOf_member, Member.mk.injEq]
  simp only [memberOf, huse, if_true] at hodd
  simp [memberOf, lifeOf, huse, waitStatus]
  simpa using hodd

/-- Nobody comes to life when a process is cleaned up. -/
theorem cleanup_live {x : ProcNr} (h : ((F.cleanup n).member x).life = .live) :
    (F.member x).life = .live := by
  have hrelease : ∀ {F : Family} {n}, ((F.release n).member x).life = .live →
      (F.member x).life = .live := by
    intro F n hl
    unfold Family.release Family.after Member.afterRelease at hl
    dsimp only at hl
    split_ifs at hl
    exact hl
  unfold Family.cleanup at h
  split_ifs at h
  · cases hheir : F.heir n mprocs with
    | none =>
      rw [hheir] at h
      exact hrelease h
    | some r =>
      rw [hheir] at h
      exact hrelease (hrelease h)
  · exact hrelease h

/-- A process that waits is told of a child when no call of it is executed. -/
theorem annals_told (hk : Kept (F.annals busy hist)) (hw : (F.member q).waiting = true)
    (hlive : ∀ x, (F'.member x).life = .live → (F.member x).life = .live) (hist' : List FamEvent) :
    F'.annals (toldOf busy q) hist' = F'.annals busy hist' := by
  unfold toldOf
  split_ifs with hb
  · have hdead : (F'.member q).life ≠ .live := by
      intro hl
      have hbusy : (F.annals busy hist).busy = some (q, true) := by
        simp [Family.annals, hb, hlive q hl]
      obtain ⟨-, hwait, -⟩ := (hk.heard.each q).busy true hbusy
      exact Bool.noConfusion (hwait.symm.trans hw)
    simp [Family.annals, hb, Option.filter_some, hdead]
  · rfl

/-- What is written down when a process exits. -/
def exiting (s : MState) (rmp : ProcNr) (exit_status : ℤ) : MState :=
  (s.record (.exit rmp .mmExit)).set rmp fun p =>
    { p with mp_exitstatus := (exit_status % 2 ^ 8).toNat }

/-- A live process is marked. -/
theorem Evolves.mark (hl : (F.member n).life = .live) (status : ℤ) (catches : ℕ) :
    Evolves (F.annals busy hist) ((F.after (.mark n status catches)).annals busy
      (.mark n status catches :: hist)) := by
  refine Evolves.of_event hl rfl (annals_busy fun x => ?_).symm
  show ((F.put n _).member x).life = .live ↔ _
  rw [put_member]
  split_ifs with hx
  · rw [hx]
  · rfl

/-- A process dies. -/
theorem Evolves.died (exit_status : ℤ) (hl : s.life rmp = .live) (hinit : INIT_PROC_NR < rmp)
    (hk : Kept ((famOf s).annals busy hist)) (hst : Settled (famOf s)) :
    ∃ hist', Evolves ((famOf s).annals busy hist)
      ((famOf (hang (exiting s rmp exit_status) rmp)).annals busy hist') := by
  have hkin : Kin (famOf s) := hk.kin
  have hmark : Evolves ((famOf s).annals busy hist) _ :=
    Evolves.mark hl (waitStatus { s.mproc rmp with mp_exitstatus := (exit_status % 2 ^ 8).toNat })
      (s.mproc rmp).mp_catch
  set F := (famOf s).after (.mark rmp
    (waitStatus { s.mproc rmp with mp_exitstatus := (exit_status % 2 ^ 8).toNat })
    (s.mproc rmp).mp_catch) with hF
  have hmem : ∀ x, (F.member x).life = s.life x ∧ (F.member x).parent = (s.mproc x).mp_parent ∧
      (F.member x).waiting = (memberOf (s.mproc x)).waiting := by
    intro x
    rw [hF]
    simp only [Family.after, put_member]
    split_ifs with hx
    · rw [hx]
      exact ⟨rfl, rfl, rfl⟩
    · exact ⟨rfl, rfl, rfl⟩
  have hfam : famOf (hang (exiting s rmp exit_status) rmp) = F.after (.died rmp (F.member rmp).parent
      ((F.member (F.member rmp).parent).life == .live) (F.member rmp).pid (F.member rmp).status) := by
    have hexit : famOf (exiting s rmp exit_status) = { F with log := .exit rmp .mmExit :: F.log } := by
      unfold exiting
      rw [famOf_set]
      rfl
    have hmember : memberOf ((exiting s rmp exit_status).mproc rmp) = F.member rmp := by
      rw [← famOf_member, hexit]
    have hlive : (exiting s rmp exit_status).life rmp = .live := by
      rw [← famOf_life, famOf_member, hmember, (hmem rmp).1, hl]
    have hodd : (memberOf ((exiting s rmp exit_status).mproc rmp)).odd = false := by
      rw [hmember, hF]
      simp only [Family.after, put_member, if_true]
      exact hkin.plain rmp
    rw [hang_famOf hlive hodd, hexit]
    rfl
  rw [hfam]
  refine ⟨_, hmark.trans (Evolves.of_event ?_ rfl ?_)⟩
  · refine ⟨?_, hinit, rfl, ?_, rfl, rfl, fun x hx hxp => ?_⟩
    · exact (hmem rmp).1.trans hl
    · simp [Family.annals]
    · show (F.member rmp).waiting = false
      have hx' : (F.member x).life = .zombie := hx
      have hxp' : (F.member x).parent = rmp := hxp
      rw [(hmem x).1] at hx'
      rw [(hmem x).2.1] at hxp'
      have hwait := hst x hx'
      rw [(hmem rmp).2.2]
      rw [famOf_member, famOf_member] at hwait
      rw [← hxp']
      exact hwait
  · have hlife : ∀ x, ((F.after (.died rmp (F.member rmp).parent
        ((F.member (F.member rmp).parent).life == .live) (F.member rmp).pid
        (F.member rmp).status)).member x).life = if x = rmp then .zombie else (F.member x).life := by
      intro x
      simp only [Family.after, put_member]
      split_ifs
      · rfl
      · rfl
    simp only [Family.annals, hlife, busyAfter]
    cases busy with
    | none => rfl
    | some b =>
      obtain ⟨b, wait⟩ := b
      simp only [Option.filter_some]
      grind

/-- The timer does not matter to the family. -/
theorem famOf_alarm (s : MState) (n : ProcNr) (b : Bool) :
    famOf (s.setFlags n fun f => { f with ALARM_ON := b }) = famOf s := by
  unfold MState.setFlags
  exact famOf_set_same rfl

/-- The second part of `mm_exit` does not matter to the family. -/
theorem tellExit_famOf (s : MState) (rmp : ProcNr) : famOf (tellExit s rmp) = famOf s := by
  have halarm : famOf (if (s.flags rmp).ALARM_ON then setAlarm s rmp 0 else s) = famOf s := by
    split_ifs
    · exact famOf_alarm s rmp _
    · rfl
  calc famOf (tellExit s rmp)
      = famOf (if (s.flags rmp).ALARM_ON then setAlarm s rmp 0 else s) := rfl
    _ = famOf s := halarm

/-- A process that exits hangs. -/
theorem hang_exiting (exit_status : ℤ) (hl : s.life rmp = .live) :
    (hang (exiting s rmp exit_status) rmp).life rmp = .zombie ∧
      (∀ x ≠ rmp, (hang (exiting s rmp exit_status) rmp).mproc x = s.mproc x) ∧
      ∀ x, ((hang (exiting s rmp exit_status) rmp).mproc x).mp_parent = (s.mproc x).mp_parent ∧
        (memberOf ((hang (exiting s rmp exit_status) rmp).mproc x)).waiting =
          (memberOf (s.mproc x)).waiting := by
  have huse := life_live.mp hl
  rw [not_or, Bool.not_eq_false] at huse
  have huse' : (s.mproc rmp).mp_flags.IN_USE = true := huse.1
  have hothers : ∀ x ≠ rmp, (hang (exiting s rmp exit_status) rmp).mproc x = s.mproc x := by
    intro x hx
    unfold hang exiting MState.setFlags
    rw [set_mproc, if_neg hx, set_mproc, if_neg hx]
    rfl
  refine ⟨?_, hothers, fun x => ?_⟩
  · unfold hang exiting MState.setFlags MState.life MState.flags
    rw [set_mproc, if_pos rfl, set_mproc, if_pos rfl]
    simp [lifeOf, MState.record, huse']
  · by_cases hx : x = rmp
    · subst hx
      unfold hang exiting MState.setFlags
      rw [set_mproc, if_pos rfl, set_mproc, if_pos rfl]
      exact ⟨rfl, rfl⟩
    · rw [hothers x hx]
      exact ⟨rfl, rfl⟩

/-- What is written down for a process does not concern its parent. -/
theorem exiting_parent (s : MState) (rmp : ProcNr) (exit_status : ℤ) :
    (((exiting s rmp exit_status).mproc rmp).mp_parent = (s.mproc rmp).mp_parent) ∧
      ∀ x, ((exiting s rmp exit_status).flags x).WAITING = (s.flags x).WAITING := by
  unfold exiting MState.flags
  refine ⟨?_, fun x => ?_⟩
  · rw [set_mproc, if_pos rfl]
    rfl
  · rw [set_mproc]
    split_ifs with hx
    · rw [hx]
      rfl
    · rfl

/-- A slot that is not free is in use. -/
theorem use_of_life (h : s.life n ≠ .free) : (s.mproc n).mp_flags.IN_USE = true := by
  by_contra hu
  exact h (if_pos (Bool.eq_false_iff.mpr hu))

/-- Whether a process waits, if its slot is in use. -/
theorem waiting_of_use (h : s.life n ≠ .free) :
    (memberOf (s.mproc n)).waiting = (s.flags n).WAITING := by
  simp [memberOf, use_of_life h, MState.flags]

/-- A process that lives exits. -/
theorem mmExit_serves {exit_status : ℤ} (hl : s.life rmp = .live)
    (h : mmExit s rmp exit_status = some s') : Serves busy s busy s' := by
  have hlog := (mmExit_exited h).log
  refine ⟨by rw [hlog]; exact ⟨[_, _, _], rfl⟩, fun hist hstay hk hst => ?_⟩
  have hinit : INIT_PROC_NR < rmp := by
    by_contra hle
    exact hstay rmp (not_lt.mp hle) (by simp [hlog])
  have hkin : Kin (famOf s) := hk.kin
  obtain ⟨hist₁, hevolves⟩ := Evolves.died exit_status hl hinit hk hst
  have hk₁ := hevolves.kept hk
  obtain ⟨hz, hothers, hsame⟩ := hang_exiting exit_status hl
  obtain ⟨hparent, hflags⟩ := exiting_parent s rmp exit_status
  have hself : (s.mproc rmp).mp_parent ≠ rmp :=
    hkin.selfless rmp hinit (by rw [famOf_life, hl]; decide)
  have hfree : s.life (s.mproc rmp).mp_parent ≠ .free :=
    hkin.parents rmp (by rw [famOf_life, hl]; decide)
  obtain ⟨s₁, h₁, rfl⟩ := Option.map_eq_some_iff.mp h
  rw [tellExit_famOf]
  have h₁' : (if (s.flags (s.mproc rmp).mp_parent).WAITING then
      Mm.cleanup cleanupDepth (hang (exiting s rmp exit_status) rmp) rmp
      else some (hang (exiting s rmp exit_status) rmp)) = some s₁ := by
    rw [cleanup_hang _ (by rw [hparent]; exact hself), ← hflags, ← hparent]
    exact h₁
  generalize hang (exiting s rmp exit_status) rmp = s₂ at *
  have hkin₂ : Kin (famOf s₂) := hk₁.kin
  -- No other process needs to be cleaned up.
  have hdue : ∀ x ≠ rmp, s₂.life x = .zombie →
      (memberOf (s₂.mproc (s₂.mproc x).mp_parent)).waiting = false := by
    intro x hx hxz
    unfold MState.life MState.flags at hxz
    rw [hothers x hx] at hxz
    rw [(hsame x).1, (hsame _).2]
    exact hst x hxz
  have hwait : (memberOf (s₂.mproc (s₂.mproc rmp).mp_parent)).waiting =
      (s.flags (s.mproc rmp).mp_parent).WAITING := by
    rw [(hsame rmp).1, (hsame _).2, waiting_of_use hfree]
  split_ifs at h₁' with hw
  · rw [hw] at hwait
    rw [cleanup_famOf hkin₂.plain hz (by rw [(hsame rmp).1]; exact hself) hinit.ne'
      (hkin₂.servers _ le_rfl) h₁']
    obtain ⟨hist₂, he⟩ := Evolves.cleanup hk₁ hz (Or.inl hwait)
    refine ⟨Settled.cleanup hkin₂ hz hdue, hist₂, ?_⟩
    rw [annals_told (q := ((famOf s₂).member rmp).parent) hk₁ hwait fun x => cleanup_live] at he
    exact hevolves.trans he
  · obtain rfl := Option.some.inj h₁'
    refine ⟨fun x hx => ?_, hist₁, hevolves⟩
    by_cases hxr : x = rmp
    · subst hxr
      rw [Bool.not_eq_true] at hw
      exact hwait.trans hw
    · exact hdue x hxr hx

end Minix.Mm
