import Minix.Mm.Returns
import Minix.Mm.Ends

/-!
# Process ids are fresh

The loop of `do_fork` puts its candidate in the table that it searches, where the slot of the child
has what it got from the parent, or the candidate before. It ends with an id that no other slot has,
as its process id or as its process group (`findPid_fresh`), and exits and waits do not give ids to
anybody, so that no two users have the same one in any run (`PidsOk`). Only the servers have: they
are processes like the others, but nobody gives them an id.
-/

namespace Minix.Mm

open Lib

variable {s s' s'' : MState} {n rmp child who : ProcNr} {k : Outside}

/-! ## The search -/

/-- The id that is found for a slot is in range, and no other slot has it. -/
structure FreshPid (rmc : ProcNr) (s s' : MState) : Prop where
  range : INIT_PID + 1 ≤ s'.next_pid ∧ s'.next_pid ≤ 30000
  entry : s'.mproc rmc = { s.mproc rmc with mp_pid := s'.next_pid }
  pid : ∀ n ≠ rmc, (s.mproc n).mp_pid ≠ s'.next_pid
  procgrp : ∀ n ≠ rmc, (s.mproc n).mp_procgrp ≠ s'.next_pid
  others : ∀ n ≠ rmc, s'.mproc n = s.mproc n

/-- The search finds such an id, if the one before was in range. -/
theorem findPid_fresh {fuel : ℕ} (hnext : INIT_PID ≤ s.next_pid)
    (h : findPid child fuel s = some s') : FreshPid child s s' := by
  obtain ⟨pid, rfl, hfree⟩ := findPid_found h
  exact ⟨⟨hfree.low hnext, hfree.le⟩, s.withPid_self child pid, hfree.other_pid,
    hfree.other_procgrp, fun n hn => s.withPid_of_ne pid hn⟩

/-! ## Forks -/

/-- A fork is refused and changes nothing, or there is a process in a slot that was free, with an id
that is fresh. -/
def ForkFresh (s : MState) (r : ℤ) (s' : MState) : Prop :=
  r = EAGAIN ∧ s' = s ∨
    ∃ child, (s.flags child).IN_USE = false ∧ r = s'.next_pid ∧
      (s'.mproc child).mp_pid = s'.next_pid ∧
      (INIT_PID + 1 ≤ s'.next_pid ∧ s'.next_pid ≤ 30000) ∧
      ∀ n ≠ child, (s.mproc n).mp_pid ≠ s'.next_pid ∧ (s.mproc n).mp_procgrp ≠ s'.next_pid ∧
        s'.mproc n = s.mproc n

theorem setProcgrp_next (s : MState) (who rmc : ProcNr) :
    (setProcgrp s who rmc).next_pid = s.next_pid := by
  unfold setProcgrp
  split_ifs <;> rfl

theorem setProcgrp_of_ne (s : MState) {who rmc : ProcNr} (h : n ≠ rmc) :
    (setProcgrp s who rmc).mproc n = s.mproc n := by
  unfold setProcgrp
  split_ifs
  · simp [MState.set, h]
  · rfl

theorem setProcgrp_pid (s : MState) (who rmc n : ProcNr) :
    ((setProcgrp s who rmc).mproc n).mp_pid = (s.mproc n).mp_pid := by
  by_cases h : n = rmc
  · subst h
    unfold setProcgrp
    split_ifs
    · simp [MState.set]
    · rfl
  · rw [setProcgrp_of_ne s h]

theorem reply_mproc (s : MState) (proc_nr : ProcNr) (r r2 : ℤ) :
    (reply s proc_nr r r2).mproc = s.mproc := by
  unfold reply
  split_ifs <;> rfl

theorem reply_next (s : MState) (proc_nr : ProcNr) (r r2 : ℤ) :
    (reply s proc_nr r r2).next_pid = s.next_pid := by
  unfold reply
  split_ifs <;> rfl

/-- `do_fork` gives a fresh id, whatever the table is. -/
theorem doFork_fresh {r : ℤ} (hnext : INIT_PID ≤ s.next_pid) (h : doFork k s who = some (r, s')) :
    ForkFresh s r s' := by
  have hrefused : ∀ {r' : ℤ}, some (EAGAIN, s) = some (r', s') → r' = EAGAIN ∧ s' = s := by
    intro r' h
    obtain ⟨rfl, rfl⟩ := Prod.mk.inj (Option.some.inj h)
    exact ⟨rfl, rfl⟩
  unfold doFork at h
  split_ifs at h
  · exact .inl (hrefused h)
  · exact .inl (hrefused h)
  · exact .inl (hrefused h)
  · obtain ⟨child, hchild, h⟩ := Option.bind_eq_some_iff.mp h
    obtain ⟨s₁, h₁, h⟩ := Option.bind_eq_some_iff.mp h
    obtain ⟨rfl, rfl⟩ := Prod.mk.inj (Option.some.inj h)
    have hfree : (s.flags child).IN_USE = false := by simpa using List.find?_some hchild
    have hcopy : ∀ n ≠ child, ({ s with procs_in_use := s.procs_in_use + 1 }.set child fun _ =>
        childOf who (s.mproc who)).mproc n = s.mproc n := by
      intro n hn
      simp [MState.set, hn]
    have hfresh : FreshPid child ({ s with procs_in_use := s.procs_in_use + 1 }.set child fun _ =>
      childOf who (s.mproc who)) s₁ := findPid_fresh hnext h₁
    have hnext' : (reply ((setProcgrp s₁ who child).record (.fork child)) child 0 0).next_pid =
        s₁.next_pid := by
      rw [reply_next]
      exact setProcgrp_next ..
    have hmproc : (reply ((setProcgrp s₁ who child).record (.fork child)) child 0 0).mproc =
        (setProcgrp s₁ who child).mproc := reply_mproc ..
    refine .inr ⟨child, hfree, ?_, ?_, ?_, fun n hn => ⟨?_, ?_, ?_⟩⟩
    · rw [hnext']
      exact congrArg Nat.cast (setProcgrp_next s₁ who child)
    · rw [hmproc, hnext', setProcgrp_pid, hfresh.entry]
    · rw [hnext']
      exact hfresh.range
    · rw [hnext', ← hcopy n hn]
      exact hfresh.pid n hn
    · rw [hnext', ← hcopy n hn]
      exact hfresh.procgrp n hn
    · rw [hmproc, setProcgrp_of_ne s₁ hn, hfresh.others n hn, hcopy n hn]

/-! ## Exits and waits -/

/-- Nobody gets another id, and slots become free at most. -/
structure SamePids (s s' : MState) : Prop where
  next : s'.next_pid = s.next_pid
  pid : ∀ n, (s'.mproc n).mp_pid = (s.mproc n).mp_pid
  use : ∀ n, (s'.flags n).IN_USE = true → (s.flags n).IN_USE = true

theorem Ends.samePids (h : Ends s s') : SamePids s s' :=
  ⟨h.next, fun n => congrArg (fun o => o.2.2.2.2) (h.own n), h.use⟩

/-! ## Runs -/

/-- Forks, exits and waits. -/
def MmAction.OfFamily : MmAction → Prop
  | .call _ .fork _ | .call _ (.exit _) _ | .call _ .wait _ => True
  | _ => False

/-- One turn of the main loop for a fork, an exit or a wait. -/
def ForkStep (s : MState) (a : MmAction) (s' : MState) : Prop := MmStep s a s' ∧ a.OfFamily

/-- Processes that are in use have different ids, unless they are servers, which have none. -/
def PidsDiffer (s : MState) : Prop :=
  ∀ n m, (s.flags n).IN_USE = true → (s.flags m).IN_USE = true →
    (s.mproc n).mp_pid = (s.mproc m).mp_pid →
      n = m ∨ (n < INIT_PROC_NR ∧ m < INIT_PROC_NR ∧ (s.mproc n).mp_pid = 0)

/-- The invariant of the runs. -/
structure PidsOk (s : MState) : Prop where
  next : INIT_PID ≤ s.next_pid
  servers : ∀ n, (s.flags n).IN_USE = true → (s.mproc n).mp_pid = 0 → n < INIT_PROC_NR
  differ : ∀ n m, (s.flags n).IN_USE = true → (s.flags m).IN_USE = true →
    (s.mproc n).mp_pid = (s.mproc m).mp_pid → n = m ∨ (s.mproc n).mp_pid = 0

theorem PidsOk.pidsDiffer (h : PidsOk s) : PidsDiffer s := by
  intro n m hn hm he
  refine (h.differ n m hn hm he).imp_right fun hz => ?_
  exact ⟨h.servers n hn hz, h.servers m hm (he.symm.trans hz), hz⟩

theorem PidsOk.same (h : PidsOk s) (hs : SamePids s s') : PidsOk s' where
  next := hs.next ▸ h.next
  servers n hn hz := h.servers n (hs.use n hn) ((hs.pid n).symm.trans hz)
  differ n m hn hm he := by
    rw [hs.pid, hs.pid] at he
    rw [hs.pid]
    exact h.differ n m (hs.use n hn) (hs.use m hm) he

/-- A child has an id of its own. -/
theorem PidsOk.fork {r : ℤ} (h : PidsOk s) (hf : ForkFresh s r s') : PidsOk s' := by
  rcases hf with ⟨-, rfl⟩ | ⟨child, -, -, hpid, hrange, hothers⟩
  · exact h
  have hold : ∀ n ≠ child, s'.flags n = s.flags n := fun n hn => by
    unfold MState.flags
    rw [(hothers n hn).2.2]
  have hnew : ∀ n ≠ child, (s'.mproc n).mp_pid ≠ (s'.mproc child).mp_pid := by
    intro n hn
    rw [hpid, (hothers n hn).2.2]
    exact (hothers n hn).1
  refine ⟨Nat.le_of_succ_le hrange.1, fun n hn hz => ?_, fun n m hn hm he => ?_⟩
  · by_cases hc : n = child
    · rw [hc, hpid] at hz
      unfold INIT_PID at hrange
      omega
    · rw [hold n hc] at hn
      rw [(hothers n hc).2.2] at hz
      exact h.servers n hn hz
  · by_cases hc : n = child
    · by_cases hc' : m = child
      · exact .inl (hc.trans hc'.symm)
      · rw [hc] at he
        exact absurd he.symm (hnew m hc')
    · by_cases hc' : m = child
      · rw [hc'] at he
        exact absurd he (hnew n hc)
      · rw [hold n hc] at hn
        rw [hold m hc'] at hm
        rw [(hothers n hc).2.2] at he ⊢
        rw [(hothers m hc').2.2] at he
        exact h.differ n m hn hm he

/-- Every turn keeps the ids apart. -/
theorem PidsOk.step {a : MmAction} (h : PidsOk s) (hst : ForkStep s a s') : PidsOk s' := by
  obtain ⟨⟨-, hturn⟩, hfam⟩ := hst
  cases a with
  | ksig => exact absurd hfam id
  | call who c k =>
    obtain ⟨⟨r, s₁⟩, hcall, rfl⟩ := Option.map_eq_some_iff.mp hturn
    have hnew : Ends s (newCall s) := .of_mproc rfl rfl
    have hsend : Ends s₁ (sendResult who (r, s₁)) := by
      unfold sendResult
      dsimp only
      split_ifs
      · exact Ends.refl s₁
      · exact reply_ends ..
    have h₀ : PidsOk (newCall s) := h.same hnew.samePids
    have h₁ : PidsOk s₁ := by
      cases c with
      | fork => exact h₀.fork (doFork_fresh h₀.next hcall)
      | exit status =>
        obtain ⟨s₂, h₂, he⟩ := Option.map_eq_some_iff.mp hcall
        obtain ⟨-, rfl⟩ := Prod.mk.inj he
        have hreply : Ends s₂ { s₂ with dont_reply := true } := .of_mproc rfl rfl
        exact h₀.same ((mmExit_ends h₂).trans hreply).samePids
      | wait => exact h₀.same (waitFrom_ends hcall).samePids
      | kill | trace | signal | alarm | pause | setuid => exact absurd hfam id
    exact h₁.same hsend.samePids

theorem MmBoot.pidsOk (h : MmBoot s) : PidsOk s := by
  obtain ⟨seg, rfl⟩ := h
  have hpid : ∀ n, ((mmInit seg).mproc n).mp_pid = if n = INIT_PROC_NR then INIT_PID else 0 :=
    fun _ => rfl
  have huse : ∀ n, ((mmInit seg).flags n).IN_USE =
      (n == MM_PROC_NR || n == FS_PROC_NR || n == INIT_PROC_NR) := fun _ => rfl
  have hnext : INIT_PID ≤ (mmInit seg).next_pid := Nat.le_succ INIT_PID
  refine ⟨hnext, fun n hn hz => ?_, fun n m _ _ he => ?_⟩
  · rw [huse] at hn
    rw [hpid] at hz
    revert n
    decide
  · rw [hpid, hpid] at he
    rw [hpid]
    split_ifs at he ⊢ with hn hm
    · exact .inl (hn.trans hm.symm)
    · exact absurd he (by decide)
    · exact .inr rfl
    · exact .inr rfl

/-- Process ids are fresh: the search ends, with an id in range that no other slot has, and in every
run of forks, exits and waits the processes other than the servers have different ids. -/
theorem fresh_pids :
    (∀ (s : MState) (rmc : ProcNr), INIT_PID + 1 ≤ s.next_pid → s.next_pid ≤ 30000 →
      ∃ s', findPid rmc pidFuel s = some s' ∧ FreshPid rmc s s') ∧
    ∀ s, Reachable MmBoot ForkStep s → PidsDiffer s ∧
      ∀ who k r s', doFork k s who = some (r, s') → ForkFresh s r s' := by
  constructor
  · intro s rmc hlow _
    obtain ⟨s', hs'⟩ := Option.isSome_iff_exists.mp (findPid_isSome s rmc)
    exact ⟨s', hs', findPid_fresh (Nat.le_of_succ_le hlow) hs'⟩
  · intro s hs
    have hok : PidsOk s := hs.invariant (P := PidsOk) (fun _ => MmBoot.pidsOk)
      fun _ _ _ h hst => h.step hst
    exact ⟨hok.pidsDiffer, fun who k r s' h => doFork_fresh hok.next h⟩

/-- `INIT` forks. -/
theorem fresh_pids_init : ∃ s, PidsDiffer s ∧ (s.flags 3).IN_USE = true ∧
    ∃ s', findPid 4 pidFuel s = some s' ∧ FreshPid 4 s s' := by
  have hrun : ((mmTurn mmStart (.call 2 .fork obliging)).map fun s =>
      ((s.flags 3).IN_USE, s.next_pid)) = some (true, 3) := by
    decide +kernel
  obtain ⟨s, hs, hproj⟩ := Option.map_eq_some_iff.mp hrun
  obtain ⟨huse, hnext⟩ := Prod.mk.inj hproj
  have hlive : mmStart.life 2 = .live := by decide
  have hstep : ForkStep mmStart (.call 2 .fork obliging) s := ⟨⟨hlive, hs⟩, trivial⟩
  have hreach : Reachable MmBoot ForkStep s := (Reachable.of_init ⟨_, rfl⟩).of_step hstep
  exact ⟨s, (fresh_pids.2 s hreach).1, huse,
    fresh_pids.1 s 4 (hnext ▸ by decide) (hnext ▸ by decide)⟩

/-- The memory manager and the file system are in use, and both have 0. -/
theorem servers_share_pid : ¬ ∀ s, Reachable MmBoot ForkStep s → ∀ n m,
    (s.flags n).IN_USE = true → (s.flags m).IN_USE = true →
      (s.mproc n).mp_pid = (s.mproc m).mp_pid → n = m := by
  intro h
  have hboot : Reachable MmBoot ForkStep mmStart := Reachable.of_init ⟨_, rfl⟩
  have hsame := h mmStart hboot MM_PROC_NR FS_PROC_NR (by decide) (by decide) (by decide)
  exact absurd hsame (by decide)

end Minix.Mm
