import Mathlib.Data.Finset.Card
import Mathlib.Algebra.Order.BigOperators.Group.Finset
import Minix.Mm.ExitOnce

/-!
# Every turn comes to an end

The loops over `mproc[]` end, and so do the calls of `cleanup` in each other. The loop of `do_fork`
that looks for a process id ends because there are more ids than processes that have one
(`findPid_isSome`), and the slot that it is for exists as long as the slots are counted.
-/

namespace Minix.Mm

open Kernel (NR_PROCS)

variable {s s' : MState} {n who rmp mp child : ProcNr} {k : Outside}

/-! ## Process ids -/

/-- The process id that is tried after another one. -/
def pidAfter (pid : ℕ) : ℕ := if pid < 30000 then pid + 1 else INIT_PID + 1

/-- The process ids that are in use. -/
def usedPids (s : MState) : Finset ℕ :=
  Finset.univ.image (fun n => (s.mproc n).mp_pid) ∪ Finset.univ.image fun n => (s.mproc n).mp_procgrp

/-- At most two process ids are in use for a slot. -/
theorem card_usedPids (s : MState) : (usedPids s).card ≤ 2 * NR_PROCS := by
  have hcard : ∀ f : ProcNr → ℕ, (Finset.univ.image f).card ≤ NR_PROCS := fun f =>
    Finset.card_image_le.trans (by simp)
  have hunion := Finset.card_union_le (Finset.univ.image fun n => (s.mproc n).mp_pid)
    (Finset.univ.image fun n => (s.mproc n).mp_procgrp)
  have h₁ := hcard fun n => (s.mproc n).mp_pid
  have h₂ := hcard fun n => (s.mproc n).mp_procgrp
  unfold usedPids
  omega

/-- The process ids come round again only after all of them. -/
theorem pidAfter_iterate {pid i : ℕ} (hpid : pid ≤ 30000) (hi : i < 29999) :
    pidAfter^[i] pid = if pid + i ≤ 30000 then pid + i else pid + i - 29999 := by
  induction i with
  | zero =>
    rw [Function.iterate_zero_apply]
    split_ifs <;> omega
  | succ i ih =>
    rw [Function.iterate_succ_apply', ih (by omega)]
    unfold pidAfter INIT_PID
    split_ifs <;> omega

/-- The process ids that are tried are different. -/
theorem pidAfter_injOn {pid fuel : ℕ} (hpid : pid ≤ 30000) (hfuel : fuel ≤ 29999) :
    Set.InjOn (fun i => pidAfter^[i] pid) (Finset.range fuel) := by
  intro i hi j hj hij
  have hi' := Finset.mem_range.mp (Finset.mem_coe.mp hi)
  have hj' := Finset.mem_range.mp (Finset.mem_coe.mp hj)
  dsimp only at hij
  rw [pidAfter_iterate hpid (by omega), pidAfter_iterate hpid (by omega)] at hij
  split_ifs at hij <;> omega

/-- When no process id is found, all that were tried are in use. -/
theorem findPid_none {fuel : ℕ} (hfuel : fuel ≤ 29999) (h : findPid child fuel s = none) :
    ∀ i < fuel, pidAfter^[i] (nextPid s) ∈ usedPids s := by
  induction fuel generalizing s with
  | zero => exact fun i hi => absurd hi (Nat.not_lt_zero i)
  | succ fuel ih =>
    rw [findPid] at h
    have hpid : nextPid s ≤ 30000 := by
      unfold nextPid INIT_PID
      split_ifs <;> omega
    have hused : ∀ t : MState, t = { s with next_pid := nextPid s }.set child (fun p =>
        { p with mp_pid := nextPid s }) → ∀ x ∈ usedPids t, x = nextPid s ∨ x ∈ usedPids s := by
      rintro t rfl x hx
      simp only [usedPids, Finset.mem_union, Finset.mem_image, Finset.mem_univ, true_and] at hx ⊢
      rcases hx with ⟨n, rfl⟩ | ⟨n, rfl⟩
      · by_cases hn : n = child
        · left
          simp [MState.set, hn]
        · exact Or.inr (Or.inl ⟨n, by simp [MState.set, hn]⟩)
      · refine Or.inr (Or.inr ⟨n, ?_⟩)
        by_cases hn : n = child
        · simp [MState.set, hn]
        · simp [MState.set, hn]
    split_ifs at h with ht
    intro i hi
    cases i with
    | zero =>
      obtain ⟨n, -, hn⟩ := List.any_eq_true.mp ht
      simp only [Bool.or_eq_true, beq_iff_eq] at hn
      simp only [usedPids, Finset.mem_union, Finset.mem_image, Finset.mem_univ, true_and]
      rcases hn with hn | hn
      · exact Or.inl ⟨n, hn⟩
      · exact Or.inr ⟨n, hn⟩
    | succ i =>
      -- The ids that are tried later are those after the first.
      have hlater := hused _ rfl _ (ih (by omega) h i (by omega))
      have hnext : pidAfter^[i] (nextPid ({ s with next_pid := nextPid s }.set child fun p =>
          { p with mp_pid := nextPid s })) = pidAfter^[i + 1] (nextPid s) := rfl
      rw [hnext] at hlater
      refine hlater.resolve_left fun hsame => ?_
      have hzero := pidAfter_injOn hpid hfuel (Finset.mem_coe.mpr (Finset.mem_range.mpr hi))
        (Finset.mem_coe.mpr (Finset.mem_range.mpr (Nat.zero_lt_succ fuel))) hsame
      omega

/-- A process id is found. -/
theorem findPid_isSome (s : MState) (child : ProcNr) : (findPid child pidFuel s).isSome = true := by
  by_contra hnone
  have hall := findPid_none (by decide) (Option.not_isSome_iff_eq_none.mp hnone)
  have hpid : nextPid s ≤ 30000 := by
    unfold nextPid INIT_PID
    split_ifs <;> omega
  have hsub : (Finset.range pidFuel).image (fun i => pidAfter^[i] (nextPid s)) ⊆ usedPids s := by
    intro x hx
    obtain ⟨i, hi, rfl⟩ := Finset.mem_image.mp hx
    exact hall i (Finset.mem_range.mp hi)
  have hcard := Finset.card_le_card hsub
  rw [Finset.card_image_of_injOn (pidAfter_injOn hpid (by decide)), Finset.card_range] at hcard
  have hused := card_usedPids s
  unfold pidFuel at hcard
  omega

/-! ## The calls -/

/-- The slots in use are counted. -/
def Counted (s : MState) : Prop :=
  s.procs_in_use = (Finset.univ.filter fun n => (s.flags n).IN_USE = true).card

/-- A fork comes to an end: a slot exists for the child. -/
theorem doFork_isSome (h : Counted s) : (doFork k s who).isSome = true := by
  unfold doFork
  split_ifs with hfull
  · rfl
  · rfl
  · rfl
  · have hslot : (mprocs.find? fun rmc => !(s.flags rmc).IN_USE).isSome = true := by
      by_contra hnone
      rw [Option.not_isSome_iff_eq_none, List.find?_eq_none] at hnone
      have hall : (Finset.univ.filter fun n => (s.flags n).IN_USE = true) = Finset.univ := by
        ext n
        have hn := hnone n (List.mem_finRange n)
        simpa using hn
      unfold Counted at h
      rw [hall, Finset.card_fin] at h
      exact hfull h
    obtain ⟨rmc, hrmc⟩ := Option.isSome_iff_exists.mp hslot
    unfold makeChild
    rw [hrmc, Option.bind_eq_bind, Option.bind_some]
    obtain ⟨s₁, hs₁⟩ := Option.isSome_iff_exists.mp (findPid_isSome
      ({ s with procs_in_use := s.procs_in_use + 1 }.set rmc fun _ => childOf who (s.mproc who)) rmc)
    dsimp only
    rw [hs₁]
    rfl

/-- An exit comes to an end. -/
theorem mmExit_isSome (s : MState) (rmp : ProcNr) (exit_status : ℤ) :
    (mmExit s rmp exit_status).isSome = true := by
  unfold mmExit endProc
  rw [Option.isSome_map]
  split_ifs
  · exact cleanup_isSome _ rmp
  · rfl

/-- A wait comes to an end. -/
theorem waitFrom_isSome (l : List ProcNr) (children : ℕ) :
    (waitFrom who l children s).isSome = true := by
  induction l generalizing children with
  | nil =>
    unfold waitFrom
    split_ifs <;> rfl
  | cons rp l ih =>
    unfold waitFrom
    split_ifs
    · rw [Option.isSome_map]
      exact cleanup_isSome s rp
    · rfl
    · exact ih _
    · exact ih _

/-- The delivery of a signal comes to an end. -/
theorem sigProc_isSome (s : MState) (rmp : ProcNr) (sig_nr : ℕ) :
    (sigProc k s rmp sig_nr).isSome = true := by
  have hkill : ∀ s, (killProc k s rmp sig_nr).isSome = true := fun s => mmExit_isSome _ rmp 0
  unfold sigProc
  split_ifs
  · rfl
  · rfl
  · dsimp only
    split_ifs
    · rfl
    · exact hkill _
  · exact hkill s

/-- The loop of `check_sig` comes to an end. -/
theorem checkSigFrom_isSome {proc_id : ℤ} {sig_nr send_uid : ℕ} (l : List ProcNr) (count : ℕ)
    (s : MState) : (checkSigFrom k mp proc_id sig_nr send_uid l count s).isSome = true := by
  induction l generalizing count s with
  | nil => rfl
  | cons rmp l ih =>
    have hturn : (checkSigProc k mp proc_id sig_nr send_uid s rmp).isSome = true := by
      unfold checkSigProc
      dsimp only
      split_ifs
      · rfl
      · rfl
      · rfl
      · rfl
      · rw [Option.isSome_map]
        exact sigProc_isSome _ rmp sig_nr
    obtain ⟨⟨visit, s₁⟩, hs₁⟩ := Option.isSome_iff_exists.mp hturn
    unfold checkSigFrom
    rw [hs₁, Option.bind_eq_bind, Option.bind_some]
    cases visit with
    | skipped => exact ih count s₁
    | ignored => exact ih (count + 1) s₁
    | sent =>
      dsimp only
      split_ifs
      · rfl
      · exact ih (count + 1) s₁

theorem checkSig_isSome (s : MState) (mp : ProcNr) (proc_id sig_nr : ℤ) (send_uid : ℕ) :
    (checkSig k s mp proc_id sig_nr send_uid).isSome = true := by
  unfold checkSig
  split_ifs
  · rfl
  · obtain ⟨p, hp⟩ := Option.isSome_iff_exists.mp (checkSigFrom_isSome (k := k) userProcs 0 s)
    rw [hp]
    rfl

/-- The signals of the kernel come to an end. -/
theorem doKsig_isSome (s : MState) (proc_nr : ProcNr) (sig_map : ℕ) :
    (doKsig k s proc_nr sig_map).isSome = true := by
  have hloop : ∀ proc_id l s, (ksigFrom k proc_id sig_map l s).isSome = true := by
    intro proc_id l
    induction l with
    | nil => exact fun s => rfl
    | cons j l ih =>
      intro s
      unfold ksigFrom
      split_ifs
      · obtain ⟨p, hp⟩ := Option.isSome_iff_exists.mp
          (checkSig_isSome (k := k) s MM_PROC_NR (ksigId proc_id j) j SUPER_USER)
        rw [hp]
        exact ih p.2
      · exact ih s
  have hstart : ∀ s, (ksigStart k s proc_nr sig_map).isSome = true := by
    intro s
    unfold ksigStart stackFault
    dsimp only
    split_ifs
    · rfl
    · exact sigProc_isSome _ proc_nr SIGSEGV
    · rfl
  unfold doKsig
  dsimp only
  split_ifs
  · rfl
  · obtain ⟨s₁, hs₁⟩ := Option.isSome_iff_exists.mp (hstart { s with dont_reply := true })
    rw [hs₁, Option.bind_eq_bind, Option.bind_some]
    obtain ⟨s₂, hs₂⟩ := Option.isSome_iff_exists.mp (hloop (s.mproc proc_nr).mp_pid ksigs s₁)
    rw [hs₂]
    rfl

/-- A request of a tracer comes to an end. -/
theorem doTrace_isSome (s : MState) (who : ProcNr) (request pid data : ℤ) :
    (doTrace k s who request pid data).isSome = true := by
  have hresume : ∀ s child, (traceResume k s child data).isSome = true := by
    intro s child
    unfold traceResume traceSig
    rw [Option.isSome_map]
    split_ifs
    · obtain ⟨s₁, hs₁⟩ := Option.isSome_iff_exists.mp (sigProc_isSome (k := k)
        (s.setFlags child fun f => { f with TRACED := false }) child data.toNat)
      rw [hs₁]
      rfl
    · rfl
  have hchild : ∀ child, (traceChild k s child request data).isSome = true := by
    intro child
    unfold traceChild
    split_ifs
    · rfl
    · rw [Option.isSome_map]
      exact mmExit_isSome s child data
    · rfl
    · rw [Option.isSome_map]
      exact hresume s child
    · rfl
  unfold doTrace
  split_ifs
  · rfl
  · cases findproc s pid with
    | none => rfl
    | some child => exact hchild child

/-- A turn of the main loop comes to an end. -/
theorem mmTurn_isSome (h : Counted s) (a : MmAction) : (mmTurn s a).isSome = true := by
  cases a with
  | ksig proc_nr sig_map k =>
    show (Option.map _ _).isSome = true
    rw [Option.isSome_map]
    exact doKsig_isSome _ proc_nr sig_map
  | call who c k =>
    show (Option.map _ _).isSome = true
    rw [Option.isSome_map]
    cases c with
    | fork => exact doFork_isSome h
    | exit status =>
      show (Option.map _ _).isSome = true
      rw [Option.isSome_map]
      exact mmExit_isSome _ who status
    | wait => exact waitFrom_isSome mprocs 0
    | kill pid kill_sig => exact checkSig_isSome _ who pid kill_sig _
    | trace request pid data => exact doTrace_isSome _ who request pid data
    | signal sig func => rfl
    | alarm seconds => rfl
    | pause => rfl
    | setuid usr_id => rfl

end Minix.Mm
