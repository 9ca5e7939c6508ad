import Minix.Kernel.Integrity
import Minix.Kernel.ShadowCalls
import Minix.Kernel.SignalRun

/-!
# What an exit leaves behind

`do_xit` takes the process that has exited off the queue of senders that it is on, wherever on it,
off its ready queue, and out of the count of processes with pending signals. The search for the
process goes on behind the queue in whose middle it was found, in vain, since nobody is on two
queues (`dropSender_spec`). The invariants hold afterwards with the process' message and its receive
taken back (`Rep.drop`).
-/

namespace Minix.Kernel

open Lib Lib.Rendezvous

/-- What is open without a process: its message and its receive are taken back. -/
def withdraw (A : Rendezvous.State Slot Addr ℤ) (rc : Slot) : Rendezvous.State Slot Addr ℤ where
  sent := Function.update A.sent rc none
  waiting d := (A.waiting d).erase rc
  opened := Function.update A.opened rc none

/-- The table represents a rendezvous. -/
def RendezvousOk (s : State) : Prop :=
  ∃ A, Rep s.p_flags s.p_sendlink s.p_callerq s.p_messbuf s.p_getfrom s.p_int_blocked A

/-- The processes with pending signals are counted. -/
def PendingCounted (s : State) : Prop :=
  s.sig_procs = (Finset.univ.filter fun p => (s.p_flags p).pending = true).card

/-- The members of the queue of senders to a process, in order. -/
def CallerQueue (s : State) (d : Slot) (l : List Slot) : Prop :=
  Chain s.p_sendlink (s.p_callerq d) l none

/-- The members of a ready queue, in order. -/
def OnReadyQueue (s : State) (q : Queue) (l : List Slot) : Prop :=
  Chain s.p_nextready (s.rdy_head q) l none

/-- `rmshadow` panics: the process has its image where its addresses are, and the first of those
that share it has no shadow, or one with a physical transfer. -/
def Unshadowable {γ : Type} (m : Machine γ) (p : Slot) : Prop :=
  m.k.p_shadow p = 0 ∧ ∃ q, userSlots.find? (sharesWith m.k p) = some q ∧
    (m.k.p_shadow q = 0 ∨ m.p_physio q = true)

/-- What an exit should do. -/
structure ExitOk (s s' : State) (rc : Slot) : Prop where
  free : s'.p_flags rc = SLOT_FREE
  /-- The process is on no queue of senders, and the others are there as they were. -/
  callers : ∀ d l, CallerQueue s d l → CallerQueue s' d (l.erase rc) ∧ rc ∉ l.erase rc
  /-- It is on no ready queue. -/
  unready : ∀ q l, OnReadyQueue s' q l → rc ∉ l
  pending : PendingCounted s'
  rendezvous : RendezvousOk s'
  ready : ReadyOk s'

variable {γ : Type} {s s' k k' : State} {m m' : Machine γ} {w : Slot → List Slot}
  {l : List Slot} {rc d x p parent : Slot} {flags : Slot → PFlags}
  {sendlink callerq sendlink' callerq' : Slot → Option Slot} {messbuf : Slot → Addr}
  {getfrom : Slot → ℤ} {intBlocked : Slot → Bool} {A : Rendezvous.State Slot Addr ℤ} {f : PFlags}
  {out : Slot → Prop}

/-! ## The queues of senders -/

/-- The loop goes past a queue that the process is not on. -/
theorem dropSender_skip (h : Chains s.p_sendlink s.p_callerq w) (hx : rc ∉ w x) :
    dropSender rc (x :: l) s = dropSender rc l s := by
  rw [dropSender]
  cases hq : s.p_callerq x with
  | none => rfl
  | some np =>
    have hchain := h.chain x
    rw [hq] at hchain
    have hne : np ≠ rc := by
      rintro rfl
      exact hx (List.mem_of_head? hchain.head?_eq)
    have hlen : (w x).length ≤ fuel := by
      have := h.length_le (q := x)
      rw [Fintype.card_fin] at this
      exact Nat.le_succ_of_le this
    simp only [if_neg hne, cellBefore_eq_none hchain hx hlen]

/-- The loop does nothing about a process that is on no queue. -/
theorem dropSender_absent (h : Chains s.p_sendlink s.p_callerq w) (hw : ∀ d, rc ∉ w d) :
    dropSender rc l s = some s := by
  induction l with
  | nil => rfl
  | cons x l ih => rw [dropSender_skip h (hw x), ih]

/-- Without a process that is on one queue, the others are the same. -/
theorem erase_eq_update (h : Chains sendlink callerq w) (hd : rc ∈ w d) :
    (fun e => (w e).erase rc) = Function.update w d ((w d).erase rc) := by
  funext e
  by_cases he : e = d
  · rw [he, Function.update_self]
  · rw [Function.update_of_ne he, List.erase_of_not_mem (h.notMem hd he)]

/-- The loop takes the process off the queue that it is on. -/
theorem dropSender_spec (h : Chains s.p_sendlink s.p_callerq w) (hd : rc ∈ w d) (hl : d ∈ l) :
    ∃ callerq sendlink,
      dropSender rc l s = some { s with p_callerq := callerq, p_sendlink := sendlink } ∧
      Chains sendlink callerq fun e => (w e).erase rc := by
  rw [erase_eq_update h hd]
  induction l with
  | nil => exact absurd hl List.not_mem_nil
  | cons x l ih =>
    by_cases hxd : x = d
    · subst hxd
      have hnd := h.nodup (q := x)
      have hchain := h.chain x
      have hlen := h.length_le (q := x)
      obtain ⟨a, b, hab⟩ := List.append_of_mem hd
      rw [hab, List.nodup_append] at hnd
      have hna : rc ∉ a := fun ha => hnd.2.2 rc ha rc List.mem_cons_self rfl
      rw [hab, List.erase_append_right _ hna, List.erase_cons_head]
      rw [hab] at hchain hlen
      rw [dropSender]
      rcases List.eq_nil_or_concat' a with rfl | ⟨c, t, rfl⟩
      · -- The process is on front of the queue, where the loop ends.
        have hhead : s.p_callerq x = some rc := hchain.head?_eq.symm
        rw [hhead]
        dsimp only
        rw [if_pos rfl]
        exact ⟨_, _, rfl, h.pop hab⟩
      · -- The process is in the middle, behind `t`.
        rw [List.append_assoc, List.singleton_append] at hab hchain hlen
        obtain ⟨np, hnp⟩ : ∃ np, s.p_callerq x = some np := by
          refine Option.ne_none_iff_exists'.mp fun hnone => ?_
          have := hchain.eq_nil_iff.mpr hnone
          simp at this
        have hne : np ≠ rc := by
          rintro rfl
          have hhead := hchain.head?_eq
          rw [hnp, ← List.singleton_append, ← List.append_assoc, List.head?_append] at hhead
          refine hna (List.mem_of_head? ?_)
          cases c with
          | nil => simpa using hhead
          | cons y c => simpa using hhead
        have hcl : c.length < fuel := by
          rw [List.length_append, Fintype.card_fin] at hlen
          exact Nat.lt_succ_of_le (Nat.le_of_add_right_le hlen)
        rw [hnp] at hchain
        have hunlink := h.unlink hab
        simp only [hnp, if_neg hne, cellBefore_eq hchain hcl]
        rw [List.append_assoc, List.singleton_append]
        -- It is on no other queue.
        refine ⟨_, _, dropSender_absent hunlink fun e he => ?_, hunlink⟩
        rcases eq_or_ne e x with rfl | hex
        · rw [Function.update_self] at he
          rcases List.mem_append.mp he with he | he
          · exact hna (List.mem_append_left _ he)
          · rcases List.mem_cons.mp he with rfl | he
            · exact hna (List.mem_append_right _ List.mem_cons_self)
            · exact (List.nodup_cons.mp hnd.2.1).1 he
        · rw [Function.update_of_ne hex] at he
          exact h.notMem hd hex he
    · rw [dropSender_skip h (h.notMem hd hxd)]
      exact ih (List.mem_of_ne_of_mem (Ne.symm hxd) hl)

/-- A process that sends is taken off the queue that it is on. -/
theorem unqueueSender_spec (h : Rep s.p_flags s.p_sendlink s.p_callerq s.p_messbuf s.p_getfrom
    s.p_int_blocked A) : ∃ callerq sendlink,
      unqueueSender s rc = some { s with p_callerq := callerq, p_sendlink := sendlink } ∧
      Chains sendlink callerq (withdraw A rc).waiting := by
  unfold unqueueSender
  by_cases hs : (s.p_flags rc).sending = true
  · rw [if_pos hs]
    rw [h.sending rc] at hs
    obtain ⟨⟨d, b⟩, hsent⟩ := Option.isSome_iff_exists.mp hs
    exact dropSender_spec h.chains ((h.wf.mem_iff rc d).mpr ⟨b, hsent⟩) (List.mem_finRange d)
  · rw [if_neg hs]
    have hnone := h.sent_eq_none (by simpa using hs)
    refine ⟨_, _, rfl, ?_⟩
    have hw : (withdraw A rc).waiting = A.waiting :=
      funext fun d => List.erase_of_not_mem (h.wf.notMem hnone d)
    rw [hw]
    exact h.chains

/-- A process that is gone leaves the rendezvous of the others. -/
theorem Rep.drop (h : Rep flags sendlink callerq messbuf getfrom intBlocked A)
    (hrc : rc ≠ hardwareSlot) (hfs : f.sending = false) (hfr : f.receiving = false)
    (hq : Chains sendlink' callerq' (withdraw A rc).waiting) :
    Rep (Function.update flags rc f) sendlink' callerq' messbuf getfrom intBlocked
      (withdraw A rc) := by
  have hsent : ∀ p v, (withdraw A rc).sent p = some v → p ≠ rc ∧ A.sent p = some v := by
    intro p v hv
    unfold withdraw at hv
    dsimp only at hv
    have hp : p ≠ rc := by
      rintro rfl
      rw [Function.update_self] at hv
      exact absurd hv (by simp)
    rw [Function.update_of_ne hp] at hv
    exact ⟨hp, hv⟩
  have hopen : ∀ p v, (withdraw A rc).opened p = some v → p ≠ rc ∧ A.opened p = some v := by
    intro p v hv
    unfold withdraw at hv
    dsimp only at hv
    have hp : p ≠ rc := by
      rintro rfl
      rw [Function.update_self] at hv
      exact absurd hv (by simp)
    rw [Function.update_of_ne hp] at hv
    exact ⟨hp, hv⟩
  have hmem : ∀ p d, p ∈ (withdraw A rc).waiting d ↔ p ≠ rc ∧ p ∈ A.waiting d :=
    fun p d => (h.wf.nodup d).mem_erase_iff
  constructor
  · exact hq
  · refine ⟨fun p d => ?_, fun d => (h.wf.nodup d).erase rc⟩
    rw [hmem, h.wf.mem_iff]
    constructor
    · rintro ⟨hp, b, hb⟩
      refine ⟨b, ?_⟩
      unfold withdraw
      dsimp only
      rw [Function.update_of_ne hp]
      exact hb
    · rintro ⟨b, hb⟩
      obtain ⟨hp, hb⟩ := hsent p _ hb
      exact ⟨hp, b, hb⟩
  · intro p
    unfold withdraw
    dsimp only
    by_cases hp : p = rc
    · rw [hp, Function.update_self, Function.update_self]
      exact hfs
    · rw [Function.update_of_ne hp, Function.update_of_ne hp]
      exact h.sending p
  · intro p
    unfold withdraw
    dsimp only
    by_cases hp : p = rc
    · rw [hp, Function.update_self, Function.update_self]
      exact hfr
    · rw [Function.update_of_ne hp, Function.update_of_ne hp]
      exact h.receiving p
  · exact fun p d b hb => h.sentBuf p d b (hsent p _ hb).2
  · exact fun p src b hb => h.openBuf p src b (hopen p _ hb).2
  · intro p src b hb hp
    obtain ⟨hne, hb⟩ := hopen p _ hb
    unfold withdraw at hp
    dsimp only at hp
    rw [Function.update_of_ne hne] at hp
    obtain ⟨hwait, hint⟩ := h.settled p src b hb hp
    exact ⟨fun x hx => hwait x ((hmem x p).mp hx).2, hint⟩
  · exact fun p q hne hp hq => h.noCross p q hne ((hmem p q).mp hp).2 ((hmem q p).mp hq).2
  · exact fun p d b src c hs ho => h.reply p d b src c (hsent p _ hs).2 (hopen p _ ho).2
  · rw [Function.update_of_ne (Ne.symm hrc)]
    exact h.hardware

/-! ## The ready queues -/

/-- `rmshadow` changes shadows and ready queues, or panics. -/
theorem rmshadow_cases (hO : OkBut m.k out) (hp : out p) (hout : ∀ x, out x → x = p) :
    rmshadow m p = none ∧ Unshadowable m p ∨ ∃ blk m' shadow, rmshadow m p = some (blk, m') ∧
      Resched { m.k with p_shadow := shadow } m'.k ∧ OkBut m'.k out := by
  unfold rmshadow
  dsimp only
  by_cases hs : m.k.p_shadow p ≠ 0
  · rw [if_pos hs]
    exact Or.inr ⟨_, _, _, rfl, Resched.refl _, hO.setShadow (Or.inl hp) 0⟩
  · rw [if_neg hs]
    cases hf : userSlots.find? (sharesWith m.k p) with
    | none => exact Or.inr ⟨_, _, m.k.p_shadow, rfl, Resched.refl _, hO⟩
    | some q =>
      dsimp only
      by_cases hpanic : (decide (m.k.p_shadow q = 0) || m.p_physio q) = true
      · rw [if_pos hpanic]
        refine Or.inl ⟨rfl, not_not.mp hs, q, hf, ?_⟩
        rwa [Bool.or_eq_true, decide_eq_true_eq] at hpanic
      · rw [if_neg hpanic]
        have hheir := heir_find (m := m) (p := p)
        rw [hf] at hheir
        have hqp : ¬out q := fun ho => hheir.2.1 (hout q ho)
        obtain ⟨k₁, k₂, h₁, h₂, hre, hO₂⟩ := requeue_spec hO hqp 0
        rw [h₁, Option.bind_eq_bind, Option.bind_some, h₂, Option.bind_some]
        exact Or.inr ⟨_, _, _, rfl, hre, hO₂⟩

/-- The number of processes with pending signals goes down with one that has them. -/
theorem PendingCounted.xitEnd (h : PendingCounted s) (rc : Slot) :
    PendingCounted (xitEnd s rc) := by
  unfold PendingCounted Kernel.xitEnd at *
  dsimp only
  have hupdate : ∀ p, (Function.update s.p_flags rc SLOT_FREE p).pending =
      Function.update (fun p => (s.p_flags p).pending) rc false p := by
    intro p
    by_cases hp : p = rc
    · rw [hp, Function.update_self, Function.update_self]
      rfl
    · rw [Function.update_of_ne hp, Function.update_of_ne hp]
  have hset : (Finset.univ.filter fun p =>
      (Function.update s.p_flags rc { PFlags.zero with slotFree := true } p).pending = true) =
      Finset.univ.filter fun p =>
        Function.update (fun p => (s.p_flags p).pending) rc false p = true :=
    Finset.filter_congr fun p _ => by rw [← hupdate p]; rfl
  rw [hset]
  by_cases hpend : (s.p_flags rc).pending = true
  · have hcard := card_clear (f := fun p => (s.p_flags p).pending) hpend
    rw [if_pos hpend, h]
    omega
  · rw [if_neg hpend, h]
    have hsame : Function.update (fun p => (s.p_flags p).pending) rc false =
        fun p => (s.p_flags p).pending := by
      rw [Function.update_eq_self_iff]
      exact (Bool.eq_false_iff.mpr hpend).symm
    rw [hsame]

/-- The tests of `rmshadow` do not look at the queues. -/
theorem Unshadowable.of_resched (h : Unshadowable { m with k := k' } p) (hre : Resched m.k k') :
    Unshadowable m p := by
  obtain ⟨_, _, _, _, _, rfl⟩ := hre
  exact h

/-- A process with a flag is on no ready queue. -/
theorem ReadyOk.notMem (h : ReadyOk s) (hp : s.p_flags p ≠ PFlags.zero) {q : Queue}
    (hl : OnReadyQueue s q l) : p ∉ l := by
  obtain ⟨rq, hrq⟩ := h
  obtain rfl : l = rq q := Chain.unique hl (hrq.queues.chains.chain q)
  exact fun hm => hp (hrq.zero q p hm)

/-! ## `do_xit` -/

/-- For every process that exits, whatever its flags and wherever it is queued, `do_xit` leaves the
queues, the signals and the invariants in order, unless `rmshadow` panics. -/
theorem do_xit (hrep : RendezvousOk m.k) (hready : ReadyOk m.k) (hcount : PendingCounted m.k)
    (hlive : m.live rc = true) (hparent : isoksusern parent = true) :
    doXit m parent rc = none ∧ Unshadowable m rc ∨
      ∃ block m', doXit m parent rc = some (OK, some block, m') ∧ ExitOk m.k m'.k rc := by
  obtain ⟨A, hrep⟩ := hrep
  have huser : isuserp rc = true := (Machine.live_iff.mp hlive).1
  have hhw : rc ≠ hardwareSlot := (isuserp_ne huser).2.1
  have hok : (!isoksusern parent || !isoksusern rc) = false := by
    rw [hparent, isuserp_isoksusern huser]
    rfl
  unfold doXit
  rw [hok]
  obtain ⟨k₁, h₁, hre₁, hO₁⟩ := hready.but.unreadyIf rc
  have hO₁ : OkBut k₁ fun x => x = rc := hO₁.iff fun x => by simp
  rw [if_neg Bool.false_ne_true, h₁, Option.bind_eq_bind, Option.bind_some]
  rcases rmshadow_cases (m := { m with k := k₁ }) hO₁ rfl fun x hx => hx with
    ⟨hnone, hun⟩ | ⟨blk, m₂, shadow, h₂, hre₂, hO₂⟩
  · rw [hnone]
    exact Or.inl ⟨rfl, hun.of_resched hre₁⟩
  · right
    rw [h₂, Option.bind_eq_bind, Option.bind_some]
    dsimp only
    have hrep₂ : Rep m₂.k.p_flags m₂.k.p_sendlink m₂.k.p_callerq m₂.k.p_messbuf m₂.k.p_getfrom
        m₂.k.p_int_blocked A := by
      obtain ⟨_, _, _, _, _, rfl⟩ := hre₁
      obtain ⟨_, _, _, _, _, hk⟩ := hre₂
      rw [hk]
      exact hrep
    have hcount₂ : PendingCounted m₂.k := by
      obtain ⟨_, _, _, _, _, rfl⟩ := hre₁
      obtain ⟨_, _, _, _, _, hk⟩ := hre₂
      rw [hk]
      exact hcount
    obtain ⟨callerq, sendlink, h₃, hchains⟩ := @unqueueSender_spec _ rc _ hrep₂
    rw [h₃, Option.bind_some]
    have hready' := hO₂.xitEnd callerq sendlink
    refine ⟨blk, _, rfl, ?_, ?_, ?_, ?_, ?_, hready'⟩
    · exact Function.update_self ..
    · intro d l hl
      obtain rfl : l = A.waiting d := Chain.unique hl (hrep.chains.chain d)
      exact ⟨hchains.chain d, (hrep.wf.nodup d).not_mem_erase⟩
    · intro q l hl
      refine hready'.notMem ?_ hl
      show Function.update m₂.k.p_flags rc SLOT_FREE rc ≠ _
      rw [Function.update_self]
      decide
    · exact PendingCounted.xitEnd hcount₂ rc
    · exact ⟨_, hrep₂.drop hhw rfl rfl hchains⟩

/-- Calls by the processes that run, one after the other. -/
def calls : List (Call × ℤ) → State → Option State
  | [], s => some s
  | (c, n) :: l, s =>
    if isidlehardware s.proc_ptr then none else (sysCall s c n 0).bind fun r => calls l r.2

/-- Calls in a run. -/
theorem reachable_calls {l : List (Call × ℤ)} (h : Reachable Boot Step s)
    (hc : calls l s = some s') : Reachable Boot Step s' := by
  induction l generalizing s with
  | nil =>
    obtain rfl := Option.some.inj hc
    exact h
  | cons c l ih =>
    obtain ⟨c, n⟩ := c
    unfold calls at hc
    split_ifs at hc with hp
    obtain ⟨⟨r, s₁⟩, h₁, hc⟩ := Option.bind_eq_some_iff.mp hc
    exact ih (h.of_step (Step.sysCall (Bool.eq_false_iff.mpr hp) h₁)) hc

/-- The tasks receive, the memory manager waits for the file system, and that receives. Then the
first user is queued to send to the memory manager. -/
def untilQueued : List (Call × ℤ) :=
  List.replicate 7 (.RECEIVE, ANY) ++
    [(.BOTH, 1), (.RECEIVE, ANY), (.RECEIVE, ANY), (.BOTH, MM_PROC_NR)]

/-- The first user exits while it is queued. -/
theorem do_xit_queued : ∃ m m' : Machine ℕ, ∃ block, CallerQueue m.k mmSlot [initSlot] ∧
    doXit m mmSlot initSlot = some (OK, some block, m') ∧ ExitOk m.k m'.k initSlot := by
  have hu : (bootSlots ++ []).Nodup := by decide
  obtain ⟨s, hs, -⟩ := main_spec loadedState hu
  have hrun : ((main loadedState []).bind fun s => (calls untilQueued s).map fun s =>
      (s.p_callerq mmSlot, s.p_sendlink initSlot, s.sig_procs,
        decide (∀ p, (s.p_flags p).pending = false), (s.p_flags initSlot).slotFree,
        (userSlots.find? (sharesWith s initSlot)).isSome)) =
      some (some initSlot, none, 0, true, false, false) := by
    decide +kernel
  rw [hs, Option.bind_some] at hrun
  obtain ⟨k, hk, hrun⟩ := Option.map_eq_some_iff.mp hrun
  simp only [Prod.mk.injEq, decide_eq_true_eq] at hrun
  obtain ⟨hhead, hlink, hsig, hpend, hfree, hshare⟩ := hrun
  have hb : Boot s := ⟨loadedState, [], hu, hs⟩
  have hinv := reachable_inv (reachable_calls (Reachable.of_init hb) hk)
  let m : Machine ℕ := ⟨k, fun _ => ⟨0, 0, 1⟩, fun _ => ⟨0, 0, 1⟩, fun _ => false, 0, fun _ => 0⟩
  have hcount : PendingCounted m.k := by
    unfold PendingCounted
    simp [m, hsig, hpend]
  have hlive : m.live initSlot = true := Machine.live_iff.mpr ⟨by decide, hfree⟩
  have hparent : isoksusern mmSlot = true := by decide
  rcases do_xit ⟨_, hinv.ipc.2⟩ hinv.sched.ready hcount hlive hparent with
    ⟨-, -, q, hq, -⟩ | ⟨block, m', h, hok⟩
  · rw [show m.k = k from rfl] at hq
    rw [hq] at hshare
    exact Bool.noConfusion hshare
  · exact ⟨m, m', block, ⟨hhead, hlink⟩, h, hok⟩

end Minix.Kernel
