import Mathlib.Data.Finset.Card
import Mathlib.Algebra.Order.Interval.Finset.SuccPred
import Mathlib.Data.Nat.SuccPred
import Mathlib.Order.Interval.Finset.Nat
import Minix.Kernel.SchedInv

/-!
# What the kernel knows of signals

`Signals` is the part of the kernel's state that counts signals: who has `PENDING` and
`SIG_PENDING`, `p_pending`, `p_pendcount` and `sig_procs`, and the maps that the memory manager was
sent, which are read off the messages that the hardware's entry has sent it. `cause`, `tell` and
`settle` are the three things that happen to it, and each function of `kernel/system.c` that has to
do with signals is one or two of them. `Calm` is what every other function keeps.

`signalsFrom map i` is the number of signals of a map from its bit `i` on, the unit of all counting.
-/

namespace Minix.Kernel

open Lib Lib.Rendezvous

/-! ## Counting the signals of a map -/

/-- The bit of a signal in a map. -/
def sigBit (sig_nr : ℕ) : BitVec 16 := BitVec.ofNat 16 (2 ^ (sig_nr - 1))

/-- A map that has a stack fault and nothing else. -/
def STKFLT_MAP : BitVec 16 := BitVec.ofNat 16 (2 ^ (SIGSTKFLT - 1))

/-- How many signals a map has from bit `i` on. -/
def signalsFrom (map : BitVec 16) (i : ℕ) : ℕ :=
  ((Finset.Ico i 16).filter fun j => map.getLsbD j = true).card

section Maps

variable {map : BitVec 16} {i sig_nr : ℕ}

/-- The bits of a signal's map. -/
theorem getLsbD_sigBit {j : ℕ} (hj : j < 16) :
    (sigBit sig_nr).getLsbD j = decide (sig_nr - 1 = j) := by
  unfold sigBit
  rw [BitVec.getLsbD_ofNat, Nat.testBit_two_pow]
  simp [hj]

/-- The test of `cause_sig` is whether the signal is in the map. -/
theorem and_sigBit (h : sig_nr - 1 < 16) :
    map &&& sigBit sig_nr ≠ 0 ↔ map.getLsbD (sig_nr - 1) = true := by
  constructor
  · intro hne
    by_contra hb
    apply hne
    refine BitVec.eq_of_getLsbD_eq fun j hj => ?_
    rw [BitVec.getLsbD_and, getLsbD_sigBit hj]
    by_cases hs : sig_nr - 1 = j
    · rw [← hs, Bool.not_eq_true _ |>.mp hb]
      simp
    · simp [hs]
  · intro hb he
    have := congrArg (BitVec.getLsbD · (sig_nr - 1)) he
    simp only [BitVec.getLsbD_and, getLsbD_sigBit h, hb] at this
    simp at this

/-- No signal is in an empty map. -/
@[simp]
theorem signalsFrom_zero (i : ℕ) : signalsFrom 0 i = 0 := by
  unfold signalsFrom
  simp

/-- A map without signals is empty. -/
theorem eq_zero_of_signalsFrom (h : signalsFrom map 0 = 0) : map = 0 := by
  unfold signalsFrom at h
  rw [Finset.card_eq_zero, Finset.filter_eq_empty_iff] at h
  refine BitVec.eq_of_getLsbD_eq fun j hj => ?_
  have := h (Finset.mem_Ico.mpr ⟨Nat.zero_le j, hj⟩)
  simpa using this

/-- One more signal counts one. -/
theorem signalsFrom_or (h : sig_nr - 1 < 16) (hb : map.getLsbD (sig_nr - 1) = false) :
    signalsFrom (map ||| sigBit sig_nr) 0 = signalsFrom map 0 + 1 := by
  unfold signalsFrom
  have hins : ((Finset.Ico 0 16).filter fun j => (map ||| sigBit sig_nr).getLsbD j = true) =
      insert (sig_nr - 1) ((Finset.Ico 0 16).filter fun j => map.getLsbD j = true) := by
    ext j
    simp only [Finset.mem_filter, Finset.mem_Ico, Finset.mem_insert, BitVec.getLsbD_or,
      Bool.or_eq_true]
    constructor
    · rintro ⟨hj, hm | hs⟩
      · exact Or.inr ⟨hj, hm⟩
      · rw [getLsbD_sigBit hj.2, decide_eq_true_eq] at hs
        exact Or.inl hs.symm
    · rintro (rfl | ⟨hj, hm⟩)
      · refine ⟨⟨Nat.zero_le _, h⟩, Or.inr ?_⟩
        rw [getLsbD_sigBit h, decide_eq_true_eq]
      · exact ⟨hj, Or.inl hm⟩
  rw [hins, Finset.card_insert_of_notMem]
  simp [hb]

/-- The first of the signals left is there or not. -/
theorem signalsFrom_succ (hi : i < 16) :
    signalsFrom map i = signalsFrom map (i + 1) + if map.getLsbD i then 1 else 0 := by
  unfold signalsFrom
  rw [← Finset.insert_Ico_add_one_left_eq_Ico hi, Finset.filter_insert]
  split_ifs
  · rw [Finset.card_insert_of_notMem]
    simp
  · rfl

end Maps

/-! ## The part of the state that counts signals -/

/-- The part of the kernel's state that counts signals. -/
structure Signals where
  pending : Slot → Bool
  sigPending : Slot → Bool
  map : Slot → BitVec 16
  count : Slot → ℕ
  procs : ℤ
  /-- The numbers and the maps that the memory manager was sent. -/
  sent : List (ℤ × BitVec 16)

/-- The signal map that a message to the memory manager carries: `PROC1` and `SIG_MAP`, which it
takes as an `unshort`. -/
def ksigOf : Event → Option (ℤ × BitVec 16)
  | .copy x _ d _ mess =>
    if x = hardwareSlot ∧ d = mmSlot then some (mess.m_u 0, BitVec.ofInt 16 (mess.m_u 1)) else none
  | _ => none

/-- What the kernel knows of signals. -/
def signalsOf (s : State) : Signals where
  pending p := (s.p_flags p).pending
  sigPending p := (s.p_flags p).sigPending
  map := s.p_pending
  count := s.p_pendcount
  procs := s.sig_procs
  sent := s.log.filterMap ksigOf

/-- A signal that is not pending for `p` is pending from now on. -/
def Signals.cause (v : Signals) (p : Slot) (sig_nr : ℕ) : Signals :=
  { v with
    pending := Function.update v.pending p true
    sigPending := if v.pending p then v.sigPending else Function.update v.sigPending p true
    map := Function.update v.map p (v.map p ||| sigBit sig_nr)
    count := Function.update v.count p (v.count p + 1)
    procs := if v.pending p then v.procs else v.procs + 1 }

/-- One signal of `p` is done with. -/
def Signals.settle (v : Signals) (p : Slot) : Signals :=
  if v.count p = 0 then v
  else { v with
    count := Function.update v.count p (v.count p - 1)
    sigPending := if v.count p = 1 then Function.update v.sigPending p false else v.sigPending }

/-- The memory manager is told about the signals of `p`, and a stack fault alone is done with. -/
def Signals.tell (v : Signals) (p : Slot) : Signals :=
  let w := { v with
    pending := Function.update v.pending p false
    map := Function.update v.map p 0
    procs := v.procs - 1
    sent := v.sent ++ [(procNumber p, v.map p)] }
  if v.map p = STKFLT_MAP then w.settle p else w

/-- What a function keeps that has nothing to do with signals. -/
structure Calm (s s' : State) : Prop where
  signals : signalsOf s' = signalsOf s
  free : ∀ p, (s'.p_flags p).slotFree = (s.p_flags p).slotFree
  shadow : s'.p_shadow = s.p_shadow

variable {s s' s'' : State} {caller dest p x rp : Slot} {n src r : ℤ} {m_ptr : Addr} {sig_nr : ℕ}
  {f : PFlags} {previous : Option Slot} {e : Event} {map : BitVec 16}

theorem Calm.refl (s : State) : Calm s s := ⟨rfl, fun _ => rfl, rfl⟩

theorem Calm.trans (h : Calm s s') (h' : Calm s' s'') : Calm s s'' :=
  ⟨h'.signals.trans h.signals, fun p => (h'.free p).trans (h.free p), h'.shadow.trans h.shadow⟩

/-- Calm is what changes none of these fields. -/
theorem Calm.of_eq (hf : s'.p_flags = s.p_flags) (hp : s'.p_pending = s.p_pending)
    (hc : s'.p_pendcount = s.p_pendcount) (hs : s'.sig_procs = s.sig_procs) (hl : s'.log = s.log)
    (hsh : s'.p_shadow = s.p_shadow) : Calm s s' := by
  refine ⟨?_, fun p => by rw [hf], hsh⟩
  unfold signalsOf
  rw [hf, hp, hc, hs, hl]

/-- Flags of one process may change that are not about signals. -/
theorem Reflagged.calm (h : Reflagged s rp f s') (hp : f.pending = (s.p_flags rp).pending)
    (hs : f.sigPending = (s.p_flags rp).sigPending) (hf : f.slotFree = (s.p_flags rp).slotFree) :
    Calm s s' := by
  have hflag : ∀ {g : PFlags → Bool}, g f = g (s.p_flags rp) → ∀ p,
      g (Function.update s.p_flags rp f p) = g (s.p_flags p) := by
    intro g hg p
    by_cases hpr : p = rp
    · rw [hpr, Function.update_self, hg]
    · rw [Function.update_of_ne hpr]
  obtain ⟨_, _, _, _, _, rfl⟩ := h
  refine ⟨?_, hflag hf, rfl⟩
  unfold signalsOf
  simp only [Signals.mk.injEq, and_true]
  exact ⟨funext (hflag hp), funext (hflag hs)⟩

/-! ## The functions that have nothing to do with signals -/

/-! ## The functions of signals -/

/-- Handle `sys_sig(proc_nr, -1)`: the memory manager has finished one signal. -/
def doSigDone (s : State) (rp : Slot) : Option State :=
  if s.p_pendcount rp ≠ 0 then
    let s := { s with
      p_pendcount := Function.update s.p_pendcount rp (s.p_pendcount rp - 1) }
    if s.p_pendcount rp = 0 then unblock s rp SIG_PENDING else some s
  else some s

/-- The end of `do_xit`: the slot of the process is free. -/
def xitEnd (s : State) (rc : Slot) : State :=
  { s with
    sig_procs := if (s.p_flags rc).pending then s.sig_procs - 1 else s.sig_procs
    p_pending := Function.update s.p_pending rc 0
    p_pendcount := Function.update s.p_pendcount rc 0
    p_flags := Function.update s.p_flags rc { PFlags.zero with slotFree := true } }

/-- `inform` does for a stack fault alone what the memory manager asks for after other signals. -/
theorem stkfltDone_eq : stkfltDone s rp map = if map = STKFLT_MAP then doSigDone s rp else some s := by
  unfold stkfltDone doSigDone STKFLT_MAP
  by_cases hm : map = BitVec.ofNat 16 (2 ^ (SIGSTKFLT - 1))
  · simp only [hm, true_and, if_true]
  · simp only [hm, false_and, if_false]

/-- The memory manager has finished one signal. -/
theorem doSigDone_signals (h : doSigDone s rp = some s') :
    signalsOf s' = (signalsOf s).settle rp ∧
      (∀ p, (s'.p_flags p).slotFree = (s.p_flags p).slotFree) ∧ s'.p_shadow = s.p_shadow := by
  unfold doSigDone at h
  unfold Signals.settle
  by_cases h0 : s.p_pendcount rp = 0
  · rw [if_neg (by simp [h0])] at h
    obtain rfl := Option.some.inj h
    rw [if_pos (by exact h0)]
    exact ⟨rfl, fun _ => rfl, rfl⟩
  · rw [if_pos h0] at h
    rw [if_neg (by exact h0)]
    simp only [Function.update_self] at h
    by_cases h1 : s.p_pendcount rp = 1
    · -- The last one: the process is not inhibited any more.
      rw [if_pos (by omega)] at h
      obtain ⟨_, _, _, _, _, rfl⟩ := unblock_reflagged h
      have hflag : ∀ p, Function.update s.p_flags rp ((s.p_flags rp).clear SIG_PENDING) p =
          if p = rp then (s.p_flags rp).clear SIG_PENDING else s.p_flags p := fun p =>
        Function.update_apply ..
      rw [if_pos (by exact h1)]
      refine ⟨?_, fun p => ?_, rfl⟩
      · unfold signalsOf
        simp only [Signals.mk.injEq, and_true, hflag]
        refine ⟨funext fun p => ?_, funext fun p => ?_⟩
        · split_ifs with hp
          · simp [hp, PFlags.clear, SIG_PENDING, PFlags.zero]
          · rfl
        · rw [Function.update_apply]
          split_ifs with hp
          · simp [PFlags.clear, SIG_PENDING]
          · rfl
      · simp only [hflag]
        split_ifs with hp
        · simp [hp, PFlags.clear, SIG_PENDING, PFlags.zero]
        · rfl
    · rw [if_neg (by omega)] at h
      obtain rfl := Option.some.inj h
      rw [if_neg (by exact h1)]
      exact ⟨rfl, fun _ => rfl, rfl⟩

/-- The memory manager waits for new input. -/
def MmWaits (s : State) : Prop :=
  (s.p_flags mmSlot).receiving = true ∧ (s.p_flags mmSlot).sending = false ∧
    s.p_getfrom mmSlot = ANY

/-- The message that `inform` sends carries the number of the process and its signals. -/
theorem ksigOf_inform (s₀ : State) (hsh : s.p_shadow hardwareSlot = 0)
    (hmem : s₀.mem = (fillInform s rp).mem) (hp : s₀.p_shadow = s.p_shadow) (b : Addr) :
    ksigOf (.copy hardwareSlot s.sys_m mmSlot b
      { s₀.mem (physMess s₀ hardwareSlot s.sys_m) with m_source := procNumber hardwareSlot }) =
      some (procNumber rp, s.p_pending rp) := by
  have ha : physMess s₀ hardwareSlot s.sys_m = s.sys_m % 2 ^ 24 := by
    unfold physMess
    rw [hp, hsh]
    rfl
  have hget : s₀.mem (s.sys_m % 2 ^ 24) = { s.mem (s.sys_m % 2 ^ 24) with
      m_type := KSIG
      m_u := Function.update (Function.update (s.mem (s.sys_m % 2 ^ 24)).m_u 0 (procNumber rp)) 1
        (s.p_pending rp).toInt } := by
    rw [hmem]
    exact Function.update_self ..
  unfold ksigOf
  rw [ha, hget]
  simp

/-- Two events of which only the second is such a message. -/
theorem filterMap_concat₂ {log : List Event} {e e' : Event} {k : ℤ × BitVec 16}
    (he : ksigOf e = none) (he' : ksigOf e' = some k) :
    (log ++ [e] ++ [e']).filterMap ksigOf = log.filterMap ksigOf ++ [k] := by
  simp [List.filterMap_append, he, he']

/-- When the memory manager waits, it takes the message of `inform` at once. -/
theorem informSend_signals (hsh : s.p_shadow hardwareSlot = 0) (hmm : MmWaits s)
    (h : miniSend (fillInform s rp) hardwareSlot MM_PROC_NR s.sys_m = some (OK, s')) :
    signalsOf s' = { signalsOf s with
        procs := s.sig_procs - 1
        sent := (signalsOf s).sent ++ [(procNumber rp, s.p_pending rp)] } ∧
      (∀ p, (s'.p_flags p).slotFree = (s.p_flags p).slotFree) ∧ s'.p_shadow = s.p_shadow := by
  obtain ⟨hrec, hsend, hget⟩ := hmm
  rcases miniSend_cases h with ⟨he, -⟩ | ⟨dest, hd, -, -, hs⟩
  · exact absurd rfl he
  have hn : MM_PROC_NR = procNumber mmSlot := by decide
  rw [hn, procNumber_inj] at hd
  subst hd
  have hw : waitingFor (fillInform s rp) mmSlot hardwareSlot = true := by
    have hwait : waitingFor (fillInform s rp) mmSlot hardwareSlot =
        ((s.p_flags mmSlot).receiving && !(s.p_flags mmSlot).sending &&
          (s.p_getfrom mmSlot == ANY || s.p_getfrom mmSlot == procNumber hardwareSlot)) := rfl
    rw [hwait, hrec, hsend, hget]
    simp
  rw [hw] at hs
  simp only [true_and, Bool.true_eq_false, false_and, or_false] at hs
  -- The message is handed over, and the memory manager is not waiting any more.
  have hc := (unblock_reflagged hs).calm (by simp [PFlags.clear, RECEIVING, PFlags.zero])
    (by simp [PFlags.clear, RECEIVING, PFlags.zero])
    (by simp [PFlags.clear, RECEIVING, PFlags.zero])
  refine ⟨hc.signals.trans ?_, hc.free, hc.shadow⟩
  refine Signals.mk.injEq .. |>.mpr ⟨rfl, rfl, rfl, rfl, rfl, ?_⟩
  refine (filterMap_concat₂ (e := .send hardwareSlot mmSlot s.sys_m) rfl ?_)
  exact ksigOf_inform _ hsh rfl rfl (s.p_messbuf mmSlot)

/-- The end of `inform`: nothing is pending for the process, and a stack fault alone is done with.
-/
theorem informed_signals (h : informed s rp = some s') :
    signalsOf s' = (let w := { signalsOf s with
          pending := Function.update (signalsOf s).pending rp false
          map := Function.update s.p_pending rp 0 }
        if s.p_pending rp = STKFLT_MAP then w.settle rp else w) ∧
      (∀ p, (s'.p_flags p).slotFree = (s.p_flags p).slotFree) ∧ s'.p_shadow = s.p_shadow := by
  unfold informed at h
  dsimp only at h
  obtain ⟨s₂, h₂, h⟩ := Option.bind_eq_some_iff.mp h
  obtain rfl := Option.some.inj h
  have hpick : Calm s₂ (pickProc s₂) := by
    obtain ⟨_, _, he⟩ := pickProc_eq s₂
    rw [he]
    exact Calm.of_eq rfl rfl rfl rfl rfl rfl
  generalize hs₁ : State.setFlags { s with p_pending := Function.update s.p_pending rp 0 } rp
    ((s.p_flags rp).clear PENDING) = s₁ at h₂
  have hflag : ∀ p, s₁.p_flags p =
      if p = rp then (s.p_flags rp).clear PENDING else s.p_flags p := by
    intro p
    rw [← hs₁]
    exact Function.update_apply ..
  have hsig : signalsOf s₁ = { signalsOf s with
      pending := Function.update (signalsOf s).pending rp false
      map := Function.update s.p_pending rp 0 } := by
    unfold signalsOf
    simp only [hflag, Signals.mk.injEq]
    refine ⟨funext fun p => ?_, funext fun p => ?_, ?_⟩
    · rw [Function.update_apply]
      split_ifs
      · simp [PFlags.clear, PENDING]
      · rfl
    · split_ifs with hp
      · simp [hp, PFlags.clear, PENDING, PFlags.zero]
      · rfl
    · subst hs₁
      exact ⟨rfl, rfl, rfl, rfl⟩
  have hfree : ∀ p, (s₁.p_flags p).slotFree = (s.p_flags p).slotFree := by
    intro p
    rw [hflag]
    split_ifs with hp
    · simp [hp, PFlags.clear, PENDING, PFlags.zero]
    · rfl
  have hsh : s₁.p_shadow = s.p_shadow := by rw [← hs₁]; rfl
  rw [stkfltDone_eq] at h₂
  dsimp only
  rw [hpick.signals, ← hsig]
  split_ifs at h₂ ⊢ with hm
  · obtain ⟨hset, hf, hp⟩ := doSigDone_signals h₂
    exact ⟨hset, fun p => (hpick.free p).trans ((hf p).trans (hfree p)),
      hpick.shadow.trans (hp.trans hsh)⟩
  · obtain rfl := Option.some.inj h₂
    exact ⟨rfl, fun p => (hpick.free p).trans (hfree p), hpick.shadow.trans hsh⟩

/-- `inform` tells the memory manager, which waits, about the process that it finds, if any. -/
theorem inform_signals (hsh : s.p_shadow hardwareSlot = 0) (hmm : MmWaits s)
    (h : inform s = some s') :
    Calm s s' ∨ ∃ rp, (s.p_flags rp).pending = true ∧ signalsOf s' = (signalsOf s).tell rp ∧
      (∀ p, (s'.p_flags p).slotFree = (s.p_flags p).slotFree) ∧ s'.p_shadow = s.p_shadow := by
  unfold inform at h
  split at h
  · obtain rfl := Option.some.inj h
    exact Or.inl (Calm.refl s)
  · rename_i rp hrp
    obtain ⟨⟨r, s₁⟩, h₁, h₂⟩ := Option.bind_eq_some_iff.mp h
    dsimp only at h₂
    split_ifs at h₂ with hr
    subst hr
    obtain ⟨hsig₁, hfree₁, hsh₁⟩ := informSend_signals hsh hmm h₁
    obtain ⟨hsig₂, hfree₂, hsh₂⟩ := informed_signals h₂
    refine Or.inr ⟨rp, firstPending_pending hrp, ?_, fun p => (hfree₂ p).trans (hfree₁ p),
      hsh₂.trans hsh₁⟩
    have hmap : s₁.p_pending = s.p_pending := congrArg Signals.map hsig₁
    rw [hsig₂, hsig₁, hmap]
    rfl

/-- The first signal that is pending for a process: it is inhibited, and counted. -/
theorem causeFirst_signals {s₁ : State} (hp : (s.p_flags rp).pending = false)
    (h : Reflagged { s with
      p_pending := Function.update s.p_pending rp (s.p_pending rp ||| sigBit sig_nr)
      p_pendcount := Function.update s.p_pendcount rp (s.p_pendcount rp + 1) } rp
        ((s.p_flags rp).or (PENDING.or SIG_PENDING)) s₁) :
    signalsOf { s₁ with sig_procs := s₁.sig_procs + 1 } = (signalsOf s).cause rp sig_nr ∧
      (∀ p, (s₁.p_flags p).slotFree = (s.p_flags p).slotFree) ∧ s₁.p_shadow = s.p_shadow ∧
      s₁.p_getfrom = s.p_getfrom ∧
      ∀ p, (s₁.p_flags p).receiving = (s.p_flags p).receiving ∧
        (s₁.p_flags p).sending = (s.p_flags p).sending := by
  have hflag : ∀ p, Function.update s.p_flags rp ((s.p_flags rp).or (PENDING.or SIG_PENDING)) p =
      if p = rp then (s.p_flags rp).or (PENDING.or SIG_PENDING) else s.p_flags p := fun p =>
    Function.update_apply ..
  have hp' : ¬(signalsOf s).pending rp = true := by
    rw [Bool.not_eq_true]
    exact hp
  obtain ⟨_, _, _, _, _, rfl⟩ := h
  refine ⟨?_, fun p => ?_, rfl, rfl, fun p => ?_⟩
  · unfold Signals.cause
    rw [if_neg hp', if_neg hp']
    unfold signalsOf
    simp only [hflag, Signals.mk.injEq, and_true]
    refine ⟨funext fun p => ?_, funext fun p => ?_⟩
    · rw [Function.update_apply]
      split_ifs
      · simp [PFlags.or, PENDING]
      · rfl
    · rw [Function.update_apply]
      split_ifs
      · simp [PFlags.or, SIG_PENDING]
      · rfl
  · simp only [hflag]
    split_ifs with hpr
    · simp [hpr, PFlags.or, PENDING, SIG_PENDING, PFlags.zero]
    · rfl
  · simp only [hflag]
    split_ifs with hpr
    · simp [hpr, PFlags.or, PENDING, SIG_PENDING, PFlags.zero]
    · exact ⟨rfl, rfl⟩

/-- `cause_sig` makes a signal pending, unless it is, and may tell the memory manager. -/
theorem causeSig_signals (hsig : sig_nr - 1 < 16)
    (hmm : (s.p_flags mmSlot).receiving = true → s.p_getfrom mmSlot = ANY →
      (s.p_flags mmSlot).sending = false)
    (h : causeSig s rp sig_nr = some s') :
    s' = s ∨ ∃ s₁, (s.p_pending rp).getLsbD (sig_nr - 1) = false ∧
      signalsOf s₁ = (signalsOf s).cause rp sig_nr ∧
      (∀ p, (s₁.p_flags p).slotFree = (s.p_flags p).slotFree) ∧ s₁.p_shadow = s.p_shadow ∧
      (s' = s₁ ∨ MmWaits s₁ ∧ inform s₁ = some s') := by
  unfold causeSig at h
  dsimp only at h
  by_cases hbit : s.p_pending rp &&& sigBit sig_nr ≠ 0
  · rw [if_pos (by exact hbit)] at h
    exact Or.inl (Option.some.inj h).symm
  have hnew : (s.p_pending rp).getLsbD (sig_nr - 1) = false := by
    rw [← Bool.not_eq_true]
    exact mt (and_sigBit hsig).mpr hbit
  rw [if_neg (by exact hbit)] at h
  by_cases hpend : (s.p_flags rp).pending = true
  · -- Another signal is pending.
    rw [if_pos hpend] at h
    refine Or.inr ⟨s', hnew, ?_, ?_⟩
    · obtain rfl := Option.some.inj h
      have hp : (signalsOf s).pending rp = true := hpend
      unfold Signals.cause
      rw [if_pos hp, if_pos hp]
      refine Signals.mk.injEq .. |>.mpr ⟨?_, rfl, rfl, rfl, rfl, rfl⟩
      rw [← hp, Function.update_eq_self]
      rfl
    · obtain rfl := Option.some.inj h
      exact ⟨fun _ => rfl, rfl, Or.inl rfl⟩
  · rw [if_neg hpend] at h
    rw [Bool.not_eq_true] at hpend
    obtain ⟨s₁, hb, h⟩ := Option.bind_eq_some_iff.mp h
    obtain ⟨hcause, hfree, hsh, hget, hflags⟩ :=
      causeFirst_signals hpend (block_reflagged hb)
    refine Or.inr ⟨{ s₁ with sig_procs := s₁.sig_procs + 1 }, hnew, hcause, hfree, hsh, ?_⟩
    split_ifs at h with hw
    · exact Or.inl (Option.some.inj h).symm
    · refine Or.inr ⟨?_, h⟩
      simp only [Bool.not_eq_true, Bool.or_eq_false_iff, Bool.not_eq_false', bne_eq_false_iff_eq]
        at hw
      have hrec := (hflags mmSlot).1.symm.trans hw.1
      have hg := (congrFun hget mmSlot).symm.trans hw.2
      exact ⟨hw.1, (hflags mmSlot).2.trans (hmm hrec hg), hw.2⟩

/-- Freeing the slot of a process forgets its signals. -/
theorem xitEnd_signals (s : State) (rc : Slot) :
    signalsOf (xitEnd s rc) = { signalsOf s with
      pending := Function.update (signalsOf s).pending rc false
      sigPending := Function.update (signalsOf s).sigPending rc false
      map := Function.update s.p_pending rc 0
      count := Function.update s.p_pendcount rc 0
      procs := if (s.p_flags rc).pending then s.sig_procs - 1 else s.sig_procs } := by
  unfold signalsOf xitEnd
  simp only [Signals.mk.injEq, and_true]
  refine ⟨funext fun p => ?_, funext fun p => ?_⟩
  · simp only [Function.update_apply]
    split_ifs
    · rfl
    · rfl
  · simp only [Function.update_apply]
    split_ifs
    · rfl
    · rfl

end Minix.Kernel
