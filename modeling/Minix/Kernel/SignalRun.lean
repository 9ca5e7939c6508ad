import Minix.Kernel.Boot
import Minix.Kernel.Signals
import Minix.Lib.Run

/-!
# Runs with signals

The signals of the kernel are counted in two programs. `SigStep` is one step of either: `cause_sig`
or `inform` in the kernel, the end of a process, a turn of the loop of `do_ksig` in the memory
manager with its acknowledgement, or anything that has nothing to do with signals. The memory
manager takes the maps in the order in which they were sent.

`SigInv` counts exactly: `p_pendcount` is the number of signals that are pending, plus those in maps
that the memory manager has not finished, plus those that it will never acknowledge, since the loop
of `do_ksig` does not come to `SIGSTKFLT` and `inform` settles it only where it is alone in its map.
`ksig_accounting` is the consequence.
-/

namespace Minix.Kernel

open Lib

/-- One more than the last signal that the loop of `do_ksig` looks for. -/
def NSIG : ℕ := 16

/-- The kernel, and how far the memory manager has come with the maps that it was sent. -/
structure SigState where
  kernel : State
  /-- How many maps `do_ksig` has finished. -/
  seen : ℕ
  /-- The counter `i` of its loop over the next map. -/
  turn : ℕ

/-- The maps that the memory manager was sent, with the numbers of their processes. -/
def SigState.sent (m : SigState) : List (ℤ × BitVec 16) := (signalsOf m.kernel).sent

/-- The slot of a process is in use. -/
def Alive (s : State) (p : Slot) : Prop := (s.p_flags p).slotFree = false

/-- The steps. -/
inductive SigAction
  | causeSig (rp : Slot) (sig_nr : ℕ)
  | inform
  /-- A turn of the loop of `do_ksig`. -/
  | turn
  /-- `do_ksig` returns from its loop. -/
  | finish
  /-- `do_ksig` returns at once, since the process is dead. -/
  | skip
  | exit (rc : Slot)
  /-- Anything that has nothing to do with signals. -/
  | other

/-- One step. -/
inductive SigStep : SigState → SigAction → SigState → Prop
  /-- The memory manager does not receive from anybody while it is sending. -/
  | causeSig {m : SigState} {s : State} {rp : Slot} {sig_nr : ℕ} (h1 : 1 ≤ sig_nr)
      (h16 : sig_nr ≤ NSIG)
      (hmm : (m.kernel.p_flags mmSlot).receiving = true → m.kernel.p_getfrom mmSlot = ANY →
        (m.kernel.p_flags mmSlot).sending = false)
      (h : causeSig m.kernel rp sig_nr = some s) :
      SigStep m (.causeSig rp sig_nr) ⟨s, m.seen, m.turn⟩
  | inform {m : SigState} {s : State} (hmm : MmWaits m.kernel) (h : inform m.kernel = some s) :
      SigStep m .inform ⟨s, m.seen, m.turn⟩
  /-- The signal is sent, and acknowledged by `sys_sig(proc_nr, -1)`, if it is in the map. -/
  | turn {m : SigState} {s : State} {rp : Slot} {map : BitVec 16}
      (hmap : m.sent[m.seen]? = some (procNumber rp, map)) (hi : m.turn < NSIG - 1)
      (h : (if map.getLsbD m.turn then doSigDone m.kernel rp else some m.kernel) = some s) :
      SigStep m .turn ⟨s, m.seen, m.turn + 1⟩
  | finish {m : SigState} (hseen : m.seen < m.sent.length) (hi : m.turn = NSIG - 1) :
      SigStep m .finish ⟨m.kernel, m.seen + 1, 0⟩
  | skip {m : SigState} {rp : Slot} {map : BitVec 16}
      (hmap : m.sent[m.seen]? = some (procNumber rp, map)) (hi : m.turn = 0)
      (hdead : ¬Alive m.kernel rp) : SigStep m .skip ⟨m.kernel, m.seen + 1, 0⟩
  | exit {m : SigState} {rc : Slot} : SigStep m (.exit rc) ⟨xitEnd m.kernel rc, m.seen, m.turn⟩
  | other {m : SigState} {s : State} (h : Calm m.kernel s) :
      SigStep m .other ⟨s, m.seen, m.turn⟩

/-- `main` has set up the table, and no shadow is in the entry of the hardware. -/
def SigStart (m : SigState) : Prop :=
  Boot m.kernel ∧ m.kernel.p_shadow hardwareSlot = 0 ∧ m.seen = 0 ∧ m.turn = 0

/-! ## Counting -/

/-- How many signals of a map are not finished when the loop of `do_ksig` is at `i`. A stack fault
alone is finished when it is sent. -/
def unsettled (map : BitVec 16) (i : ℕ) : ℕ :=
  if map = STKFLT_MAP then 0 else signalsFrom map i

/-- The same of a map that was sent for some process, for the process `p`. -/
def owed (p : Slot) (i : ℕ) (e : ℤ × BitVec 16) : ℕ :=
  if e.1 = procNumber p then unsettled e.2 i else 0

/-- The number of signals of `p` in maps that are not finished, the first of which is at `i`. -/
def inHands (p : Slot) (i : ℕ) : List (ℤ × BitVec 16) → ℕ
  | [] => 0
  | e :: rest => owed p i e + (rest.map (owed p 0)).sum

/-- The number of signals of `p` that were left over in maps that are finished. -/
def leftOver (p : Slot) (l : List (ℤ × BitVec 16)) : ℕ := (l.map (owed p (NSIG - 1))).sum

/-- The number of signals of `p` in the maps that the memory manager has not finished. -/
def SigState.unfinished (m : SigState) (p : Slot) : ℕ := inHands p m.turn (m.sent.drop m.seen)

/-- A map has a stack fault beside other signals. -/
def Mixed (map : BitVec 16) : Prop := map.getLsbD (SIGSTKFLT - 1) = true ∧ map ≠ STKFLT_MAP

/-- What is promised of the signals. -/
structure SigOk (m : SigState) : Prop where
  procs : m.kernel.sig_procs = (Finset.univ.filter fun p => (m.kernel.p_flags p).pending = true).card
  flag : ∀ p, Alive m.kernel p →
    ((m.kernel.p_flags p).sigPending = true ↔ 0 < m.kernel.p_pendcount p)
  count : ∀ p, Alive m.kernel p →
    m.kernel.p_pendcount p = signalsFrom (m.kernel.p_pending p) 0 + m.unfinished p
  /-- When all maps of a process were handled it can run again. -/
  done : ∀ p, Alive m.kernel p → m.kernel.p_pending p = 0 →
    (∀ e ∈ m.sent.drop m.seen, e.1 ≠ procNumber p) →
    (m.kernel.p_flags p).pending = false ∧ (m.kernel.p_flags p).sigPending = false

/-- The signals are counted: exactly, for the processes that are alive. -/
structure Counted (v : Signals) (alive : Slot → Prop) (seen turn : ℕ) : Prop where
  seen_le : seen ≤ v.sent.length
  turn_zero : turn = 0 ∨ seen < v.sent.length
  procs : v.procs = (Finset.univ.filter fun p => v.pending p = true).card
  pending : ∀ p, v.pending p = true ↔ v.map p ≠ 0
  flag : ∀ p, alive p → (v.sigPending p = true ↔ 0 < v.count p)
  count : ∀ p, alive p → v.count p =
    signalsFrom (v.map p) 0 + (inHands p turn (v.sent.drop seen) + leftOver p (v.sent.take seen))

/-- What every step keeps. -/
structure SigInv (m : SigState) : Prop where
  shadow : m.kernel.p_shadow hardwareSlot = 0
  counted : Counted (signalsOf m.kernel) (Alive m.kernel) m.seen m.turn

variable {m m' : SigState} {s : State} {a : SigAction} {v : Signals} {alive : Slot → Prop}
  {seen turn sig_nr : ℕ} {p rp : Slot} {e : ℤ × BitVec 16} {l : List (ℤ × BitVec 16)}
  {map : BitVec 16}

/-! ## Maps that were sent -/

/-- A list of maps is finished one by one. -/
theorem inHands_zero (p : Slot) (l : List (ℤ × BitVec 16)) :
    inHands p 0 l = (l.map (owed p 0)).sum := by
  cases l with
  | nil => rfl
  | cons e l => rw [inHands, List.map_cons, List.sum_cons]

/-- A map that is sent is not finished. -/
theorem inHands_append (h : turn = 0 ∨ l ≠ []) :
    inHands p turn (l ++ [e]) = inHands p turn l + owed p 0 e := by
  cases l with
  | nil =>
    obtain rfl := h.resolve_right fun hn => hn rfl
    simp [inHands]
  | cons x l => simp [inHands, Nat.add_assoc]

/-- The next map counts with what is left of it, and when it is finished with what is left over. -/
theorem inHands_next (h : l[seen]? = some e) : ∃ r,
    (∀ i, inHands p i (l.drop seen) + leftOver p (l.take seen) = owed p i e + r) ∧
      inHands p 0 (l.drop (seen + 1)) + leftOver p (l.take (seen + 1)) =
        owed p (NSIG - 1) e + r := by
  obtain ⟨hlt, he⟩ := List.getElem?_eq_some_iff.mp h
  refine ⟨((l.drop (seen + 1)).map (owed p 0)).sum + leftOver p (l.take seen), fun i => ?_, ?_⟩
  · rw [List.drop_eq_getElem_cons hlt, he, inHands, Nat.add_assoc]
  · have htake : l.take (seen + 1) = l.take seen ++ [e] := by
      rw [List.take_add_one, h]
      rfl
    rw [inHands_zero, htake]
    unfold leftOver
    rw [List.map_append, List.sum_append]
    simp only [List.map_cons, List.map_nil, List.sum_cons, List.sum_nil]
    omega

/-- A turn of the loop finishes the signal that it finds. -/
theorem unsettled_succ (hi : turn < NSIG - 1) :
    unsettled map turn = unsettled map (turn + 1) + if map.getLsbD turn then 1 else 0 := by
  unfold unsettled
  unfold NSIG at hi
  split_ifs with hm hb hb
  · -- A stack fault alone is the last of the bits.
    rw [hm] at hb
    unfold STKFLT_MAP at hb
    rw [BitVec.getLsbD_ofNat, Nat.testBit_two_pow, Bool.and_eq_true] at hb
    have h15 : SIGSTKFLT - 1 = turn := by simpa using hb.2
    unfold SIGSTKFLT at h15
    omega
  · rfl
  · rw [signalsFrom_succ (by omega), if_pos hb]
  · rw [signalsFrom_succ (by omega), if_neg hb]

/-! ## What happens to the signals -/

/-- A count over the table when one entry is set. -/
theorem card_set {f : Slot → Bool} (h : f p = false) :
    (Finset.univ.filter fun x => Function.update f p true x = true).card =
      (Finset.univ.filter fun x => f x = true).card + 1 := by
  have hins : (Finset.univ.filter fun x => Function.update f p true x = true) =
      insert p (Finset.univ.filter fun x => f x = true) := by
    ext x
    simp only [Finset.mem_filter, Finset.mem_univ, true_and, Finset.mem_insert]
    by_cases hx : x = p
    · simp [hx]
    · simp [hx]
  rw [hins, Finset.card_insert_of_notMem]
  simp [h]

/-- A count over the table when one entry is cleared. -/
theorem card_clear {f : Slot → Bool} (h : f p = true) :
    (Finset.univ.filter fun x => Function.update f p false x = true).card + 1 =
      (Finset.univ.filter fun x => f x = true).card := by
  have hf : Function.update (Function.update f p false) p true = f := by
    rw [Function.update_idem, ← h, Function.update_eq_self]
  have hset := card_set (f := Function.update f p false) (p := p) (Function.update_self ..)
  rw [hf] at hset
  exact hset.symm

/-- A new signal is counted. -/
theorem Counted.cause (h : Counted v alive seen turn) (hs : sig_nr - 1 < 16)
    (hnew : (v.map p).getLsbD (sig_nr - 1) = false) :
    Counted (v.cause p sig_nr) alive seen turn := by
  have hmap : v.map p ||| sigBit sig_nr ≠ 0 := fun he => by
    have := signalsFrom_or hs hnew
    rw [he, signalsFrom_zero] at this
    omega
  have hupd : ∀ {β : Type} (g : Slot → β) (b : β) (x : Slot),
      Function.update g p b x = if x = p then b else g x := fun g b x => Function.update_apply ..
  refine ⟨h.seen_le, h.turn_zero, ?_, fun x => ?_, fun x hx => ?_, fun x hx => ?_⟩
  · show (if v.pending p = true then v.procs else v.procs + 1) = _
    split_ifs with hp
    · have he : Function.update v.pending p true = v.pending := by
        rw [← hp, Function.update_eq_self]
      unfold Signals.cause
      simp only [he]
      exact h.procs
    · rw [h.procs]
      unfold Signals.cause
      rw [Bool.not_eq_true] at hp
      rw [card_set hp]
      push_cast
      rfl
  · show Function.update v.pending p true x = true ↔ Function.update v.map p _ x ≠ 0
    rw [hupd, hupd]
    split_ifs
    · exact iff_of_true rfl hmap
    · exact h.pending x
  · show (if v.pending p = true then v.sigPending else Function.update v.sigPending p true) x = true ↔
      0 < Function.update v.count p _ x
    rw [hupd]
    by_cases hxp : x = p
    · subst hxp
      rw [if_pos rfl]
      split_ifs with hp
      · -- With another signal pending the process is inhibited already.
        have hcount := h.count x hx
        have hne : signalsFrom (v.map x) 0 ≠ 0 := fun he =>
          (h.pending x).mp hp (eq_zero_of_signalsFrom he)
        rw [(h.flag x hx).mpr (by omega)]
        simp
      · rw [Function.update_self]
        simp
    · rw [if_neg hxp]
      split_ifs
      · exact h.flag x hx
      · rw [Function.update_of_ne hxp]
        exact h.flag x hx
  · show Function.update v.count p _ x = signalsFrom (Function.update v.map p _ x) 0 + _
    rw [hupd, hupd]
    have hcount := h.count x hx
    split_ifs with hxp
    · subst hxp
      rw [signalsFrom_or hs hnew, hcount]
      show _ = _ + 1 + (inHands x turn (v.sent.drop seen) + leftOver x (v.sent.take seen))
      omega
    · exact hcount

section Settle

variable (v : Signals) (p x : Slot)

@[simp]
theorem Signals.settle_pending : (v.settle p).pending = v.pending := by
  unfold Signals.settle
  split
  · rfl
  · rfl

@[simp]
theorem Signals.settle_map : (v.settle p).map = v.map := by
  unfold Signals.settle
  split
  · rfl
  · rfl

@[simp]
theorem Signals.settle_procs : (v.settle p).procs = v.procs := by
  unfold Signals.settle
  split
  · rfl
  · rfl

@[simp]
theorem Signals.settle_sent : (v.settle p).sent = v.sent := by
  unfold Signals.settle
  split
  · rfl
  · rfl

theorem Signals.settle_count :
    (v.settle p).count x = if x = p then v.count p - 1 else v.count x := by
  unfold Signals.settle
  by_cases h : v.count p = 0
  · rw [if_pos h]
    split_ifs with hx
    · rw [hx, h]
    · rfl
  · rw [if_neg h]
    exact Function.update_apply ..

end Settle

/-- Settling a signal keeps the flag that says that there are some. -/
theorem Signals.settle_flag {x : Slot} (h : v.sigPending x = true ↔ 0 < v.count x) :
    (v.settle p).sigPending x = true ↔ 0 < (v.settle p).count x := by
  unfold Signals.settle
  by_cases h0 : v.count p = 0
  · rw [if_pos h0]
    exact h
  · rw [if_neg h0]
    dsimp only
    by_cases hx : x = p
    · subst hx
      rw [Function.update_self]
      by_cases h1 : v.count x = 1
      · rw [if_pos h1, Function.update_self]
        simp [h1]
      · rw [if_neg h1, h]
        omega
    · rw [Function.update_of_ne hx]
      split_ifs
      · rw [Function.update_of_ne hx]
        exact h
      · exact h

/-- The signals that the memory manager is told about are in its hands, but for a stack fault that
is alone. -/
theorem Counted.tell (h : Counted v alive seen turn) (hp : v.pending p = true) :
    Counted (v.tell p) alive seen turn := by
  generalize hw : ({ v with
    pending := Function.update v.pending p false
    map := Function.update v.map p 0
    procs := v.procs - 1
    sent := v.sent ++ [(procNumber p, v.map p)] } : Signals) = w
  have htell : v.tell p = if v.map p = STKFLT_MAP then w.settle p else w := by
    rw [← hw]
    rfl
  have hpending : (v.tell p).pending = Function.update v.pending p false := by
    rw [htell, apply_ite Signals.pending, Signals.settle_pending, ite_self, ← hw]
  have hmap : (v.tell p).map = Function.update v.map p 0 := by
    rw [htell, apply_ite Signals.map, Signals.settle_map, ite_self, ← hw]
  have hprocs : (v.tell p).procs = v.procs - 1 := by
    rw [htell, apply_ite Signals.procs, Signals.settle_procs, ite_self, ← hw]
  have hsent : (v.tell p).sent = v.sent ++ [(procNumber p, v.map p)] := by
    rw [htell, apply_ite Signals.sent, Signals.settle_sent, ite_self, ← hw]
  have hcount : ∀ x, (v.tell p).count x =
      if x = p ∧ v.map p = STKFLT_MAP then v.count p - 1 else v.count x := by
    intro x
    rw [htell]
    by_cases hm : v.map p = STKFLT_MAP
    · rw [if_pos hm, Signals.settle_count, ← hw]
      simp [hm]
    · rw [if_neg hm, ← hw]
      simp [hm]
  have hflag : ∀ x, alive x → ((v.tell p).sigPending x = true ↔ 0 < (v.tell p).count x) := by
    intro x hx
    have hwx : w.sigPending x = true ↔ 0 < w.count x := by
      rw [← hw]
      exact h.flag x hx
    rw [htell]
    split_ifs
    · exact Signals.settle_flag hwx
    · exact hwx
  refine ⟨?_, ?_, ?_, fun x => ?_, hflag, fun x hx => ?_⟩
  · rw [hsent, List.length_append]
    exact h.seen_le.trans (Nat.le_add_right _ _)
  · rw [hsent, List.length_append]
    exact h.turn_zero.imp_right fun hlt => Nat.lt_add_right _ hlt
  · rw [hprocs, hpending, h.procs]
    have := card_clear hp
    omega
  · rw [hpending, hmap, Function.update_apply, Function.update_apply]
    split_ifs
    · simp
    · exact h.pending x
  · have hne : turn = 0 ∨ v.sent.drop seen ≠ [] :=
      h.turn_zero.imp_right fun hlt he => by
        rw [List.drop_eq_nil_iff] at he
        omega
    rw [hcount, hmap, hsent, List.drop_append_of_le_length h.seen_le,
      List.take_append_of_le_length h.seen_le, inHands_append hne]
    have hc := h.count x hx
    by_cases hxp : x = p
    · subst hxp
      have howed : owed x 0 (procNumber x, v.map x) = unsettled (v.map x) 0 := if_pos rfl
      rw [Function.update_self, signalsFrom_zero, howed]
      unfold unsettled
      by_cases hm : v.map x = STKFLT_MAP
      · -- It counted one, and is settled.
        have h1 : signalsFrom STKFLT_MAP 0 = 1 := by decide
        rw [if_pos ⟨rfl, hm⟩, if_pos hm, hc, hm, h1]
        omega
      · rw [if_neg (fun h => hm h.2), if_neg hm, hc]
        omega
    · have howed : owed x 0 (procNumber p, v.map p) = 0 := if_neg fun he =>
        hxp (procNumber_inj.mp he).symm
      rw [if_neg (fun h => hxp h.1), Function.update_of_ne hxp, howed, hc]
      rfl

/-- The memory manager acknowledges a signal that the loop of `do_ksig` has found, or goes on. -/
theorem Counted.advance (h : Counted v alive seen turn) (he : v.sent[seen]? = some (procNumber p, map))
    (hi : turn < NSIG - 1) :
    Counted (if map.getLsbD turn then v.settle p else v) alive seen (turn + 1) := by
  obtain ⟨hlt, -⟩ := List.getElem?_eq_some_iff.mp he
  have hsent : (if map.getLsbD turn then v.settle p else v).sent = v.sent := by
    rw [apply_ite Signals.sent, Signals.settle_sent, ite_self]
  have hmap : (if map.getLsbD turn then v.settle p else v).map = v.map := by
    rw [apply_ite Signals.map, Signals.settle_map, ite_self]
  have hpending : (if map.getLsbD turn then v.settle p else v).pending = v.pending := by
    rw [apply_ite Signals.pending, Signals.settle_pending, ite_self]
  have hprocs : (if map.getLsbD turn then v.settle p else v).procs = v.procs := by
    rw [apply_ite Signals.procs, Signals.settle_procs, ite_self]
  refine ⟨?_, Or.inr ?_, ?_, fun x => ?_, fun x hx => ?_, fun x hx => ?_⟩
  · rw [hsent]
    exact h.seen_le
  · rw [hsent]
    exact hlt
  · rw [hprocs, hpending]
    exact h.procs
  · rw [hpending, hmap]
    exact h.pending x
  · split_ifs
    · exact Signals.settle_flag (h.flag x hx)
    · exact h.flag x hx
  · obtain ⟨r, hr, -⟩ := inHands_next (p := x) he
    have hc := h.count x hx
    rw [hsent, hmap, hr]
    rw [hr] at hc
    have hcount : (if map.getLsbD turn then v.settle p else v).count x =
        v.count x - if x = p ∧ map.getLsbD turn = true then 1 else 0 := by
      split_ifs with hb hx hx
      · rw [Signals.settle_count, if_pos hx.1, hx.1]
      · rw [Signals.settle_count, if_neg fun e => hx ⟨e, hb⟩]
        rfl
      · exact absurd hx.2 hb
      · rfl
    rw [hcount, hc]
    by_cases hxp : x = p
    · have howed : ∀ i, owed x i (procNumber p, map) = unsettled map i := fun i => by
        rw [hxp]
        exact if_pos rfl
      rw [howed, howed, unsettled_succ hi]
      by_cases hb : map.getLsbD turn = true
      · rw [if_pos hb, if_pos ⟨hxp, hb⟩]
        omega
      · rw [if_neg hb, if_neg fun h => hb h.2]
        omega
    · have howed : ∀ i, owed x i (procNumber p, map) = 0 := fun i => if_neg fun he =>
        hxp (procNumber_inj.mp he).symm
      rw [howed, howed, if_neg fun h => hxp h.1]
      rfl

/-- `do_ksig` goes on to the next map: what it has not settled is left over. -/
theorem Counted.finish (h : Counted v alive seen (NSIG - 1)) (hlt : seen < v.sent.length) :
    Counted v alive (seen + 1) 0 := by
  refine ⟨hlt, Or.inl rfl, h.procs, h.pending, h.flag, fun x hx => ?_⟩
  obtain ⟨r, hr, hr'⟩ := inHands_next (p := x) (List.getElem?_eq_getElem hlt)
  rw [h.count x hx, hr, hr']

/-- `do_ksig` skips a map of a process that is dead. -/
theorem Counted.skip (h : Counted v alive seen 0) (he : v.sent[seen]? = some (procNumber p, map))
    (hdead : ¬alive p) : Counted v alive (seen + 1) 0 := by
  obtain ⟨hlt, -⟩ := List.getElem?_eq_some_iff.mp he
  refine ⟨hlt, Or.inl rfl, h.procs, h.pending, h.flag, fun x hx => ?_⟩
  obtain ⟨r, hr, hr'⟩ := inHands_next (p := x) he
  have howed : ∀ i, owed x i (procNumber p, map) = 0 := fun i => if_neg fun hn =>
    hdead (by rw [show p = x from procNumber_inj.mp hn]; exact hx)
  rw [h.count x hx, hr, hr', howed, howed]

/-- A process that is dead has no signals pending. -/
theorem Counted.exit {alive' : Slot → Prop} {w : Signals} (h : Counted v alive seen turn)
    (hw : w = { v with
      pending := Function.update v.pending p false
      sigPending := Function.update v.sigPending p false
      map := Function.update v.map p 0
      count := Function.update v.count p 0
      procs := if v.pending p then v.procs - 1 else v.procs })
    (halive : ∀ x, alive' x → x ≠ p ∧ alive x) : Counted w alive' seen turn := by
  subst hw
  refine ⟨h.seen_le, h.turn_zero, ?_, fun x => ?_, fun x hx => ?_, fun x hx => ?_⟩
  · dsimp only
    split_ifs with hp
    · have := card_clear hp
      rw [h.procs]
      omega
    · rw [Bool.not_eq_true] at hp
      have he : Function.update v.pending p false = v.pending := by
        rw [← hp, Function.update_eq_self]
      rw [he]
      exact h.procs
  · dsimp only
    rw [Function.update_apply, Function.update_apply]
    split_ifs
    · simp
    · exact h.pending x
  · obtain ⟨hne, hx⟩ := halive x hx
    dsimp only
    rw [Function.update_of_ne hne, Function.update_of_ne hne]
    exact h.flag x hx
  · obtain ⟨hne, hx⟩ := halive x hx
    dsimp only
    rw [Function.update_of_ne hne, Function.update_of_ne hne]
    exact h.count x hx

/-! ## Steps and runs -/

/-- What is calm, or only tells, keeps what is counted. -/
theorem SigInv.of_signals (h : SigInv m) (hs : Counted (signalsOf s) (Alive m.kernel) seen turn)
    (hfree : ∀ p, (s.p_flags p).slotFree = (m.kernel.p_flags p).slotFree)
    (hsh : s.p_shadow = m.kernel.p_shadow) : SigInv ⟨s, seen, turn⟩ := by
  have halive : Alive s = Alive m.kernel := by
    funext p
    unfold Alive
    rw [hfree]
  exact ⟨by rw [hsh]; exact h.shadow, by rw [halive]; exact hs⟩

/-- `inform` keeps what is counted. -/
theorem SigInv.inform (h : SigInv m) (hmm : MmWaits m.kernel) (hs : inform m.kernel = some s) :
    SigInv ⟨s, m.seen, m.turn⟩ := by
  rcases inform_signals h.shadow hmm hs with hc | ⟨rp, hp, hsig, hfree, hsh⟩
  · exact h.of_signals (by rw [hc.signals]; exact h.counted) hc.free hc.shadow
  · exact h.of_signals (by rw [hsig]; exact h.counted.tell hp) hfree hsh

/-- Every step keeps what is counted. -/
theorem SigStep.inv (h : SigStep m a m') (hi : SigInv m) : SigInv m' := by
  cases h with
  | causeSig h1 h16 hmm h =>
    rename_i s rp sig_nr
    have hs : sig_nr - 1 < 16 := by
      unfold NSIG at h16
      omega
    rcases causeSig_signals hs hmm h with rfl | ⟨s₁, hnew, hsig, hfree, hsh, he⟩
    · exact hi
    · have hi₁ : SigInv ⟨s₁, m.seen, m.turn⟩ :=
        hi.of_signals (by rw [hsig]; exact hi.counted.cause hs hnew) hfree hsh
      rcases he with rfl | ⟨hw, he⟩
      · exact hi₁
      · exact hi₁.inform hw he
  | inform hmm h => exact hi.inform hmm h
  | turn hmap hlt h =>
    rename_i s rp map
    have hc := hi.counted.advance hmap hlt
    by_cases hb : map.getLsbD m.turn = true
    · rw [if_pos hb] at h hc
      obtain ⟨hsig, hfree, hsh⟩ := doSigDone_signals h
      exact hi.of_signals (by rw [hsig]; exact hc) hfree hsh
    · rw [if_neg hb] at h hc
      obtain rfl := Option.some.inj h
      exact hi.of_signals hc (fun _ => rfl) rfl
  | finish hseen hlt =>
    have hc := hi.counted
    rw [hlt] at hc
    exact ⟨hi.shadow, hc.finish hseen⟩
  | skip hmap h0 hdead =>
    have hc := hi.counted
    rw [h0] at hc
    exact ⟨hi.shadow, hc.skip hmap hdead⟩
  | exit =>
    refine ⟨hi.shadow, ?_⟩
    rw [xitEnd_signals]
    refine hi.counted.exit rfl fun x hx => ?_
    unfold Alive xitEnd at hx
    simp only [Function.update_apply] at hx
    split_ifs at hx with hne
    exact ⟨hne, hx⟩
  | other h => exact hi.of_signals (by rw [h.signals]; exact hi.counted) h.free h.shadow

/-- Nothing is pending at the start. -/
theorem SigStart.inv (h : SigStart m) : SigInv m := by
  obtain ⟨⟨s₀, users, hu, hs⟩, hsh, hseen, hturn⟩ := h
  obtain ⟨s₁, h₁, hb, -, hflags⟩ := main_spec s₀ hu
  obtain rfl := Option.some.inj (h₁.symm.trans hs)
  have hzero : ∀ p, (m.kernel.p_flags p).pending = false ∧
      (m.kernel.p_flags p).sigPending = false := by
    intro p
    rw [hflags]
    split_ifs
    · exact ⟨rfl, rfl⟩
    · exact ⟨rfl, rfl⟩
  have hclear : m.kernel.p_pending = 0 ∧ m.kernel.p_pendcount = 0 ∧ m.kernel.sig_procs = 0 ∧
      m.kernel.log = [] := by
    obtain ⟨_, _, _, _, _, _, he⟩ := hb
    rw [he]
    exact ⟨rfl, rfl, rfl, rfl⟩
  obtain ⟨hpend, hcount, hprocs, hlog⟩ := hclear
  have hsent : (signalsOf m.kernel).sent = [] := by
    unfold signalsOf
    rw [hlog]
    rfl
  refine ⟨hsh, ?_⟩
  rw [hseen, hturn]
  refine ⟨Nat.zero_le _, Or.inl rfl, ?_, fun p => ?_, fun p _ => ?_, fun p _ => ?_⟩
  · show m.kernel.sig_procs = ((Finset.univ.filter fun p =>
      (m.kernel.p_flags p).pending = true).card : ℤ)
    simp [hprocs, hzero]
  · show (m.kernel.p_flags p).pending = true ↔ m.kernel.p_pending p ≠ 0
    simp [hpend, hzero]
  · show (m.kernel.p_flags p).sigPending = true ↔ 0 < m.kernel.p_pendcount p
    simp [hcount, hzero]
  · show m.kernel.p_pendcount p = signalsFrom (m.kernel.p_pending p) 0 + _
    rw [hsent, hcount, hpend]
    simpa [inHands, leftOver] using (signalsFrom_zero 0).symm

/-- The signals are counted in every state of every run. -/
theorem SigInv.of_reachable (h : Reachable SigStart SigStep m) : SigInv m :=
  Reachable.invariant (P := SigInv) h (fun _ hm => hm.inv) fun _ _ _ hi hst => hst.inv hi

/-- A map leaves a signal over when it has a stack fault beside others. -/
theorem unsettled_last : unsettled map (NSIG - 1) = 0 ↔ ¬Mixed map := by
  have hone : signalsFrom map 15 = if map.getLsbD 15 then 1 else 0 := by
    rw [signalsFrom_succ (by decide)]
    unfold signalsFrom
    simp
  unfold unsettled Mixed NSIG SIGSTKFLT
  by_cases hm : map = STKFLT_MAP
  · simp [hm]
  · rw [if_neg hm, hone]
    simp [hm]

/-- No signals are left over for a process exactly when none of its maps that are finished was
mixed. -/
theorem leftOver_eq_zero :
    leftOver p l = 0 ↔ ∀ e ∈ l, e.1 = procNumber p → ¬Mixed e.2 := by
  unfold leftOver
  rw [List.sum_eq_zero_iff_forall_eq_nat]
  simp only [List.mem_map, forall_exists_index, and_imp, forall_apply_eq_imp_iff₂]
  refine forall₂_congr fun e _ => ?_
  unfold owed
  by_cases hn : e.1 = procNumber p
  · rw [if_pos hn, unsettled_last]
    simp [hn]
  · simp [hn]

/-- The promise is kept where nothing was left over, and nowhere else. -/
theorem SigInv.ok_iff (h : SigInv m) : SigOk m ↔
    ∀ p, Alive m.kernel p → leftOver p (m.sent.take m.seen) = 0 := by
  have hcount : ∀ p, Alive m.kernel p → m.kernel.p_pendcount p =
      signalsFrom (m.kernel.p_pending p) 0 + (m.unfinished p + leftOver p (m.sent.take m.seen)) :=
    h.counted.count
  constructor
  · intro hok p hp
    have h₁ := hok.count p hp
    have h₂ := hcount p hp
    omega
  · intro hl
    refine ⟨h.counted.procs, h.counted.flag, fun p hp => ?_, fun p hp hnone hall => ?_⟩
    · rw [hcount p hp, hl p hp, Nat.add_zero]
    · have hzero : m.unfinished p = 0 := by
        unfold SigState.unfinished
        cases hd : m.sent.drop m.seen with
        | nil => rfl
        | cons e l =>
          rw [hd] at hall
          have howed : ∀ x ∈ e :: l, ∀ i, owed p i x = 0 := fun x hx i => if_neg (hall x hx)
          rw [inHands, howed e List.mem_cons_self, Nat.zero_add, List.sum_eq_zero_iff_forall_eq_nat]
          simp only [List.mem_map, forall_exists_index, and_imp, forall_apply_eq_imp_iff₂]
          exact fun x hx => howed x (List.mem_cons_of_mem e hx) 0
      have hc := hcount p hp
      rw [hnone, signalsFrom_zero, hzero, hl p hp] at hc
      constructor
      · rw [← Bool.not_eq_true]
        exact fun hpend => (h.counted.pending p).mp hpend hnone
      · rw [← Bool.not_eq_true]
        intro hsig
        have hpos : 0 < m.kernel.p_pendcount p := (h.counted.flag p hp).mp hsig
        omega

/-- In every state that is reached the signals are counted as they should be exactly when no map
that the memory manager has finished, of a process that is alive, had a stack fault beside other
signals. -/
theorem ksig_accounting (h : Reachable SigStart SigStep m) : SigOk m ↔
    ∀ p, Alive m.kernel p → ∀ e ∈ m.sent.take m.seen, e.1 = procNumber p → ¬Mixed e.2 := by
  rw [(SigInv.of_reachable h).ok_iff]
  exact forall₂_congr fun p _ => leftOver_eq_zero

/-! ## Two runs -/

/-- The memory manager waits for new input. -/
def mmWaiting (s : State) : State :=
  { s with
    p_flags := Function.update s.p_flags mmSlot RECEIVING
    p_getfrom := Function.update s.p_getfrom mmSlot ANY }

/-- Waiting has nothing to do with signals. -/
theorem mmWaiting_calm (h : s.p_flags mmSlot = PFlags.zero) : Calm s (mmWaiting s) := by
  have hr : Reflagged s mmSlot RECEIVING
      { s with p_flags := Function.update s.p_flags mmSlot RECEIVING } := ⟨_, _, _, _, _, rfl⟩
  refine (hr.calm (by rw [h]; rfl) (by rw [h]; rfl) (by rw [h]; rfl)).trans ?_
  exact Calm.of_eq rfl rfl rfl rfl rfl rfl

/-- It waits. -/
theorem mmWaiting_waits (s : State) : MmWaits (mmWaiting s) := by
  unfold MmWaits mmWaiting
  simp only [Function.update_self]
  decide

/-- The loop of `do_ksig` passes over the signals that are not in the map. -/
theorem quiet_turns {k i : ℕ} (h : Reachable SigStart SigStep ⟨s, seen, i⟩)
    (hmap : (signalsOf s).sent[seen]? = some (procNumber rp, map)) (hk : i + k ≤ NSIG - 1)
    (hq : ∀ j ∈ Finset.Ico i (i + k), map.getLsbD j = false) :
    Reachable SigStart SigStep ⟨s, seen, i + k⟩ := by
  induction k with
  | zero => exact h
  | succ k ih =>
    have hr := ih (by omega) fun j hj => hq j (by
      rw [Finset.mem_Ico] at hj ⊢
      omega)
    have hb : map.getLsbD (i + k) = false := hq (i + k) (by
      rw [Finset.mem_Ico]
      omega)
    have hst : SigStep ⟨s, seen, i + k⟩ .turn ⟨s, seen, i + k + 1⟩ := by
      refine SigStep.turn hmap (by dsimp only; omega) ?_
      rw [if_neg (by rw [hb]; simp)]
    exact hr.of_step hst

/-- The memory manager is told of an alarm, and of a stack fault or not, and handles the map. -/
theorem handle_alarm {s₃ s₄ : State} (h : Reachable SigStart SigStep ⟨s, 0, 0⟩)
    (hmm : s.p_flags mmSlot = PFlags.zero) (h₃ : inform (mmWaiting s) = some s₃)
    (h₄ : doSigDone s₃ rp = some s₄) (hsent₃ : (signalsOf s₃).sent = [(procNumber rp, map)])
    (hsent₄ : (signalsOf s₄).sent = [(procNumber rp, map)])
    (hmap : ∀ j ∈ Finset.range 15, map.getLsbD j = decide (j = 13)) :
    Reachable SigStart SigStep ⟨s₄, 1, 0⟩ := by
  have r₃ : Reachable SigStart SigStep ⟨s₃, 0, 0⟩ :=
    (h.of_step (SigStep.other (mmWaiting_calm hmm))).of_step
      (SigStep.inform (mmWaiting_waits s) h₃)
  have hmap₃ : (signalsOf s₃).sent[0]? = some (procNumber rp, map) := by
    rw [hsent₃]
    rfl
  have hmap₄ : (signalsOf s₄).sent[0]? = some (procNumber rp, map) := by
    rw [hsent₄]
    rfl
  have hquiet : ∀ j, j < 15 → j ≠ 13 → map.getLsbD j = false := fun j hj hne => by
    rw [hmap j (Finset.mem_range.mpr hj)]
    exact decide_eq_false hne
  have r₄ : Reachable SigStart SigStep ⟨s₃, 0, 13⟩ :=
    quiet_turns (k := 13) (i := 0) r₃ hmap₃ (by decide) fun j hj => by
      rw [Finset.mem_Ico] at hj
      exact hquiet j (by omega) (by omega)
  have hst : SigStep ⟨s₃, 0, 13⟩ .turn ⟨s₄, 0, 14⟩ := by
    have hb : map.getLsbD 13 = true := hmap 13 (by decide)
    refine SigStep.turn hmap₃ (show 13 < NSIG - 1 by decide) ?_
    dsimp only
    rw [if_pos hb]
    exact h₄
  have r₅ : Reachable SigStart SigStep ⟨s₄, 0, 15⟩ :=
    quiet_turns (k := 1) (i := 14) (r₄.of_step hst) hmap₄ (by decide) fun j hj => by
      rw [Finset.mem_Ico] at hj
      exact hquiet j (by omega) (by omega)
  have hfin : SigStep ⟨s₄, 0, 15⟩ .finish ⟨s₄, 1, 0⟩ := by
    refine SigStep.finish ?_ rfl
    show 0 < (signalsOf s₄).sent.length
    rw [hsent₄]
    simp
  exact r₅.of_step hfin

/-- Whoever has no flags is not receiving. -/
theorem idle_of_zero (h : s.p_flags mmSlot = PFlags.zero) :
    (s.p_flags mmSlot).receiving = true → s.p_getfrom mmSlot = ANY →
      (s.p_flags mmSlot).sending = false := by
  intro hr
  rw [h] at hr
  exact absurd hr (by decide)

/-- A signal is caused, sent, and acknowledged: the process can run again. -/
theorem ksig_accounting_alarm : ∃ m, (m.kernel.p_flags 11).sigPending = false ∧
    m.sent = [(2, sigBit 14)] ∧ m.seen = 1 ∧ SigOk m := by
  have hrun : ((main { zeroState with p_map := fun _ => ⟨0, 0, 1⟩ } []).bind fun s =>
      (causeSig s 11 14).bind fun s₁ => (inform (mmWaiting s₁)).bind fun s₃ =>
      (doSigDone s₃ 11).bind fun s₄ =>
      some (decide (s.p_shadow hardwareSlot = 0 ∧ s.p_flags mmSlot = PFlags.zero ∧
        s₁.p_flags mmSlot = PFlags.zero ∧
        (signalsOf s₃).sent = [(2, sigBit 14)] ∧ (signalsOf s₄).sent = [(2, sigBit 14)] ∧
        (s₄.p_flags 11).sigPending = false))) = some true := by
    decide +kernel
  simp only [Option.bind_eq_some_iff, Option.some.injEq, decide_eq_true_eq] at hrun
  obtain ⟨s, hs, s₁, h₁, s₃, h₃, s₄, h₄, hsh, hm, hm₁, hsent₃, hsent₄, hsig⟩ := hrun
  have r₀ : Reachable SigStart SigStep ⟨s, 0, 0⟩ :=
    Reachable.of_init ⟨⟨_, [], by decide, hs⟩, hsh, rfl, rfl⟩
  have r₁ := r₀.of_step (SigStep.causeSig (by decide) (by decide) (idle_of_zero hm) h₁)
  have r₄ := handle_alarm r₁ hm₁ h₃ h₄ hsent₃ hsent₄ (by decide)
  refine ⟨⟨s₄, 1, 0⟩, hsig, hsent₄, rfl, (ksig_accounting r₄).mpr fun p _ e he _ => ?_⟩
  have hmem : e ∈ (signalsOf s₄).sent.take 1 := he
  rw [hsent₄, List.take_succ_cons, List.take_zero, List.mem_singleton] at hmem
  rw [hmem]
  unfold Mixed
  decide

/-- A stack fault that is sent beside another signal keeps its process from running for ever. -/
theorem stkflt_stuck : ¬∀ m, Reachable SigStart SigStep m → SigOk m := by
  intro hall
  have hrun : ((main { zeroState with p_map := fun _ => ⟨0, 0, 1⟩ } []).bind fun s =>
      (causeSig s 11 14).bind fun s₁ => (causeSig s₁ 11 16).bind fun s₂ =>
      (inform (mmWaiting s₂)).bind fun s₃ => (doSigDone s₃ 11).bind fun s₄ =>
      some (decide (s.p_shadow hardwareSlot = 0 ∧ s.p_flags mmSlot = PFlags.zero ∧
        s₁.p_flags mmSlot = PFlags.zero ∧ s₂.p_flags mmSlot = PFlags.zero ∧
        (signalsOf s₃).sent = [(2, sigBit 14 ||| sigBit 16)] ∧
        (signalsOf s₄).sent = [(2, sigBit 14 ||| sigBit 16)] ∧
        (s₄.p_flags 11).slotFree = false ∧ s₄.p_pendcount 11 = 1 ∧ s₄.p_pending 11 = 0))) =
      some true := by
    decide +kernel
  simp only [Option.bind_eq_some_iff, Option.some.injEq, decide_eq_true_eq] at hrun
  obtain ⟨s, hs, s₁, h₁, s₂, h₂, s₃, h₃, s₄, h₄, hsh, hm, hm₁, hm₂, hsent₃, hsent₄, halive, hcount,
    hpend⟩ := hrun
  have r₀ : Reachable SigStart SigStep ⟨s, 0, 0⟩ :=
    Reachable.of_init ⟨⟨_, [], by decide, hs⟩, hsh, rfl, rfl⟩
  have r₁ := r₀.of_step (SigStep.causeSig (by decide) (by decide) (idle_of_zero hm) h₁)
  have r₂ := r₁.of_step (SigStep.causeSig (by decide) (by decide) (idle_of_zero hm₁) h₂)
  have r₄ := handle_alarm r₂ hm₂ h₃ h₄ hsent₃ hsent₄ (by decide)
  -- Everything is handled, but one signal still counts.
  have hc := (hall _ r₄).count 11 halive
  have hun : SigState.unfinished ⟨s₄, 1, 0⟩ 11 = 0 := by
    show inHands 11 0 ((signalsOf s₄).sent.drop 1) = 0
    rw [hsent₄]
    rfl
  rw [hun] at hc
  dsimp only at hc
  rw [hcount, hpend, signalsFrom_zero] at hc
  simp at hc

end Minix.Kernel
