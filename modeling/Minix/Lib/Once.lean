import Mathlib.Data.List.Basic
import Mathlib.Logic.Function.Basic
import Minix.Lib.Indices
import Minix.Lib.Run

/-!
# A task that is done once

Any number of threads call a function that should make a value and publish it, once. A flag lets one
of the calls begin: the one that sets it. The others return when they find the flag set, at once or
after they have waited for it. The flag is set before the task is begun, so that a call may return
before the value is there (`OnceStep.early`). In a run in which no call finds the flag set before
then, a call that has returned leaves what it should (`OnceOk.of_reachable`).
-/

namespace Minix.Lib

variable {T A M W V B : Type*}

/-- What the task goes on with: an access, the publication of its value, or nothing. -/
inductive Onward (W V : Type*)
  | go (w : W)
  | publish (v : V)
  | stop
  deriving DecidableEq

/-- A task: where it begins, and an access to the memory, which may be given something from outside
that is allowed there. `spins` tells whether a call that cannot set the flag looks at it again. -/
structure Task (A M W V B : Type*) where
  start : A → W
  access : M → W → B → M × Onward W V
  allows : W → B → Prop
  spins : Bool

/-- Where a thread is: out of the function, or in front of an access. -/
inductive OncePc (A W V : Type*)
  | idle
  | load (a : A)
  | swap (a : A)
  | spin
  | work (w : W)
  | publish (v : V)
  | stopped
  | ret
  deriving DecidableEq

/-- The flag, the value that is published, the memory and the threads, with the calls that have
begun the task, have published a value and have returned. -/
structure OnceState (T A M W V : Type*) where
  flag : Bool
  val : V
  mem : M
  pc : T → OncePc A W V
  begun : List T
  published : List T
  returned : List T

/-- A thread calls the function, or makes an access. -/
inductive OnceAct (T A B : Type*)
  | call (t : T) (a : A)
  | run (t : T) (b : B)
  deriving DecidableEq

/-- Where a thread is after an access of the task. -/
def Onward.pc : Onward W V → OncePc A W V
  | .go w => .work w
  | .publish v => .publish v
  | .stop => .stopped

section Steps

variable [DecidableEq T]

/-- A thread is in front of another access. -/
def OnceState.goto (s : OnceState T A M W V) (t : T) (p : OncePc A W V) : OnceState T A M W V :=
  { s with pc := Function.update s.pc t p }

/-- An access of a thread. -/
def OnceState.run (k : Task A M W V B) (s : OnceState T A M W V) (t : T) (b : B) :
    Option (OnceState T A M W V) :=
  match s.pc t with
  | .idle | .stopped => none
  | .load a => some (s.goto t (if s.flag then .ret else .swap a))
  | .swap a =>
    if s.flag then some (s.goto t (if k.spins then .spin else .ret))
    else some { s.goto t (.work (k.start a)) with flag := true, begun := s.begun ++ [t] }
  | .spin => some (s.goto t (if s.flag then .ret else .spin))
  | .work w =>
    let (mem, o) := k.access s.mem w b
    some { s.goto t o.pc with mem := mem }
  | .publish v => some { s.goto t .ret with val := v, published := s.published ++ [t] }
  | .ret => some { s.goto t .idle with returned := s.returned ++ [t] }

/-- What may be given to an access of a thread. -/
def OnceState.allows (k : Task A M W V B) (s : OnceState T A M W V) (t : T) (b : B) : Prop :=
  match s.pc t with
  | .work w => k.allows w b
  | _ => True

/-- A step of a thread. -/
inductive OnceStep (k : Task A M W V B) (s : OnceState T A M W V) :
    OnceAct T A B → OnceState T A M W V → Prop
  | call {t : T} (a : A) (h : s.pc t = .idle) : OnceStep k s (.call t a) (s.goto t (.load a))
  | run {t : T} {b : B} {s' : OnceState T A M W V} (h : s.run k t b = some s')
      (hb : s.allows k t b) : OnceStep k s (.run t b) s'

variable [Zero V]

/-- Nothing has happened. -/
structure OnceStart (s : OnceState T A M W V) : Prop where
  flag : s.flag = false
  val : s.val = 0
  idle : ∀ t, s.pc t = .idle
  begun : s.begun = []
  published : s.published = []
  returned : s.returned = []

/-- When a call has returned, a value has been published, it is a full one, and one call has done
the task. -/
def OnceOk (full : M → V → Prop) (s : OnceState T A M W V) : Prop :=
  s.returned ≠ [] → s.val ≠ 0 ∧ full s.mem s.val ∧ ∃ t, s.begun = [t] ∧ s.published = [t]

/-- Whether an access looks at the flag, and returns when it is set. -/
def OncePc.looks (k : Task A M W V B) : OncePc A W V → Bool
  | .load _ | .spin => true
  | .swap _ => !k.spins
  | _ => false

/-- A thread is about to find the flag set while no value is published. -/
def Early (k : Task A M W V B) (s : OnceState T A M W V) : OnceAct T A B → Prop
  | .call .. => False
  | .run t _ => s.flag = true ∧ s.val = 0 ∧ (s.pc t).looks k = true

/-- A step in which no thread finds the flag set too early. -/
def TimelyStep (k : Task A M W V B) (s : OnceState T A M W V) (act : OnceAct T A B)
    (s' : OnceState T A M W V) : Prop :=
  OnceStep k s act s' ∧ ¬Early k s act

/-! ## Phases -/

/-- How far the task is: not begun, in the hands of a thread, or done by it. -/
inductive OncePhase (T : Type*)
  | untouched
  | inside (t : T)
  | done (t : T)

/-- Whether a thread does the task. -/
def OncePc.inside : OncePc A W V → Bool
  | .work _ | .publish _ | .stopped => true
  | _ => false

/-- What a thread that does the task knows. -/
def InsideOk (ok : M → W → Prop) (full : M → V → Prop) (mem : M) : OncePc A W V → Prop
  | .work w => ok mem w
  | .publish v => v ≠ 0 ∧ full mem v
  | _ => True

/-- What is known in a phase. -/
def PhaseOk (ok : M → W → Prop) (full : M → V → Prop) (s : OnceState T A M W V) :
    OncePhase T → Prop
  | .untouched => s.flag = false ∧ s.val = 0 ∧ s.begun = [] ∧ s.published = []
  | .inside t => s.flag = true ∧ s.val = 0 ∧ s.begun = [t] ∧ s.published = [] ∧
      InsideOk ok full s.mem (s.pc t)
  | .done t => s.flag = true ∧ s.val ≠ 0 ∧ s.begun = [t] ∧ s.published = [t] ∧ full s.mem s.val

/-- The invariant: the phase is that of the threads, and what is known in it holds. -/
structure OnceInv (ok : M → W → Prop) (full : M → V → Prop) (s : OnceState T A M W V)
    (ph : OncePhase T) : Prop where
  inside : ∀ t, (s.pc t).inside = true ↔ ph = .inside t
  phase : PhaseOk ok full s ph

/-- What a task must keep of what it knows: it begins with it, and publishes a full value. -/
structure Task.Sound (k : Task A M W V B) (ok : M → W → Prop) (full : M → V → Prop) : Prop where
  start : ∀ a mem, ok mem (k.start a)
  access : ∀ mem w b, ok mem w → k.allows w b →
    InsideOk ok full (k.access mem w b).1 ((k.access mem w b).2.pc : OncePc A W V)

/-- No call has returned or is about to, unless a value is published. -/
structure Patient (s : OnceState T A M W V) : Prop where
  ret : ∀ t, s.pc t = .ret → s.val ≠ 0
  returned : s.returned ≠ [] → s.val ≠ 0

variable {k : Task A M W V B} {ok : M → W → Prop} {full : M → V → Prop}
  {s s' : OnceState T A M W V} {ph : OncePhase T} {act : OnceAct T A B} {t : T} {b : B}
  {p : OncePc A W V} {a : A} {w : W} {v : V} {o : Onward W V} {mem : M}

omit [Zero V] in
@[simp]
theorem OnceState.goto_pc_self : (s.goto t p).pc t = p := Function.update_self ..

omit [Zero V] in
/-- The other threads stay where they are. -/
theorem OnceState.goto_pc_of_ne {t' : T} (h : t' ≠ t) : (s.goto t p).pc t' = s.pc t' :=
  Function.update_of_ne h ..

omit [DecidableEq T] [Zero V] in
/-- A thread that goes on with the task is inside. -/
theorem Onward.pc_inside : (o.pc : OncePc A W V).inside = true := by
  cases o <;> rfl

/-- A thread outside goes elsewhere outside. -/
theorem OnceInv.goto_out (h : OnceInv ok full s ph) (ht : (s.pc t).inside = false)
    (hp : p.inside = false) : OnceInv ok full (s.goto t p) ph := by
  have hph : ph ≠ .inside t := fun e => Bool.false_ne_true (ht.symm.trans ((h.inside t).mpr e))
  constructor
  · intro t'
    by_cases heq : t' = t
    · rw [heq, OnceState.goto_pc_self, hp]
      exact ⟨fun e => absurd e Bool.false_ne_true, fun e => absurd e hph⟩
    · rw [OnceState.goto_pc_of_ne heq]
      exact h.inside t'
  · cases ph with
    | untouched => exact h.phase
    | done t' => exact h.phase
    | inside t' =>
      have hne : t' ≠ t := fun e => hph (congrArg _ e)
      obtain ⟨hflag, hval, hbegun, hpub, hin⟩ := h.phase
      refine ⟨hflag, hval, hbegun, hpub, ?_⟩
      rw [OnceState.goto_pc_of_ne hne]
      exact hin

/-- A thread that finds the flag clear begins the task. -/
theorem OnceInv.begin (h : OnceInv ok full s ph) (hflag : s.flag = false) (hstart : ok s.mem w) :
    OnceInv ok full { s.goto t (.work w) with flag := true, begun := s.begun ++ [t] }
      (.inside t) := by
  cases ph with
  | inside t' => exact absurd (hflag.symm.trans h.phase.1) Bool.false_ne_true
  | done t' => exact absurd (hflag.symm.trans h.phase.1) Bool.false_ne_true
  | untouched =>
    obtain ⟨-, hval, hbegun, hpub⟩ := h.phase
    constructor
    · intro t'
      show ((s.goto t (.work w)).pc t').inside = true ↔ _
      by_cases heq : t' = t
      · rw [heq, OnceState.goto_pc_self]
        exact ⟨fun _ => rfl, fun _ => rfl⟩
      · rw [OnceState.goto_pc_of_ne heq]
        constructor
        · intro e
          exact nomatch (h.inside t').mp e
        · intro e
          exact absurd (OncePhase.inside.inj e).symm heq
    · refine ⟨rfl, hval, ?_, hpub, ?_⟩
      · show s.begun ++ [t] = [t]
        rw [hbegun]
        rfl
      · show InsideOk ok full s.mem ((s.goto t (.work w)).pc t)
        rw [OnceState.goto_pc_self]
        exact hstart

omit [DecidableEq T] in
/-- The thread that does the task is the one of the phase. -/
theorem OnceInv.phase_inside (h : OnceInv ok full s ph) (ht : (s.pc t).inside = true) :
    ph = .inside t := (h.inside t).mp ht

/-- The thread that does the task goes on with it. -/
theorem OnceInv.goOn (h : OnceInv ok full s ph) (ht : (s.pc t).inside = true)
    (hp : p.inside = true) (hin : InsideOk ok full mem p) :
    OnceInv ok full { s.goto t p with mem := mem } (.inside t) := by
  obtain rfl := h.phase_inside ht
  obtain ⟨hflag, hval, hbegun, hpub, -⟩ := h.phase
  constructor
  · intro t'
    show ((s.goto t p).pc t').inside = true ↔ _
    by_cases heq : t' = t
    · rw [heq, OnceState.goto_pc_self, hp]
      exact ⟨fun _ => rfl, fun _ => rfl⟩
    · rw [OnceState.goto_pc_of_ne heq]
      exact h.inside t'
  · refine ⟨hflag, hval, hbegun, hpub, ?_⟩
    show InsideOk ok full mem ((s.goto t p).pc t)
    rw [OnceState.goto_pc_self]
    exact hin

/-- The thread that has done the task publishes its value. -/
theorem OnceInv.publish (h : OnceInv ok full s ph) (hpc : s.pc t = .publish v) :
    OnceInv ok full { s.goto t .ret with val := v, published := s.published ++ [t] }
      (.done t) := by
  obtain rfl := h.phase_inside (by rw [hpc]; rfl : (s.pc t).inside = true)
  obtain ⟨hflag, -, hbegun, hpub, hin⟩ := h.phase
  rw [hpc] at hin
  constructor
  · intro t'
    show ((s.goto t .ret).pc t').inside = true ↔ _
    by_cases heq : t' = t
    · rw [heq, OnceState.goto_pc_self]
      exact ⟨fun e => absurd e Bool.false_ne_true, nofun⟩
    · rw [OnceState.goto_pc_of_ne heq]
      constructor
      · intro e
        exact absurd (OncePhase.inside.inj ((h.inside t').mp e)).symm heq
      · exact nofun
  · refine ⟨hflag, hin.1, hbegun, ?_, hin.2⟩
    show s.published ++ [t] = [t]
    rw [hpub]
    rfl

/-- What every step keeps. -/
theorem OnceInv.step (hk : k.Sound ok full) (h : OnceInv ok full s ph)
    (hst : OnceStep k s act s') : ∃ ph', OnceInv ok full s' ph' := by
  cases hst with
  | call a hidle => exact ⟨ph, h.goto_out (by rw [hidle]; rfl) rfl⟩
  | @run t b s' hrun hb =>
    unfold OnceState.run at hrun
    unfold OnceState.allows at hb
    cases hpc : s.pc t with
    | idle | stopped =>
      rw [hpc] at hrun
      exact absurd hrun (by simp)
    | load a =>
      rw [hpc] at hrun
      obtain rfl := Option.some.inj hrun
      refine ⟨ph, h.goto_out (by rw [hpc]; rfl) ?_⟩
      split <;> rfl
    | spin =>
      rw [hpc] at hrun
      obtain rfl := Option.some.inj hrun
      refine ⟨ph, h.goto_out (by rw [hpc]; rfl) ?_⟩
      split <;> rfl
    | swap a =>
      rw [hpc] at hrun
      dsimp only at hrun
      split at hrun
      · obtain rfl := Option.some.inj hrun
        refine ⟨ph, h.goto_out (by rw [hpc]; rfl) ?_⟩
        split <;> rfl
      · next hflag =>
        obtain rfl := Option.some.inj hrun
        exact ⟨_, h.begin (Bool.eq_false_iff.mpr hflag) (hk.start a s.mem)⟩
    | work w =>
      have ht : (s.pc t).inside = true := by rw [hpc]; rfl
      have hin : InsideOk ok full s.mem (s.pc t) := by
        obtain rfl := h.phase_inside ht
        exact h.phase.2.2.2.2
      rw [hpc] at hrun hb hin
      obtain rfl := Option.some.inj hrun
      exact ⟨_, h.goOn ht Onward.pc_inside (hk.access _ _ _ hin hb)⟩
    | publish v =>
      rw [hpc] at hrun
      obtain rfl := Option.some.inj hrun
      exact ⟨_, h.publish hpc⟩
    | ret =>
      rw [hpc] at hrun
      obtain rfl := Option.some.inj hrun
      have hout : OnceInv ok full (s.goto t .idle) ph := h.goto_out (by rw [hpc]; rfl) rfl
      refine ⟨ph, ⟨hout.inside, ?_⟩⟩
      cases ph <;> exact hout.phase

omit [DecidableEq T] in
/-- Once a value is published, the task is done. -/
theorem OnceInv.done (h : OnceInv ok full s ph) (hval : s.val ≠ 0) :
    full s.mem s.val ∧ ∃ t, s.begun = [t] ∧ s.published = [t] := by
  cases ph with
  | untouched => exact absurd h.phase.2.1 hval
  | inside t => exact absurd h.phase.2.1 hval
  | done t =>
    obtain ⟨-, -, hbegun, hpub, hfull⟩ := h.phase
    exact ⟨hfull, t, hbegun, hpub⟩

omit [DecidableEq T] in
/-- Nothing has happened in the beginning. -/
theorem OnceStart.inv (h : OnceStart s) : OnceInv ok full s .untouched := by
  constructor
  · intro t
    rw [h.idle]
    exact ⟨fun e => absurd e Bool.false_ne_true, nofun⟩
  · exact ⟨h.flag, h.val, h.begun, h.published⟩

omit [Zero V] in
/-- A call that finds the flag set is about to return. -/
theorem OnceState.run_looks (hrun : s.run k t b = some s') (hflag : s.flag = true)
    (hlooks : (s.pc t).looks k = true) : s' = s.goto t .ret := by
  unfold OnceState.run at hrun
  cases hpc : s.pc t with
  | load a =>
    rw [hpc] at hrun
    dsimp only at hrun
    rw [if_pos hflag] at hrun
    exact (Option.some.inj hrun).symm
  | spin =>
    rw [hpc] at hrun
    dsimp only at hrun
    rw [if_pos hflag] at hrun
    exact (Option.some.inj hrun).symm
  | swap a =>
    rw [hpc] at hlooks
    have hspins : k.spins = false := by simpa [OncePc.looks] using hlooks
    rw [hpc] at hrun
    dsimp only at hrun
    rw [if_pos hflag, hspins] at hrun
    exact (Option.some.inj hrun).symm
  | idle | work | publish | stopped | ret =>
    rw [hpc] at hlooks
    exact absurd hlooks (by simp [OncePc.looks])

/-- A call that finds the flag set too early may return before there is a value. -/
theorem OnceStep.early (hst : OnceStep k s act s') (hearly : Early k s act) :
    ∃ t b s'', act = .run t b ∧ OnceStep k s' (.run t b) s'' ∧ ¬OnceOk full s'' := by
  cases hst with
  | call a hidle => exact hearly.elim
  | @run t b s' hrun hb =>
    obtain ⟨hflag, hval, hlooks⟩ := hearly
    obtain rfl := OnceState.run_looks hrun hflag hlooks
    have hpc : (s.goto t .ret).pc t = .ret := OnceState.goto_pc_self
    refine ⟨t, b, { (s.goto t .ret).goto t .idle with returned := s.returned ++ [t] }, rfl, ?_, ?_⟩
    · refine .run ?_ ?_
      · unfold OnceState.run
        rw [hpc]
        rfl
      · unfold OnceState.allows
        rw [hpc]
        trivial
    · intro hok
      have hne : s.returned ++ [t] ≠ [] := by simp
      exact (hok hne).1 hval

omit [DecidableEq T] in
/-- Nobody is about to return in the beginning. -/
theorem OnceStart.patient (h : OnceStart s) : Patient s := by
  constructor
  · intro t hpc
    rw [h.idle] at hpc
    exact nomatch hpc
  · intro hne
    exact absurd h.returned hne

/-- A thread goes where it is not about to return, or a value is there. -/
theorem Patient.goto (h : Patient s) (hp : p = .ret → s.val ≠ 0) : Patient (s.goto t p) := by
  constructor
  · intro t' hpc
    by_cases heq : t' = t
    · rw [heq, OnceState.goto_pc_self] at hpc
      exact hp hpc
    · rw [OnceState.goto_pc_of_ne heq] at hpc
      exact h.ret t' hpc
  · exact h.returned

/-- A step that is not too early leads nobody to return without a value. -/
theorem Patient.step (hinv : OnceInv ok full s ph) (h : Patient s)
    (hst : TimelyStep k s act s') : Patient s' := by
  obtain ⟨hst, htimely⟩ := hst
  cases hst with
  | call a hidle => exact h.goto nofun
  | @run t b s' hrun hb =>
    -- A thread that looks at a set flag finds a value.
    have hlook : s.flag = true → (s.pc t).looks k = true → s.val ≠ 0 :=
      fun hflag hlooks hval => htimely ⟨hflag, hval, hlooks⟩
    unfold OnceState.run at hrun
    cases hpc : s.pc t with
    | idle | stopped =>
      rw [hpc] at hrun
      exact absurd hrun (by simp)
    | load a =>
      rw [hpc] at hrun hlook
      obtain rfl := Option.some.inj hrun
      refine h.goto fun e => ?_
      split at e
      · next hflag => exact hlook hflag rfl
      · exact nomatch e
    | spin =>
      rw [hpc] at hrun hlook
      obtain rfl := Option.some.inj hrun
      refine h.goto fun e => ?_
      split at e
      · next hflag => exact hlook hflag rfl
      · exact nomatch e
    | swap a =>
      rw [hpc] at hrun hlook
      dsimp only at hrun
      split at hrun
      · next hflag =>
        obtain rfl := Option.some.inj hrun
        refine h.goto fun e => ?_
        split at e
        · exact nomatch e
        · next hspins =>
          exact hlook hflag (by simpa [OncePc.looks] using hspins)
      · obtain rfl := Option.some.inj hrun
        have hgo : Patient (s.goto t (.work (k.start a))) := h.goto nofun
        exact ⟨hgo.ret, hgo.returned⟩
    | work w =>
      rw [hpc] at hrun
      obtain rfl := Option.some.inj hrun
      have hgo : Patient (s.goto t (k.access s.mem w b).2.pc) := by
        refine h.goto fun e => ?_
        cases ho : (k.access s.mem w b).2 <;> rw [ho] at e <;> exact nomatch e
      exact ⟨hgo.ret, hgo.returned⟩
    | publish v =>
      have hin : v ≠ 0 := by
        obtain rfl := hinv.phase_inside (by rw [hpc]; rfl : (s.pc t).inside = true)
        have hin := hinv.phase.2.2.2.2
        rw [hpc] at hin
        exact hin.1
      rw [hpc] at hrun
      obtain rfl := Option.some.inj hrun
      exact ⟨fun _ _ => hin, fun _ => hin⟩
    | ret =>
      rw [hpc] at hrun
      obtain rfl := Option.some.inj hrun
      have hval := h.ret t hpc
      have hgo : Patient (s.goto t .idle) := h.goto nofun
      exact ⟨hgo.ret, fun _ => hval⟩

/-- In a run in which no call finds the flag set too early, the task is done when a call has
returned. -/
theorem OnceOk.of_reachable (hk : k.Sound ok full)
    (hreach : Reachable OnceStart (TimelyStep k) s) : OnceOk full s := by
  have hinv : Patient s ∧ ∃ ph, OnceInv ok full s ph := by
    refine hreach.invariant (P := fun s => Patient s ∧ ∃ ph, OnceInv ok full s ph) ?_ ?_
    · intro s hstart
      exact ⟨hstart.patient, _, hstart.inv⟩
    · rintro s act s' ⟨hpatient, ph, hinv⟩ hst
      exact ⟨hpatient.step hinv hst, hinv.step hk hst.1⟩
  obtain ⟨hpatient, ph, hinv⟩ := hinv
  intro hne
  have hval := hpatient.returned hne
  exact ⟨hval, hinv.done hval⟩

/-- A thread that calls the function after another one has begun the task may return at once. -/
theorem OnceStart.overtaken (h : OnceStart s) {t t' : T} (hne : t ≠ t') (a : A) (b : B) :
    ∃ s', Run (OnceStep k) s
      [.call t a, .run t b, .run t b, .call t' a, .run t' b, .run t' b] s' ∧ ¬OnceOk full s' := by
  let s₁ := s.goto t (.load a)
  let s₂ := s₁.goto t (.swap a)
  let s₃ : OnceState T A M W V :=
    { s₂.goto t (.work (k.start a)) with flag := true, begun := s.begun ++ [t] }
  let s₄ := s₃.goto t' (.load a)
  have h₁ : OnceStep k s (.call t a) s₁ := .call a (h.idle t)
  have hpc₁ : s₁.pc t = .load a := OnceState.goto_pc_self
  have h₂ : OnceStep k s₁ (.run t b) s₂ := by
    constructor
    · unfold OnceState.run
      rw [hpc₁]
      show some (s₁.goto t (if s.flag then .ret else .swap a)) = _
      rw [h.flag]
      rfl
    · unfold OnceState.allows
      rw [hpc₁]
      trivial
  have hpc₂ : s₂.pc t = .swap a := OnceState.goto_pc_self
  have h₃ : OnceStep k s₂ (.run t b) s₃ := by
    constructor
    · have hflag : ¬s₂.flag = true := Bool.eq_false_iff.mp h.flag
      unfold OnceState.run
      rw [hpc₂]
      exact if_neg hflag
    · unfold OnceState.allows
      rw [hpc₂]
      trivial
  have hpc₃ : s₃.pc t' = .idle := by
    have hgoto : s₃.pc t' = s.pc t' := by
      show ((s₁.goto t (.swap a)).goto t (.work (k.start a))).pc t' = _
      rw [OnceState.goto_pc_of_ne hne.symm, OnceState.goto_pc_of_ne hne.symm,
        OnceState.goto_pc_of_ne hne.symm]
    rw [hgoto, h.idle]
  have h₄ : OnceStep k s₃ (.call t' a) s₄ := .call a hpc₃
  have hpc₄ : s₄.pc t' = .load a := OnceState.goto_pc_self
  have h₅ : OnceStep k s₄ (.run t' b) (s₄.goto t' .ret) := by
    constructor
    · unfold OnceState.run
      rw [hpc₄]
      rfl
    · unfold OnceState.allows
      rw [hpc₄]
      trivial
  have hearly : Early k s₄ (.run t' b) := ⟨rfl, h.val, by rw [hpc₄]; rfl⟩
  obtain ⟨t'', b', s₆, hact, h₆, hbad⟩ : ∃ t'' b' s₆, OnceAct.run t' b = .run t'' b' ∧
      OnceStep k (s₄.goto t' .ret) (.run t'' b') s₆ ∧ ¬OnceOk full s₆ := h₅.early hearly
  obtain ⟨rfl, rfl⟩ := OnceAct.run.inj hact
  exact ⟨s₆, (((((Run.single h₁).snoc h₂).snoc h₃).snoc h₄).snoc h₅).snoc h₆, hbad⟩

end Steps

end Minix.Lib
