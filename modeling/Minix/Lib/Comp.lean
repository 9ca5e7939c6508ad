import Mathlib.Data.Nat.Notation

/-!
# Computations that may stop

A computation works on a state; it returns a value, or the program stops for some reason. `Holds P m
Q E` says that in a state of `P` the computation `m` leads to a state of `Q`, which may depend on
the value, and that where it stops the state is one of `E`. There is a rule for each way to put
computations together.
-/

namespace Minix.Lib

/-- What a computation comes to. -/
inductive Result (σ ε α : Type)
  | ok (a : α) (s : σ)
  | stop (e : ε) (s : σ)

def Result.state {σ ε α : Type} : Result σ ε α → σ
  | .ok _ s => s
  | .stop _ s => s

/-- The value and the state are right, or the reason and the state. -/
def Result.Sat {σ ε α : Type} (Q : α → σ → Prop) (E : ε → σ → Prop) :
    Result σ ε α → Prop
  | .ok a s => Q a s
  | .stop e s => E e s

/-- A computation. -/
def Comp (σ ε α : Type) := σ → Result σ ε α

namespace Comp

variable {σ ε α β : Type}

/-- One computation after another. -/
def andThen (m : Comp σ ε α) (f : α → Comp σ ε β) : Comp σ ε β := fun s =>
  match m s with
  | .ok a s' => f a s'
  | .stop e s' => .stop e s'

instance : Monad (Comp σ ε) where
  pure a := fun s => .ok a s
  bind := andThen

/-- Look at the state. -/
def get : Comp σ ε σ := fun s => .ok s s

/-- Change the state. -/
def modify (f : σ → σ) : Comp σ ε Unit := fun s => .ok ⟨⟩ (f s)

/-- The program stops. -/
def stop (e : ε) : Comp σ ε α := fun s => .stop e s

def Holds (P : σ → Prop) (m : Comp σ ε α) (Q : α → σ → Prop) (E : ε → σ → Prop) : Prop :=
  ∀ s, P s → (m s).Sat Q E

variable {P P' : σ → Prop} {Q Q' : α → σ → Prop} {R : β → σ → Prop} {E E' : ε → σ → Prop}
  {m : Comp σ ε α} {f : α → Comp σ ε β}

theorem Holds.pure {a : α} (h : ∀ s, P s → Q a s) : Holds P (Pure.pure a : Comp σ ε α) Q E := h

theorem Holds.bind (hm : Holds P m Q E) (hf : ∀ a, Holds (Q a) (f a) R E) :
    Holds P (m >>= f) R E := by
  intro s hs
  have hfirst := hm s hs
  show (andThen m f s).Sat R E
  rw [andThen]
  cases hr : m s with
  | ok a s' =>
    rw [hr] at hfirst
    exact hf a s' hfirst
  | stop e s' =>
    rw [hr] at hfirst
    exact hfirst

/-- The state that is looked at is the one that is worked on. -/
theorem Holds.get {f : σ → Comp σ ε α} (h : ∀ t, Holds (fun s => s = t ∧ P s) (f t) Q E) :
    Holds P (Comp.get >>= f) Q E := fun s hs => h s s ⟨rfl, hs⟩

theorem Holds.modify {g : σ → σ} {Q : Unit → σ → Prop} (h : ∀ s, P s → Q ⟨⟩ (g s)) :
    Holds P (Comp.modify g : Comp σ ε Unit) Q E := h

theorem Holds.stop {e : ε} (h : ∀ s, P s → E e s) : Holds P (Comp.stop e : Comp σ ε α) Q E := h

/-- More is known in the beginning, and less is asked for in the end. -/
theorem Holds.conseq (h : Holds P m Q E) (hP : ∀ s, P' s → P s) (hQ : ∀ a s, Q a s → Q' a s) :
    Holds P' m Q' E := by
  intro s hs
  have hm := h s (hP s hs)
  cases hr : m s with
  | ok a s' =>
    rw [hr] at hm
    exact hQ a s' hm
  | stop e s' =>
    rw [hr] at hm
    exact hm

theorem Holds.pre (h : Holds P m Q E) (hP : ∀ s, P' s → P s) : Holds P' m Q E :=
  h.conseq hP fun _ _ hq => hq

theorem Holds.post (h : Holds P m Q E) (hQ : ∀ a s, Q a s → Q' a s) : Holds P m Q' E :=
  h.conseq (fun _ hp => hp) hQ

/-- More is allowed of where the computation stops. -/
theorem Holds.stops (h : Holds P m Q E) (hE : ∀ e s, E e s → E' e s) : Holds P m Q E' := by
  intro s hs
  have hm := h s hs
  cases hr : m s with
  | ok a s' =>
    rw [hr] at hm
    exact hm
  | stop e s' =>
    rw [hr] at hm
    exact hE e s' hm

theorem Holds.ite {c : Prop} [Decidable c] {m' : Comp σ ε α} (ht : c → Holds P m Q E)
    (hf : ¬c → Holds P m' Q E) : Holds P (if c then m else m') Q E := by
  by_cases hc : c
  · rw [if_pos hc]
    exact ht hc
  · rw [if_neg hc]
    exact hf hc

end Comp

end Minix.Lib
