import Mathlib.Data.List.Induction
import Mathlib.Data.List.Nodup
import Mathlib.Logic.Function.Basic

/-!
# Rendezvous message passing

What a rendezvous is for, without the machine that implements it. Processes `P` send messages that
lie in buffers `B` to each other, and receive them from a source `S`, which is a name for some of
the processes (`acc`), and for the outside world if `outside` says so. A message that was sent
waits, in its sender's buffer, until it is copied to the buffer of a receiver; the processes that
wait for one receiver are in the order of their sends.

A history is a list of events. `history` computes what it has left open, `Legal` says what may
happen next, and `Lawful` that every event of a history was legal when it happened: nobody sends a
second message or waits for a second one before the first has been dealt with; a message is copied
only to the process it was sent to, which waits for it, has not itself a message outstanding, and
takes the first one in the queue that it accepts; and the copy names its sender.

The results are about lawful histories: the messages of a process are copied once each and in order,
but for the last (`Lawful.sends_eq`); a message that is not outstanding any more has been copied
(`Lawful.taken`); a receive that is not open any more has been answered (`Lawful.answered`); and a
process that sent and then received had its own message taken first (`Lawful.sendrec`).
-/

namespace Minix.Lib.Rendezvous

variable {P B S M : Type*}

/-- What happens between processes. -/
inductive Event (P B S M : Type*)
  /-- `p` sends the message at `b` to `d`. -/
  | send (p d : P) (b : B)
  /-- `p` wants a message from `src` in its buffer `b`. -/
  | receive (p : P) (src : S) (b : B)
  /-- The message at `b` of `p` is copied to `b'` of `d`, as `mess`. -/
  | copy (p : P) (b : B) (d : P) (b' : B) (mess : M)
  /-- A message from outside is put in the buffer `b` of `d`. -/
  | signal (d : P) (b : B)

/-- What a history has left open. -/
structure State (P B S : Type*) where
  /-- The message of a process that was sent and not taken: its destination and its buffer. -/
  sent : P → Option (P × B)
  /-- The processes with a message for `d`, in the order in which they sent. -/
  waiting : P → List P
  /-- The receive of a process that was not answered: its source and its buffer. -/
  opened : P → Option (S × B)

/-- Nothing is open. -/
def State.init : State P B S := ⟨fun _ => none, fun _ => [], fun _ => none⟩

section Histories

variable [DecidableEq P]

/-- What is open after an event. -/
def State.next (A : State P B S) : Event P B S M → State P B S
  | .send p d b =>
    { A with
      sent := Function.update A.sent p (some (d, b))
      waiting := Function.update A.waiting d (A.waiting d ++ [p]) }
  | .receive p src b => { A with opened := Function.update A.opened p (some (src, b)) }
  | .copy p _ d _ _ =>
    { sent := Function.update A.sent p none
      waiting := Function.update A.waiting d ((A.waiting d).erase p)
      opened := Function.update A.opened d none }
  | .signal d _ => { A with opened := Function.update A.opened d none }

/-- What a history has left open. -/
def history (log : List (Event P B S M)) : State P B S := log.foldl State.next State.init

variable (acc : S → P → Bool) (outside : S → Bool) (names : M → P → Prop)

/-- What may happen next. -/
def State.Legal (A : State P B S) : Event P B S M → Prop
  | .send p _ _ => A.sent p = none
  | .receive p _ _ => A.opened p = none
  | .copy p b d b' mess =>
    A.sent p = some (d, b) ∧ A.sent d = none ∧ names mess p ∧
      ∃ src, A.opened d = some (src, b') ∧ (A.waiting d).find? (acc src) = some p
  | .signal d b => A.sent d = none ∧ ∃ src, A.opened d = some (src, b) ∧ outside src = true

/-- Every event of the history was legal when it happened. -/
def Lawful (log : List (Event P B S M)) : Prop :=
  ∀ pre e post, log = pre ++ e :: post → (history pre).Legal acc outside names e

/-- The messages that `p` has sent: their destinations and their buffers. -/
def sends (p : P) : List (Event P B S M) → List (P × B) :=
  List.filterMap fun
    | .send q d b => if q = p then some (d, b) else none
    | _ => none

/-- The messages of `p` that were copied: their destinations and their buffers. -/
def copies (p : P) : List (Event P B S M) → List (P × B) :=
  List.filterMap fun
    | .copy q b d _ _ => if q = p then some (d, b) else none
    | _ => none

variable {acc outside names} {log pre post mid : List (Event P B S M)} {e : Event P B S M}
  {p q d x : P} {b b' : B} {src : S} {mess : M}

@[simp]
theorem history_nil : history ([] : List (Event P B S M)) = State.init := rfl

@[simp]
theorem history_snoc : history (log ++ [e]) = (history log).next e := by simp [history]

/-- The empty history is lawful. -/
theorem lawful_nil : Lawful acc outside names ([] : List (Event P B S M)) :=
  fun pre e post h => by simp at h

/-- A history is lawful when it was so before its last event, and that event was legal. -/
theorem lawful_snoc : Lawful acc outside names (log ++ [e]) ↔
    Lawful acc outside names log ∧ (history log).Legal acc outside names e := by
  constructor
  · intro h
    refine ⟨fun pre e' post hl => ?_, h log e [] rfl⟩
    exact h pre e' (post ++ [e]) (by simp [hl])
  · rintro ⟨h, he⟩ pre e' post hl
    rcases List.eq_nil_or_concat' post with rfl | ⟨post, e'', rfl⟩
    · obtain ⟨rfl, he'⟩ := List.append_inj' hl rfl
      obtain rfl : e = e' := by simpa using he'
      exact he
    · have hl' : log ++ [e] = (pre ++ e' :: post) ++ [e''] := by simp [hl]
      exact h pre e' post (List.append_inj' hl' rfl).1

/-- A lawful history was lawful all along. -/
theorem Lawful.prefix (h : Lawful acc outside names (pre ++ post)) : Lawful acc outside names pre :=
  fun pre' e post' hl => h pre' e (post' ++ post) (by simp [hl])

/-- An event of a lawful history was legal. -/
theorem Lawful.legal (h : Lawful acc outside names (pre ++ e :: post)) :
    (history pre).Legal acc outside names e := h pre e post rfl

/-! ## The queues -/

/-- A process is in the queue of the process that its outstanding message is for, and nowhere else,
and only once. -/
structure State.Wf (A : State P B S) : Prop where
  mem_iff : ∀ p d, p ∈ A.waiting d ↔ ∃ b, A.sent p = some (d, b)
  nodup : ∀ d, (A.waiting d).Nodup

omit [DecidableEq P] in
omit [DecidableEq P] in
/-- A process without an outstanding message is in no queue. -/
theorem State.Wf.notMem {A : State P B S} (h : A.Wf) (hp : A.sent p = none) (d : P) :
    p ∉ A.waiting d := fun hm => by
  obtain ⟨b, hb⟩ := (h.mem_iff p d).mp hm
  rw [hp] at hb
  simp at hb

/-- A legal event keeps the queues in order. -/
theorem State.Wf.next {A : State P B S} (h : A.Wf) (he : A.Legal acc outside names e) :
    (A.next e).Wf := by
  cases e with
  | send p d b =>
    have hp : A.sent p = none := he
    refine ⟨fun x q => ?_, fun q => ?_⟩
    · show x ∈ Function.update A.waiting d _ q ↔ ∃ b', Function.update A.sent p _ x = _
      by_cases hx : x = p
      · subst hx
        rw [Function.update_self]
        by_cases hq : q = d
        · subst hq
          simp
        · rw [Function.update_of_ne hq]
          simp [h.notMem hp q, Ne.symm hq]
      · rw [Function.update_of_ne hx, ← h.mem_iff]
        by_cases hq : q = d
        · subst hq
          simp [hx]
        · rw [Function.update_of_ne hq]
    · show (Function.update A.waiting d _ q).Nodup
      by_cases hq : q = d
      · subst hq
        rw [Function.update_self]
        exact List.nodup_append.mpr ⟨h.nodup q, List.nodup_singleton p, fun y hy z hz e =>
          h.notMem hp q (by rw [List.mem_singleton.mp hz] at e; exact e ▸ hy)⟩
      · rw [Function.update_of_ne hq]
        exact h.nodup q
  | receive => exact ⟨h.mem_iff, h.nodup⟩
  | copy p b d b' mess =>
    have hp : A.sent p = some (d, b) := he.1
    refine ⟨fun x q => ?_, fun q => ?_⟩
    · show x ∈ Function.update A.waiting d _ q ↔ ∃ b', Function.update A.sent p _ x = _
      by_cases hx : x = p
      · subst hx
        rw [Function.update_self]
        by_cases hq : q = d
        · subst hq
          simp [(h.nodup q).not_mem_erase]
        · rw [Function.update_of_ne hq, h.mem_iff, hp]
          simp [Ne.symm hq]
      · rw [Function.update_of_ne hx, ← h.mem_iff]
        by_cases hq : q = d
        · subst hq
          rw [Function.update_self, List.mem_erase_of_ne hx]
        · rw [Function.update_of_ne hq]
    · show (Function.update A.waiting d _ q).Nodup
      by_cases hq : q = d
      · subst hq
        rw [Function.update_self]
        exact (h.nodup q).erase p
      · rw [Function.update_of_ne hq]
        exact h.nodup q
  | signal => exact ⟨h.mem_iff, h.nodup⟩

/-! ## What happened to a message -/

/-- The messages of a process are copied once each and in order, each to the process that it was
sent to; all have been, but for the outstanding one. -/
theorem Lawful.sends_eq (h : Lawful acc outside names log) (p : P) :
    sends p log = copies p log ++ ((history log).sent p).toList := by
  induction log using List.reverseRecOn with
  | nil => rfl
  | append_singleton log e ih =>
    obtain ⟨hl, he⟩ := lawful_snoc.mp h
    have hs := ih hl
    rw [history_snoc]
    simp only [sends, copies, List.filterMap_append] at hs ⊢
    rw [hs]
    cases e with
    | send q d b =>
      by_cases hq : q = p
      · subst hq
        have hn : (history log).sent q = none := he
        simp [State.next, hn]
      · simp [State.next, hq, Function.update_of_ne (Ne.symm hq)]
    | receive => simp [State.next]
    | copy q b d b' mess =>
      by_cases hq : q = p
      · subst hq
        have hn : (history log).sent q = some (d, b) := he.1
        simp [State.next, hn]
      · simp [State.next, hq, Function.update_of_ne (Ne.symm hq)]
    | signal => simp [State.next]

/-- A message stays outstanding until it is copied. -/
theorem State.sent_next {A : State P B S} (he : A.Legal acc outside names e)
    (hs : A.sent p = some (d, b)) :
    (A.next e).sent p = some (d, b) ∨ ∃ b' mess, e = .copy p b d b' mess := by
  cases e with
  | send q d' c =>
    have hq : A.sent q = none := he
    have hne : p ≠ q := by
      rintro rfl
      rw [hs] at hq
      simp at hq
    refine Or.inl ?_
    show Function.update A.sent q _ p = _
    rw [Function.update_of_ne hne, hs]
  | receive => exact Or.inl hs
  | copy q c d' c' mess =>
    by_cases hq : p = q
    · subst hq
      have hd : A.sent p = some (d', c) := he.1
      rw [hs] at hd
      simp only [Option.some.injEq, Prod.mk.injEq] at hd
      obtain ⟨rfl, rfl⟩ := hd
      exact Or.inr ⟨c', mess, rfl⟩
    · refine Or.inl ?_
      show Function.update A.sent q _ p = _
      rw [Function.update_of_ne hq, hs]
  | signal => exact Or.inl hs

/-- A receive stays open until it is answered. -/
theorem State.opened_next {A : State P B S} (he : A.Legal acc outside names e)
    (ho : A.opened p = some (src, b)) :
    (A.next e).opened p = some (src, b) ∨
      (∃ q c mess, e = .copy q c p b mess ∧ acc src q = true ∧ names mess q) ∨
      (e = .signal p b ∧ outside src = true) := by
  cases e with
  | send => exact Or.inl ho
  | receive q src' c =>
    have hq : A.opened q = none := he
    have hne : p ≠ q := by
      rintro rfl
      rw [ho] at hq
      simp at hq
    refine Or.inl ?_
    show Function.update A.opened q _ p = _
    rw [Function.update_of_ne hne, ho]
  | copy q c d c' mess =>
    by_cases hq : p = d
    · subst hq
      obtain ⟨-, -, hn, src', ho', hf⟩ := he
      rw [ho] at ho'
      simp only [Option.some.injEq, Prod.mk.injEq] at ho'
      obtain ⟨rfl, rfl⟩ := ho'
      exact Or.inr (Or.inl ⟨q, c, mess, rfl, List.find?_some hf, hn⟩)
    · refine Or.inl ?_
      show Function.update A.opened d _ p = _
      rw [Function.update_of_ne hq, ho]
  | signal d c =>
    by_cases hq : p = d
    · subst hq
      obtain ⟨-, src', ho', hx⟩ := he
      rw [ho] at ho'
      simp only [Option.some.injEq, Prod.mk.injEq] at ho'
      obtain ⟨rfl, rfl⟩ := ho'
      exact Or.inr (Or.inr ⟨rfl, hx⟩)
    · refine Or.inl ?_
      show Function.update A.opened d _ p = _
      rw [Function.update_of_ne hq, ho]

/-- A message that was outstanding still is, or has been copied to its destination. -/
theorem Lawful.sent_or_taken (h : Lawful acc outside names (pre ++ post))
    (hs : (history pre).sent p = some (d, b)) :
    (history (pre ++ post)).sent p = some (d, b) ∨
      ∃ m₁ b' mess m₂, post = m₁ ++ .copy p b d b' mess :: m₂ := by
  induction post using List.reverseRecOn with
  | nil => exact Or.inl (by rw [List.append_nil, hs])
  | append_singleton post e ih =>
    rw [← List.append_assoc] at h
    obtain ⟨hl, he⟩ := lawful_snoc.mp h
    rcases ih hl with hk | ⟨m₁, b', mess, m₂, rfl⟩
    · rw [← List.append_assoc, history_snoc]
      rcases State.sent_next he hk with hk' | ⟨b', mess, rfl⟩
      · exact Or.inl hk'
      · exact Or.inr ⟨post, b', mess, [], rfl⟩
    · exact Or.inr ⟨m₁, b', mess, m₂ ++ [e], by simp⟩

/-- A receive that was open still is, or has been answered: by a message from its source, or from
outside. -/
theorem Lawful.opened_or_answered (h : Lawful acc outside names (pre ++ post))
    (ho : (history pre).opened p = some (src, b)) :
    (history (pre ++ post)).opened p = some (src, b) ∨
      (∃ m₁ q c mess m₂, post = m₁ ++ .copy q c p b mess :: m₂ ∧ acc src q = true ∧ names mess q) ∨
      (∃ m₁ m₂, post = m₁ ++ .signal p b :: m₂ ∧ outside src = true) := by
  induction post using List.reverseRecOn with
  | nil => exact Or.inl (by rw [List.append_nil, ho])
  | append_singleton post e ih =>
    rw [← List.append_assoc] at h
    obtain ⟨hl, he⟩ := lawful_snoc.mp h
    rcases ih hl with hk | ⟨m₁, q, c, mess, m₂, rfl, ha⟩ | ⟨m₁, m₂, rfl, hx⟩
    · rw [← List.append_assoc, history_snoc]
      rcases State.opened_next he hk with hk' | ⟨q, c, mess, rfl, ha⟩ | ⟨rfl, hx⟩
      · exact Or.inl hk'
      · exact Or.inr (Or.inl ⟨post, q, c, mess, [], rfl, ha⟩)
      · exact Or.inr (Or.inr ⟨post, [], rfl, hx⟩)
    · exact Or.inr (Or.inl ⟨m₁, q, c, mess, m₂ ++ [e], by simp, ha⟩)
    · exact Or.inr (Or.inr ⟨m₁, m₂ ++ [e], by simp, hx⟩)

/-- A process that never received has no receive open. -/
theorem opened_eq_none (h : ∀ src b, Event.receive p src b ∉ log) :
    (history log).opened p = none := by
  induction log using List.reverseRecOn with
  | nil => rfl
  | append_singleton log e ih =>
    have hlog := ih fun src b hm => h src b (by simp [hm])
    rw [history_snoc]
    cases e with
    | send => exact hlog
    | receive q src b =>
      have hq : p ≠ q := by
        rintro rfl
        exact h src b (by simp)
      show Function.update (history log).opened q _ p = none
      rw [Function.update_of_ne hq, hlog]
    | copy q b d b' mess =>
      show Function.update (history log).opened d none p = none
      by_cases hd : p = d
      · rw [hd, Function.update_self]
      · rw [Function.update_of_ne hd, hlog]
    | signal d b =>
      show Function.update (history log).opened d none p = none
      by_cases hd : p = d
      · rw [hd, Function.update_self]
      · rw [Function.update_of_ne hd, hlog]

/-- The message that a send made outstanding. -/
theorem history_send : (history (pre ++ [.send p d b])).sent p = some (d, b) := by
  rw [history_snoc]
  exact Function.update_self ..

/-- The receive that was opened. -/
theorem history_receive : (history (pre ++ [.receive p src b])).opened p = some (src, b) := by
  rw [history_snoc]
  exact Function.update_self ..

/-- A message that is not outstanding any more has been copied to its destination. -/
theorem Lawful.taken (h : Lawful acc outside names (pre ++ .send p d b :: post))
    (hn : (history (pre ++ .send p d b :: post)).sent p = none) :
    ∃ m₁ b' mess m₂, post = m₁ ++ .copy p b d b' mess :: m₂ := by
  rw [List.append_cons] at h hn
  rcases h.sent_or_taken history_send with hs | ht
  · rw [hn] at hs
    simp at hs
  · exact ht

/-- A receive that is not open any more has been answered. -/
theorem Lawful.answered (h : Lawful acc outside names (pre ++ .receive p src b :: post))
    (hn : (history (pre ++ .receive p src b :: post)).opened p = none) :
    (∃ m₁ q c mess m₂, post = m₁ ++ .copy q c p b mess :: m₂ ∧ acc src q = true ∧ names mess q) ∨
      (∃ m₁ m₂, post = m₁ ++ .signal p b :: m₂ ∧ outside src = true) := by
  rw [List.append_cons] at h hn
  rcases h.opened_or_answered history_receive with ho | ha
  · rw [hn] at ho
    simp at ho
  · exact ha

/-- Whoever is copied a message has none outstanding. -/
theorem Lawful.sent_of_copy (h : Lawful acc outside names (pre ++ .copy q b p b' mess :: post)) :
    (history pre).sent p = none := h.legal.2.1

/-- A process that sent, and then received, and waits no more, had its own message taken first, and
then was answered. -/
theorem Lawful.sendrec
    (h : Lawful acc outside names (pre ++ .send p d b :: (mid ++ .receive p src b' :: post)))
    (hn : (history (pre ++ .send p d b :: (mid ++ .receive p src b' :: post))).opened p = none) :
    ∃ m₁ c mess m₂, mid ++ .receive p src b' :: post = m₁ ++ .copy p b d c mess :: m₂ ∧
      ((∃ q c' mess', Event.copy q c' p b' mess' ∈ m₂ ∧ acc src q = true ∧ names mess' q) ∨
        (Event.signal p b' ∈ m₂ ∧ outside src = true)) := by
  have hrec : Lawful acc outside names ((pre ++ .send p d b :: mid) ++ .receive p src b' :: post) := by
    simpa using h
  -- Up to the answer, which comes when nothing of the process is outstanding.
  have hans : ∃ m₁ e m₂, post = m₁ ++ e :: m₂ ∧
      (history ((pre ++ .send p d b :: mid) ++ .receive p src b' :: m₁)).sent p = none ∧
      ((∃ q c mess, e = .copy q c p b' mess ∧ acc src q = true ∧ names mess q) ∨
        (e = .signal p b' ∧ outside src = true)) := by
    rcases hrec.answered (by simpa using hn) with ⟨m₁, q, c, mess, m₂, rfl, ha⟩ | ⟨m₁, m₂, rfl, hx⟩
    · rw [← List.cons_append, ← List.append_assoc] at hrec
      exact ⟨m₁, _, m₂, rfl, hrec.sent_of_copy, Or.inl ⟨q, c, mess, rfl, ha⟩⟩
    · rw [← List.cons_append, ← List.append_assoc] at hrec
      exact ⟨m₁, _, m₂, rfl, hrec.legal.1, Or.inr ⟨rfl, hx⟩⟩
  obtain ⟨m₁, e, m₂, rfl, hnone, he⟩ := hans
  have hpre : Lawful acc outside names (pre ++ .send p d b :: (mid ++ .receive p src b' :: m₁)) := by
    rw [show pre ++ Event.send p d b :: (mid ++ .receive p src b' :: (m₁ ++ e :: m₂)) =
      (pre ++ .send p d b :: (mid ++ .receive p src b' :: m₁)) ++ e :: m₂ by simp] at h
    exact h.prefix
  obtain ⟨k₁, c, mess, k₂, hk⟩ := hpre.taken (by simpa using hnone)
  refine ⟨k₁, c, mess, k₂ ++ e :: m₂, ?_, ?_⟩
  · calc mid ++ .receive p src b' :: (m₁ ++ e :: m₂)
        = (mid ++ .receive p src b' :: m₁) ++ e :: m₂ := by simp
      _ = k₁ ++ .copy p b d c mess :: (k₂ ++ e :: m₂) := by rw [hk]; simp
  · rcases he with ⟨q, c', mess', rfl, ha⟩ | ⟨rfl, hx⟩
    · exact Or.inl ⟨q, c', mess', by simp, ha⟩
    · exact Or.inr ⟨by simp, hx⟩

end Histories

end Minix.Lib.Rendezvous
