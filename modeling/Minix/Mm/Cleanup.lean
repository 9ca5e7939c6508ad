import Minix.Mm.Annals

/-!
# Cleaning up a family

`famOf` is the family that a state is about. `cleanup` releases the slot of a process that hangs
and, if `INIT` waits and inherits a process that hangs, the slot of the first of these
(`cleanup_famOf`); this is what the loop over `mproc[]` and the call of `cleanup` in it come to.
-/

namespace Minix.Mm

open Lib

/-- What an entry says about a process. -/
def memberOf (p : MProc) : Member where
  life := lifeOf p.mp_flags
  waiting := p.mp_flags.IN_USE && p.mp_flags.WAITING
  paused := p.mp_flags.IN_USE && !p.mp_flags.HANGING && p.mp_flags.PAUSED
  odd := if p.mp_flags.IN_USE then !p.mp_flags.HANGING && (p.mp_flags.TRACED || p.mp_flags.STOPPED)
    else p.mp_flags.HANGING
  parent := p.mp_parent
  pid := p.mp_pid
  status := waitStatus p
  catches := p.mp_catch

/-- Creations and exits are what a family remembers. -/
def MmEvent.ofFamily : MmEvent → Bool
  | .fork _ => true
  | .exit _ step => step == .mmExit

/-- The family that a state is about. -/
def famOf (s : MState) : Family where
  member n := memberOf (s.mproc n)
  count := s.procs_in_use
  log := s.log.filter MmEvent.ofFamily
  replies := s.replies

variable {s s' : MState} {n m r q : ProcNr} {f : MProc → MProc} {F : Family}

theorem famOf_member (s : MState) (n : ProcNr) : (famOf s).member n = memberOf (s.mproc n) := rfl

theorem famOf_life (s : MState) (n : ProcNr) : ((famOf s).member n).life = s.life n := rfl

/-- An entry after an assignment. -/
theorem set_mproc (s : MState) (n m : ProcNr) (f : MProc → MProc) :
    (s.set n f).mproc m = if m = n then f (s.mproc n) else s.mproc m := by
  simp [MState.set, Function.update_apply]

/-- An assignment to an entry is one to a process. -/
theorem famOf_set (s : MState) (n : ProcNr) (f : MProc → MProc) :
    famOf (s.set n f) = (famOf s).put n (memberOf (f (s.mproc n))) := by
  have hmember : (famOf (s.set n f)).member =
      ((famOf s).put n (memberOf (f (s.mproc n)))).member := by
    funext m
    rw [famOf_member, set_mproc, put_member]
    split_ifs <;> rfl
  unfold famOf Family.put at *
  simp only [Family.mk.injEq]
  exact ⟨hmember, rfl, rfl, rfl⟩

/-- An assignment to what the family does not know of. -/
theorem famOf_set_same (h : memberOf (f (s.mproc n)) = memberOf (s.mproc n)) :
    famOf (s.set n f) = famOf s := by
  rw [famOf_set, h, ← famOf_member]
  unfold Family.put
  rw [Function.update_eq_self]

/-- A reply to a process that lives. -/
theorem famOf_reply (h : s.life q = .live) (result res2 : ℤ) :
    famOf (reply s q result res2) = (famOf s).say q result res2 := by
  unfold reply
  rw [if_neg (life_live.mp h)]
  rfl

/-- A reply to a process that does not live. -/
theorem famOf_reply_dead (h : s.life q ≠ .live) (result res2 : ℤ) : reply s q result res2 = s := by
  unfold reply
  rw [if_pos (not_not.mp (mt life_live.mpr h))]

/-! ## Releasing a slot -/

/-- The children of a process are given to `INIT`, as far as they are in the list. -/
def Family.adopt (F : Family) (n : ProcNr) (l : List ProcNr) : Family :=
  { F with
    member := fun x =>
      { F.member x with
        parent := if x ∈ l ∧ (F.member x).parent = n then INIT_PROC_NR else (F.member x).parent } }

/-- The slot of a process is released, as `cleanup` does it. -/
def Family.release (F : Family) (n : ProcNr) : Family :=
  F.after (.released n (F.member n).parent ((F.member (F.member n).parent).life == .live)
    (F.member n).pid (F.member n).status)

/-- The slot of a process is released, but its children are left. -/
def Family.shed (F : Family) (n : ProcNr) : Family :=
  { F.release n with
    member := fun x => { (F.release n).member x with parent := (F.member x).parent } }

/-- Every process is in the table. -/
theorem mem_mprocs (n : ProcNr) : n ∈ mprocs := List.mem_finRange n

/-- Releasing a slot leaves the children to be given away. -/
theorem Family.shed_adopt (F : Family) (n : ProcNr) : (F.shed n).adopt n mprocs = F.release n := by
  unfold Family.adopt Family.shed Family.release Family.after Member.afterRelease
  simp only [mem_mprocs, true_and]

/-- What releasing the flags does to a process. -/
theorem releaseFlags_member (hn : s.life n = .zombie) (hp : q ≠ n)
    (hodd : (memberOf (s.mproc n)).odd = false) (x : ProcNr) :
    memberOf ((releaseFlags s n q).mproc x) = { memberOf (s.mproc x) with
      life := if x = n then .free else (memberOf (s.mproc x)).life
      waiting := if x = n ∨ x = q then false else (memberOf (s.mproc x)).waiting } := by
  have hlife : lifeOf (s.mproc n).mp_flags = .zombie := hn
  unfold releaseFlags MState.setFlags
  simp only [set_mproc]
  by_cases hx : x = n
  · subst hx
    have hpaused : (memberOf (s.mproc x)).paused = false := by
      unfold lifeOf at hlife
      simp only [memberOf]
      grind
    simp only [if_true, if_neg hp.symm, true_or]
    rw [Member.mk.injEq]
    refine ⟨rfl, rfl, hpaused.symm, hodd.symm, rfl, rfl, rfl, rfl⟩
  · by_cases hxq : x = q
    · subst hxq
      simp [hp, memberOf, lifeOf, waitStatus]
    · simp [hx, hxq]

/-- The first part of `cleanup`, for a process that hangs. -/
theorem releaseSlot_famOf (hn : s.life n = .zombie) (hp : (s.mproc n).mp_parent ≠ n)
    (hodd : (memberOf (s.mproc n)).odd = false) : famOf (releaseSlot s n) = (famOf s).shed n := by
  have hreply : ∀ q r r2, (reply s q r r2).mproc = s.mproc ∧ (reply s q r r2).log = s.log ∧
      (reply s q r r2).procs_in_use = s.procs_in_use := by
    intro q r r2
    unfold reply
    split_ifs
    · exact ⟨rfl, rfl, rfl⟩
    · exact ⟨rfl, rfl, rfl⟩
  obtain ⟨hm, hlog, hcount⟩ := hreply (s.mproc n).mp_parent (s.mproc n).mp_pid
    (waitStatus (s.mproc n))
  have hmembers : (famOf (releaseSlot s n)).member = ((famOf s).shed n).member := by
    funext x
    have hflags := releaseFlags_member (s := reply s (s.mproc n).mp_parent (s.mproc n).mp_pid
      (waitStatus (s.mproc n))) (n := n) (q := (s.mproc n).mp_parent) (by
        unfold MState.life MState.flags
        rw [hm]
        exact hn) hp (by rw [hm]; exact hodd) x
    rw [hm] at hflags
    exact hflags
  have hreplies : (famOf (releaseSlot s n)).replies = ((famOf s).shed n).replies := by
    show (reply s (s.mproc n).mp_parent (s.mproc n).mp_pid (waitStatus (s.mproc n))).replies =
      if s.life (s.mproc n).mp_parent == .live then _ else s.replies
    by_cases hlive : s.life (s.mproc n).mp_parent = .live
    · rw [if_pos (by simpa using hlive)]
      exact congrArg Family.replies (famOf_reply hlive _ _)
    · rw [if_neg (by simpa using hlive), famOf_reply_dead hlive]
  have hlog' : (famOf (releaseSlot s n)).log = ((famOf s).shed n).log :=
    congrArg (List.filter MmEvent.ofFamily) hlog
  have hcount' : (famOf (releaseSlot s n)).count = ((famOf s).shed n).count :=
    congrArg (fun c : ℤ => c - 1) hcount
  exact Family.ext hmembers hcount' hlog' hreplies

/-! ## Giving children away -/

/-- The members of a family whose children are given away. -/
theorem adopt_member (F : Family) (n : ProcNr) (l : List ProcNr) (x : ProcNr) :
    (F.adopt n l).member x = { F.member x with
      parent := if x ∈ l ∧ (F.member x).parent = n then INIT_PROC_NR else (F.member x).parent } := rfl

/-- Nothing is done for nobody. -/
theorem adopt_nil (F : Family) (n : ProcNr) : F.adopt n [] = F := by
  unfold Family.adopt
  simp

/-- An entry that is no child is passed over. -/
theorem adopt_other (l : List ProcNr) (h : (F.member m).parent ≠ n) :
    F.adopt n (m :: l) = F.adopt n l := by
  unfold Family.adopt
  rw [Family.mk.injEq]
  refine ⟨funext fun x => ?_, rfl, rfl, rfl⟩
  have hx : (x ∈ m :: l ∧ (F.member x).parent = n) ↔ (x ∈ l ∧ (F.member x).parent = n) := by
    rw [List.mem_cons]
    grind
  simp only [hx]

/-- A child is given away before the others. -/
theorem adopt_child (l : List ProcNr) (hn : n ≠ INIT_PROC_NR) (h : (F.member m).parent = n) :
    F.adopt n (m :: l) = (F.put m { F.member m with parent := INIT_PROC_NR }).adopt n l := by
  have hmember : (F.adopt n (m :: l)).member =
      ((F.put m { F.member m with parent := INIT_PROC_NR }).adopt n l).member := by
    funext x
    rw [adopt_member, adopt_member, put_member]
    by_cases hx : x = m
    · subst hx
      simp [h, hn.symm]
    · simp [hx]
  exact Family.ext hmember rfl rfl rfl

/-- The assignment by which a child is given away. -/
theorem famOf_inherit (s : MState) (x : ProcNr) :
    famOf (s.set x fun p => { p with mp_parent := INIT_PROC_NR }) =
      (famOf s).put x { (famOf s).member x with parent := INIT_PROC_NR } :=
  famOf_set s x _

/-- The loop of `cleanup`, when `INIT` does not wait. -/
theorem disinherit_false (clean : MState → ProcNr → Option MState) (hn : n ≠ INIT_PROC_NR)
    {l : List ProcNr} {st : MState × Bool}
    (h : l.foldlM (disinherit clean n) (s, false) = some st) :
    famOf st.1 = (famOf s).adopt n l := by
  induction l generalizing s with
  | nil =>
    obtain rfl : (s, false) = st := by simpa using h
    rw [adopt_nil]
  | cons x l ih =>
    rw [List.foldlM_cons] at h
    obtain ⟨st₁, h₁, h₂⟩ := Option.bind_eq_some_iff.mp h
    unfold disinherit at h₁
    dsimp only at h₁
    simp only [Bool.false_eq_true, false_and, if_false] at h₁
    split_ifs at h₁ with hx
    · obtain rfl := Option.some.inj h₁
      rw [ih h₂, famOf_inherit, ← adopt_child l hn hx]
    · obtain rfl := Option.some.inj h₁
      rw [ih h₂, adopt_other l hx]

/-- Releasing a slot of which `INIT` is the parent, and giving children of another one away. -/
theorem release_adopt (l : List ProcNr) (hn : n ≠ INIT_PROC_NR) (hrn : r ≠ n)
    (hr : (F.member r).parent = INIT_PROC_NR) :
    (F.release r).adopt n l = (F.adopt n l).release r := by
  have hr' : ((F.adopt n l).member r).parent = INIT_PROC_NR := by
    rw [adopt_member]
    simp only [hr]
    grind
  have hmember : ((F.release r).adopt n l).member = ((F.adopt n l).release r).member := by
    funext x
    unfold Family.release
    rw [hr', hr, adopt_member]
    simp only [Family.after, Member.afterRelease, adopt_member]
    grind
  refine Family.ext hmember rfl rfl ?_
  unfold Family.release
  rw [hr', hr]
  rfl

/-- The first child that hangs. -/
def Family.heir (F : Family) (n : ProcNr) (l : List ProcNr) : Option ProcNr :=
  l.find? fun x => decide ((F.member x).parent = n) && (F.member x).life == .zombie

/-- A child that does not hang is no heir, whoever its parent is. -/
theorem heir_put {p : ProcNr} (l : List ProcNr) (h : (F.member m).life ≠ .zombie) :
    F.heir n (m :: l) = (F.put m { F.member m with parent := p }).heir n l := by
  unfold Family.heir
  rw [List.find?_cons_of_neg (by simp [h])]
  congr 1
  funext x
  rw [put_member]
  have hl : ((F.member m).life == .zombie) = false := by simpa using h
  by_cases hx : x = m
  · subst hx
    simp [hl]
  · simp [hx]

/-- In a slot that hangs is a process that hangs, when nothing is odd. -/
theorem hanging_iff {p : MProc} (h : (memberOf p).odd = false) :
    p.mp_flags.HANGING = true ↔ (memberOf p).life = .zombie := by
  simp only [memberOf, lifeOf] at h ⊢
  grind

/-- The loop of `cleanup`, when `INIT` waits: the first child that hangs is cleaned up. -/
theorem disinherit_true {clean : MState → ProcNr → Option MState} (hn : n ≠ INIT_PROC_NR)
    {l : List ProcNr} {st : MState × Bool} (hodd : ∀ x, ((famOf s).member x).odd = false)
    (hself : ∀ x ∈ l, (s.mproc x).mp_parent = n → s.life x = .zombie → x ≠ n ∧ x ≠ INIT_PROC_NR)
    (hclean : ∀ s r s', (∀ x, ((famOf s).member x).odd = false) → s.life r = .zombie →
      (s.mproc r).mp_parent = INIT_PROC_NR → r ≠ INIT_PROC_NR → clean s r = some s' →
      famOf s' = (famOf s).release r)
    (h : l.foldlM (disinherit clean n) (s, true) = some st) :
    famOf st.1 = (match (famOf s).heir n l with
      | none => (famOf s).adopt n l
      | some r => ((famOf s).adopt n l).release r) := by
  induction l generalizing s with
  | nil =>
    obtain rfl : (s, true) = st := by simpa using h
    show famOf s = (famOf s).adopt n []
    rw [adopt_nil]
  | cons x l ih =>
    rw [List.foldlM_cons] at h
    obtain ⟨st₁, h₁, h₂⟩ := Option.bind_eq_some_iff.mp h
    unfold disinherit at h₁
    dsimp only at h₁
    simp only [true_and] at h₁
    have hhang := hanging_iff (hodd x)
    have hodd' : ∀ x y, ((famOf (s.set x fun p => { p with mp_parent := INIT_PROC_NR })).member
        y).odd = false := by
      intro x y
      rw [famOf_inherit, put_member]
      split_ifs
      · exact hodd x
      · exact hodd y
    have hlife' : ∀ x y, (s.set x fun p => { p with mp_parent := INIT_PROC_NR }).life y =
        s.life y := by
      intro x y
      unfold MState.life MState.flags
      rw [set_mproc]
      split_ifs with hyx
      · rw [hyx]
      · rfl
    split_ifs at h₁ with hx hz
    · -- The heir: nobody is waiting afterwards.
      obtain ⟨s₁, hs₁, rfl⟩ := Option.map_eq_some_iff.mp h₁
      have hzombie : s.life x = .zombie := hhang.mp (by simpa using hz)
      obtain ⟨hxn, hxi⟩ := hself x (List.mem_cons_self ..) hx hzombie
      have hheir : (famOf s).heir n (x :: l) = some x := by
        unfold Family.heir
        rw [List.find?_cons_of_pos]
        simp [famOf_member, memberOf, hx]
        exact hzombie
      have hrel := hclean _ x s₁ (hodd' x) ((hlife' x x).trans hzombie) (by simp [set_mproc]) hxi hs₁
      have hinit : ((famOf (s.set x fun p => { p with mp_parent := INIT_PROC_NR })).member x).parent =
          INIT_PROC_NR := by simp [famOf_member, memberOf, set_mproc]
      rw [disinherit_false clean hn h₂, hrel, hheir, release_adopt l hn hxn hinit, famOf_inherit]
      show _ = ((famOf s).adopt n (x :: l)).release x
      rw [adopt_child l hn hx]
    · obtain rfl := Option.some.inj h₁
      have hnot : ((famOf s).member x).life ≠ .zombie := fun hl => hz (by simpa using hhang.mpr hl)
      have hheir : (famOf s).heir n (x :: l) =
          (famOf (s.set x fun p => { p with mp_parent := INIT_PROC_NR })).heir n l := by
        rw [famOf_inherit, heir_put l hnot]
      have hself' : ∀ y ∈ l,
          ((s.set x fun p => { p with mp_parent := INIT_PROC_NR }).mproc y).mp_parent = n →
          (s.set x fun p => { p with mp_parent := INIT_PROC_NR }).life y = .zombie →
          y ≠ n ∧ y ≠ INIT_PROC_NR := by
        intro y hy hyn hyz
        rw [hlife'] at hyz
        rw [set_mproc] at hyn
        split_ifs at hyn
        · exact absurd hyn.symm hn
        · exact hself y (List.mem_cons_of_mem x hy) hyn hyz
      rw [ih (hodd' x) hself' h₂, ← hheir, famOf_inherit, ← adopt_child l hn hx]
    · obtain rfl := Option.some.inj h₁
      have hheir : (famOf s).heir n (x :: l) = (famOf s).heir n l := by
        unfold Family.heir
        rw [List.find?_cons_of_neg]
        simp [famOf_member, memberOf, hx]
      rw [ih hodd (fun y hy => hself y (List.mem_cons_of_mem x hy)) h₂, hheir, adopt_other l hx]

/-! ## Cleaning up -/

/-- What `cleanup` does: `INIT` is given its heir, if it waits for one. -/
def Family.cleanup (F : Family) (n : ProcNr) : Family :=
  if ((F.release n).member INIT_PROC_NR).waiting then
    match F.heir n mprocs with
    | none => F.release n
    | some r => (F.release n).release r
  else F.release n

/-- Cleaning up a child of `INIT` releases its slot, as `INIT` waits no more. -/
theorem cleanup_init_famOf {depth : ℕ} (hodd : ∀ x, ((famOf s).member x).odd = false)
    (hn : s.life n = .zombie) (hp : (s.mproc n).mp_parent = INIT_PROC_NR) (hni : n ≠ INIT_PROC_NR)
    (h : Mm.cleanup (depth + 1) s n = some s') : famOf s' = (famOf s).release n := by
  have hwait := releaseSlot_waiting s n
  rw [hp] at hwait
  obtain ⟨st, h₁, rfl⟩ := Option.map_eq_some_iff.mp h
  rw [hwait] at h₁
  rw [disinherit_false _ hni h₁, releaseSlot_famOf hn ?_ (hodd n), Family.shed_adopt]
  rw [hp]
  exact hni.symm

/-- Cleaning up a process that hangs. -/
theorem cleanup_famOf (hodd : ∀ x, ((famOf s).member x).odd = false) (hn : s.life n = .zombie)
    (hp : (s.mproc n).mp_parent ≠ n) (hni : n ≠ INIT_PROC_NR) (hinit : s.life INIT_PROC_NR = .live)
    (h : Mm.cleanup cleanupDepth s n = some s') : famOf s' = (famOf s).cleanup n := by
  have hshed := releaseSlot_famOf hn hp (hodd n)
  obtain ⟨st, h₁, rfl⟩ := Option.map_eq_some_iff.mp h
  dsimp only at h₁
  have hinit' : (releaseSlot s n).life INIT_PROC_NR = .live := by
    rw [← famOf_life, hshed]
    show (if INIT_PROC_NR = n then Life.free else s.life INIT_PROC_NR) = .live
    rw [if_neg hni.symm, hinit]
  -- Whether `INIT` waits is the same for both.
  have hwait : ((releaseSlot s n).flags INIT_PROC_NR).WAITING =
      (((famOf s).release n).member INIT_PROC_NR).waiting := by
    have huse := life_live.mp hinit'
    rw [not_or, Bool.not_eq_false] at huse
    calc ((releaseSlot s n).flags INIT_PROC_NR).WAITING
        = ((famOf (releaseSlot s n)).member INIT_PROC_NR).waiting := by
          show _ = (((releaseSlot s n).flags INIT_PROC_NR).IN_USE && _)
          rw [huse.1, Bool.true_and]
          rfl
      _ = (((famOf s).release n).member INIT_PROC_NR).waiting := by rw [hshed]; rfl
  unfold Family.cleanup
  rw [← hwait]
  cases hw : ((releaseSlot s n).flags INIT_PROC_NR).WAITING with
  | false =>
    rw [hw] at h₁
    rw [disinherit_false _ hni h₁, hshed, Family.shed_adopt]
    rfl
  | true =>
    rw [hw] at h₁
    have hmember : ∀ x, ((famOf (releaseSlot s n)).member x).odd = false ∧
        ((famOf (releaseSlot s n)).member x).parent = (s.mproc x).mp_parent ∧
        (releaseSlot s n).life x = if x = n then .free else s.life x := by
      intro x
      rw [← famOf_life, hshed]
      exact ⟨hodd x, rfl, rfl⟩
    have hheir : (famOf (releaseSlot s n)).heir n mprocs = (famOf s).heir n mprocs := by
      unfold Family.heir
      congr 1
      funext x
      rw [(hmember x).2.1, famOf_life, (hmember x).2.2]
      by_cases hx : x = n
      · subst hx
        simp [famOf_member, memberOf, hp]
      · rw [if_neg hx]
        rfl
    rw [disinherit_true hni (fun x => (hmember x).1) (fun x _ hxp hxz => ?_)
      (fun s r s' => cleanup_init_famOf) h₁, hheir, hshed, Family.shed_adopt]
    · rfl
    · rw [(hmember x).2.2] at hxz
      split_ifs at hxz with hxn
      refine ⟨hxn, fun hxi => ?_⟩
      rw [hxi, hinit] at hxz
      cases hxz

end Minix.Mm
