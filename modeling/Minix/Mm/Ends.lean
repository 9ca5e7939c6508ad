import Minix.Mm.Lives

/-!
# What exits and waits leave alone

A process that exits, and one that is cleaned up, keep their segments and their process ids, and so
do all others. Slots become free at most (`Ends`).
-/

namespace Minix.Mm

variable {s s' s'' : MState} {rmp child who : ProcNr}

/-- The fields of an entry that last as long as the program runs. -/
def ownOf (p : MProc) : MemMap × MemMap × MemMap × Bool × ℕ :=
  (p.segT, p.segD, p.segS, p.mp_flags.SEPARATE, p.mp_pid)

/-- Nobody's own fields change, and slots become free at most. -/
structure Ends (s s' : MState) : Prop where
  next : s'.next_pid = s.next_pid
  own : ∀ n, ownOf (s'.mproc n) = ownOf (s.mproc n)
  use : ∀ n, (s'.flags n).IN_USE = true → (s.flags n).IN_USE = true

theorem Ends.refl (s : MState) : Ends s s := ⟨rfl, fun _ => rfl, fun _ => id⟩

theorem Ends.trans (h : Ends s s') (h' : Ends s' s'') : Ends s s'' :=
  ⟨h'.next.trans h.next, fun n => (h'.own n).trans (h.own n), fun n hn => h.use n (h'.use n hn)⟩

theorem Ends.of_mproc (hnext : s'.next_pid = s.next_pid) (h : s'.mproc = s.mproc) : Ends s s' := by
  have huse : ∀ n, s'.flags n = s.flags n := fun n => by
    unfold MState.flags
    rw [h]
  exact ⟨hnext, fun n => by rw [h], fun n hn => huse n ▸ hn⟩

/-- An assignment to other fields. -/
theorem Ends.set {n : ProcNr} {f : MProc → MProc} (hown : ownOf (f (s.mproc n)) = ownOf (s.mproc n))
    (huse : (f (s.mproc n)).mp_flags.IN_USE = true → (s.flags n).IN_USE = true) :
    Ends s (s.set n f) := by
  refine ⟨rfl, fun m => ?_, fun m hm => ?_⟩
  · by_cases h : m = n
    · subst h
      simpa [MState.set] using hown
    · simp [MState.set, h]
  · by_cases h : m = n
    · subst h
      rw [set_flags_self] at hm
      exact huse hm
    · rwa [set_flags_of_ne h] at hm

theorem reply_ends (s : MState) (proc_nr : ProcNr) (r r2 : ℤ) : Ends s (reply s proc_nr r r2) := by
  unfold reply
  split_ifs
  · exact Ends.refl s
  · exact .of_mproc rfl rfl

theorem releaseSlot_ends (s : MState) (child : ProcNr) : Ends s (releaseSlot s child) := by
  have hflags : ∀ t : MState, Ends t (releaseFlags t child (s.mproc child).mp_parent) := by
    intro t
    unfold releaseFlags
    exact ((Ends.set rfl id).trans (Ends.set rfl id)).trans
      (Ends.set rfl fun hu => absurd hu Bool.false_ne_true)
  exact (reply_ends ..).trans ((hflags _).trans (.of_mproc rfl rfl))

theorem disinherit_ends {clean : MState → ProcNr → Option MState} {st st' : MState × Bool}
    (hclean : ∀ s rp s', clean s rp = some s' → Ends s s')
    (h : disinherit clean child st rmp = some st') : Ends st.1 st'.1 := by
  unfold disinherit at h
  dsimp only at h
  have hset : Ends st.1 (st.1.set rmp fun p => { p with mp_parent := INIT_PROC_NR }) :=
    Ends.set rfl id
  split_ifs at h
  · obtain ⟨s₁, h₁, rfl⟩ := Option.map_eq_some_iff.mp h
    exact hset.trans (hclean _ _ _ h₁)
  · obtain rfl := Option.some.inj h
    exact hset
  · obtain rfl := Option.some.inj h
    exact Ends.refl _

theorem cleanup_ends {depth : ℕ} (h : cleanup depth s child = some s') : Ends s s' := by
  induction depth generalizing s child s' with
  | zero => cases h
  | succ depth ih =>
    obtain ⟨st, h₁, rfl⟩ := Option.map_eq_some_iff.mp h
    refine foldlM_keeps (P := fun st => Ends s st.1) (fun st rp st' hst hb => ?_)
      (releaseSlot_ends s child) h₁
    exact hst.trans (disinherit_ends (fun _ _ _ => ih) hb)

theorem mmExit_ends {exit_status : ℤ} (h : mmExit s rmp exit_status = some s') : Ends s s' := by
  obtain ⟨s₁, h₁, rfl⟩ := Option.map_eq_some_iff.mp h
  have hstatus : Ends s ((s.record (.exit rmp .mmExit)).set rmp fun p =>
      { p with mp_exitstatus := (exit_status % 2 ^ 8).toNat }) :=
    (Ends.of_mproc rfl rfl : Ends s (s.record (.exit rmp .mmExit))).trans (Ends.set rfl id)
  have hend : Ends ((s.record (.exit rmp .mmExit)).set rmp fun p =>
      { p with mp_exitstatus := (exit_status % 2 ^ 8).toNat }) s₁ := by
    unfold endProc at h₁
    split_ifs at h₁
    · exact cleanup_ends h₁
    · obtain rfl := Option.some.inj h₁
      exact Ends.set rfl id
  have htell : Ends s₁ (tellExit s₁ rmp) := by
    unfold tellExit
    split_ifs
    · have halarm : Ends s₁ (setAlarm s₁ rmp 0) := by
        unfold setAlarm
        exact Ends.set rfl id
      exact halarm.trans (.of_mproc rfl rfl)
    · exact .of_mproc rfl rfl
  exact hstatus.trans (hend.trans htell)

theorem waitFrom_ends {r : ℤ} {l : List ProcNr} {children : ℕ}
    (h : waitFrom who l children s = some (r, s')) : Ends s s' := by
  induction l generalizing children with
  | nil =>
    rw [waitFrom] at h
    split_ifs at h
    · obtain ⟨-, rfl⟩ := Prod.mk.inj (Option.some.inj h)
      have hwaiting : Ends s (s.setFlags who fun f => { f with WAITING := true }) := Ends.set rfl id
      exact hwaiting.trans (.of_mproc rfl rfl)
    · obtain ⟨-, rfl⟩ := Prod.mk.inj (Option.some.inj h)
      exact Ends.refl s
  | cons rp l ih =>
    rw [waitFrom] at h
    split_ifs at h
    · obtain ⟨s₁, h₁, h₂⟩ := Option.map_eq_some_iff.mp h
      obtain ⟨-, rfl⟩ := Prod.mk.inj h₂
      exact (cleanup_ends h₁).trans (.of_mproc rfl rfl)
    · obtain ⟨-, rfl⟩ := Prod.mk.inj (Option.some.inj h)
      have hstopped : ∀ t : MState, Ends t (t.set rp fun p => { p with mp_sigstatus := 0 }) :=
        fun t => Ends.set rfl id
      exact (reply_ends ..).trans ((hstopped _).trans (.of_mproc rfl rfl))
    · exact ih h
    · exact ih h

end Minix.Mm
