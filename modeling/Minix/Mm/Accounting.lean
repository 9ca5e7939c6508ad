import Minix.Mm.Ends
import Minix.Mm.HoleGrowth
import Minix.Mm.Intel

/-!
# Processes give back what they got

The size of the memory of a process is nowhere kept, but no call changes what is worked out for it
(`Keeps`): the stack grows at the expense of the gap, the data too, and a child has the sizes of its
parent. So a process gives back the block that it got by its last fork or exec (`Accounted`), and
that is in memory. Giving it back makes no hole smaller, wherever the holes are, and a program that
fits in the largest hole before still fits in one after (`newMem_safe`).
-/

namespace Minix.Mm.Intel

open Lib

variable {phys : PhysMem} {s s' : IntelState} {mm mm' mm'' : MState} {n : ProcNr} {p : MProc}
  {t : HoleTable} {k : Outside}

/-- The block that the process got last. -/
def lastGot (n : ProcNr) : List BlockEvent → Option Span
  | [] => none
  | .got m block :: l => if m = n then some block else lastGot n l
  | .freed _ _ :: l => lastGot n l

/-- What is passed to `free_mem` for a process, servers and `INIT` aside, is the block that it got
last. -/
def Accounted : List BlockEvent → Prop
  | [] => True
  | .got _ _ :: l => Accounted l
  | .freed n block :: l => (INIT_PROC_NR < n → lastGot n l = some block) ∧ Accounted l

/-- `new_mem` gets the memory that is there, and panics at most because the hole table is full when
the old image is released. -/
structure NewMemSafe (t : HoleTable) (p : MProc) (sizes : ExecSizes) (stk_bytes : ℕ) (bf : ℤ) :
    Prop where
  alloc : ∀ m t', maxHole t = some m → newClicks sizes ≤ m →
    freeMem t (released p).1 (released p).2 = some t' →
    ∃ base t'', allocMem t' (newClicks sizes) = some (base, t'') ∧ base ≠ NO_MEM
  no_panic : newMem t p sizes stk_bytes bf = none → t.free_slots = none

/-! ## What is worked out from the segments -/

/-- The clicks of a process, without the intermediate results. -/
theorem progClicks_eq (p : MProc) : progClicks p = u16 (p.segS.mem_len +
    (p.segS.mem_vir - p.segD.mem_vir) + if p.mp_flags.SEPARATE then p.segT.mem_len else 0) := by
  unfold progClicks u16
  dsimp only
  split_ifs <;> omega

/-- It depends on few of the fields. -/
theorem released_congr {p q : MProc} (hT : q.segT = p.segT)
    (hdata : (q.segS.mem_len + (q.segS.mem_vir - q.segD.mem_vir) : ℤ) % 2 ^ 16 =
      (p.segS.mem_len + (p.segS.mem_vir - p.segD.mem_vir)) % 2 ^ 16)
    (hsep : q.mp_flags.SEPARATE = p.mp_flags.SEPARATE) : released q = released p := by
  unfold released
  rw [progClicks_eq, progClicks_eq, hT, hsep]
  refine congrArg (Prod.mk _) ?_
  unfold u16
  omega

/-- What the stack gets, it takes from the gap. -/
theorem moveStack_sum (p : MProc) (delta : ℤ) (c : ℕ) :
    (((moveStack p delta).segS.mem_len : ℤ) + ((moveStack p delta).segS.mem_vir - c)) % 2 ^ 16 =
      (p.segS.mem_len + (p.segS.mem_vir - c)) % 2 ^ 16 := by
  unfold moveStack u16
  dsimp only
  omega

theorem moveStack_released (p : MProc) (delta : ℤ) : released (moveStack p delta) = released p :=
  released_congr rfl (moveStack_sum p delta _) rfl

/-- `adjust` adds and removes memory from the gap only. -/
theorem adjust_released (n : ProcNr) (p : MProc) (data_clicks sp : ℕ) :
    released (adjust n p data_clicks sp).2 = released p := by
  have hlen : ∀ (q : MProc) (c : ℕ),
      released { q with segD := { q.segD with mem_len := c } } = released q :=
    fun q c => released_congr rfl rfl rfl
  unfold adjust
  dsimp only
  split_ifs
  · rfl
  · rfl
  · rfl
  · exact (moveStack_released _ _).trans (hlen p _)
  · rw [moveStack_released, hlen, moveStack_released, hlen]
  · rfl
  · exact hlen p _
  · exact (hlen _ _).trans (hlen p _)

theorem adjust_flags (n : ProcNr) (p : MProc) (data_clicks sp : ℕ) :
    (adjust n p data_clicks sp).2.mp_flags = p.mp_flags := by
  unfold adjust
  dsimp only
  split_ifs <;> rfl

theorem doBrk_released (n : ProcNr) (p : MProc) (addr : ℤ) (new_sp : ℕ) :
    released (doBrk n p addr new_sp).2.2 = released p := by
  unfold doBrk
  dsimp only
  split_ifs
  · rfl
  · exact adjust_released ..
  · exact adjust_released ..

theorem doBrk_flags (n : ProcNr) (p : MProc) (addr : ℤ) (new_sp : ℕ) :
    (doBrk n p addr new_sp).2.2.mp_flags = p.mp_flags := by
  unfold doBrk
  dsimp only
  split_ifs
  · rfl
  · exact adjust_flags ..
  · exact adjust_flags ..

/-- A child has the block that was got for it. -/
theorem childOf_released (who : ProcNr) (p : MProc) (base : ℕ) :
    released (childOf who p base) = (base, progClicks p) := rfl

/-- A program that is executed has the block that was got for it. -/
theorem newMap_released {base text_clicks data_clicks stack_clicks tot_clicks : ℕ} {separate : Bool}
    (st_uid : Option ℕ) (htext : separate = false → text_clicks = 0) :
    released (execEntry (newMap p base text_clicks data_clicks
        (u16 (tot_clicks - data_clicks - stack_clicks)) stack_clicks) separate st_uid) =
      (base, u16 (text_clicks + tot_clicks)) := by
  unfold released
  rw [progClicks_eq]
  unfold execEntry newMap
  refine congrArg (Prod.mk _) ?_
  cases separate with
  | false =>
    rw [htext rfl]
    unfold u16
    dsimp only
    rw [if_neg Bool.false_ne_true]
    omega
  | true =>
    unfold u16
    dsimp only
    rw [if_pos rfl]
    omega

/-! ## Frames -/

/-- What is worked out for a process stays the same, and slots become free at most. -/
structure Keeps (mm mm' : MState) : Prop where
  released : ∀ n, released (mm'.mproc n) = released (mm.mproc n)
  use : ∀ n, (mm'.flags n).IN_USE = true → (mm.flags n).IN_USE = true

theorem Keeps.trans (h : Keeps mm mm') (h' : Keeps mm' mm'') : Keeps mm mm'' :=
  ⟨fun n => (h'.released n).trans (h.released n), fun n hn => h.use n (h'.use n hn)⟩

theorem Keeps.of_ends (h : Ends mm mm') : Keeps mm mm' := by
  refine ⟨fun n => ?_, h.use⟩
  have hown := h.own n
  simp only [ownOf, Prod.mk.injEq] at hown
  obtain ⟨hT, hD, hS, hsep, -⟩ := hown
  exact released_congr hT (by rw [hD, hS]) hsep

theorem SameMemory.keeps (h : SameMemory mm mm') : Keeps mm mm' :=
  ⟨fun n => released_congr (h.segT n) (by rw [h.segD, h.segS]) (h.separate n), h.in_use⟩

/-- An assignment to an entry. -/
theorem Keeps.set {f : MProc → MProc} (hrel : Intel.released (f (mm.mproc n)) =
      Intel.released (mm.mproc n))
    (huse : (f (mm.mproc n)).mp_flags.IN_USE = true → (mm.flags n).IN_USE = true) :
    Keeps mm (mm.set n f) := by
  refine ⟨fun m => ?_, fun m hm => ?_⟩
  · by_cases h : m = n
    · subst h
      simpa [MState.set] using hrel
    · simp [MState.set, h]
  · by_cases h : m = n
    · subst h
      rw [set_flags_self] at hm
      exact huse hm
    · rwa [set_flags_of_ne h] at hm

theorem dumpCore_ends (k : Outside) (mm : MState) (rmp : ProcNr) (sig_nr : ℕ) :
    Ends mm (dumpCore k mm rmp sig_nr) := by
  unfold dumpCore
  split_ifs
  · exact Ends.refl mm
  · exact Ends.set rfl id

theorem dumpCore_flags (k : Outside) (mm : MState) (rmp : ProcNr) (sig_nr : ℕ) :
    (dumpCore k mm rmp sig_nr).flags rmp = mm.flags rmp := by
  unfold dumpCore
  split_ifs
  · rfl
  · exact set_flags_self

theorem stopProc_ends (k : Outside) (mm : MState) (rmp : ProcNr) (sig_nr : ℕ) :
    Ends mm (stopProc k mm rmp sig_nr) := by
  have hstopped : Ends mm (mm.setFlags rmp fun f => { f with STOPPED := true }) := Ends.set rfl id
  unfold stopProc
  dsimp only
  split_ifs
  · exact Ends.refl mm
  · exact hstopped.trans ((Ends.set rfl id).trans (reply_ends ..))
  · exact hstopped.trans (Ends.set rfl id)

theorem catchSig_keeps (k : Outside) (mm : MState) (rmp : ProcNr) (sig_nr : ℕ) :
    Keeps mm (catchSig k mm rmp sig_nr).2 := by
  have hcatch : Keeps mm (mm.set rmp fun p => { p with mp_catch := clearSig p.mp_catch sig_nr }) :=
    Keeps.set rfl id
  unfold catchSig
  dsimp only
  refine hcatch.trans (Keeps.set (adjust_released ..) fun hu => ?_)
  rw [adjust_flags] at hu
  exact hu

theorem catchSig_flags (k : Outside) (mm : MState) (rmp : ProcNr) (sig_nr : ℕ) :
    (catchSig k mm rmp sig_nr).2.flags rmp = mm.flags rmp := by
  unfold catchSig
  dsimp only
  rw [set_flags_self, adjust_flags]
  exact set_flags_self

/-! ## Steps -/

/-- The invariant of the runs. -/
structure Sound (s : IntelState) : Prop where
  holes : ∃ H, HolesFit s.table H
  fits : ∀ n, INIT_PROC_NR ≤ n → (s.mm.flags n).IN_USE = true → Fits (released (s.mm.mproc n))
  got : ∀ n, INIT_PROC_NR < n → (s.mm.flags n).IN_USE = true →
    lastGot n s.log = some (released (s.mm.mproc n))
  log : Accounted s.log

theorem Sound.keeps (h : Sound s) (hk : Keeps s.mm mm) : Sound { s with mm := mm } where
  holes := h.holes
  fits n hn hu := by
    show Fits (released (mm.mproc n))
    rw [hk.released]
    exact h.fits n hn (hk.use n hu)
  got n hn hu := by
    show lastGot n s.log = some (released (mm.mproc n))
    rw [hk.released]
    exact h.got n hn (hk.use n hu)
  log := h.log

/-- The block of a process is released. -/
theorem Sound.free (h : Sound s) (huser : INIT_PROC_NR ≤ n) (huse : (s.mm.flags n).IN_USE = true)
    (hf : freeMem s.table (released (s.mm.mproc n)).1 (released (s.mm.mproc n)).2 = some t) :
    Sound { s with table := t, log := .freed n (released (s.mm.mproc n)) :: s.log } := by
  obtain ⟨H, hH⟩ := h.holes
  have hslot : s.table.free_slots ≠ none := by
    intro e
    rw [freeMem_full e] at hf
    cases hf
  obtain ⟨t', H', ht', hH', -⟩ := freeMem_grown hH hslot (h.fits n huser huse)
  obtain rfl := Option.some.inj (ht'.symm.trans hf)
  exact ⟨⟨H', hH'⟩, h.fits, h.got, fun hn => h.got n hn huse, h.log⟩

/-- A process exits. It may hang, or have exited before. -/
theorem Sound.mmExit {exit_status : ℤ} (h : Sound s) (huser : INIT_PROC_NR ≤ n)
    (huse : (s.mm.flags n).IN_USE = true) (hx : mmExit s n exit_status = some s') : Sound s' := by
  obtain ⟨mm, hmm, hx⟩ := Option.bind_eq_some_iff.mp hx
  obtain ⟨t, ht, hx⟩ := Option.bind_eq_some_iff.mp hx
  obtain rfl := Option.some.inj hx
  have hk := Keeps.of_ends (mmExit_ends hmm)
  rw [hk.released n] at ht ⊢
  exact (h.free huser huse ht).keeps hk

theorem Sound.killProc {sig_nr : ℕ} (h : Sound s) (huser : INIT_PROC_NR ≤ n)
    (huse : (s.mm.flags n).IN_USE = true) (hx : killProc k s n sig_nr = some s') : Sound s' := by
  have hstatus : Keeps s.mm (s.mm.set n fun p => { p with mp_sigstatus := sig_nr }) :=
    Keeps.set rfl id
  have huse₁ : ((s.mm.set n fun p => { p with mp_sigstatus := sig_nr }).flags n).IN_USE = true := by
    rw [set_flags_self]
    exact huse
  unfold Intel.killProc at hx
  dsimp only at hx
  split_ifs at hx
  · have hk := hstatus.trans (Keeps.of_ends (dumpCore_ends k _ n sig_nr))
    refine (h.keeps hk).mmExit huser ?_ hx
    rw [dumpCore_flags]
    exact huse₁
  · exact (h.keeps hstatus).mmExit huser huse₁ hx

theorem Sound.sigProc {sig_nr : ℕ} (h : Sound s) (huser : INIT_PROC_NR ≤ n)
    (hx : sigProc k s n sig_nr = some s') : Sound s' := by
  unfold Intel.sigProc at hx
  dsimp only at hx
  split_ifs at hx with hfree htraced hcatch hroom
  · obtain rfl := Option.some.inj hx
    exact h
  · obtain rfl := Option.some.inj hx
    exact h.keeps (Keeps.of_ends (stopProc_ends ..))
  · obtain rfl := Option.some.inj hx
    exact h.keeps (catchSig_keeps ..)
  · refine (h.keeps (catchSig_keeps k s.mm n sig_nr)).killProc huser ?_ hx
    rw [catchSig_flags]
    simpa using hfree
  · exact h.killProc huser (by simpa using hfree) hx

theorem Sound.stackFault (h : Sound s) (huser : INIT_PROC_NR ≤ n)
    (hx : stackFault k s n = some s') : Sound s' := by
  have hadjust : Keeps s.mm (s.mm.set n fun _ => (adjust n (s.mm.mproc n)
      (s.mm.mproc n).segD.mem_len (u16 (k.sp n SIGSTKFLT))).2) := by
    refine Keeps.set (adjust_released ..) fun hu => ?_
    rw [adjust_flags] at hu
    exact hu
  unfold Intel.stackFault at hx
  dsimp only at hx
  split_ifs at hx
  · obtain rfl := Option.some.inj hx
    exact h.keeps hadjust
  · exact (h.keeps (hadjust.trans (Keeps.set rfl id))).sigProc huser hx

theorem Sound.brk {addr r res_ptr : ℤ} {new_sp : ℕ} (h : Sound s)
    (hb : doBrk n (s.mm.mproc n) addr new_sp = (r, res_ptr, p)) :
    Sound { s with mm := s.mm.set n fun _ => p } := by
  have hp : (doBrk n (s.mm.mproc n) addr new_sp).2.2 = p := by rw [hb]
  refine h.keeps (Keeps.set ?_ fun hu => ?_)
  · rw [← hp]
    exact doBrk_released ..
  · rw [← hp, doBrk_flags] at hu
    exact hu

/-- An entry that is made for a process in a slot, with the block that was got for it. -/
theorem Sound.got_block {block : Span} {H : List Span} (h : Sound s) (hH : HolesFit t H)
    (hblock : Fits block) (hrel : released p = block) (hk : Keeps (s.mm.set n fun _ => p) mm) :
    Sound ⟨mm, t, .got n block :: s.log⟩ := by
  have hself : released (mm.mproc n) = block := by
    rw [hk.released, ← hrel]
    simp [MState.set]
  have hother : ∀ m ≠ n, released (mm.mproc m) = released (s.mm.mproc m) ∧
      ((mm.flags m).IN_USE = true → (s.mm.flags m).IN_USE = true) := by
    intro m hm
    refine ⟨?_, fun hu => ?_⟩
    · rw [hk.released]
      simp [MState.set, hm]
    · have hu' := hk.use m hu
      rwa [set_flags_of_ne hm] at hu'
  refine ⟨⟨H, hH⟩, fun m huser hu => ?_, fun m huser hu => ?_, h.log⟩
  · by_cases hm : m = n
    · rw [hm]
      exact hself ▸ hblock
    · show Fits (released (mm.mproc m))
      rw [(hother m hm).1]
      exact h.fits m huser ((hother m hm).2 hu)
  · by_cases hm : m = n
    · rw [hm]
      exact (if_pos rfl).trans (congrArg some hself.symm)
    · show (if n = m then _ else _) = some (released (mm.mproc m))
      rw [if_neg (Ne.symm hm), (hother m hm).1]
      exact h.got m huser ((hother m hm).2 hu)

/-- The rest of `do_fork` has nothing to do with memory. -/
theorem findPid_keeps {rmc : ProcNr} {fuel : ℕ} (h : findPid rmc fuel mm = some mm') :
    Keeps mm mm' := by
  obtain ⟨pid, rfl, -⟩ := findPid_found h
  have hset : Keeps { mm with next_pid := pid } (mm.withPid rmc pid) := Keeps.set rfl id
  exact ⟨hset.released, hset.use⟩

theorem setProcgrp_keeps (mm : MState) (who rmc : ProcNr) : Keeps mm (setProcgrp mm who rmc) := by
  unfold setProcgrp
  split_ifs
  · exact Keeps.set rfl id
  · exact Keeps.of_ends (Ends.refl mm)

theorem Sound.fork {r : ℤ} (h : Sound s) (hf : doFork s n = some (r, s')) : Sound s' := by
  have hrefused : ∀ {r' : ℤ} {s₁ : IntelState}, some (r', s₁) = some (r, s') → s' = s₁ :=
    fun e => (Prod.mk.inj (Option.some.inj e)).2.symm
  obtain ⟨H, hH⟩ := h.holes
  unfold doFork at hf
  split_ifs at hf
  · exact hrefused hf ▸ h
  · exact hrefused hf ▸ h
  · obtain ⟨⟨base, t⟩, halloc, hf⟩ := Option.bind_eq_some_iff.mp hf
    rcases allocMem_fit hH (progClicks (s.mm.mproc n)) with ⟨-, hno⟩ | ⟨base', t', H', he, hH', hfit⟩
    · obtain ⟨rfl, rfl⟩ := Prod.mk.inj (Option.some.inj (hno.symm.trans halloc))
      exact hrefused hf ▸ h
    · obtain ⟨rfl, rfl⟩ := Prod.mk.inj (Option.some.inj (he.symm.trans halloc))
      have hbase : base' ≠ NO_MEM := Nat.ne_of_gt hfit.1
      dsimp only at hf
      rw [if_neg hbase] at hf
      obtain ⟨rmc, -, hf⟩ := Option.bind_eq_some_iff.mp hf
      obtain ⟨mm, hpid, hf⟩ := Option.bind_eq_some_iff.mp hf
      obtain rfl := hrefused hf
      have hrecord : Ends (setProcgrp mm n rmc) ((setProcgrp mm n rmc).record (.fork rmc)) :=
        .of_mproc rfl rfl
      have hrest : Keeps mm (reply ((setProcgrp mm n rmc).record (.fork rmc)) rmc 0 0) :=
        (setProcgrp_keeps mm n rmc).trans (Keeps.of_ends (hrecord.trans (reply_ends ..)))
      have hk := (findPid_keeps hpid).trans hrest
      exact h.got_block hH' hfit (childOf_released n (s.mm.mproc n) base') ⟨hk.released, hk.use⟩

/-! ## Executing a program -/

/-- A program that is not separated has no text. -/
theorem readHeader_text {buf : Fin 8 → BitVec 32} {sc : ℕ} {sizes : ExecSizes}
    (h : readHeader buf sc = .ok sizes) :
    sizes = execSizes buf ∧ (sizes.separate = false → virClicks sizes.text_bytes = 0) := by
  have htext : (execSizes buf).separate = false → virClicks (execSizes buf).text_bytes = 0 := by
    intro hsep
    unfold execSizes at hsep ⊢
    dsimp only at hsep ⊢
    split_ifs at hsep ⊢
    show virClicks 0 = 0
    decide
  unfold readHeader at h
  dsimp only at h
  split_ifs at h <;>
  · obtain rfl : execSizes buf = sizes := Except.ok.inj h
    exact ⟨rfl, htext⟩

/-- What `new_mem` does if it succeeds. -/
theorem newMem_ok {sizes : ExecSizes} {stk_bytes : ℕ} {bf : ℤ} {image : NewImage}
    (h : newMem t p sizes stk_bytes bf = some (.ok image)) :
    ∃ t₁ base, freeMem t (released p).1 (released p).2 = some t₁ ∧
      allocMem t₁ (newClicks sizes) = some (base, image.table) ∧ base ≠ NO_MEM ∧
      image.block = (base, newClicks sizes) ∧
      image.entry = newMap p base (virClicks sizes.text_bytes)
        (virClicks (sizes.data_bytes + sizes.bss_bytes))
        (u16 (clicksOf sizes.tot_bytes - virClicks (sizes.data_bytes + sizes.bss_bytes) -
          virClicks stk_bytes)) (virClicks stk_bytes) := by
  unfold newMem at h
  dsimp only at h
  split_ifs at h
  · cases h
  obtain ⟨m, -, h⟩ := Option.bind_eq_some_iff.mp h
  split_ifs at h
  · cases h
  obtain ⟨t₁, hfree, h⟩ := Option.bind_eq_some_iff.mp h
  obtain ⟨⟨base, t₂⟩, halloc, h⟩ := Option.bind_eq_some_iff.mp h
  dsimp only at h
  split_ifs at h with hbase
  obtain ⟨-, -, h⟩ := Option.map_eq_some_iff.mp h
  obtain rfl := Except.ok.inj h
  exact ⟨t₁, base, hfree, halloc, hbase, rfl, rfl⟩

theorem Sound.exec {r : ℤ} {buf : Fin 8 → BitVec 32} {stack_bytes bf : ℤ} {st_uid : Option ℕ}
    (h : Sound s) (huser : INIT_PROC_NR ≤ n) (huse : (s.mm.flags n).IN_USE = true)
    (hx : doExec s n buf stack_bytes bf st_uid = some (r, s')) : Sound s' := by
  have hrefused : ∀ {r' : ℤ} {s₁ : IntelState}, some (r', s₁) = some (r, s') → s' = s₁ :=
    fun e => (Prod.mk.inj (Option.some.inj e)).2.symm
  unfold doExec at hx
  dsimp only at hx
  split_ifs at hx
  · exact hrefused hx ▸ h
  split at hx
  · exact hrefused hx ▸ h
  · next sizes hsizes =>
    obtain ⟨result, hnew, hx⟩ := Option.map_eq_some_iff.mp hx
    cases result with
    | error r' =>
      obtain ⟨-, rfl⟩ := Prod.mk.inj hx
      exact h
    | ok image =>
      obtain ⟨-, rfl⟩ := Prod.mk.inj hx
      obtain ⟨t₁, base, hfree, halloc, hbase, hblock, hentry⟩ := newMem_ok hnew
      have hfreed := h.free huser huse hfree
      obtain ⟨H, hH⟩ := hfreed.holes
      have hrel : released (execEntry image.entry sizes.separate st_uid) = image.block := by
        rw [hentry, hblock]
        exact newMap_released st_uid (readHeader_text hsizes).2
      rcases allocMem_fit hH (newClicks sizes) with ⟨-, hno⟩ | ⟨base', t', H', he, hH', hfit⟩
      · exact absurd (Prod.mk.inj (Option.some.inj (halloc.symm.trans hno))).1 hbase
      · obtain ⟨rfl, rfl⟩ := Prod.mk.inj (Option.some.inj (he.symm.trans halloc))
        exact hfreed.got_block hH' (hblock ▸ hfit) hrel (Keeps.of_ends (Ends.refl _))

/-- The loop that zeroes memory ends without a panic. -/
theorem zeroMem_some {bf : ℤ} (hbf : bf ≠ 0) (fuel : ℕ) {base bytes : ℤ} (hbase : 0 < base)
    (hbytes : bytes ≤ fuel * ZEROBUF_SIZE) : zeroMem bf (fuel + 1) base bytes = some () := by
  induction fuel generalizing base bytes with
  | zero =>
    rw [zeroMem, if_pos (by simpa using hbytes)]
  | succ fuel ih =>
    rw [zeroMem]
    split_ifs with hpos
    · rfl
    have hcount : 0 < min bytes ZEROBUF_SIZE := lt_min (not_le.mp hpos) (by decide)
    have hcopy : memCopy bf base (min bytes ZEROBUF_SIZE) = OK := by
      unfold memCopy
      rw [if_neg hcount.ne', if_neg (not_or.mpr ⟨hbf, hbase.ne'⟩)]
    dsimp only
    rw [if_neg (not_not.mpr hcopy)]
    refine ih (by omega) ?_
    unfold ZEROBUF_SIZE at hbytes ⊢
    push_cast at hbytes
    omega

/-- A program that fits in the largest hole still does when memory has been released. -/
theorem newMem_alloc {H : List Span} {clicks m : ℕ} {t' : HoleTable} (h : HolesFit t H)
    (hx : Fits (released p)) (hm : maxHole t = some m) (hle : clicks ≤ m)
    (hf : freeMem t (released p).1 (released p).2 = some t') :
    ∃ base t'', allocMem t' clicks = some (base, t'') ∧ base ≠ NO_MEM := by
  have hslot : t.free_slots ≠ none := by
    intro e
    rw [freeMem_full e] at hf
    cases hf
  obtain ⟨t₁, H', ht', hH', hgrown⟩ := freeMem_grown h hslot hx
  obtain rfl := Option.some.inj (ht'.symm.trans hf)
  -- One of the holes is large enough, be it only that of the old image.
  have hfits : ∃ y ∈ H', clicks ≤ y.2 := by
    obtain ⟨ls, hls, rfl⟩ := h.lists
    obtain ⟨m', hm', -, hmax⟩ := maxHole_lists hls
    obtain rfl := Option.some.inj (hm'.symm.trans hm)
    rcases hmax with rfl | ⟨x, hxm, rfl⟩
    · obtain ⟨y, hy, -⟩ := hgrown _ List.mem_cons_self
      exact ⟨y, hy, hle.trans (Nat.zero_le _)⟩
    · obtain ⟨y, hy, hxy⟩ := hgrown x (List.mem_cons_of_mem _ hxm)
      exact ⟨y, hy, hle.trans hxy⟩
  rcases allocMem_fit hH' clicks with ⟨hno, -⟩ | ⟨base, t'', H'', he, -, hfit⟩
  · obtain ⟨y, hy, hcy⟩ := hfits
    exact absurd (hno y hy) (not_lt.mpr hcy)
  · exact ⟨base, t'', he, Nat.ne_of_gt hfit.1⟩

/-- From a sound state `new_mem` does not panic, once the old image is released. -/
theorem newMem_safe {buf : Fin 8 → BitVec 32} {stk_bytes : ℕ} {bf : ℤ} (h : Sound s)
    (huser : INIT_PROC_NR ≤ n) (huse : (s.mm.flags n).IN_USE = true) (hbf : bf ≠ 0) :
    NewMemSafe s.table (s.mm.mproc n) (execSizes buf) stk_bytes bf := by
  obtain ⟨H, hH⟩ := h.holes
  have hx := h.fits n huser huse
  refine ⟨fun m t' hm hle hf => newMem_alloc hH hx hm hle hf, fun hpanic => ?_⟩
  by_contra hslot
  obtain ⟨ls, hls, hspans⟩ := hH.lists
  obtain ⟨m, hm, -⟩ := maxHole_lists hls
  obtain ⟨t', -, hf, -⟩ := freeMem_grown hH hslot hx
  unfold newMem at hpanic
  dsimp only at hpanic
  rw [hm] at hpanic
  simp only [Option.bind_some] at hpanic
  split_ifs at hpanic with hgap hmax
  obtain ⟨base, t'', halloc, hbase⟩ := newMem_alloc hH hx hm (not_lt.mp hmax) hf
  have h₁ := Option.bind_eq_none_iff.mp hpanic t' hf
  have h₂ := Option.bind_eq_none_iff.mp h₁ (base, t'') halloc
  dsimp only at h₂
  rw [if_neg hbase, Option.map_eq_none_iff] at h₂
  have hdata : 0 ≤ (execSizes buf).data_bytes := by
    unfold execSizes
    dsimp only
    split_ifs <;> exact Int.natCast_nonneg _
  rw [show zeroFuel = 2 ^ 15 - 1 + 1 from rfl, zeroMem_some hbf] at h₂
  · cases h₂
  · have hpos : 0 < base := Nat.pos_of_ne_zero hbase
    rw [shiftRight_click, Int.shiftLeft_eq, Int.shiftLeft_eq]
    unfold newMap CLICK_SHIFT
    dsimp only
    push_cast
    omega
  · have hlt := u16_lt (virClicks ((execSizes buf).data_bytes + (execSizes buf).bss_bytes) +
      u16 (clicksOf (execSizes buf).tot_bytes -
        virClicks ((execSizes buf).data_bytes + (execSizes buf).bss_bytes) -
        virClicks stk_bytes) + virClicks stk_bytes)
    rw [shiftRight_click, Int.shiftLeft_eq, Int.shiftLeft_eq]
    unfold CLICK_SHIFT ZEROBUF_SIZE
    omega

/-! ## Runs -/

theorem Sound.step {a : ProcNr × IntelCall} (h : Sound s) (hst : IntelStep s a s') : Sound s' := by
  cases hst with
  | fork _ _ hf => exact h.fork hf
  | exec huser huse hx => exact h.exec huser huse hx
  | brk _ _ hb => exact h.brk hb
  | sigProc huser hx => exact h.sigProc huser hx
  | stackFault huser _ hx => exact h.stackFault huser hx
  | mmExit huser huse hx => exact h.mmExit huser huse hx
  | other hm => exact h.keeps hm.keeps

/-- After `do_brk2` only `INIT` has memory, that of the system. -/
theorem initState_sound (i : InitSize) {H : List Span} (hH : HolesFit t H) :
    Sound (initState i t) := by
  have hother : ∀ n, INIT_PROC_NR < n → ((initState i t).mm.flags n).IN_USE = false := by
    intro n hn
    have hne : n ≠ INIT_PROC_NR := ne_of_gt hn
    have hflags : (initState i t).mm.flags n = (mmInit i.segs).flags n := by
      unfold initState
      dsimp only
      exact setFlags_of_ne hne
    have hnew : ∀ n : ProcNr, INIT_PROC_NR < n →
        (n == MM_PROC_NR || n == FS_PROC_NR || n == INIT_PROC_NR) = false := by
      decide
    rw [hflags]
    exact hnew n hn
  refine ⟨⟨H, hH⟩, fun n hn hu => ?_, fun n hn hu => ?_, trivial⟩
  · rcases eq_or_lt_of_le hn with rfl | hn
    · have hrel : released ((initState i t).mm.mproc INIT_PROC_NR) =
          (i.org, u16 (i.text + i.data + if i.text != 0 then i.text else 0)) := by
        unfold released
        rw [progClicks_eq]
        simp [initState, MState.setFlags, MState.set, mmInit, InitSize.segs]
      rw [hrel]
      have hpos := i.pos
      have hbelow := i.below
      refine ⟨hpos, ?_⟩
      unfold u16 memEnd
      dsimp only
      split_ifs <;> omega
    · rw [hother n hn] at hu
      cases hu
  · rw [hother n hn] at hu
    cases hu

/-- The holes of a state of the allocator are in memory. -/
theorem holesFit_of_reachable {m : Memory} (h : Reachable (MemStart phys) MemStep m) :
    ∃ H, HolesFit m.table H := by
  obtain ⟨H, hH⟩ := reachable_balanced h
  exact ⟨H, hH.holes.lists, fun x hx => ⟨Nat.pos_of_ne_zero (hH.base_ne hx), hH.holes.within x hx⟩⟩

theorem IntelStart.sound (h : IntelStart phys s) : Sound s := by
  obtain ⟨i, t, hmem, rfl | ⟨ram_clicks, ram_base, table, -, halloc, rfl⟩⟩ := h
  · obtain ⟨H, hH⟩ := holesFit_of_reachable (Reachable.of_init hmem)
    exact initState_sound i hH
  · have hram := (Reachable.of_init hmem).of_step (MemStep.alloc (s := ⟨t, _⟩) halloc)
    obtain ⟨H, hH⟩ := holesFit_of_reachable hram
    exact initState_sound i hH

/-- In every run a process gives back exactly the block that it got by its last fork or exec, and
`new_mem` gets the memory for a program that fits in the largest hole. -/
theorem memory_accounting (h : Reachable (IntelStart phys) IntelStep s) :
    (∀ n, INIT_PROC_NR < n → (s.mm.flags n).IN_USE = true →
      lastGot n s.log = some (released (s.mm.mproc n))) ∧
    Accounted s.log ∧
    ∀ n, INIT_PROC_NR ≤ n → (s.mm.flags n).IN_USE = true → ∀ buf stk_bytes bf, bf ≠ 0 →
      NewMemSafe s.table (s.mm.mproc n) (execSizes buf) stk_bytes bf := by
  have hinv : Sound s := h.invariant (fun _ => IntelStart.sound) fun _ _ _ h hst => h.step hst
  exact ⟨hinv.got, hinv.log, fun n huser huse _ _ _ hbf => newMem_safe hinv huser huse hbf⟩

/-- `INIT` in the last 20 of 100 clicks of the system. -/
def smallInit : InitSize := ⟨80, 0, 20, by decide, by decide⟩

/-- `INIT` makes a child, which gets the 20 clicks behind the system, and can execute a program. -/
theorem memory_accounting_child : ∃ s : IntelState, lastGot 3 s.log = some (100, 20) ∧
    ((∀ n, INIT_PROC_NR < n → (s.mm.flags n).IN_USE = true →
      lastGot n s.log = some (released (s.mm.mproc n))) ∧
    Accounted s.log ∧
    ∀ n, INIT_PROC_NR ≤ n → (s.mm.flags n).IN_USE = true → ∀ buf stk_bytes bf, bf ≠ 0 →
      NewMemSafe s.table (s.mm.mproc n) (execSizes buf) stk_bytes bf) := by
  have hrun : ((memInit ⟨0, 0, fun _ => none, none, none⟩ twoChunks.chunks).bind fun t =>
      (maxHole t).bind fun m => (allocMem t 100).bind fun p =>
        (doFork (initState smallInit p.2) 2).bind fun r =>
          some (m, p.1, r.2.log)) = some (640, 0, [.got 3 (100, 20)]) := by
    decide +kernel
  simp only [Option.bind_eq_some_iff, Option.some.injEq, Prod.mk.injEq] at hrun
  obtain ⟨t, h₁, m, h₂, ⟨_, t₁⟩, h₃, ⟨r, s⟩, h₄, rfl, rfl, hlog⟩ := hrun
  have hmem : MemStart twoChunks ⟨t₁, [(0, 100)]⟩ :=
    ⟨_, t, 640, 100, h₁, by decide, h₂, by decide, h₃, rfl⟩
  have hstart : IntelStart twoChunks (initState smallInit t₁) := ⟨smallInit, t₁, hmem, Or.inl rfl⟩
  have hfork : IntelStep (initState smallInit t₁) (2, .fork) s :=
    IntelStep.fork (by decide) rfl h₄
  refine ⟨s, ?_, memory_accounting ((Reachable.of_init hstart).of_step hfork)⟩
  have hlog' : s.log = [.got 3 (100, 20)] := hlog
  rw [hlog']
  rfl

end Minix.Mm.Intel
