import Minix.Lib.Run
import Minix.Mm.Break

/-!
# The map of a process that runs

The map of a process is adjusted any number of times from one `exec` to the next: by `do_brk`,
before a signal is caught, and when the stack has overflowed. What the process has in its stack
stays where it is, and its data never meets its stack (`map_run`).
-/

namespace Minix.Mm

open Lib

/-- The map of process `n` is adjusted, or this is refused. -/
inductive MapStep (n : ProcNr) (p : MProc) : Unit → MProc → Prop
  | brk (addr new_sp : ℤ) : MapStep n p () (doBrk n p addr new_sp).2.2
  | signal {k : Outside} {s : MState} (sig_nr : ℕ) (h : s.mproc n = p) :
      MapStep n p () ((catchSig k s n sig_nr).2.mproc n)
  | fault (new_sp : ℤ) : MapStep n p () (adjust n p p.segD.mem_len (new_sp - CLICK_SIZE)).2

/-- Data and stack are in one block of memory, with the clicks between them. -/
def OneBlock (p : MProc) : Prop :=
  p.segS.mem_phys + p.segD.mem_vir = p.segD.mem_phys + p.segS.mem_vir

/-- The data begins and the stack ends where they did, the stack has not become smaller, and it ends
where it did in memory. -/
structure MapKept (p p' : MProc) : Prop where
  text : p'.segT = p.segT
  data_vir : p'.segD.mem_vir = p.segD.mem_vir
  data_phys : p'.segD.mem_phys = p.segD.mem_phys
  stack_end : p'.segS.mem_vir + p'.segS.mem_len = p.segS.mem_vir + p.segS.mem_len
  stack_phys : p'.segS.mem_phys + p'.segS.mem_len = p.segS.mem_phys + p.segS.mem_len
  grows : p.segS.mem_len ≤ p'.segS.mem_len

variable {n : ProcNr} {p p' q : MProc} {data_clicks : ℕ} {sp : ℤ} {as : List Unit}

theorem MapKept.trans (h : MapKept p q) (h' : MapKept q p') : MapKept p p' where
  text := h'.text.trans h.text
  data_vir := h'.data_vir.trans h.data_vir
  data_phys := h'.data_phys.trans h.data_phys
  stack_end := h'.stack_end.trans h.stack_end
  stack_phys := h'.stack_phys.trans h.stack_phys
  grows := h.grows.trans h'.grows

theorem MapKept.oneBlock (h : MapKept p p') (hp : OneBlock p) : OneBlock p' := by
  have := h.data_vir
  have := h.data_phys
  have := h.stack_end
  have := h.stack_phys
  unfold OneBlock at hp ⊢
  omega

/-- A call of `adjust`, whatever comes of it. -/
theorem AdjustCall.kept (hn : n ≠ INIT_PROC_NR) (hp : MapOk p) (hone : OneBlock p)
    (h : AdjustCall p data_clicks sp) :
    MapOk (adjust n p data_clicks sp).2 ∧ MapKept p (adjust n p data_clicks sp).2 := by
  refine ⟨h.mapOk hn hp, ?_⟩
  rcases adjust_atomic hn hp h with hrefused | ⟨-, hdone⟩
  · rw [hrefused]
    exact ⟨rfl, rfl, rfl, rfl, rfl, le_rfl⟩
  · refine ⟨?_, hdone.data_vir, hdone.data_phys, hdone.stack_end, hdone.stack_phys_eq ?_,
      hdone.stack_grows⟩
    · rw [hdone.rest]
    · unfold OneBlock at hone
      omega

theorem MapStep.kept (hn : n ≠ INIT_PROC_NR) (hp : MapOk p) (hone : OneBlock p)
    (h : MapStep n p () p') : MapOk p' ∧ MapKept p p' := by
  cases h with
  | brk addr new_sp =>
    unfold doBrk
    by_cases hlow : brkClicks addr < p.segD.mem_vir
    · rw [if_pos hlow]
      exact ⟨hp, rfl, rfl, rfl, rfl, rfl, le_rfl⟩
    · rw [if_neg hlow]
      have hcall := AdjustCall.kept hn hp hone (.brk addr new_sp (not_lt.mp hlow))
      dsimp only
      split_ifs <;> exact hcall
  | @signal k s sig_nr h =>
    subst h
    have hcall := AdjustCall.kept hn
      (p := { s.mproc n with mp_catch := clearSig (s.mproc n).mp_catch sig_nr })
      ⟨hp.data, hp.stack, hp.dClicks, hp.sClicks⟩ hone (.signal (k.sp n sig_nr))
    unfold catchSig
    simp only [MState.set, Function.update_self]
    exact ⟨hcall.1, hcall.2.text, hcall.2.data_vir, hcall.2.data_phys, hcall.2.stack_end,
      hcall.2.stack_phys, hcall.2.grows⟩
  | fault new_sp => exact AdjustCall.kept hn hp hone (.fault new_sp)

/-- Whatever a process other than `INIT` does about its data and its stack from one `exec` to the
next: they do not meet, neither in its address space nor in memory, the data begins where it did,
and what was in the stack is in it at the same place of memory. -/
theorem map_run (hn : n ≠ INIT_PROC_NR) (hp : MapOk p) (hone : OneBlock p)
    (hrun : Run (MapStep n) p as p') :
    p'.segD.mem_vir + p'.segD.mem_len ≤ p'.segS.mem_vir ∧
      p'.segD.mem_phys + p'.segD.mem_len ≤ p'.segS.mem_phys ∧
      p'.segS.mem_vir + p'.segS.mem_len = p.segS.mem_vir + p.segS.mem_len ∧
      (p'.segT, p'.segD.mem_vir, p'.segD.mem_phys) = (p.segT, p.segD.mem_vir, p.segD.mem_phys) ∧
      ∀ click < p.segS.mem_len, ∃ click' < p'.segS.mem_len,
        p'.segS.mem_vir + click' = p.segS.mem_vir + click ∧
        p'.segS.mem_phys + click' = p.segS.mem_phys + click := by
  have hall : MapOk p' ∧ MapKept p p' := by
    refine hrun.invariant (P := fun q => MapOk q ∧ MapKept p q)
      ⟨hp, rfl, rfl, rfl, rfl, rfl, le_rfl⟩ ?_
    rintro q ⟨⟩ q' ⟨hq, hkept⟩ hstep
    obtain ⟨hq', hkept'⟩ := hstep.kept hn hq (hkept.oneBlock hone)
    exact ⟨hq', hkept.trans hkept'⟩
  obtain ⟨hok, hkept⟩ := hall
  have hone' := hkept.oneBlock hone
  have hdata := hok.data
  have hend := hkept.stack_end
  have hphys := hkept.stack_phys
  have hgrows := hkept.grows
  unfold OneBlock at hone hone'
  refine ⟨hdata, by omega, hend, ?_, fun click hclick => ?_⟩
  · rw [hkept.text, hkept.data_vir, hkept.data_phys]
  · exact ⟨click + (p'.segS.mem_len - p.segS.mem_len), by omega, by omega, by omega⟩

/-- A click of the stack after the data has grown. -/
theorem map_run_brk : ∃ click' < (doBrk 3 twoSegments 0x12345 0x1FF00).2.2.segS.mem_len,
    (doBrk 3 twoSegments 0x12345 0x1FF00).2.2.segS.mem_phys + click' = 0x205 := by
  obtain ⟨-, -, -, -, hkept⟩ := map_run (n := 3) (p := twoSegments) (by decide) twoSegments_mapOk
    rfl (.single (.brk 0x12345 0x1FF00))
  obtain ⟨click', hlt, -, hphys⟩ := hkept 5 (by decide)
  exact ⟨click', hlt, hphys⟩

end Minix.Mm
