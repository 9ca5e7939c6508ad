import Minix.Mm.HoleCalls

/-!
# Holes that may overlap

A block that is returned twice is in two holes, and the holes are not in order any more. What is
left then is that the two lists of the table are sound, and that every hole is where memory is
(`HolesFit`). That is enough for returning memory: no hole gets smaller or is lost, except that it
becomes part of another one (`freeMem_grown`).
-/

namespace Minix.Mm

open Lib

/-- The block is in memory, and not at click 0. -/
def Fits (x : Span) : Prop := 0 < x.1 ∧ x.1 + x.2 ≤ memEnd

/-- The holes of the table, each of which is in memory. -/
structure HolesFit (t : HoleTable) (H : List Span) : Prop where
  lists : ∃ ls, Lists t ls ∧ H = spans t (ls .holes)
  fit : ∀ x ∈ H, Fits x

/-- What a function returns that makes no hole smaller. -/
def Grown (H : List Span) (r : Option HoleTable) : Prop :=
  ∃ t' H', r = some t' ∧ HolesFit t' H' ∧ ∀ x ∈ H, ∃ y ∈ H', x.2 ≤ y.2

variable {t t' : HoleTable} {ls : ListName → List HoleSlot} {a b l : List HoleSlot}
  {hp next_ptr : HoleSlot} {H : List Span} {base clicks : ℕ} {r : Option HoleTable}

/-- A table that is left as it is. -/
theorem Grown.refl (h : Lists t ls) (hf : ∀ x ∈ spans t (ls .holes), Fits x) :
    Grown (spans t (ls .holes)) (some t) :=
  ⟨t, _, rfl, ⟨⟨ls, h, rfl⟩, hf⟩, fun x hx => ⟨x, hx, le_rfl⟩⟩

/-- A hole that abuts the next one and absorbs it. -/
theorem absorb_grown (h : Lists t ls) (hl : ls .holes = a ++ hp :: next_ptr :: b)
    (hf : ∀ x ∈ spans t (ls .holes), Fits x) (hab : abuts t hp next_ptr = true) :
    ∃ t' ls', absorb t hp next_ptr = some t' ∧ Lists t' ls' ∧ ls' .holes = a ++ hp :: b ∧
      (∀ x ∈ spans t' (ls' .holes), Fits x) ∧
      ∀ x ∈ spans t (ls .holes), ∃ y ∈ spans t' (ls' .holes), x.2 ≤ y.2 := by
  have hold : spans t (ls .holes) = spans t a ++ span t hp :: span t next_ptr :: spans t b := by
    rw [hl, spans_append]
    rfl
  have hhp : Fits (span t hp) := hf _ (by rw [hold]; simp)
  have hnx : Fits (span t next_ptr) := hf _ (by rw [hold]; simp)
  have heq : t.h_base hp + t.h_len hp = t.h_base next_ptr := (abuts_iff hhp.2).mp hab
  have hend : t.h_base next_ptr + t.h_len next_ptr ≤ memEnd := hnx.2
  obtain ⟨t', ls', ht', hls', hh, ha', hp', hb'⟩ := absorb_spec h hl (by omega)
  have hnew : spans t' (ls' .holes) =
      spans t a ++ (t.h_base hp, t.h_len hp + t.h_len next_ptr) :: spans t b := by
    rw [hh, spans_append, ha', hp', hb']
  refine ⟨t', ls', ht', hls', hh, fun x hx => ?_, fun x hx => ?_⟩
  · rw [hnew, List.mem_append, List.mem_cons] at hx
    rcases hx with hx | rfl | hx
    · exact hf x (by rw [hold]; simp [hx])
    · refine ⟨hhp.1, ?_⟩
      show t.h_base hp + (t.h_len hp + t.h_len next_ptr) ≤ memEnd
      omega
    · exact hf x (by rw [hold]; simp [hx])
  · rw [hold, List.mem_append, List.mem_cons, List.mem_cons] at hx
    rw [hnew]
    rcases hx with hx | rfl | rfl | hx
    · exact ⟨x, by simp [hx], le_rfl⟩
    · exact ⟨(t.h_base hp, t.h_len hp + t.h_len next_ptr), by simp, Nat.le_add_right ..⟩
    · exact ⟨(t.h_base hp, t.h_len hp + t.h_len next_ptr), by simp, Nat.le_add_left ..⟩
    · exact ⟨x, by simp [hx], le_rfl⟩

/-- The last check of `merge`. -/
theorem mergeNext_grown (h : Lists t ls) (hl : ls .holes = a ++ hp :: b)
    (hf : ∀ x ∈ spans t (ls .holes), Fits x) : Grown (spans t (ls .holes)) (mergeNext t hp) := by
  have hchain := h.chains.chain .holes
  rw [hl] at hchain
  unfold mergeNext
  cases b with
  | nil =>
    have hnext := hchain.suffix
    rw [chain_nil] at hnext
    rw [hnext]
    exact Grown.refl h hf
  | cons next_ptr b =>
    rw [hchain.suffix.1]
    dsimp only
    by_cases hab : abuts t hp next_ptr = true
    · obtain ⟨t', ls', ht', hls', -, hf', hgrown⟩ := absorb_grown h hl hf hab
      rw [if_pos hab]
      exact ⟨t', _, ht', ⟨⟨ls', hls', rfl⟩, hf'⟩, hgrown⟩
    · rw [if_neg hab]
      exact Grown.refl h hf

/-- `merge` makes no hole smaller. -/
theorem merge_grown (h : Lists t ls) (hl : ls .holes = a ++ hp :: b)
    (hf : ∀ x ∈ spans t (ls .holes), Fits x) : Grown (spans t (ls .holes)) (merge t hp) := by
  have hchain := h.chains.chain .holes
  rw [hl] at hchain
  unfold merge
  cases b with
  | nil =>
    have hnext := hchain.suffix
    rw [chain_nil] at hnext
    rw [hnext]
    exact Grown.refl h hf
  | cons next_ptr b =>
    rw [hchain.suffix.1]
    dsimp only
    by_cases hab : abuts t hp next_ptr = true
    · -- The two are one hole now, which may touch the next.
      obtain ⟨t', ls', ht', hls', hh, hf', hgrown⟩ := absorb_grown h hl hf hab
      obtain ⟨t'', H, ht'', hH, hgrown'⟩ := mergeNext_grown hls' hh hf'
      rw [if_pos hab, ht']
      refine ⟨t'', H, ht'', hH, fun x hx => ?_⟩
      obtain ⟨y, hy, hxy⟩ := hgrown x hx
      obtain ⟨z, hz, hyz⟩ := hgrown' y hy
      exact ⟨z, hz, hxy.trans hyz⟩
    · rw [if_neg hab]
      have hl' : ls .holes = (a ++ [hp]) ++ next_ptr :: b := by simp [hl]
      exact mergeNext_grown h hl' hf

/-- A block is returned, as long as there is an unused slot, wherever the holes are. -/
theorem freeMem_grown (h : HolesFit t H) (hslot : t.free_slots ≠ none) (hx : Fits (base, clicks)) :
    Grown ((base, clicks) :: H) (freeMem t base clicks) := by
  obtain ⟨⟨ls, hls, rfl⟩, hf⟩ := h
  have hfree : ls .free ≠ [] := by
    intro e
    have := hls.chains.head?_eq (q := .free)
    rw [e] at this
    exact hslot this.symm
  obtain ⟨x, l, hl⟩ := List.exists_cons_of_ne_nil hfree
  obtain ⟨a, b, t', ls', hab, -, -, hls', hl', hbase, hlen, hfront, hback⟩ :=
    freeMem_cases hls hl base clicks
  have hnd := hls'.chains.nodup (q := .holes)
  rw [hl'] at hnd
  obtain ⟨hsa, hsx, hsb⟩ := spans_update hnd hbase hlen
  have hnew : spans t' (ls' .holes) = spans t a ++ (base, clicks) :: spans t b := by
    rw [hl', spans_append, hsa, hsb, hsx]
  have hold : spans t (ls .holes) = spans t a ++ spans t b := by simp [hab, spans]
  have hmem : ∀ y, y ∈ spans t' (ls' .holes) ↔ y ∈ (base, clicks) :: spans t (ls .holes) := by
    intro y
    rw [hnew, hold]
    simp only [List.mem_append, List.mem_cons]
    tauto
  have hf' : ∀ y ∈ spans t' (ls' .holes), Fits y := by
    intro y hy
    rcases List.mem_cons.mp ((hmem y).mp hy) with rfl | hy
    · exact hx
    · exact hf y hy
  have hmerge : Grown (spans t' (ls' .holes)) (freeMem t base clicks) := by
    rcases List.eq_nil_or_concat' a with rfl | ⟨c, y, rfl⟩
    · rw [hfront rfl]
      exact merge_grown hls' hl' hf'
    · rw [hback c y rfl]
      exact merge_grown (a := c) (b := x :: b) hls' (by rw [hl']; simp) hf'
  obtain ⟨t'', H, h₁, h₂, h₃⟩ := hmerge
  exact ⟨t'', H, h₁, h₂, fun y hy => h₃ y ((hmem y).mpr hy)⟩

/-- A block that is got is in memory, and the holes still are. -/
theorem allocMem_fit (h : HolesFit t H) (clicks : ℕ) :
    ((∀ x ∈ H, x.2 < clicks) ∧ allocMem t clicks = some (NO_MEM, t)) ∨
    ∃ base t' H', allocMem t clicks = some (base, t') ∧ HolesFit t' H' ∧ Fits (base, clicks) := by
  obtain ⟨⟨ls, hls, rfl⟩, hf⟩ := h
  have hN : Within (spans t (ls .holes)) := fun x hx => (hf x hx).2
  rcases allocMem_cases hls hN clicks with hno | ⟨A, x, B, hold, hle, t', ls', he, hls', hnew⟩
  · exact Or.inl hno
  · have hx : Fits x := hf x (by rw [hold]; simp)
    have hend := hx.2
    refine Or.inr ⟨x.1, t', spans t' (ls' .holes), he, ⟨⟨ls', hls', rfl⟩, fun y hy => ?_⟩, hx.1, ?_⟩
    · have hother : y ∈ A ++ B → Fits y := fun hy => hf y (by rw [hold]; simp at hy ⊢; tauto)
      rcases hnew with ⟨-, hnew⟩ | ⟨hlt, hnew⟩
      · exact hother (hnew ▸ hy)
      · rw [hnew, List.mem_append, List.mem_cons] at hy
        rcases hy with hy | rfl | hy
        · exact hother (List.mem_append_left _ hy)
        · refine ⟨Nat.add_pos_left hx.1 _, ?_⟩
          show x.1 + clicks + (x.2 - clicks) ≤ memEnd
          omega
        · exact hother (List.mem_append_right _ hy)
    · show x.1 + clicks ≤ memEnd
      omega

end Minix.Mm
