import Minix.Mm.Memory

/-!
# How many holes there are

`free_mem` takes a slot for the block before it looks for holes that the block touches, and panics
if there is none. A hole ends where a block begins, or where a chunk of memory ends, so the holes
are no more than the blocks and the chunks (`Balanced.holes_le`), and as long as these are fewer
than the slots, there is a slot left. Of a block that was returned in part, each piece counts; the
memory of the system does not, for no hole is below it.
-/

namespace Minix.Mm

open Lib

variable {phys : PhysMem} {s : Memory} {H : List Span} {t : HoleTable} {base clicks : ℕ}

/-- How many blocks that `alloc_mem` has given are outstanding. -/
def blocksOut (s : Memory) : ℕ := s.blocks.countP fun x => x.1 ≠ NO_MEM ∧ 0 < x.2

/-- A piece of a block, which may be returned. -/
structure Returnable (s : Memory) (base clicks : ℕ) : Prop where
  block : ∃ x ∈ s.blocks, x.1 ≤ base ∧ base + clicks ≤ x.1 + x.2
  base_pos : 0 < base
  clicks_pos : 0 < clicks

/-- The holes end where a block begins, or a chunk ends. -/
theorem Balanced.holes_le (h : Balanced phys s H) : H.length ≤ blocksOut s + phys.chunks.length :=
  h.holes.separated.length_le h.account phys.disjoint

/-- Fewer holes than slots leave a slot. -/
theorem HolesAre.free_slot (h : HolesAre t H) (hlen : H.length < NR_HOLES) :
    t.free_slots ≠ none := by
  obtain ⟨⟨ls, hls, rfl⟩, -, -⟩ := h
  intro hnone
  have hhead := hls.chains.head?_eq (q := .free)
  have hempty : ls .free = [] := List.head?_eq_none_iff.mp (hhead.trans hnone)
  have hall : ∀ x, x ∈ ls .holes := by
    intro x
    obtain ⟨q, hq⟩ := hls.all x
    cases q with
    | holes => exact hq
    | free =>
      rw [hempty] at hq
      exact absurd hq List.not_mem_nil
  have hcount : NR_HOLES ≤ (ls .holes).length := by
    have hsub := (List.nodup_finRange NR_HOLES).subperm fun x _ => hall x
    simpa using hsub.length_le
  rw [spans, List.length_map] at hlen
  omega

/-- `free_mem` does not panic while there are fewer holes than slots. -/
theorem Balanced.free_ok (h : Balanced phys s H) (hlen : H.length < NR_HOLES)
    (hr : Returnable s base clicks) : ∃ t, freeMem s.table base clicks = some t := by
  obtain ⟨⟨x, hx, hle, hend⟩, -, hpos⟩ := hr
  have hwithin := h.within x hx
  have hone : ∀ c, cover H c + cover [(base, clicks)] c ≤ 1 := by
    intro c
    have haccount := h.account c
    have hdisjoint := phys.disjoint c
    have hblock : cover [(base, clicks)] c ≤ cover s.blocks c := by
      rw [cover_cons, cover_nil]
      split
      · next hhas =>
        rw [Span.has_iff] at hhas
        exact cover_pos_iff.mpr ⟨x, hx, Span.has_iff.mpr (by omega)⟩
      · exact Nat.zero_le _
    omega
  obtain ⟨t, -, hfree, -, -⟩ := freeMem_holes h.holes (h.holes.free_slot hlen) hpos
    (hend.trans hwithin) hone
  exact ⟨t, hfree⟩

/-- Returning chunks one after the other takes no more slots than there are chunks. -/
theorem foldlM_freeMem_some {chunks : List Span} {done : List Span} (h : HolesAre t H)
    (hcov : ∀ c, cover H c = cover done c) (hfew : done.length + chunks.length ≤ NR_HOLES)
    (hpos : ∀ x ∈ chunks, 0 < x.2) (hN : Within chunks)
    (hone : ∀ c, cover (done ++ chunks) c ≤ 1) :
    ∃ t', chunks.foldlM (fun t chunk => freeMem t chunk.1 chunk.2) t = some t' := by
  induction chunks generalizing t H done with
  | nil => exact ⟨t, rfl⟩
  | cons x chunks ih =>
    rw [List.append_cons] at hone
    have hdone : ∀ c, cover done c + cover [x] c ≤ 1 := by
      intro c
      have hc := hone c
      rw [cover_append, cover_append] at hc
      omega
    have hlen : H.length ≤ done.length := by
      have hle := h.separated.length_le (a := []) (b := done) (fun c => by rw [hcov c]; rfl)
        fun c => (Nat.le_add_right ..).trans (hdone c)
      simpa using hle
    rw [List.length_cons] at hfew
    obtain ⟨t₁, H₁, hfree, h₁, hcov₁⟩ := freeMem_holes h (h.free_slot (by omega))
      (hpos x (by simp)) (hN x (by simp)) fun c => by
        rw [hcov c]
        exact hdone c
    have hcov' : ∀ c, cover H₁ c = cover (done ++ [x]) c := by
      intro c
      rw [hcov₁ c, hcov c, cover_append]
    rw [List.foldlM_cons, hfree]
    refine ih h₁ hcov' ?_ (fun y hy => hpos y (by simp [hy])) (fun y hy => hN y (by simp [hy])) hone
    rw [List.length_append, List.length_singleton]
    omega

/-- `mem_init` finds a slot for each chunk. -/
theorem memInit_some (t : HoleTable) (phys : PhysMem) (hfew : phys.chunks.length ≤ NR_HOLES) :
    ∃ t', memInit t phys.chunks = some t' := by
  have hnone : ∀ c, cover [] c = cover [] c := fun _ => rfl
  refine foldlM_freeMem_some (clearHoles_spec t) hnone ?_ phys.pos phys.within phys.disjoint
  simpa using hfew

/-- As long as the blocks and the chunks are few enough, `free_mem` finds a slot, in `mem_init` and
in every run after it. -/
theorem slots_suffice (phys : PhysMem) :
    (phys.chunks.length < NR_HOLES - 1 → ∀ t, ∃ t', memInit t phys.chunks = some t') ∧
      ∀ s, Reachable (MemStart phys) MemStep s →
        blocksOut s + phys.chunks.length < NR_HOLES - 1 →
          s.table.free_slots ≠ none ∧
            ∀ base clicks, Returnable s base clicks →
              ∃ t, freeMem s.table base clicks = some t := by
  constructor
  · intro hfew t
    exact memInit_some t phys (by omega)
  · intro s hs hfew
    obtain ⟨H, hH⟩ := reachable_balanced hs
    have hlen : H.length < NR_HOLES := by
      have := hH.holes_le
      omega
    exact ⟨hH.holes.free_slot hlen, fun _ _ hr => hH.free_ok hlen hr⟩

/-- A process returns the rest of its memory. -/
theorem slots_suffice_two_chunks : ∃ (s : Memory) (t : HoleTable),
    s.blocks = [(100, 50), (170, 0)] ++ [(0, 100)] ∧
      (∃ t', memInit s.table twoChunks.chunks = some t') ∧
        freeMem s.table 100 50 = some t := by
  obtain ⟨s, hblocks, hs⟩ := twoChunks_reachable
  obtain ⟨hinit, hrun⟩ := slots_suffice twoChunks
  have hfew : blocksOut s + twoChunks.chunks.length < NR_HOLES - 1 := by
    rw [blocksOut, hblocks]
    decide
  have hr : Returnable s 100 50 :=
    ⟨⟨(100, 50), by simp [hblocks], by decide, by decide⟩, by decide, by decide⟩
  obtain ⟨t, ht⟩ := (hrun s hs hfew).2 100 50 hr
  exact ⟨s, t, hblocks, hinit (by decide) s.table, ht⟩

end Minix.Mm
