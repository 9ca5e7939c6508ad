import Minix.Lib.Run
import Minix.Mm.HoleCalls

/-!
# Runs of the allocator

The memory manager calls `alloc_mem` and `free_mem` in any order. What it has been given is kept
beside the table, as a list of blocks; it may return any piece of a block, and has what is left of
it as two blocks, which may be empty. `Balanced` is the invariant: each click of physical memory is
in one hole or in one block. The system itself is the block at click 0, and is not returned, so that
`NO_MEM` is not the base of a block.
-/

namespace Minix.Mm

open Lib

/-- The chunks of physical memory that `get_mem` reports. -/
structure PhysMem where
  chunks : List Span
  pos : ∀ x ∈ chunks, 0 < x.2
  within : Within chunks
  disjoint : ∀ c, cover chunks c ≤ 1

/-- The hole table, and the blocks that are allocated. -/
structure Memory where
  table : HoleTable
  blocks : List Span

/-- A call of the allocator. -/
inductive MemCall
  | alloc (clicks : ℕ)
  | free (base clicks : ℕ)

/-- A call, and what it does to the blocks. -/
inductive MemStep : Memory → MemCall → Memory → Prop
  | alloc {s : Memory} {clicks base : ℕ} {t : HoleTable}
      (h : allocMem s.table clicks = some (base, t)) :
      MemStep s (.alloc clicks)
        ⟨t, if base = NO_MEM then s.blocks else (base, clicks) :: s.blocks⟩
  | free {s : Memory} {base clicks : ℕ} {t : HoleTable} {a b : List Span} {x : Span}
      (hx : s.blocks = a ++ x :: b) (hzero : 0 < base) (hpos : 0 < clicks) (hle : x.1 ≤ base)
      (hend : base + clicks ≤ x.1 + x.2) (h : freeMem s.table base clicks = some t) :
      MemStep s (.free base clicks)
        ⟨t, a ++ (x.1, base - x.1) :: (base + clicks, x.1 + x.2 - (base + clicks)) :: b⟩

/-- After `mem_init`, the memory of the system has been allocated, from click 0 on. -/
def MemStart (phys : PhysMem) (s : Memory) : Prop :=
  ∃ t t' m clicks, memInit t phys.chunks = some t' ∧ 0 < clicks ∧ maxHole t' = some m ∧
    clicks ≤ m ∧ allocMem t' clicks = some (0, s.table) ∧ s.blocks = [(0, clicks)]

/-- Each click of physical memory is in one of the holes `H`, or in one block, and click 0 is in a
block. -/
structure Balanced (phys : PhysMem) (s : Memory) (H : List Span) : Prop where
  holes : HolesAre s.table H
  within : Within s.blocks
  account : ∀ c, cover H c + cover s.blocks c = cover phys.chunks c
  system : 0 < cover s.blocks 0

/-- What is promised of the two lists of the table, and of the blocks. -/
structure HoleListOk (phys : PhysMem) (s : Memory) (holes free : List HoleSlot) : Prop where
  chain_holes : Chain s.table.h_next s.table.hole_head holes none
  chain_free : Chain s.table.h_next s.table.free_slots free none
  /-- Each slot is in one of the lists, and there once. -/
  once : (holes ++ free).Nodup ∧ ∀ x, x ∈ holes ++ free
  sorted : holes.Pairwise fun x y => s.table.h_base x < s.table.h_base y
  nonempty : ∀ x ∈ holes, 0 < s.table.h_len x
  holes_disjoint : holes.Pairwise fun x y =>
    ∀ c, ¬((span s.table x).has c = true ∧ (span s.table y).has c = true)
  /-- No hole ends where another begins. -/
  apart : ∀ x ∈ holes, ∀ y ∈ holes, s.table.h_base x + s.table.h_len x ≠ s.table.h_base y
  blocks_disjoint : s.blocks.Pairwise fun x y => ∀ c, ¬(x.has c = true ∧ y.has c = true)
  blocks_holes : ∀ x ∈ s.blocks, ∀ y ∈ holes, ∀ c, ¬(x.has c = true ∧ (span s.table y).has c = true)
  /-- No click is lost. -/
  conserved : total (spans s.table holes) + total s.blocks = total phys.chunks
  alloc : ∀ clicks, ∃ base t, allocMem s.table clicks = some (base, t) ∧
    (base = NO_MEM ↔ ∀ x ∈ holes, s.table.h_len x < clicks)
  largest : ∃ m, maxHole s.table = some m ∧ (∀ x ∈ holes, s.table.h_len x ≤ m) ∧
    (holes = [] ∧ m = 0 ∨ ∃ x ∈ holes, s.table.h_len x = m)

variable {phys : PhysMem} {s s' : Memory} {H : List Span} {base clicks : ℕ} {t : HoleTable}
  {x : Span} {a b : List Span}

/-- No hole begins at click 0. -/
theorem Balanced.base_ne (h : Balanced phys s H) (hx : x ∈ H) : x.1 ≠ NO_MEM := by
  intro e
  have hpos := h.holes.separated.pos x hx
  have hhole : 0 < cover H 0 := by
    refine cover_pos_iff.mpr ⟨x, hx, Span.has_iff.mpr ?_⟩
    unfold NO_MEM at e
    omega
  have hblock := h.system
  have := h.account 0
  have := phys.disjoint 0
  omega

/-- A block that is got leaves the balance as it is. -/
theorem Balanced.alloc (h : Balanced phys s H) (ha : allocMem s.table clicks = some (base, t)) :
    ∃ H', Balanced phys ⟨t, if base = NO_MEM then s.blocks else (base, clicks) :: s.blocks⟩ H' := by
  rcases allocMem_spec h.holes clicks with ⟨-, he⟩ | ⟨x, hx, hle, t', H', he, hH', hcov⟩
  · obtain ⟨rfl, rfl⟩ := Prod.mk.inj (Option.some.inj (he.symm.trans ha))
    rw [if_pos rfl]
    exact ⟨H, h⟩
  · obtain ⟨rfl, rfl⟩ := Prod.mk.inj (Option.some.inj (he.symm.trans ha))
    rw [if_neg (h.base_ne hx)]
    have hsplit : ∀ c, cover ((x.1, clicks) :: s.blocks) c =
        cover [(x.1, clicks)] c + cover s.blocks c := fun c => cover_append (a := [_])
    refine ⟨H', hH', fun y hy => ?_, fun c => ?_, ?_⟩
    · rcases List.mem_cons.mp hy with rfl | hy
      · have := h.holes.within x hx
        show x.1 + clicks ≤ memEnd
        omega
      · exact h.within y hy
    · have := h.account c
      have := hcov c
      rw [hsplit]
      omega
    · have := h.system
      rw [hsplit]
      omega

/-- A block in three parts. -/
theorem cover_piece (hle : x.1 ≤ base) (hend : base + clicks ≤ x.1 + x.2) (c : ℕ) :
    cover (a ++ (x.1, base - x.1) :: (base + clicks, x.1 + x.2 - (base + clicks)) :: b) c +
      cover [(base, clicks)] c = cover (a ++ x :: b) c := by
  simp only [cover_append, cover_cons, cover_nil, Span.has_iff]
  split_ifs <;> omega

/-- Returning a piece of a block leaves the balance as it is. -/
theorem Balanced.free (h : Balanced phys s H) (hx : s.blocks = a ++ x :: b) (hzero : 0 < base)
    (hpos : 0 < clicks) (hle : x.1 ≤ base) (hend : base + clicks ≤ x.1 + x.2)
    (hf : freeMem s.table base clicks = some t) :
    ∃ H', Balanced phys
      ⟨t, a ++ (x.1, base - x.1) :: (base + clicks, x.1 + x.2 - (base + clicks)) :: b⟩ H' := by
  have hslot : s.table.free_slots ≠ none := by
    intro e
    rw [freeMem_full e] at hf
    cases hf
  have hxN := h.within x (by simp [hx])
  have hpiece : ∀ c, _ := cover_piece (a := a) (b := b) hle hend
  obtain ⟨t', H', ht', hH', hcov⟩ := freeMem_holes h.holes hslot hpos (hend.trans hxN) fun c => by
    have := h.account c
    rw [hx, ← hpiece c] at this
    have := phys.disjoint c
    omega
  obtain rfl : t' = t := Option.some.inj (ht'.symm.trans hf)
  refine ⟨H', hH', fun y hy => ?_, fun c => ?_, ?_⟩
  · have hold : ∀ z ∈ a ++ x :: b, z.1 + z.2 ≤ memEnd := hx ▸ h.within
    simp only [List.mem_append, List.mem_cons] at hy hold
    rcases hy with hy | rfl | rfl | hy
    · exact hold y (Or.inl hy)
    · show x.1 + (base - x.1) ≤ memEnd
      omega
    · show base + clicks + (x.1 + x.2 - (base + clicks)) ≤ memEnd
      omega
    · exact hold y (Or.inr (Or.inr hy))
  · have := h.account c
    rw [hx, ← hpiece c] at this
    rw [hcov c]
    show _ + cover (a ++ _ :: _ :: b) c = _
    omega
  · have hz := h.system
    rw [hx, ← hpiece 0] at hz
    have hno : cover [(base, clicks)] 0 = 0 := by
      rw [cover_cons, if_neg (by rw [Span.has_iff]; show ¬(base ≤ 0 ∧ _); omega)]
      rfl
    show 0 < cover (a ++ _ :: _ :: b) 0
    omega

/-- Every call keeps the balance. -/
theorem MemStep.balanced {c : MemCall} (hst : MemStep s c s') (h : ∃ H, Balanced phys s H) :
    ∃ H, Balanced phys s' H := by
  obtain ⟨H, h⟩ := h
  cases hst with
  | alloc ha => exact h.alloc ha
  | free hx hzero hpos hle hend hf => exact h.free hx hzero hpos hle hend hf

/-- The balance holds when the system has got its memory. -/
theorem MemStart.balanced (h : MemStart phys s) : ∃ H, Balanced phys s H := by
  obtain ⟨t, t', m, clicks, hinit, hpos, hmax, hle, halloc, hblocks⟩ := h
  obtain ⟨H, hH, hcov⟩ := memInit_spec hinit phys.pos phys.within phys.disjoint
  obtain ⟨m', hm', -, hlargest⟩ := maxHole_spec hH
  obtain rfl : m' = m := Option.some.inj (hm'.symm.trans hmax)
  rcases allocMem_spec hH clicks with ⟨hsmall, -⟩ | ⟨x, hx, hxle, t'', H', he, hH', hcov'⟩
  · exfalso
    rcases hlargest with ⟨-, rfl⟩ | ⟨y, hy, rfl⟩
    · omega
    · have := hsmall y hy
      omega
  · obtain ⟨hx₀, rfl⟩ := Prod.mk.inj (Option.some.inj (he.symm.trans halloc))
    rw [hx₀] at hcov'
    refine ⟨H', hH', ?_, fun c => ?_, ?_⟩
    · rw [hblocks]
      intro y hy
      rw [List.mem_singleton.mp hy]
      have := hH.within x hx
      show 0 + clicks ≤ memEnd
      omega
    · rw [hblocks, hcov' c, hcov c]
    · rw [hblocks]
      exact cover_pos_iff.mpr ⟨(0, clicks), by simp, Span.has_iff.mpr (by simpa using hpos)⟩

/-- What the balance says of the two lists. -/
theorem Balanced.ok (h : Balanced phys s H) : ∃ holes free, HoleListOk phys s holes free := by
  obtain ⟨ls, hls, hH⟩ := h.holes.lists
  have hs := h.holes.separated
  have hmem : ∀ x ∈ ls .holes, span s.table x ∈ H := fun x hx => by
    rw [hH]
    exact List.mem_map_of_mem hx
  have hone : ∀ c, cover (H ++ s.blocks) c ≤ 1 := fun c => by
    rw [cover_append, h.account c]
    exact phys.disjoint c
  have hdisj := List.pairwise_append.mp (pairwise_disjoint_of_cover hone)
  have hapart : (ls .holes).Pairwise fun x y =>
      s.table.h_base x + s.table.h_len x < s.table.h_base y := by
    have := hs.apart
    rw [hH] at this
    exact List.pairwise_map.mp this
  refine ⟨ls .holes, ls .free, hls.chains.chain .holes, hls.chains.chain .free, ⟨?_, fun x => ?_⟩,
    ?_, fun x hx => hs.pos _ (hmem x hx), ?_, ?_, hdisj.2.1, fun x hx y hy c hc => ?_, ?_, ?_, ?_⟩
  · exact List.nodup_append.mpr ⟨hls.chains.nodup, hls.chains.nodup, fun x hx y hy e =>
      hls.notMem_free hx (e ▸ hy)⟩
  · obtain ⟨q, hq⟩ := hls.all x
    cases q with
    | holes => exact List.mem_append_left _ hq
    | free => exact List.mem_append_right _ hq
  · exact hapart.imp fun hxy => by omega
  · have := hdisj.1
    rw [hH] at this
    exact List.pairwise_map.mp this
  · exact fun x hx y hy => hs.not_adjacent (hmem x hx) (hmem y hy)
  · exact hdisj.2.2 _ (hmem y hy) x hx c ⟨hc.2, hc.1⟩
  · rw [← hH, total_eq_sum h.holes.within, total_eq_sum h.within, total_eq_sum phys.within,
      ← Finset.sum_add_distrib]
    exact Finset.sum_congr rfl fun c _ => h.account c
  · intro clicks
    rcases allocMem_spec h.holes clicks with ⟨hsmall, he⟩ | ⟨x, hx, hle, t', H', he, -, -⟩
    · exact ⟨NO_MEM, _, he, fun _ x hx => hsmall _ (hmem x hx), fun _ => rfl⟩
    · refine ⟨x.1, t', he, fun e => absurd e (h.base_ne hx), fun hsmall => ?_⟩
      rw [hH] at hx
      obtain ⟨y, hy, rfl⟩ := List.mem_map.mp hx
      exact absurd hle (Nat.not_le_of_lt (hsmall y hy))
  · obtain ⟨m, hm, hle, hlargest⟩ := maxHole_spec h.holes
    refine ⟨m, hm, fun x hx => hle _ (hmem x hx), ?_⟩
    rw [hH] at hlargest
    rcases hlargest with ⟨hnil, rfl⟩ | ⟨y, hy, rfl⟩
    · exact Or.inl ⟨List.map_eq_nil_iff.mp hnil, rfl⟩
    · obtain ⟨x, hx, rfl⟩ := List.mem_map.mp hy
      exact Or.inr ⟨x, hx, rfl⟩

/-- The invariant of runs. -/
theorem reachable_balanced (h : Reachable (MemStart phys) MemStep s) : ∃ H, Balanced phys s H :=
  h.invariant (P := fun s => ∃ H, Balanced phys s H) (fun _ h => h.balanced)
    fun _ _ _ h hst => hst.balanced h

/-- From every state that the allocator reaches, the holes are in order, and with the blocks they
are all of memory. -/
theorem hole_list (h : Reachable (MemStart phys) MemStep s) :
    ∃ holes free, HoleListOk phys s holes free := by
  obtain ⟨H, hH⟩ := reachable_balanced h
  exact hH.ok

/-- A machine with a chunk below 640 clicks, and another one above 1024. -/
def twoChunks : PhysMem where
  chunks := [(0, 640), (1024, 256)]
  pos := by decide
  within := by unfold Within; decide
  disjoint := fun c => by
    simp only [cover_cons, cover_nil, Span.has_iff]
    split_ifs <;> omega

/-- The system, and a process that has returned its upper part. -/
theorem twoChunks_reachable : ∃ s, s.blocks = [(100, 50), (170, 0)] ++ [(0, 100)] ∧
    Reachable (MemStart twoChunks) MemStep s := by
  have hrun : ((memInit ⟨0, 0, fun _ => none, none, none⟩ twoChunks.chunks).bind fun t =>
      (maxHole t).bind fun m => (allocMem t 100).bind fun p => (allocMem p.2 70).bind fun q =>
        (freeMem q.2 150 20).bind fun _ => some (m, p.1, q.1)) = some (640, 0, 100) := by
    decide +kernel
  simp only [Option.bind_eq_some_iff, Option.some.injEq, Prod.mk.injEq] at hrun
  obtain ⟨t, h₁, m, h₂, ⟨_, t₁⟩, h₃, ⟨_, t₂⟩, h₄, t₃, h₅, rfl, rfl, rfl⟩ := hrun
  have hstart : MemStart twoChunks ⟨t₁, [(0, 100)]⟩ :=
    ⟨_, t, 640, 100, h₁, by decide, h₂, by decide, h₃, rfl⟩
  have halloc : MemStep ⟨t₁, [(0, 100)]⟩ (.alloc 70) ⟨t₂, (100, 70) :: [(0, 100)]⟩ :=
    MemStep.alloc (s := ⟨t₁, [(0, 100)]⟩) h₄
  have hfree := MemStep.free (s := ⟨t₂, (100, 70) :: [(0, 100)]⟩) (a := []) (x := (100, 70)) rfl
    (by decide) (by decide) (by decide) (by decide) h₅
  exact ⟨_, rfl, (Reachable.of_init hstart).of_step halloc |>.of_step hfree⟩

/-- The holes beside them are in order. -/
theorem hole_list_two_chunks : ∃ s holes free, s.blocks = [(100, 50), (170, 0)] ++ [(0, 100)] ∧
    HoleListOk twoChunks s holes free := by
  obtain ⟨s, hblocks, hs⟩ := twoChunks_reachable
  obtain ⟨holes, free, hok⟩ := hole_list hs
  exact ⟨s, holes, free, hblocks, hok⟩

end Minix.Mm
