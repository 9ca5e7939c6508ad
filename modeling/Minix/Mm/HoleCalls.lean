import Minix.Mm.HoleList

/-!
# What the calls do to the holes

From the two lists of `HoleList.lean`: `HolesAre t H` says that the holes of the table are the spans
`H`. `alloc_mem` takes the block from the front of the first hole that is large enough, `max_hole`
and `mem_left` read the list, and `mem_init` makes holes of the chunks of physical memory.
-/

namespace Minix.Mm

open Lib

/-- The table is in order, and its holes are the spans `H`. -/
structure HolesAre (t : HoleTable) (H : List Span) : Prop where
  lists : ∃ ls, Lists t ls ∧ H = spans t (ls .holes)
  separated : Separated H
  within : Within H

variable {t t' : HoleTable} {H : List Span} {base clicks : ℕ}

/-- First fit: there is no hole that is large enough, or the block is the front of one. The rest of
that hole, if there is any, takes its place. -/
theorem allocMem_cases {ls : ListName → List HoleSlot} (h : Lists t ls)
    (hN : Within (spans t (ls .holes))) (clicks : ℕ) :
    ((∀ x ∈ spans t (ls .holes), x.2 < clicks) ∧ allocMem t clicks = some (NO_MEM, t)) ∨
    ∃ A x B, spans t (ls .holes) = A ++ x :: B ∧ clicks ≤ x.2 ∧ ∃ t' ls',
      allocMem t clicks = some (x.1, t') ∧ Lists t' ls' ∧
      (x.2 = clicks ∧ spans t' (ls' .holes) = A ++ B ∨
        clicks < x.2 ∧ spans t' (ls' .holes) = A ++ (x.1 + clicks, x.2 - clicks) :: B) := by
  have hchain := h.chains.chain .holes
  unfold allocMem
  rcases scan_cases (fun hp => decide (clicks ≤ t.h_len hp)) none hchain (h.length_lt .holes) with
    ⟨a, hp, b, hl, -, hfit, hscan⟩ | ⟨hno, hscan⟩
  · right
    have hfit' : clicks ≤ t.h_len hp := of_decide_eq_true hfit
    have hend : t.h_base hp + t.h_len hp ≤ memEnd := hN.slot (by simp [hl])
    have hnd := h.chains.nodup (q := .holes)
    rw [hl] at hnd
    have hwrap : clicks16 (t.h_base hp + clicks) = t.h_base hp + clicks := by
      unfold clicks16
      rw [Nat.mod_eq_of_lt]
      unfold memEnd at hend
      omega
    have h₁ : Lists (takeClicks t hp clicks) ls := ⟨h.chains, h.all⟩
    have hbase : (takeClicks t hp clicks).h_base =
        Function.update t.h_base hp (t.h_base hp + clicks) := by
      unfold takeClicks
      rw [hwrap]
    have hlen : (takeClicks t hp clicks).h_len =
        Function.update t.h_len hp (t.h_len hp - clicks) := rfl
    have hself : (takeClicks t hp clicks).h_len hp = t.h_len hp - clicks := by
      rw [hlen, Function.update_self]
    refine ⟨spans t a, span t hp, spans t b, by rw [hl, spans_append], hfit', ?_⟩
    replace hscan : scan t.h_next (fun hp => decide (clicks ≤ t.h_len hp)) holeFuel none
      t.hole_head = _ := hscan
    rw [hscan]
    simp only [Option.bind_eq_bind, Option.bind_some, hself, ne_eq]
    by_cases hzero : t.h_len hp - clicks = 0
    · -- Nothing is left of the hole.
      have hprev : ∀ c y, a = c ++ [y] → a.getLast?.or none = some y := by
        intro c y e
        simp [e]
      obtain ⟨t', ht', hb', hn', ls', hls', hl'⟩ := delSlot_spec h₁ hl hprev
      obtain ⟨hsa, -, hsb⟩ := spans_update hnd (hb'.trans hbase) (hn'.trans hlen)
      rw [if_neg (by simpa using hzero), ht']
      refine ⟨t', ls', rfl, hls', Or.inl ⟨?_, ?_⟩⟩
      · show t.h_len hp = clicks
        omega
      · rw [hl', ← hsa, ← hsb]
        simp [spans]
    · obtain ⟨hsa, hsx, hsb⟩ := spans_update hnd hbase hlen
      rw [if_pos hzero]
      refine ⟨_, ls, rfl, h₁, Or.inr ⟨?_, ?_⟩⟩
      · show clicks < t.h_len hp
        omega
      · rw [hl, spans_append, hsa, hsx, hsb]
        rfl
  · left
    refine ⟨fun x hx => ?_, ?_⟩
    · obtain ⟨y, hy, rfl⟩ := List.mem_map.mp hx
      have := hno y hy
      rw [decide_eq_false_iff_not] at this
      exact Nat.lt_of_not_le this
    · replace hscan : scan t.h_next (fun hp => decide (clicks ≤ t.h_len hp)) holeFuel none
        t.hole_head = _ := hscan
      rw [hscan]
      rfl

/-- The memory of the block is no longer among that of the holes. -/
theorem allocMem_spec (h : HolesAre t H) (clicks : ℕ) :
    ((∀ x ∈ H, x.2 < clicks) ∧ allocMem t clicks = some (NO_MEM, t)) ∨
    ∃ x ∈ H, clicks ≤ x.2 ∧ ∃ t' H', allocMem t clicks = some (x.1, t') ∧ HolesAre t' H' ∧
      ∀ c, cover H' c + cover [(x.1, clicks)] c = cover H c := by
  obtain ⟨⟨ls, hls, rfl⟩, hs, hN⟩ := h
  rcases allocMem_cases hls hN clicks with
    hno | ⟨A, ⟨n, len⟩, B, hold, hle, t', ls', he, hls', hnew⟩
  · exact Or.inl hno
  · refine Or.inr ⟨(n, len), by rw [hold]; simp, hle, t', spans t' (ls' .holes), he, ?_⟩
    rw [hold] at hs hN
    dsimp only at hle hnew
    have hcov : ∀ c, cover (A ++ (n + clicks, len - clicks) :: B) c + cover [(n, clicks)] c =
        cover (A ++ (n, len) :: B) c := by
      intro c
      have hsplit := cover_split (n := n) (m := clicks) (N := len - clicks) (c := c)
      rw [Nat.add_sub_cancel' hle] at hsplit
      simp only [cover_append, cover_cons, cover_nil] at hsplit ⊢
      omega
    rcases hnew with ⟨hall, hnew⟩ | ⟨hlt, hnew⟩
    · refine ⟨⟨⟨ls', hls', rfl⟩, ?_, ?_⟩, fun c => ?_⟩
      · rw [hnew]
        exact hs.remove
      · rw [hnew]
        exact fun y hy => hN y (by simp at hy ⊢; tauto)
      · rw [hnew, hold, ← hall]
        simp only [cover_append, cover_cons, cover_nil]
        omega
    · have hbite := hs.bite hlt
      refine ⟨⟨⟨ls', hls', rfl⟩, ?_, ?_⟩, fun c => ?_⟩
      · rw [hnew]
        exact hbite
      · rw [hnew]
        exact hN.of_cover hbite fun c => by rw [← hcov c]; exact Nat.le_add_right ..
      · rw [hnew, hold]
        exact hcov c

/-- A block that is disjoint from the holes is returned, as long as there is an unused slot. -/
theorem freeMem_holes (h : HolesAre t H) (hslot : t.free_slots ≠ none) (hpos : 0 < clicks)
    (hend : base + clicks ≤ memEnd) (hc : ∀ c, cover H c + cover [(base, clicks)] c ≤ 1) :
    ∃ t' H', freeMem t base clicks = some t' ∧ HolesAre t' H' ∧
      ∀ c, cover H' c = cover H c + cover [(base, clicks)] c := by
  obtain ⟨⟨ls, hls, rfl⟩, hs, hN⟩ := h
  have hfree : ls .free ≠ [] := by
    intro e
    have := hls.chains.head?_eq (q := .free)
    rw [e] at this
    exact hslot this.symm
  obtain ⟨t', ls', ht', hls', hs', hcov⟩ := freeMem_spec hls hs hN hfree hpos hend hc
  have hcov' : ∀ c, cover (spans t' (ls' .holes)) c =
      cover (spans t (ls .holes)) c + cover [(base, clicks)] c := by
    intro c
    rw [hcov c]
    simp only [cover_cons, cover_nil]
    omega
  refine ⟨t', _, ht', ⟨⟨ls', hls', rfl⟩, hs', ?_⟩, hcov'⟩
  have hall : Within ((base, clicks) :: spans t (ls .holes)) := by
    intro y hy
    rcases List.mem_cons.mp hy with rfl | hy
    · exact hend
    · exact hN y hy
  exact hall.of_cover hs' fun c => (hcov c).le

/-- Without an unused slot, nothing is returned. -/
theorem freeMem_full (hslot : t.free_slots = none) : freeMem t base clicks = none := by
  unfold freeMem
  rw [hslot]

/-- The largest length among some spans, and one that is known already. -/
theorem foldl_largest (l : List HoleSlot) (m : ℕ) :
    let r := l.foldl (fun max hp => if t.h_len hp > max then t.h_len hp else max) m
    (∀ x ∈ spans t l, x.2 ≤ r) ∧ m ≤ r ∧ (r = m ∨ ∃ x ∈ spans t l, x.2 = r) := by
  induction l generalizing m with
  | nil => simp [spans]
  | cons x l ih =>
    obtain ⟨h₁, h₂, h₃⟩ := ih (if t.h_len x > m then t.h_len x else m)
    simp only [List.foldl_cons]
    have hx : t.h_len x ≤ (if t.h_len x > m then t.h_len x else m) ∧
        m ≤ (if t.h_len x > m then t.h_len x else m) := by
      split_ifs <;> omega
    refine ⟨fun y hy => ?_, hx.2.trans h₂, ?_⟩
    · rcases List.mem_cons.mp hy with rfl | hy
      · exact hx.1.trans h₂
      · exact h₁ y hy
    · rcases h₃ with h₃ | ⟨y, hy, h₃⟩
      · rw [h₃]
        split_ifs
        · exact Or.inr ⟨span t x, by simp [spans], rfl⟩
        · exact Or.inl rfl
      · exact Or.inr ⟨y, List.mem_cons_of_mem _ hy, h₃⟩

/-- `max_hole` is the size of the largest hole, wherever the holes are. -/
theorem maxHole_lists {ls : ListName → List HoleSlot} (h : Lists t ls) :
    ∃ m, maxHole t = some m ∧ (∀ x ∈ spans t (ls .holes), x.2 ≤ m) ∧
      (m = 0 ∨ ∃ x ∈ spans t (ls .holes), x.2 = m) := by
  obtain ⟨h₁, -, h₃⟩ := foldl_largest (t := t) (ls .holes) 0
  exact ⟨_, walk_eq _ 0 (h.chains.chain .holes) (h.length_lt .holes), h₁, h₃⟩

/-- If no hole is empty, it is 0 only if there is none. -/
theorem maxHole_spec (h : HolesAre t H) :
    ∃ m, maxHole t = some m ∧ (∀ x ∈ H, x.2 ≤ m) ∧ (H = [] ∧ m = 0 ∨ ∃ x ∈ H, x.2 = m) := by
  obtain ⟨⟨ls, hls, rfl⟩, hs, -⟩ := h
  obtain ⟨m, hm, h₁, h₃⟩ := maxHole_lists hls
  refine ⟨m, hm, h₁, ?_⟩
  rcases h₃ with h₃ | h₃
  · left
    refine ⟨List.eq_nil_iff_forall_not_mem.mpr fun x hx => ?_, h₃⟩
    have := h₁ x hx
    have := hs.pos x hx
    omega
  · exact Or.inr h₃

/-! ## The chunks of physical memory -/

/-- After `clearHoles` there are no holes. -/
theorem clearHoles_spec (t : HoleTable) : HolesAre (clearHoles t) [] := by
  have hfree : Chain (clearHoles t).h_next (some 0) (List.finRange NR_HOLES) none :=
    chain_finRange fun _ => rfl
  refine ⟨⟨fun q => if q = .holes then [] else List.finRange NR_HOLES, ⟨⟨?_, ?_⟩, ?_⟩, rfl⟩,
    separated_nil, by simp [Within]⟩
  · intro q
    cases q with
    | holes => exact rfl
    | free => exact hfree
  · intro q q' x hq hq'
    cases q <;> cases q' <;> simp at hq hq' ⊢
  · intro x
    exact ⟨.free, List.mem_finRange x⟩

/-- Chunks that are disjoint from the holes, and from each other, become part of them. -/
theorem foldlM_freeMem {chunks : List Span} (h : HolesAre t H)
    (hf : chunks.foldlM (fun t chunk => freeMem t chunk.1 chunk.2) t = some t')
    (hpos : ∀ x ∈ chunks, 0 < x.2) (hN : Within chunks)
    (hc : ∀ c, cover H c + cover chunks c ≤ 1) :
    ∃ H', HolesAre t' H' ∧ ∀ c, cover H' c = cover H c + cover chunks c := by
  induction chunks generalizing t H with
  | nil =>
    obtain rfl : t = t' := by simpa using hf
    exact ⟨H, h, by simp⟩
  | cons x chunks ih =>
    rw [List.foldlM_cons] at hf
    have hsplit : ∀ c, cover (x :: chunks) c = cover [x] c + cover chunks c := fun c =>
      cover_append (a := [x])
    have hslot : t.free_slots ≠ none := by
      intro e
      rw [freeMem_full e] at hf
      cases hf
    obtain ⟨t₁, H₁, ht₁, h₁, hcov₁⟩ := freeMem_holes h hslot (hpos x (by simp)) (hN x (by simp))
      fun c => by
        have := hc c
        rw [hsplit] at this
        show cover H c + cover [x] c ≤ 1
        omega
    rw [ht₁] at hf
    obtain ⟨H', h', hcov'⟩ := ih h₁ hf (fun y hy => hpos y (by simp [hy]))
      (fun y hy => hN y (by simp [hy])) fun c => by
        have := hc c
        rw [hsplit] at this
        rw [hcov₁ c]
        show cover H c + cover [x] c + cover chunks c ≤ 1
        omega
    refine ⟨H', h', fun c => ?_⟩
    rw [hcov' c, hcov₁ c, hsplit]
    show cover H c + cover [x] c + cover chunks c = _
    omega

/-- `mem_init` makes holes of the chunks. -/
theorem memInit_spec {chunks : List Span} (h : memInit t chunks = some t')
    (hpos : ∀ x ∈ chunks, 0 < x.2) (hN : Within chunks) (hc : ∀ c, cover chunks c ≤ 1) :
    ∃ H, HolesAre t' H ∧ ∀ c, cover H c = cover chunks c := by
  obtain ⟨H, hH, hcov⟩ := foldlM_freeMem (clearHoles_spec t) h hpos hN (by simpa using hc)
  exact ⟨H, hH, by simpa using hcov⟩

end Minix.Mm
