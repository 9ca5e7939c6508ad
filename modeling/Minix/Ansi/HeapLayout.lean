import Minix.Ansi.Malloc
import Mathlib.Data.List.Perm.Basic

/-!
# The slots of a heap

`Layout h slots fr live top` says that the links of a heap's memory describe a row of slots up to
the last one, `top`, in the order of their addresses, that the free ones are linked in that order
too, and that each slot is either free or live. A slot has at least eight bytes, so that the two
links of a slot, the one in front of it and the one at its start, are cells of their own
(`Layout.apart`).

Every function of the allocator is made of five changes of the links, with one lemma each: a slot is
put onto the free list (`Layout.release`) or taken off it (`Layout.take`), it is cut in two
(`Layout.cut`) or gets the slot behind it (`Layout.absorb`), and the row gets a new end
(`Layout.extend`). What a change leaves of another slot is `Kept`.
-/

namespace Minix.Ansi

open Lib

/-! ## The cells of the links -/

section Cells

variable {h : Heap} {p q k : ℕ} {v : Option ℕ}

theorem nextSlot_setNextSlot (hp : p % 4 = 0 ∧ 4 ≤ p) (hq : q % 4 = 0 ∧ 4 ≤ q) (hv : Fits v) :
    (h.setNextSlot p v).nextSlot q = if q = p then v else h.nextSlot q := by
  unfold Heap.nextSlot Heap.setNextSlot PTRSIZE
  rw [loadPtr_storePtr (by omega) (by omega) hv]
  have hcell : q - 4 = p - 4 ↔ q = p := by omega
  simp only [hcell]

theorem nextFree_setNextSlot (hp : p % 4 = 0 ∧ 4 ≤ p) (hq : q % 4 = 0) (hqp : q + 4 ≠ p) :
    (h.setNextSlot p v).nextFree q = h.nextFree q := by
  unfold Heap.nextFree Heap.setNextSlot PTRSIZE
  refine loadPtr_storePtr_of_apart ?_
  unfold cellSize
  omega

theorem nextSlot_setNextFree (hp : p % 4 = 0) (hq : q % 4 = 0 ∧ 4 ≤ q) (hpq : p + 4 ≠ q) :
    (h.setNextFree p v).nextSlot q = h.nextSlot q := by
  unfold Heap.nextSlot Heap.setNextFree PTRSIZE
  refine loadPtr_storePtr_of_apart ?_
  unfold cellSize
  omega

theorem nextFree_setNextFree (hp : p % 4 = 0) (hq : q % 4 = 0) (hv : Fits v) :
    (h.setNextFree p v).nextFree q = if q = p then v else h.nextFree q := by
  unfold Heap.nextFree Heap.setNextFree
  rw [loadPtr_storePtr hp hq hv]

theorem mem_setNextSlot (hp : 4 ≤ p) (hk : k + 4 < p ∨ p ≤ k) :
    (h.setNextSlot p v).mem k = h.mem k := by
  unfold Heap.setNextSlot PTRSIZE
  refine storePtr_of_outside ?_
  unfold cellSize
  omega

theorem mem_setNextFree (hk : k < p ∨ p + 4 ≤ k) : (h.setNextFree p v).mem k = h.mem k :=
  storePtr_of_outside (by unfold cellSize; omega)

end Cells

/-! ## The layout -/

/-- The address of a slot. -/
structure IsSlot (p : ℕ) : Prop where
  aligned : p % 4 = 0
  lower : 4 ≤ p
  upper : p < 2 ^ 32

/-- What holds of two slots of a row, whichever comes first. -/
def SameOrFar (p q : ℕ) : Prop := p = q ∨ p + 8 ≤ q ∨ q + 8 ≤ p

/-- The slots, of which some are free and the others live. -/
structure Layout (h : Heap) (slots fr live : List ℕ) (top : ℕ) : Prop where
  chain : Chain h.nextSlot h._bottom (slots ++ [top]) none
  frees : Chain h.nextFree h._empty fr none
  gap : (slots ++ [top]).Pairwise fun p q => p + 8 ≤ q
  sorted : fr.Pairwise (· < ·)
  once : slots.Perm (fr ++ live)
  isSlot : ∀ p ∈ slots ++ [top], IsSlot p
  last : slots ≠ [] → top + BRKSIZE ≤ 2 ^ 32

/-- A slot and what the user has in it are kept. -/
structure Kept (h h' : Heap) (p : ℕ) : Prop where
  slot : h'.nextSlot p = h.nextSlot p
  data : ∀ e ∈ h.nextSlot p, ∀ k, p ≤ k → k + 4 < e → h'.mem k = h.mem k

theorem Kept.refl (h : Heap) (p : ℕ) : Kept h h p := ⟨rfl, fun _ _ _ _ _ => rfl⟩

theorem Kept.trans {h h' h'' : Heap} {p : ℕ} (a : Kept h h' p) (b : Kept h' h'' p) :
    Kept h h'' p := by
  refine ⟨b.slot.trans a.slot, fun e he k hp hk => ?_⟩
  rw [b.data e (by rwa [a.slot]) k hp hk, a.data e he k hp hk]

section Layout

variable {h : Heap} {slots fr live u v a b : List ℕ} {top p q x e : ℕ}

theorem Layout.mem_of_free (hl : Layout h slots fr live top) (hp : p ∈ fr) : p ∈ slots :=
  hl.once.mem_iff.mpr (List.mem_append_left _ hp)

theorem Layout.mem_of_live (hl : Layout h slots fr live top) (hp : p ∈ live) : p ∈ slots :=
  hl.once.mem_iff.mpr (List.mem_append_right _ hp)

theorem Layout.slot_of_mem (hl : Layout h slots fr live top) (hp : p ∈ slots) : IsSlot p :=
  hl.isSlot p (List.mem_append_left _ hp)

theorem Layout.slot_top (hl : Layout h slots fr live top) : IsSlot top := hl.isSlot top (by simp)

theorem Layout.nodup (hl : Layout h slots fr live top) : (fr ++ live).Nodup := by
  have hslots : (slots ++ [top]).Nodup := hl.chain.nodup
  exact hl.once.nodup_iff.mp (List.nodup_append.mp hslots).1

/-- A slot ends where another one starts. -/
theorem Layout.exists_end (hl : Layout h slots fr live top) (hp : p ∈ slots) :
    ∃ u v e, slots ++ [top] = u ++ p :: e :: v ∧ h.nextSlot p = some e := by
  obtain ⟨u, w, hw⟩ := List.append_of_mem hp
  have hc := hl.chain
  rw [hw, List.append_assoc, List.cons_append] at hc
  have hrest : Chain h.nextSlot (h.nextSlot p) (w ++ [top]) none := hc.suffix
  obtain ⟨e, v, he⟩ : ∃ e v, w ++ [top] = e :: v := by
    cases w with
    | nil => exact ⟨top, [], rfl⟩
    | cons e w => exact ⟨e, w ++ [top], rfl⟩
  refine ⟨u, v, e, ?_, ?_⟩
  · rw [hw, List.append_assoc, List.cons_append, he]
  · rw [he] at hrest
    exact hrest.1

/-- The other slots are in front of a slot or behind it. -/
theorem Layout.apart (hl : Layout h slots fr live top) (hp : p ∈ slots)
    (he : h.nextSlot p = some e) (hq : q ∈ slots ++ [top]) (hqp : q ≠ p) :
    q + 8 ≤ p ∨ e ≤ q := by
  obtain ⟨u, v, e', hs, he'⟩ := hl.exists_end hp
  obtain rfl : e' = e := Option.some.inj (he'.symm.trans he)
  have hgap := hl.gap
  rw [hs] at hgap hq
  rw [List.pairwise_append] at hgap
  rw [List.mem_append, List.mem_cons, List.mem_cons] at hq
  rcases hq with hq | hq | hq | hq
  · exact Or.inl (hgap.2.2 q hq p (by simp))
  · exact absurd hq hqp
  · exact Or.inr (Nat.le_of_eq hq.symm)
  · have h2 := (List.pairwise_cons.mp (List.pairwise_cons.mp hgap.2.1).2).1 q hq
    exact Or.inr (by omega)

/-- A slot has eight bytes at least. -/
theorem Layout.end_le (hl : Layout h slots fr live top) (hp : p ∈ slots)
    (he : h.nextSlot p = some e) : p + 8 ≤ e ∧ e ∈ slots ++ [top] := by
  obtain ⟨u, v, e', hs, he'⟩ := hl.exists_end hp
  obtain rfl : e' = e := Option.some.inj (he'.symm.trans he)
  have hgap := hl.gap
  rw [hs, List.pairwise_append] at hgap
  exact ⟨(List.pairwise_cons.mp hgap.2.1).1 e' (by simp), by simp [hs]⟩

/-- Two slots start eight bytes from each other at least. -/
theorem Layout.far (hl : Layout h slots fr live top) (hp : p ∈ slots ++ [top])
    (hq : q ∈ slots ++ [top]) (hpq : p ≠ q) : p + 8 ≤ q ∨ q + 8 ≤ p := by
  have hgap : (slots ++ [top]).Pairwise SameOrFar := hl.gap.imp fun hxy => Or.inr (Or.inl hxy)
  have hflip : (slots ++ [top]).Pairwise (flip SameOrFar) :=
    hl.gap.imp fun hxy => Or.inr (Or.inr hxy)
  have hself : ∀ x ∈ slots ++ [top], SameOrFar x x := fun x _ => Or.inl rfl
  have hfar := List.Pairwise.forall_of_forall_of_flip hself hgap hflip hp hq
  exact hfar.resolve_left hpq

theorem Layout.lt_top (hl : Layout h slots fr live top) (hp : p ∈ slots) : p + 8 ≤ top :=
  (List.pairwise_append.mp hl.gap).2.2 p hp top (by simp)

theorem Layout.add_four_ne (hl : Layout h slots fr live top) (hp : p ∈ slots ++ [top])
    (hq : q ∈ slots ++ [top]) : p + 4 ≠ q := by
  intro e
  have := hl.far hp hq (by omega)
  omega

theorem IsSlot.fits (hp : IsSlot p) : Fits (some p) := by
  rintro _ ⟨⟩
  exact ⟨Nat.lt_of_lt_of_le (by decide) hp.lower, hp.upper⟩

theorem fits_none : Fits none := by rintro _ ⟨⟩

/-- The pointers of a chain of slots can be stored. -/
theorem fits_chain {next : ℕ → Option ℕ} {r : Option ℕ} {l : List ℕ} (hc : Chain next r l none)
    (hl : ∀ p ∈ l, IsSlot p) : Fits r := by
  rw [← hc.head?_eq]
  intro p hp
  exact (hl p (List.mem_of_head? hp)).fits p rfl

/-! ## Changes of the free list -/

@[simp]
theorem setPrev_bottom {prev r : Option ℕ} : (h.setPrev prev r)._bottom = h._bottom := by
  cases prev <;> rfl

/-- The links of the slots are not those of the free list. -/
theorem nextSlot_setPrev {prev r : Option ℕ} (hprev : ∀ y ∈ prev, y % 4 = 0 ∧ y + 4 ≠ p)
    (hp : IsSlot p) : (h.setPrev prev r).nextSlot p = h.nextSlot p := by
  cases prev with
  | none => rfl
  | some y => exact nextSlot_setNextFree (hprev y rfl).1 ⟨hp.aligned, hp.lower⟩ (hprev y rfl).2

/-- The first free slots are linked to another chain. -/
theorem chain_setPrev {r : Option ℕ} {l : List ℕ} (hab : Chain h.nextFree h._empty (a ++ b) none)
    (hl : Chain h.nextFree r l none) (hslot : ∀ y ∈ a ++ l, IsSlot y) (hal : ∀ y ∈ a, y ∉ l) :
    Chain (h.setPrev a.getLast? r).nextFree (h.setPrev a.getLast? r)._empty (a ++ l) none := by
  rcases a.eq_nil_or_concat' with rfl | ⟨a, y, rfl⟩
  · exact hl
  · have hy : IsSlot y := hslot y (by simp)
    have hr : Fits r := fits_chain hl fun p hp => hslot p (by simp [hp])
    rw [List.getLast?_append, List.getLast?_singleton, Option.some_or]
    refine (hab.splice hl hal).congr fun p hp => ?_
    rw [Heap.setPrev, nextFree_setNextFree hy.aligned (hslot p hp).aligned hr,
      Function.update_apply]

/-- A live slot keeps what it has when a link of the free list is written. -/
theorem Layout.kept_setNextFree {r : Option ℕ} (hl : Layout h slots fr live top) (hp : p ∈ slots)
    (hq : q ∈ slots) (hqp : q ≠ p) : Kept h (h.setNextFree q r) p := by
  have hps : p ∈ slots ++ [top] := List.mem_append_left _ hp
  have hqs : q ∈ slots ++ [top] := List.mem_append_left _ hq
  have hp' := hl.slot_of_mem hp
  refine ⟨?_, fun e he k hpk hke => ?_⟩
  · exact nextSlot_setNextFree (hl.slot_of_mem hq).aligned ⟨hp'.aligned, hp'.lower⟩
      (hl.add_four_ne hqs hps)
  · have := hl.apart hp he hqs hqp
    exact mem_setNextFree (by omega)

theorem Layout.kept_setPrev {prev r : Option ℕ} (hl : Layout h slots fr live top) (hp : p ∈ slots)
    (hprev : ∀ y ∈ prev, y ∈ slots ∧ y ≠ p) : Kept h (h.setPrev prev r) p := by
  cases prev with
  | none => exact ⟨rfl, fun _ _ _ _ _ => rfl⟩
  | some y => exact hl.kept_setNextFree hp (hprev y rfl).1 (hprev y rfl).2

/-- The links of the free list may be written as long as they form a list of the free slots. -/
theorem Layout.relink {h' : Heap} {fr' live' : List ℕ} (hl : Layout h slots fr live top)
    (hbottom : h'._bottom = h._bottom) (hslots : ∀ p ∈ slots ++ [top], h'.nextSlot p = h.nextSlot p)
    (hfrees : Chain h'.nextFree h'._empty fr' none) (hsorted : fr'.Pairwise (· < ·))
    (honce : slots.Perm (fr' ++ live')) : Layout h' slots fr' live' top where
  chain := by
    rw [hbottom]
    exact hl.chain.congr hslots
  frees := hfrees
  gap := hl.gap
  sorted := hsorted
  once := honce
  isSlot := hl.isSlot
  last := hl.last

/-- The links of the slots stay when a slot is put onto the free list. -/
theorem Layout.nextSlot_release {prev r r' : Option ℕ} (hl : Layout h slots fr live top)
    (hx : x ∈ slots) (hprev : ∀ y ∈ prev, y ∈ slots) (hp : p ∈ slots ++ [top]) :
    ((h.setNextFree x r).setPrev prev r').nextSlot p = h.nextSlot p := by
  have hp' := hl.isSlot p hp
  rw [nextSlot_setPrev ?_ hp']
  · exact nextSlot_setNextFree (hl.slot_of_mem hx).aligned ⟨hp'.aligned, hp'.lower⟩
      (hl.add_four_ne (List.mem_append_left _ hx) hp)
  · intro y hy
    have hys := hprev y hy
    exact ⟨(hl.slot_of_mem hys).aligned, hl.add_four_ne (List.mem_append_left _ hys) hp⟩

/-- A live slot is put onto the free list. -/
theorem Layout.release (hl : Layout h slots (a ++ b) (x :: live) top) (ha : ∀ y ∈ a, y < x)
    (hb : ∀ y ∈ b, x < y) :
    Layout ((h.setNextFree x b.head?).setPrev a.getLast? (some x)) slots (a ++ x :: b) live top := by
  have hfree : ∀ y ∈ a ++ b, y ∈ slots := fun y hy => hl.mem_of_free hy
  have hx : x ∈ slots := hl.mem_of_live (by simp)
  have hxs := hl.slot_of_mem hx
  have hxab : x ∉ a ++ b := fun hmem => by
    rcases List.mem_append.mp hmem with hmem | hmem
    · exact absurd (ha x hmem) (by omega)
    · exact absurd (hb x hmem) (by omega)
  have hslot : ∀ y ∈ a ++ x :: b, IsSlot y := by
    intro y hy
    rcases List.mem_append.mp hy with hy | hy
    · exact hl.slot_of_mem (hfree y (by simp [hy]))
    · rcases List.mem_cons.mp hy with rfl | hy
      · exact hxs
      · exact hl.slot_of_mem (hfree y (by simp [hy]))
  obtain ⟨r, ha', hb'⟩ := chain_append.mp hl.frees
  have hr : b.head? = r := hb'.head?_eq
  have hrfit : Fits b.head? := hr ▸ fits_chain hb' fun p hp => hslot p (by simp [hp])
  -- The link of the slot itself is written first.
  have hset : ∀ y, IsSlot y →
      (h.setNextFree x b.head?).nextFree y = Function.update h.nextFree x b.head? y := by
    intro y hy
    rw [nextFree_setNextFree hxs.aligned hy.aligned hrfit, Function.update_apply]
  have hab : Chain (h.setNextFree x b.head?).nextFree h._empty (a ++ b) none :=
    (hl.frees.update hxab b.head?).congr fun y hy => hset y (hl.slot_of_mem (hfree y hy))
  have hxb : Chain (h.setNextFree x b.head?).nextFree (some x) (x :: b) none := by
    have hxb : x ∉ b := fun hmem => hxab (by simp [hmem])
    refine ⟨rfl, ?_⟩
    rw [hset x hxs, Function.update_self, hr]
    refine (hb'.update hxb r).congr fun y hy => ?_
    rw [← hr, hset y (hslot y (by simp [hy]))]
  refine hl.relink ?_ ?_ (chain_setPrev hab hxb hslot ?_) ?_ ?_
  · exact setPrev_bottom
  · exact fun p hp => hl.nextSlot_release hx
      (fun y hy => hfree y (List.mem_append_left _ (List.mem_of_getLast? hy))) hp
  · intro y hy hmem
    rcases List.mem_cons.mp hmem with rfl | hmem
    · exact hxab (by simp [hy])
    · exact absurd ((ha y hy).trans (hb y hmem)) (by omega)
  · have hsorted := List.pairwise_append.mp hl.sorted
    refine List.pairwise_append.mpr ⟨hsorted.1, List.pairwise_cons.mpr ⟨hb, hsorted.2.1⟩, ?_⟩
    intro y hy z hz
    rcases List.mem_cons.mp hz with rfl | hz
    · exact ha y hy
    · exact (ha y hy).trans (hb z hz)
  · refine hl.once.trans ?_
    rw [List.append_assoc, List.append_assoc]
    exact (List.perm_middle.append_left a).trans (by simp)

/-- The other live slots are kept when a slot is put onto the free list. -/
theorem Layout.kept_release {prev r r' : Option ℕ} (hl : Layout h slots fr live top)
    (hx : x ∈ slots) (hprev : ∀ y ∈ prev, y ∈ slots ∧ y ≠ p) (hp : p ∈ slots) (hxp : x ≠ p) :
    Kept h ((h.setNextFree x r).setPrev prev r') p := by
  refine ⟨hl.nextSlot_release hx (fun y hy => (hprev y hy).1) (List.mem_append_left _ hp),
    fun e he k hpk hke => ?_⟩
  have hxe := hl.apart hp he (List.mem_append_left _ hx) hxp
  have hmem : (h.setNextFree x r).mem k = h.mem k := mem_setNextFree (by omega)
  rw [← hmem]
  cases prev with
  | none => rfl
  | some y =>
    have hy := hl.apart hp he (List.mem_append_left _ (hprev y rfl).1) (hprev y rfl).2
    exact mem_setNextFree (by omega)

/-- A free slot is taken off the free list. -/
theorem Layout.take (hl : Layout h slots (a ++ x :: b) live top) :
    Layout (h.setPrev a.getLast? (h.nextFree x)) slots (a ++ b) (x :: live) top := by
  have hfree : ∀ y ∈ a ++ b, y ∈ slots := by
    intro y hy
    refine hl.mem_of_free ?_
    rcases List.mem_append.mp hy with hy | hy
    · simp [hy]
    · simp [hy]
  have hsorted := List.pairwise_append.mp hl.sorted
  have hsortedb := List.pairwise_cons.mp hsorted.2.1
  refine hl.relink ?_ ?_ (chain_setPrev hl.frees hl.frees.suffix ?_ ?_) ?_ ?_
  · exact setPrev_bottom
  · intro p hp
    refine nextSlot_setPrev ?_ (hl.isSlot p hp)
    intro y hy
    have hya : y ∈ slots := hfree y (List.mem_append_left _ (List.mem_of_getLast? hy))
    exact ⟨(hl.slot_of_mem hya).aligned, hl.add_four_ne (List.mem_append_left _ hya) hp⟩
  · exact fun y hy => hl.slot_of_mem (hfree y hy)
  · intro y hy hmem
    exact absurd (hsorted.2.2 y hy y (by simp [hmem])) (by omega)
  · refine List.pairwise_append.mpr ⟨hsorted.1, hsortedb.2, ?_⟩
    exact fun y hy z hz => hsorted.2.2 y hy z (by simp [hz])
  · have honce := hl.once
    rw [List.append_assoc, List.cons_append] at honce
    rw [List.append_assoc]
    exact honce.trans (List.Perm.append_left a List.perm_middle.symm)

/-! ## Changes of the row of slots -/

/-- The slots in front of a slot and those behind it. -/
theorem Layout.split_gap (hl : Layout h (u ++ x :: v) fr live top) :
    (∀ y ∈ u, y + 8 ≤ x) ∧ ∀ y ∈ v ++ [top], x + 8 ≤ y := by
  have hgap := hl.gap
  rw [List.append_assoc, List.cons_append, List.pairwise_append] at hgap
  exact ⟨fun y hy => hgap.2.2 y hy x (by simp), (List.pairwise_cons.mp hgap.2.1).1⟩

/-- A slot is cut in two. -/
theorem Layout.cut {new : ℕ} (hl : Layout h (u ++ x :: v) fr live top)
    (he : h.nextSlot x = some e) (hxn : x + 8 ≤ new) (hne : new + 8 ≤ e) (hnew : new % 4 = 0) :
    Layout ((h.setNextSlot new (h.nextSlot x)).setNextSlot x (some new)) (u ++ x :: new :: v) fr
      (new :: live) top := by
  have hxs : x ∈ u ++ x :: v := by simp
  have hx := hl.slot_of_mem hxs
  have hend := hl.end_le hxs he
  have hes := hl.isSlot e hend.2
  have hn : IsSlot new := ⟨hnew, by omega, by have := hes.upper; omega⟩
  have hrow : ∀ y ∈ (u ++ x :: v) ++ [top], y ≠ x → y + 8 ≤ x ∨ e ≤ y := fun y hy hyx =>
    hl.apart hxs he hy hyx
  have hnrow : new ∉ u ++ x :: (v ++ [top]) := by
    intro hmem
    have := hrow new (by simpa using hmem) (by omega)
    omega
  have hset : ∀ y, IsSlot y →
      ((h.setNextSlot new (h.nextSlot x)).setNextSlot x (some new)).nextSlot y =
        Function.update (Function.update h.nextSlot new (h.nextSlot x)) x (some new) y := by
    intro y hy
    rw [nextSlot_setNextSlot ⟨hx.aligned, hx.lower⟩ ⟨hy.aligned, hy.lower⟩ hn.fits,
      nextSlot_setNextSlot ⟨hn.aligned, hn.lower⟩ ⟨hy.aligned, hy.lower⟩ (he ▸ hes.fits),
      Function.update_apply, Function.update_apply]
  have hisSlot : ∀ p ∈ (u ++ x :: new :: v) ++ [top], IsSlot p := by
    intro p hp
    by_cases hpn : p = new
    · exact hpn ▸ hn
    · refine hl.isSlot p ?_
      simp only [List.mem_append, List.mem_cons, hpn, false_or] at hp ⊢
      exact hp
  refine ⟨?_, ?_, ?_, hl.sorted, ?_, hisSlot, fun _ => hl.last (by simp)⟩
  · have hc := hl.chain
    rw [List.append_assoc, List.cons_append] at hc
    rw [List.append_assoc, List.cons_append, List.cons_append]
    refine (hc.insert hnrow).congr fun y hy => hset y (hisSlot y ?_)
    simpa using hy
  · refine hl.frees.congr fun y hy => ?_
    have hys := hl.mem_of_free hy
    have hy' := hl.slot_of_mem hys
    have hxrow : x ∈ (u ++ x :: v) ++ [top] := by simp
    have hyn : y + 4 ≠ new := by
      by_cases hyx : y = x
      · omega
      · have := hrow y (List.mem_append_left _ hys) hyx
        omega
    rw [nextFree_setNextSlot ⟨hx.aligned, hx.lower⟩ hy'.aligned
        (hl.add_four_ne (List.mem_append_left _ hys) hxrow),
      nextFree_setNextSlot ⟨hn.aligned, hn.lower⟩ hy'.aligned hyn]
  · have hgap := hl.gap
    have hsplit := hl.split_gap
    have hbehind : ∀ y ∈ v ++ [top], e ≤ y := by
      intro y hy
      have hxy := hsplit.2 y hy
      have := hrow y (by simpa using Or.inr (Or.inr (List.mem_append.mp hy))) (by omega)
      omega
    rw [List.append_assoc, List.cons_append, List.pairwise_append, List.pairwise_cons] at hgap
    rw [List.append_assoc, List.cons_append, List.cons_append, List.pairwise_append,
      List.pairwise_cons, List.pairwise_cons]
    refine ⟨hgap.1, ⟨?_, ?_, hgap.2.1.2⟩, ?_⟩
    · intro y hy
      rcases List.mem_cons.mp hy with rfl | hy
      · exact hxn
      · exact hsplit.2 y hy
    · intro y hy
      have := hbehind y hy
      omega
    · intro y hy z hz
      have hyx := hsplit.1 y hy
      rcases List.mem_cons.mp hz with rfl | hz
      · exact hyx
      · rcases List.mem_cons.mp hz with rfl | hz
        · omega
        · have := hsplit.2 z hz
          omega
  · have hmiddle : (u ++ [x] ++ new :: v).Perm (new :: (u ++ [x] ++ v)) := List.perm_middle
    have hrow' : (u ++ x :: new :: v).Perm (new :: (u ++ x :: v)) := by simpa using hmiddle
    exact (hrow'.trans (hl.once.cons new)).trans List.perm_middle.symm

/-- The other slots are kept when a slot is cut. -/
theorem Layout.kept_cut {new : ℕ} (hl : Layout h slots fr live top) (hx : x ∈ slots)
    (he : h.nextSlot x = some e) (hxn : x + 8 ≤ new) (hne : new + 8 ≤ e) (hnew : new % 4 = 0)
    (hp : p ∈ slots) (hpx : p ≠ x) :
    Kept h ((h.setNextSlot new (h.nextSlot x)).setNextSlot x (some new)) p := by
  have hxs := hl.slot_of_mem hx
  have hps := hl.slot_of_mem hp
  have hes := hl.isSlot e (hl.end_le hx he).2
  have hn : IsSlot new := ⟨hnew, by omega, by have := hes.upper; omega⟩
  have hap := hl.apart hx he (List.mem_append_left _ hp) hpx
  refine ⟨?_, fun e' he' k hpk hke => ?_⟩
  · rw [nextSlot_setNextSlot ⟨hxs.aligned, hxs.lower⟩ ⟨hps.aligned, hps.lower⟩ hn.fits,
      nextSlot_setNextSlot ⟨hn.aligned, hn.lower⟩ ⟨hps.aligned, hps.lower⟩ (he ▸ hes.fits),
      if_neg hpx, if_neg (by omega)]
  · have hap' := hl.apart hp he' (List.mem_append_left _ hx) hpx.symm
    have hlen := (hl.end_le hp he').1
    rw [mem_setNextSlot hxs.lower (by omega), mem_setNextSlot hn.lower (by omega)]

/-- What is in front of the cut is kept. -/
theorem mem_cut {new k : ℕ} {r : Option ℕ} (hx : 4 ≤ x) (hxn : x + 8 ≤ new) (hxk : x ≤ k)
    (hk : k + 4 < new) : ((h.setNextSlot new r).setNextSlot x (some new)).mem k = h.mem k := by
  rw [mem_setNextSlot hx (by omega), mem_setNextSlot (by omega) (by omega)]

/-- A slot gets the one behind it. -/
def Heap.absorb (h : Heap) (x q : ℕ) (prev : Option ℕ) : Heap :=
  let h := h.setNextSlot x (h.nextSlot q)
  h.setPrev prev (h.nextFree q)

/-- A slot gets the one behind it, which is free. -/
theorem Layout.absorb (hl : Layout h (u ++ x :: q :: v) (a ++ q :: b) live top) :
    Layout (h.absorb x q a.getLast?) (u ++ x :: v) (a ++ b) live top := by
  have hc := hl.chain
  rw [List.append_assoc, List.cons_append, List.cons_append] at hc
  have hx : IsSlot x := hl.isSlot x (by simp)
  have hq : IsSlot q := hl.isSlot q (by simp)
  have hsub : ∀ y ∈ (u ++ x :: v) ++ [top], y ∈ (u ++ x :: q :: v) ++ [top] := by
    intro y hy
    simp only [List.mem_append, List.mem_cons] at hy ⊢
    tauto
  have hisSlot : ∀ y ∈ (u ++ x :: v) ++ [top], IsSlot y := fun y hy => hl.isSlot y (hsub y hy)
  have hfree : ∀ y ∈ a ++ q :: b, IsSlot y ∧ y + 4 ≠ x := by
    intro y hy
    have hys := hl.mem_of_free hy
    exact ⟨hl.slot_of_mem hys, hl.add_four_ne (List.mem_append_left _ hys) (by simp)⟩
  have hfit : Fits (h.nextSlot q) := by
    obtain ⟨u', v', e, -, he⟩ := hl.exists_end (p := q) (by simp)
    rw [he]
    exact (hl.isSlot e (hl.end_le (by simp) he).2).fits
  -- The link of the slot is written first, and leaves the free list as it is.
  have hnext : ∀ y ∈ a ++ q :: b, (h.setNextSlot x (h.nextSlot q)).nextFree y = h.nextFree y :=
    fun y hy => nextFree_setNextSlot ⟨hx.aligned, hx.lower⟩ (hfree y hy).1.aligned (hfree y hy).2
  have hab : Chain (h.setNextSlot x (h.nextSlot q)).nextFree h._empty (a ++ q :: b) none :=
    hl.frees.congr hnext
  have hsorted := List.pairwise_append.mp hl.sorted
  have hsortedb := List.pairwise_cons.mp hsorted.2.1
  have hsubab : ∀ y ∈ a ++ b, y ∈ a ++ q :: b := by
    intro y hy
    simp only [List.mem_append, List.mem_cons] at hy ⊢
    tauto
  refine ⟨?_, ?_, ?_, ?_, ?_, hisSlot, fun _ => hl.last (by simp)⟩
  · rw [List.append_assoc, List.cons_append]
    have hbottom : (h.absorb x q a.getLast?)._bottom = h._bottom := setPrev_bottom
    rw [hbottom]
    refine hc.unlink.congr fun y hy => ?_
    have hy' : y ∈ (u ++ x :: v) ++ [top] := by simpa using hy
    have hys := hisSlot y hy'
    rw [Function.update_apply, Heap.absorb, nextSlot_setPrev ?_ hys,
      nextSlot_setNextSlot ⟨hx.aligned, hx.lower⟩ ⟨hys.aligned, hys.lower⟩ hfit]
    intro z hz
    have hza : z ∈ a ++ q :: b := List.mem_append_left _ (List.mem_of_getLast? hz)
    have hzs := List.mem_append_left [top] (hl.mem_of_free hza)
    exact ⟨(hfree z hza).1.aligned, hl.add_four_ne hzs (hsub y hy')⟩
  · refine chain_setPrev hab hab.suffix (fun y hy => (hfree y (hsubab y hy)).1) ?_
    intro y hy hmem
    exact absurd (hsorted.2.2 y hy y (by simp [hmem])) (by omega)
  · have hgap := hl.gap
    rw [List.append_assoc, List.cons_append, List.cons_append] at hgap
    rw [List.append_assoc, List.cons_append]
    exact hgap.sublist (((List.sublist_cons_self q _).cons_cons x).append_left u)
  · exact hl.sorted.sublist ((List.sublist_cons_self q b).append_left a)
  · have hmiddle : (u ++ [x] ++ q :: v).Perm (q :: (u ++ [x] ++ v)) := List.perm_middle
    have hleft : (u ++ x :: q :: v).Perm (q :: (u ++ x :: v)) := by simpa using hmiddle
    have hright : (a ++ q :: b ++ live).Perm (q :: (a ++ b ++ live)) := by simp
    exact ((hleft.symm.trans hl.once).trans hright).cons_inv

/-- The live slots are kept when a slot gets the one behind it. -/
theorem Layout.kept_absorb {prev : Option ℕ} (hl : Layout h slots fr live top) (hx : x ∈ slots)
    (hq : q ∈ slots) (hprev : ∀ y ∈ prev, y ∈ fr) (hp : p ∈ live) (hpx : p ≠ x) :
    Kept h (h.absorb x q prev) p := by
  have hps := hl.mem_of_live hp
  have hslot := hl.slot_of_mem hps
  have hxs := hl.slot_of_mem hx
  have hne : ∀ y ∈ prev, y ≠ p := by
    rintro y hy rfl
    exact (List.nodup_append.mp hl.nodup).2.2 y (hprev y hy) y hp rfl
  have hfit : Fits (h.nextSlot q) := by
    obtain ⟨u', v', e, -, he⟩ := hl.exists_end hq
    rw [he]
    exact (hl.isSlot e (hl.end_le hq he).2).fits
  refine ⟨?_, fun e he k hpk hke => ?_⟩
  · rw [Heap.absorb, nextSlot_setPrev ?_ hslot,
      nextSlot_setNextSlot ⟨hxs.aligned, hxs.lower⟩ ⟨hslot.aligned, hslot.lower⟩ hfit, if_neg hpx]
    intro y hy
    have hys := hl.mem_of_free (hprev y hy)
    exact ⟨(hl.slot_of_mem hys).aligned,
      hl.add_four_ne (List.mem_append_left _ hys) (List.mem_append_left _ hps)⟩
  · have hx' := hl.apart hps he (List.mem_append_left _ hx) hpx.symm
    have hmem : (h.setNextSlot x (h.nextSlot q)).mem k = h.mem k :=
      mem_setNextSlot hxs.lower (by omega)
    rw [← hmem]
    cases prev with
    | none => rfl
    | some y =>
      have hy := hl.apart hps he (List.mem_append_left _ (hl.mem_of_free (hprev y rfl))) (hne y rfl)
      exact mem_setNextFree (by omega)

/-- A live slot that gets the one behind it keeps what the user has in it. -/
theorem Layout.mem_absorb {prev : Option ℕ} {k : ℕ} (hl : Layout h slots fr live top)
    (hprev : ∀ y ∈ prev, y ∈ fr) (hx : x ∈ live) (he : h.nextSlot x = some e) (hxk : x ≤ k)
    (hke : k + 4 < e) : (h.absorb x q prev).mem k = h.mem k := by
  have hxs := hl.mem_of_live hx
  have hmem : (h.setNextSlot x (h.nextSlot q)).mem k = h.mem k :=
    mem_setNextSlot (hl.slot_of_mem hxs).lower (Or.inr hxk)
  rw [← hmem]
  cases prev with
  | none => rfl
  | some y =>
    have hyx : y ≠ x := by
      rintro rfl
      exact (List.nodup_append.mp hl.nodup).2.2 y (hprev y rfl) y hx rfl
    have hy := hl.apart hxs he (List.mem_append_left _ (hl.mem_of_free (hprev y rfl))) hyx
    exact mem_setNextFree (by omega)

/-- The row of slots gets a new end, and what was the end is a live slot. -/
theorem Layout.extend (hl : Layout h slots fr live top) (hp : p % 4 = 0) (hlen : top + 8 ≤ p)
    (hlast : p + BRKSIZE ≤ 2 ^ 32) :
    Layout ((h.setNextSlot top (some p)).setNextSlot p none) (slots ++ [top]) fr (top :: live)
      p := by
  have ht := hl.slot_top
  have hps : IsSlot p := ⟨hp, by have := ht.lower; omega, by unfold BRKSIZE at hlast; omega⟩
  have hrow : ∀ y ∈ slots ++ [top], y + 8 ≤ p := by
    intro y hy
    rcases List.mem_append.mp hy with hy | hy
    · have := hl.lt_top hy
      omega
    · obtain rfl := List.mem_singleton.mp hy
      exact hlen
  have hprow : p ∉ slots ++ [top] := fun hmem => absurd (hrow p hmem) (by omega)
  have hisSlot : ∀ y ∈ slots ++ [top] ++ [p], IsSlot y := by
    intro y hy
    rcases List.mem_append.mp hy with hy | hy
    · exact hl.isSlot y hy
    · exact List.mem_singleton.mp hy ▸ hps
  refine ⟨?_, ?_, ?_, hl.sorted, ?_, hisSlot, fun _ => hlast⟩
  · refine (hl.chain.push_back hprow).congr fun y hy => ?_
    have hys := hisSlot y hy
    rw [nextSlot_setNextSlot ⟨hps.aligned, hps.lower⟩ ⟨hys.aligned, hys.lower⟩ fits_none,
      nextSlot_setNextSlot ⟨ht.aligned, ht.lower⟩ ⟨hys.aligned, hys.lower⟩ hps.fits,
      Function.update_apply, Function.update_apply]
  · refine hl.frees.congr fun y hy => ?_
    have hyr := List.mem_append_left [top] (hl.mem_of_free hy)
    have hys := hl.isSlot y hyr
    have hyp := hrow y hyr
    rw [nextFree_setNextSlot ⟨hps.aligned, hps.lower⟩ hys.aligned (by omega),
      nextFree_setNextSlot ⟨ht.aligned, ht.lower⟩ hys.aligned (hl.add_four_ne hyr (by simp))]
  · exact List.pairwise_append.mpr ⟨hl.gap, List.pairwise_singleton _ _, fun y hy z hz =>
      List.mem_singleton.mp hz ▸ hrow y hy⟩
  · have hfront : (slots ++ [top]).Perm (top :: slots) := List.perm_append_singleton top slots
    exact (hfront.trans (hl.once.cons top)).trans List.perm_middle.symm

/-- The slots are kept when the row gets a new end. -/
theorem Layout.kept_extend (hl : Layout h slots fr live top) (hp : p % 4 = 0)
    (hlen : top + 8 ≤ p) (hlast : p + BRKSIZE ≤ 2 ^ 32) (hq : q ∈ slots) :
    Kept h ((h.setNextSlot top (some p)).setNextSlot p none) q := by
  have ht := hl.slot_top
  have hps : IsSlot p := ⟨hp, by have := ht.lower; omega, by unfold BRKSIZE at hlast; omega⟩
  have hqs := hl.slot_of_mem hq
  have hqt := hl.lt_top hq
  refine ⟨?_, fun e he k hqk hke => ?_⟩
  · rw [nextSlot_setNextSlot ⟨hps.aligned, hps.lower⟩ ⟨hqs.aligned, hqs.lower⟩ fits_none,
      nextSlot_setNextSlot ⟨ht.aligned, ht.lower⟩ ⟨hqs.aligned, hqs.lower⟩ hps.fits,
      if_neg (by omega), if_neg (by omega)]
  · have := hl.apart hq he (by simp : top ∈ slots ++ [top]) (by omega)
    rw [mem_setNextSlot hps.lower (by omega), mem_setNextSlot ht.lower (by omega)]

end Layout

end Minix.Ansi
