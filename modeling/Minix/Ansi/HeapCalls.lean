import Minix.Ansi.HeapLayout
import Mathlib.Data.Finset.Card
import Mathlib.Order.Interval.Finset.Nat

/-!
# What the functions of the allocator do to the slots

One lemma for each function of `lib/ansi/malloc.c`, over a heap whose slots are laid out. Freeing
and merging lose no memory: what was free is free afterwards too, in a slot that may begin earlier
and end later (`Covers`), which is also why the second try of `malloc` finds a slot.
-/

namespace Minix.Ansi

open Lib

/-- What was free is free still. -/
def Covers (h h' : Heap) (fr fr' : List ℕ) : Prop :=
  ∀ y ∈ fr, ∀ e ∈ h.nextSlot y, ∃ y' ∈ fr', ∃ e' ∈ h'.nextSlot y', y' ≤ y ∧ e ≤ e'

theorem Covers.refl (h : Heap) (fr : List ℕ) : Covers h h fr fr :=
  fun y hy e he => ⟨y, hy, e, he, le_rfl, le_rfl⟩

theorem Covers.trans {h h' h'' : Heap} {fr fr' fr'' : List ℕ} (a : Covers h h' fr fr')
    (b : Covers h' h'' fr' fr'') : Covers h h'' fr fr'' := by
  intro y hy e he
  obtain ⟨y', hy', e', he', hle, hee⟩ := a y hy e he
  obtain ⟨y'', hy'', e'', he'', hle', hee'⟩ := b y' hy' e' he'
  exact ⟨y'', hy'', e'', he'', hle'.trans hle, hee.trans hee'⟩

/-- An operation keeps some live slots, and the bounds of the heap. -/
structure Moved (h h' : Heap) (live : List ℕ) : Prop where
  kept : ∀ x ∈ live, Kept h h' x
  top : h'._top = h._top
  brksize : h'.brksize = h.brksize

theorem Moved.refl (h : Heap) (live : List ℕ) : Moved h h live :=
  ⟨fun x _ => Kept.refl h x, rfl, rfl⟩

theorem Moved.trans {h h' h'' : Heap} {live : List ℕ} (a : Moved h h' live)
    (b : Moved h' h'' live) : Moved h h'' live where
  kept := fun x hx => (a.kept x hx).trans (b.kept x hx)
  top := b.top.trans a.top
  brksize := b.brksize.trans a.brksize

section Calls

variable {h : Heap} {slots fr live a b : List ℕ} {top p q x e len : ℕ}

theorem setPrev_top {prev r : Option ℕ} : (h.setPrev prev r)._top = h._top := by
  cases prev <;> rfl

theorem setPrev_brksize {prev r : Option ℕ} : (h.setPrev prev r).brksize = h.brksize := by
  cases prev <;> rfl

/-! ## The free list -/

/-- There are fewer free slots than addresses. -/
theorem Layout.length_lt (hl : Layout h slots fr live top) : fr.length < maxSlots := by
  have hnd : fr.Nodup := (List.nodup_append.mp hl.nodup).1
  have hsub : fr.toFinset ⊆ Finset.Ico 4 (2 ^ 32) := by
    intro y hy
    have hy' := hl.slot_of_mem (hl.mem_of_free (List.mem_toFinset.mp hy))
    exact Finset.mem_Ico.mpr ⟨hy'.lower, hy'.upper⟩
  have hcard := Finset.card_le_card hsub
  rw [List.toFinset_card_of_nodup hnd, Nat.card_Ico] at hcard
  unfold maxSlots
  omega

/-- The search stops at the first free slot that passes the test. -/
theorem Layout.findFree (hl : Layout h slots fr live top) (test : ℕ → Bool) :
    ∃ a b, fr = a ++ b ∧ (∀ y ∈ a, test y = false) ∧ (∀ y ∈ b.head?, test y = true) ∧
      h.findFree test = some (a.getLast?, b.head?) :=
  scan_split test hl.frees hl.length_lt

/-- Two slots of which one ends where the other starts follow each other. -/
theorem Layout.adjacent (hl : Layout h slots fr live top) (hp : p ∈ slots) (hq : q ∈ slots)
    (hpq : h.nextSlot p = some q) : ∃ u v, slots = u ++ p :: q :: v := by
  obtain ⟨u, v, e, hs, he⟩ := hl.exists_end hp
  obtain rfl : e = q := Option.some.inj (he.symm.trans hpq)
  rcases v.eq_nil_or_concat' with rfl | ⟨v, t, rfl⟩
  · have htop : slots ++ [top] = (u ++ [p]) ++ [e] := by simpa using hs
    have hlt := hl.lt_top hq
    have := (List.append_inj' htop rfl).2
    simp at this
    omega
  · have htop : slots ++ [top] = (u ++ p :: e :: v) ++ [t] := by simpa using hs
    exact ⟨u, v, (List.append_inj' htop rfl).1⟩

/-! ## Freeing -/

/-- A free slot that gets the one behind it is as long as the two. -/
theorem Layout.covers_absorb (hl : Layout h slots (a ++ p :: q :: b) live top)
    (hpq : h.nextSlot p = some q) :
    Covers h (h.absorb p q (some p)) (a ++ p :: q :: b) (a ++ p :: b) := by
  have hp : p ∈ slots := hl.mem_of_free (by simp)
  have hq : q ∈ slots := hl.mem_of_free (by simp)
  have hps := hl.slot_of_mem hp
  obtain ⟨u, v, e, -, he⟩ := hl.exists_end hq
  have hes := hl.isSlot e (hl.end_le hq he).2
  have hnext : ∀ y ∈ slots, (h.absorb p q (some p)).nextSlot y =
      if y = p then some e else h.nextSlot y := by
    intro y hy
    have hys := hl.slot_of_mem hy
    rw [Heap.absorb, nextSlot_setPrev ?_ hys, nextSlot_setNextSlot ⟨hps.aligned, hps.lower⟩
      ⟨hys.aligned, hys.lower⟩ (he ▸ hes.fits), he]
    rintro _ ⟨⟩
    exact ⟨hps.aligned, hl.add_four_ne (List.mem_append_left _ hp) (List.mem_append_left _ hy)⟩
  have hpp := hnext p hp
  rw [if_pos rfl] at hpp
  intro y hy e' he'
  have hqe := (hl.end_le hq he).1
  by_cases hyp : y = p
  · subst hyp
    obtain rfl : q = e' := Option.some.inj (hpq.symm.trans he')
    exact ⟨y, by simp, e, hpp, le_rfl, by omega⟩
  · by_cases hyq : y = q
    · subst hyq
      obtain rfl : e = e' := Option.some.inj (he.symm.trans he')
      have hpe := (hl.end_le hp hpq).1
      exact ⟨p, by simp, e, hpp, by omega, le_rfl⟩
    · refine ⟨y, ?_, e', ?_, le_rfl, le_rfl⟩
      · simpa [hyp, hyq] using hy
      · rw [hnext y (hl.mem_of_free hy), if_neg hyp]
        exact he'

/-- Two free slots that follow each other on the free list are merged if nothing is between them. -/
theorem Layout.tryMerge (hl : Layout h slots (a ++ p :: b) live top) :
    ∃ h' slots' b', h.tryMerge (some p) b.head? = some h' ∧
      Layout h' slots' (a ++ p :: b') live top ∧ Moved h h' live ∧
      Covers h h' (a ++ p :: b) (a ++ p :: b') := by
  cases b with
  | nil => exact ⟨h, slots, [], rfl, hl, Moved.refl h live, Covers.refl h _⟩
  | cons q b =>
    have hp : p ∈ slots := hl.mem_of_free (by simp)
    have hq : q ∈ slots := hl.mem_of_free (by simp)
    have hlt : p < q := by
      have hsorted := (List.pairwise_append.mp hl.sorted).2.1
      exact (List.pairwise_cons.mp hsorted).1 q (by simp)
    obtain ⟨u, v, e, -, he⟩ := hl.exists_end hp
    have heq : e ≤ q := by
      have := hl.apart hp he (List.mem_append_left _ hq) (by omega)
      omega
    have hguard : ofPtr (h.nextSlot p) ≤ q := by
      rw [he]
      exact heq
    by_cases hpq : h.nextSlot p = some q
    · obtain ⟨u, v, hs⟩ := hl.adjacent hp hq hpq
      refine ⟨h.absorb p q (some p), u ++ p :: v, b, ?_, ?_, ⟨?_, rfl, rfl⟩,
        hl.covers_absorb hpq⟩
      · simp only [Heap.tryMerge, List.head?_cons, if_pos hguard, if_pos hpq]
        rfl
      · have hl' : Layout h (u ++ p :: q :: v) ((a ++ [p]) ++ q :: b) live top := by
          rw [← hs]
          simpa using hl
        simpa using hl'.absorb
      · intro z hz
        refine hl.kept_absorb hp hq ?_ hz ?_
        · rintro _ ⟨⟩
          simp
        · rintro rfl
          exact (List.nodup_append.mp hl.nodup).2.2 z (by simp) z hz rfl
    · refine ⟨h, slots, q :: b, ?_, hl, Moved.refl h live, Covers.refl h _⟩
      simp only [Heap.tryMerge, List.head?_cons, if_pos hguard, if_neg hpq]

/-- A live slot is freed. -/
theorem Layout.free (hl : Layout h slots fr (x :: live) top) :
    ∃ h' slots' fr', Ansi.free h x = some h' ∧ Layout h' slots' fr' live top ∧
      Moved h h' live ∧ Covers h h' (x :: fr) fr' := by
  have hx : x ∈ slots := hl.mem_of_live (by simp)
  have hnd := List.nodup_append.mp hl.nodup
  obtain ⟨u, v, e, -, he⟩ := hl.exists_end hx
  have hxe := (hl.end_le hx he).1
  obtain ⟨a, b, rfl, ha, hb, hfind⟩ := hl.findFree fun next => x < next
  have hax : ∀ y ∈ a, y < x := by
    intro y hy
    have hle : ¬ x < y := by simpa using ha y hy
    have hne : y ≠ x := hnd.2.2 y (by simp [hy]) x (by simp)
    omega
  have hbx : ∀ y ∈ b, x < y := by
    cases b with
    | nil => simp
    | cons z b =>
      have hz : x < z := by simpa using hb z rfl
      have hsorted := List.pairwise_cons.mp (List.pairwise_append.mp hl.sorted).2.1
      intro y hy
      rcases List.mem_cons.mp hy with rfl | hy
      · exact hz
      · exact hz.trans (hsorted.1 y hy)
  have hlast : ∀ y ∈ a.getLast?, y ∈ slots := fun y hy =>
    hl.mem_of_free (List.mem_append_left _ (List.mem_of_getLast? hy))
  -- The slot is put onto the free list, between `a` and `b`.
  have hl1 := hl.release hax hbx
  have hm1 : Moved h ((h.setNextFree x b.head?).setPrev a.getLast? (some x)) live := by
    refine ⟨fun z hz => ?_, setPrev_top, setPrev_brksize⟩
    refine hl.kept_release hx (fun y hy => ⟨hlast y hy, ?_⟩) (hl.mem_of_live (by simp [hz])) ?_
    · exact hnd.2.2 y (List.mem_append_left _ (List.mem_of_getLast? hy)) z (by simp [hz])
    · rintro rfl
      exact (List.nodup_cons.mp hnd.2.1).1 hz
  have hc1 : Covers h ((h.setNextFree x b.head?).setPrev a.getLast? (some x)) (x :: (a ++ b))
      (a ++ x :: b) := by
    intro y hy e' he'
    have hys : y ∈ slots := by
      rcases List.mem_cons.mp hy with rfl | hy
      · exact hx
      · exact hl.mem_of_free hy
    refine ⟨y, ?_, e', ?_, le_rfl, le_rfl⟩
    · simp only [List.mem_cons, List.mem_append] at hy ⊢
      tauto
    · rw [hl.nextSlot_release hx hlast (List.mem_append_left _ hys)]
      exact he'
  -- It is merged with the free slot behind it, and with the one in front of it.
  obtain ⟨h2, slots2, b2, htry, hl2, hm2, hc2⟩ := hl1.tryMerge
  have hguard : ofPtr (h.nextSlot x) > x := by
    rw [he]
    show e > x
    omega
  have hcode : Ansi.free h x = h2.tryMerge a.getLast? (some x) := by
    unfold Ansi.free
    rw [if_pos hguard, hfind]
    simp only [Option.bind_eq_bind, Option.bind_some, htry]
  rcases a.eq_nil_or_concat' with rfl | ⟨a, y, rfl⟩
  · exact ⟨h2, slots2, x :: b2, hcode, hl2, hm1.trans hm2, hc1.trans hc2⟩
  · have hl2' : Layout h2 slots2 (a ++ y :: (x :: b2)) live top := by simpa using hl2
    obtain ⟨h3, slots3, b3, htry3, hl3, hm3, hc3⟩ := hl2'.tryMerge
    refine ⟨h3, slots3, a ++ y :: b3, ?_, hl3, (hm1.trans hm2).trans hm3, ?_⟩
    · rw [hcode]
      simpa using htry3
    · refine (hc1.trans hc2).trans ?_
      simpa using hc3

/-! ## Taking a free slot -/

/-- A slot fits if it is as long as asked for. -/
theorem Layout.fits (hl : Layout h slots fr live top) (hp : p ∈ slots) (he : h.nextSlot p = some e)
    (h0 : 0 < len) (hlen : len < 2 ^ 16) : h.fits len p = true ↔ p + len ≤ e := by
  have hps := hl.slot_of_mem hp
  have hup := hps.upper
  have hes := (hl.isSlot e (hl.end_le hp he).2).upper
  unfold Heap.fits toAddr
  rw [he]
  show decide (¬((p + len) % 2 ^ 32 > e ∨ (p + len) % 2 ^ 32 ≤ p)) = true ↔ p + len ≤ e
  rw [decide_eq_true_iff]
  omega

/-- A slot is too big if another slot can be made behind it. -/
theorem Layout.tooBig {new : ℕ} (hl : Layout h slots fr live top) (hp : p ∈ slots)
    (he : h.nextSlot p = some e) (hnew : new ≤ e) :
    toAddr (new + PTRSIZE) = new + 4 ∧ (tooBig new (some e) = true ↔ new + 4 < e) := by
  have hlast := hl.last (List.ne_nil_of_mem hp)
  have hend := hl.end_le hp he
  have hle : e ≤ top := by
    rcases List.mem_append.mp hend.2 with hes | hes
    · have := hl.lt_top hes
      omega
    · exact Nat.le_of_eq (List.mem_singleton.mp hes)
  unfold BRKSIZE at hlast
  have haddr : toAddr (new + PTRSIZE) = new + 4 := by
    unfold toAddr PTRSIZE
    omega
  refine ⟨haddr, ?_⟩
  unfold Ansi.tooBig
  rw [haddr, decide_eq_true_iff]
  rfl

/-- The live slots are kept when a slot is taken off the free list. -/
theorem Layout.moved_take (hl : Layout h slots (a ++ x :: b) live top) {r : Option ℕ} :
    Moved h (h.setPrev a.getLast? r) live := by
  refine ⟨fun z hz => ?_, setPrev_top, setPrev_brksize⟩
  refine hl.kept_setPrev (hl.mem_of_live hz) fun y hy => ?_
  have hya : y ∈ a ++ x :: b := List.mem_append_left _ (List.mem_of_getLast? hy)
  exact ⟨hl.mem_of_free hya, (List.nodup_append.mp hl.nodup).2.2 y hya z hz⟩

/-- A free slot that fits is taken. -/
theorem Layout.takeSlot (hl : Layout h slots (a ++ p :: b) live top) (he : h.nextSlot p = some e)
    (h8 : 8 ≤ len) (h4 : len % 4 = 0) (hpe : p + len ≤ e) :
    ∃ h' slots' fr' e', h.takeSlot a.getLast? p len = some h' ∧
      Layout h' slots' fr' (p :: live) top ∧ Moved h h' live ∧
      h'.nextSlot p = some e' ∧ p + len ≤ e' := by
  have hp : p ∈ slots := hl.mem_of_free (by simp)
  have hps := hl.slot_of_mem hp
  have hup := hps.upper
  have hend := hl.end_le hp he
  have hes := hl.isSlot e hend.2
  have hupe := hes.upper
  have haddr : toAddr (p + len) = p + len := by
    unfold toAddr
    omega
  obtain ⟨hsum, hbig⟩ := hl.tooBig hp he hpe
  have hpf : ∀ z ∈ live, z ≠ p := by
    rintro z hz rfl
    exact (List.nodup_append.mp hl.nodup).2.2 z (by simp) z hz rfl
  by_cases hcut : p + len + 4 < e
  · -- The slot is cut, what is cut off comes behind it on the free list, and it is taken.
    have hne : p + len + 8 ≤ e := by
      have := hes.aligned
      have := hps.aligned
      omega
    have hnew : (p + len) % 4 = 0 := by
      have := hps.aligned
      omega
    obtain ⟨u, v, hs⟩ := List.append_of_mem hp
    have hl0 : Layout h (u ++ p :: v) (a ++ p :: b) live top := hs ▸ hl
    have hl1 := hl0.cut he (by omega) hne hnew
    have hfree1 := hl1.frees.suffix.head?_eq
    have hsorted := List.pairwise_append.mp hl.sorted
    have hsortedb := List.pairwise_cons.mp hsorted.2.1
    have hlt : ∀ y ∈ a ++ [p], y < p + len := by
      intro y hy
      rcases List.mem_append.mp hy with hy | hy
      · have := hsorted.2.2 y hy p (by simp)
        omega
      · have := List.mem_singleton.mp hy
        omega
    have hgt : ∀ y ∈ b, p + len < y := by
      intro y hy
      have hpy := hsortedb.1 y hy
      have hys : y ∈ slots := hl.mem_of_free (by simp [hy])
      have := hl.apart hp he (List.mem_append_left _ hys) (by omega)
      omega
    have hl1' : Layout ((h.setNextSlot (p + len) (h.nextSlot p)).setNextSlot p (some (p + len)))
        (u ++ p :: (p + len) :: v) (a ++ [p] ++ b) ((p + len) :: live) top := by simpa using hl1
    have hl2 := hl1'.release hlt hgt
    rw [List.getLast?_append, List.getLast?_singleton, Option.some_or, List.append_assoc] at hl2
    have hl3 : Layout _ _ (a ++ (p + len) :: b) (p :: live) top := hl2.take
    have hp2 : p ∈ u ++ p :: (p + len) :: v := by simp
    have hn2 : p + len ∈ u ++ p :: (p + len) :: v := by simp
    refine ⟨_, _, _, p + len, ?_, hl3, ?_, ?_, le_rfl⟩
    · unfold Heap.takeSlot
      rw [he, haddr]
      dsimp only
      rw [if_pos (hbig.mpr hcut), hsum, if_pos (by omega), ← he, ← hfree1]
      rfl
    · have hcutoff : Moved h (((h.setNextSlot (p + len) (h.nextSlot p)).setNextSlot p
          (some (p + len))).setNextFree (p + len) b.head? |>.setPrev (some p) (some (p + len)))
          live := by
        refine ⟨fun z hz => ?_, rfl, rfl⟩
        have hzs := hl.mem_of_live hz
        have hzn : p + len ≠ z := by
          rintro rfl
          have := hl.apart hp he (List.mem_append_left _ hzs) (by omega)
          omega
        refine (hl.kept_cut hp he (by omega) hne hnew hzs (hpf z hz)).trans ?_
        refine hl1'.kept_release hn2 ?_ (hl1'.mem_of_live (by simp [hz])) hzn
        rintro _ ⟨⟩
        exact ⟨hp2, (hpf z hz).symm⟩
      exact hcutoff.trans hl2.moved_take
    · have hnext1 : ((h.setNextSlot (p + len) (h.nextSlot p)).setNextSlot p
          (some (p + len))).nextSlot p = some (p + len) := by
        have hn := hl1.slot_of_mem hn2
        rw [nextSlot_setNextSlot ⟨hps.aligned, hps.lower⟩ ⟨hps.aligned, hps.lower⟩ hn.fits,
          if_pos rfl]
      rw [nextSlot_setPrev ?_ hps]
      · refine (hl1'.nextSlot_release hn2 ?_ (List.mem_append_left _ hp2)).trans hnext1
        rintro _ ⟨⟩
        exact hp2
      · intro y hy
        have hys := hl2.mem_of_free (List.mem_append_left _ (List.mem_of_getLast? hy))
        exact ⟨(hl2.slot_of_mem hys).aligned,
          hl2.add_four_ne (List.mem_append_left _ hys) (List.mem_append_left _ hp2)⟩
  · refine ⟨_, _, _, e, ?_, hl.take, hl.moved_take, ?_, hpe⟩
    · unfold Heap.takeSlot
      rw [he, haddr]
      dsimp only
      rw [if_neg (mt hbig.mp hcut)]
      rfl
    · rw [nextSlot_setPrev ?_ hps, he]
      intro y hy
      have hys := hl.mem_of_free (List.mem_append_left _ (List.mem_of_getLast? hy))
      exact ⟨(hl.slot_of_mem hys).aligned,
        hl.add_four_ne (List.mem_append_left _ hys) (List.mem_append_left _ hp)⟩

/-! ## More memory -/

/-- What a heap holds, without the slots. -/
theorem Layout.of_same {h' : Heap} (hl : Layout h slots fr live top) (hm : h'.mem = h.mem)
    (hb : h'._bottom = h._bottom) (he : h'._empty = h._empty) : Layout h' slots fr live top := by
  have hslot : h'.nextSlot = h.nextSlot := by
    unfold Heap.nextSlot
    rw [hm]
  have hfree : h'.nextFree = h.nextFree := by
    unfold Heap.nextFree
    rw [hm]
  refine ⟨?_, ?_, hl.gap, hl.sorted, hl.once, hl.isSlot, hl.last⟩
  · rw [hslot, hb]
    exact hl.chain
  · rw [hfree, he]
    exact hl.frees

theorem Kept.of_same {h' : Heap} (hm : h'.mem = h.mem) (x : ℕ) : Kept h h' x := by
  refine ⟨?_, fun _ _ k _ _ => by rw [hm]⟩
  unfold Heap.nextSlot
  rw [hm]

/-- Asking for memory changes nothing but the size. -/
theorem brk_same (addr : ℕ) : (brk h addr).2.mem = h.mem ∧ (brk h addr).2._bottom = h._bottom ∧
    (brk h addr).2._empty = h._empty ∧ (brk h addr).2._top = h._top ∧
    (brk h addr).2.brksize = if (brk h addr).1 then addr else h.brksize := by
  unfold brk
  split_ifs <;> simp_all

/-- The heap has slots, of which these are live. -/
def Laid (h : Heap) (live : List ℕ) : Prop :=
  ∃ slots fr top, Layout h slots fr live top ∧ h._top = some top ∧ top ≤ h.brksize

/-- The heap gets a slot of the length that is asked for, or stays as it is. -/
theorem Layout.grow (hl : Layout h slots fr live top) (ht : h._top = some top)
    (hbrk : top ≤ h.brksize) (h8 : 8 ≤ len) (hlen : len < 2 ^ 16) :
    ∃ ok h', Ansi.grow h len = some (ok, h') ∧ (∀ x ∈ live, Kept h h' x) ∧
      if ok then ∃ slots' fr' top', Layout h' slots' fr' live top' ∧ h'._top = some top' ∧
        top' ≤ h'.brksize ∧ ∃ y ∈ fr', h'.fits len y = true
      else Laid h' live := by
  have hts := hl.slot_top
  have hup := hts.upper
  have hnext : h.nextSlot top = none := hl.chain.next_last
  set p := alignDown (toAddr (top + len + (BRKSIZE - 1))) BRKSIZE with hp
  have hcode : Ansi.grow h len = if p < top then some (false, h) else
      if (brk h p).1 then do
        let h1 := ((brk h p).2.setNextSlot top (some p)).setNextSlot p none
        let h2 ← Ansi.free h1 top
        some (true, { h2 with _top := some p })
      else some (false, (brk h p).2) := by
    unfold Ansi.grow
    rw [ht, Option.bind_eq_bind, Option.bind_some, if_pos hnext]
  rw [hcode]
  by_cases hlow : p < top
  · exact ⟨false, h, if_pos hlow, fun x _ => Kept.refl h x, slots, fr, top, hl, ht, hbrk⟩
  · rw [if_neg hlow]
    have hpalign : p % 4 = 0 := by
      rw [hp]
      unfold alignDown BRKSIZE
      omega
    have hplen : top + len ≤ p ∧ p + BRKSIZE ≤ 2 ^ 32 := by
      unfold alignDown toAddr BRKSIZE at hp
      unfold BRKSIZE
      omega
    obtain ⟨hmem, hbottom, hempty, htop, hsize⟩ := brk_same (h := h) p
    have hl0 := hl.of_same hmem hbottom hempty
    have hkept0 := fun x => Kept.of_same hmem x
    by_cases hok : (brk h p).1 = true
    · rw [if_pos hok] at hsize ⊢
      have hl1 := hl0.extend hpalign (by omega) hplen.2
      obtain ⟨h2, slots2, fr2, hfree, hl2, hm2, hc2⟩ := hl1.free
      have hl3 : Layout { h2 with _top := some p } slots2 fr2 live p := hl2.of_same rfl rfl rfl
      refine ⟨true, { h2 with _top := some p }, ?_, ?_, slots2, fr2, p, hl3, rfl, ?_, ?_⟩
      · simp only [hfree, Option.bind_eq_bind, Option.bind_some]
      · intro x hx
        have hext := hl0.kept_extend hpalign (by omega) hplen.2 (hl0.mem_of_live hx)
        have hset : Kept h2 { h2 with _top := some p } x := Kept.of_same (by rfl) x
        exact (((hkept0 x).trans hext).trans (hm2.kept x hx)).trans hset
      · exact (hm2.brksize.trans hsize).ge
      · -- What was asked for is free, and in a free slot still.
        have hps := hl1.slot_top
        have hend : (((brk h p).2.setNextSlot top (some p)).setNextSlot p none).nextSlot top =
            some p := by
          rw [nextSlot_setNextSlot ⟨hps.aligned, hps.lower⟩ ⟨hts.aligned, hts.lower⟩ fits_none,
            if_neg (by omega), nextSlot_setNextSlot ⟨hts.aligned, hts.lower⟩
            ⟨hts.aligned, hts.lower⟩ hps.fits, if_pos rfl]
        obtain ⟨y, hy, e, he, hyt, hpe⟩ := hc2 top (by simp) p hend
        have hes := hl3.mem_of_free hy
        exact ⟨y, hy, (hl3.fits hes he (by omega) hlen).mpr (by omega)⟩
    · rw [if_neg hok] at hsize ⊢
      refine ⟨false, (brk h p).2, rfl, fun x _ => hkept0 x, slots, fr, top, hl0, ?_, ?_⟩
      · rw [htop, ht]
      · rw [hsize]
        exact hbrk

/-- No slot has been made yet. -/
structure Fresh (h : Heap) : Prop where
  bottom : h._bottom = none
  empty : h._empty = none

/-- The first slot is there once there are slots. -/
theorem Layout.firstSlot (hl : Layout h slots fr live top) : firstSlot h = some (true, h) := by
  obtain ⟨p, hp⟩ : ∃ p, h._bottom = some p := by
    have hne : h._bottom ≠ none := fun e => by
      have := hl.chain.eq_nil_iff.mpr e
      simp at this
    exact Option.ne_none_iff_exists'.mp hne
  unfold Ansi.firstSlot
  rw [hp]

/-- The first slot is made, unless there is one. -/
theorem firstSlot_laid (hl : Fresh h ∧ live = [] ∨ Laid h live) :
    ∃ ok h', firstSlot h = some (ok, h') ∧ (∀ x ∈ live, Kept h h' x) ∧
      if ok then Laid h' live else Fresh h' ∧ live = [] := by
  rcases hl with ⟨hf, rfl⟩ | ⟨slots, fr, top, hl, ht, hbrk⟩
  · unfold firstSlot sbrk
    rw [hf.bottom]
    dsimp only
    set size := toAddr (h.brksize + 2 * PTRSIZE) with hsize
    by_cases hlow : size < h.brksize
    · rw [if_pos hlow]
      exact ⟨false, h, rfl, by simp, hf, rfl⟩
    · rw [if_neg hlow]
      obtain ⟨hmem, hbottom, hempty, htop, hbrk⟩ := brk_same (h := h) size
      by_cases hok : (brk h size).1 = true
      · rw [if_pos hok] at hbrk ⊢
        dsimp only
        set q := alignDown (toAddr (h.brksize + (PTRSIZE - 1))) PTRSIZE with hq
        have hsize' : size = h.brksize + 8 ∧ h.brksize + 8 < 2 ^ 32 := by
          unfold toAddr PTRSIZE at hsize
          omega
        have hq' : q % 4 = 0 ∧ q ≤ h.brksize + 3 := by
          unfold alignDown toAddr PTRSIZE at hq
          omega
        have haddr : toAddr (q + PTRSIZE) = q + 4 := by
          unfold toAddr PTRSIZE
          omega
        rw [haddr, if_pos (by omega)]
        have hslot : IsSlot (q + 4) := ⟨by omega, by omega, by omega⟩
        have hgap : ([] ++ [q + 4]).Pairwise fun p q => p + 8 ≤ q := List.pairwise_singleton _ _
        refine ⟨true, _, rfl, by simp, [], [], q + 4, ⟨?_, ?_, hgap, List.Pairwise.nil,
          List.Perm.refl [], ?_, fun hne => absurd rfl hne⟩, rfl, ?_⟩
        · refine ⟨rfl, ?_⟩
          rw [nextSlot_setNextSlot ⟨hslot.aligned, hslot.lower⟩ ⟨hslot.aligned, hslot.lower⟩
            fits_none, if_pos rfl]
          rfl
        · exact hempty.trans hf.empty
        · intro p hp
          exact List.mem_singleton.mp hp ▸ hslot
        · have hle : q + 4 ≤ (brk h size).2.brksize := by
            rw [hbrk]
            omega
          exact hle
      · rw [if_neg hok]
        refine ⟨false, (brk h size).2, rfl, by simp, ⟨hbottom.trans hf.bottom, ?_⟩, rfl⟩
        exact hempty.trans hf.empty
  · exact ⟨true, h, hl.firstSlot, fun x _ => Kept.refl h x, slots, fr, top, hl, ht, hbrk⟩

/-! ## Allocating -/

/-- The length of a slot has room for what is asked for, unless the number overflows. -/
theorem slotLen_spec {size : ℕ} (hs : size < 2 ^ 16) :
    slotLen size % 4 = 0 ∧ slotLen size < 2 ^ 16 ∧
      (size + 8 ≤ 2 ^ 16 ∨ 8 ≤ slotLen size →
        size + 4 ≤ slotLen size ∧ slotLen size ≤ size + 7) := by
  unfold slotLen alignDown toUnsigned PTRSIZE
  omega

/-- The heap before anything is allocated, or with these slots live. -/
def Held (h : Heap) (live : List ℕ) : Prop := Fresh h ∧ live = [] ∨ Laid h live

/-- What comes of an allocation: no slot, or one with the room that was asked for. -/
structure Allocated (h h' : Heap) (live : List ℕ) (r : Option ℕ) (size : ℕ) : Prop where
  kept : ∀ x ∈ live, Kept h h' x
  refused : r = none → Held h' live
  given : ∀ p ∈ r, Laid h' (p :: live) ∧ ∃ e ∈ h'.nextSlot p, p + size + 4 ≤ e

theorem Allocated.of_kept {h1 h' : Heap} {r : Option ℕ} {size : ℕ}
    (hk : ∀ x ∈ live, Kept h h1 x) (ha : Allocated h1 h' live r size) :
    Allocated h h' live r size where
  kept := fun x hx => (hk x hx).trans (ha.kept x hx)
  refused := ha.refused
  given := ha.given

/-- A try of `malloc` with the first slot there. -/
theorem mallocTry_laid {size n : ℕ} (hl : Layout h slots fr live top) (h8 : 8 ≤ slotLen size) :
    mallocTry size (n + 1) h = (do
      let (prev, p) ← h.findFree (h.fits (slotLen size))
      match p with
      | some p => do
        let h ← h.takeSlot prev p (slotLen size)
        some (some p, h)
      | none => do
        let (ok, h) ← grow h (slotLen size)
        if ok then mallocTry size n h else some (none, h)) := by
  have hlen : ¬ slotLen size < 2 * PTRSIZE := by
    unfold PTRSIZE
    omega
  rw [mallocTry, if_neg hlen, hl.firstSlot]
  generalize slotLen size = len
  rfl

/-- A try of `malloc` takes the first free slot that fits, or makes the heap larger. -/
theorem mallocTry_spec {size n : ℕ} (hs : size < 2 ^ 16) (h8 : 8 ≤ slotLen size)
    (hl : Layout h slots fr live top) (ht : h._top = some top) (hbrk : top ≤ h.brksize) :
    (∃ r h', mallocTry size (n + 1) h = some (r, h') ∧ Allocated h h' live r size) ∨
      (∀ y ∈ fr, h.fits (slotLen size) y = false) ∧ ∃ h1 slots' fr' top',
        mallocTry size (n + 1) h = mallocTry size n h1 ∧ (∀ x ∈ live, Kept h h1 x) ∧
          Layout h1 slots' fr' live top' ∧ h1._top = some top' ∧ top' ≤ h1.brksize ∧
          ∃ y ∈ fr', h1.fits (slotLen size) y = true := by
  obtain ⟨h4, hlen, hroom⟩ := slotLen_spec hs
  obtain ⟨hroom, -⟩ := hroom (Or.inr h8)
  rw [mallocTry_laid hl h8]
  obtain ⟨a, b, rfl, ha, hb, hfind⟩ := hl.findFree (h.fits (slotLen size))
  rw [hfind]
  generalize slotLen size = len at *
  cases b with
  | cons p b =>
    have hp : p ∈ slots := hl.mem_of_free (by simp)
    obtain ⟨u, v, e, -, he⟩ := hl.exists_end hp
    have hpe := (hl.fits hp he (by omega) hlen).mp (hb p rfl)
    obtain ⟨h', slots', fr', e', htake, hl', hm', he', hpe'⟩ := hl.takeSlot he h8 h4 hpe
    refine Or.inl ⟨some p, h', ?_, hm'.kept, nofun, ?_⟩
    · have hhead : (p :: b).head? = some p := rfl
      rw [hhead, Option.bind_eq_bind, Option.bind_some]
      dsimp only
      rw [htake, Option.bind_eq_bind, Option.bind_some]
    · rintro _ ⟨⟩
      refine ⟨⟨slots', fr', top, hl', hm'.top.trans ht, ?_⟩, e', he', by omega⟩
      rw [hm'.brksize]
      exact hbrk
  | nil =>
    obtain ⟨ok, h1, hgrow, hkept, hgrown⟩ := hl.grow ht hbrk h8 hlen
    simp only [Option.bind_eq_bind, Option.bind_some, List.head?_nil, hgrow]
    cases ok with
    | false => exact Or.inl ⟨none, h1, rfl, hkept, fun _ => Or.inr hgrown, nofun⟩
    | true =>
      obtain ⟨slots', fr', top', hgrown⟩ := hgrown
      exact Or.inr ⟨by simpa using ha, h1, slots', fr', top', rfl, hkept, hgrown⟩

/-- `malloc` comes back, with no slot or with one that has the room that was asked for. -/
theorem malloc_spec {size : ℕ} (hs : size < 2 ^ 16) (hl : Held h live) :
    ∃ r h', malloc h size = some (r, h') ∧ Allocated h h' live r size := by
  unfold malloc
  set size' := if size = 0 then PTRSIZE else size with hsize
  have hs' : size' < 2 ^ 16 ∧ size ≤ size' := by
    unfold PTRSIZE at hsize
    split_ifs at hsize
    · omega
    · omega
  have hmore : ∀ {r h'}, Allocated h h' live r size' → Allocated h h' live r size := by
    intro r h' ha
    refine ⟨ha.kept, ha.refused, fun p hp => ?_⟩
    obtain ⟨hlaid, e, he, hpe⟩ := ha.given p hp
    exact ⟨hlaid, e, he, by omega⟩
  by_cases h8 : 8 ≤ slotLen size'
  · obtain ⟨ok, h1, hfirst, hkept, hlaid⟩ := firstSlot_laid hl
    cases ok with
    | false =>
      refine ⟨none, h1, ?_, hkept, fun _ => Or.inl hlaid, nofun⟩
      have hlen : ¬ slotLen size' < 2 * PTRSIZE := by
        unfold PTRSIZE
        omega
      rw [mallocTry, if_neg hlen, hfirst]
      rfl
    | true =>
      obtain ⟨slots, fr, top, hl1, ht, hbrk⟩ := hlaid
      -- The first slot is made by the first try.
      have hsame : mallocTry size' 2 h = mallocTry size' 2 h1 := by
        have hlen : ¬ slotLen size' < 2 * PTRSIZE := by
          unfold PTRSIZE
          omega
        rw [mallocTry, if_neg hlen, hfirst, mallocTry, if_neg hlen, hl1.firstSlot]
      rw [hsame]
      rcases mallocTry_spec (n := 1) hs'.1 h8 hl1 ht hbrk with
        ⟨r, h', hcode, ha⟩ | ⟨-, h2, slots2, fr2, top2, hcode, hkept2, hl2, ht2, hbrk2, y, hy, hfit⟩
      · exact ⟨r, h', hcode, hmore (ha.of_kept hkept)⟩
      · -- The second try finds what the heap has got.
        rw [hcode]
        rcases mallocTry_spec (n := 0) hs'.1 h8 hl2 ht2 hbrk2 with
          ⟨r, h', hcode', ha⟩ | ⟨hnone, -⟩
        · exact ⟨r, h', hcode', hmore ((ha.of_kept hkept2).of_kept hkept)⟩
        · exact absurd (hfit.symm.trans (hnone y hy)) (by decide)
  · refine ⟨none, h, ?_, fun x _ => Kept.refl h x, fun _ => hl, nofun⟩
    have hlen : slotLen size' < 2 * PTRSIZE := by
      unfold PTRSIZE
      omega
    rw [mallocTry, if_pos hlen]

/-! ## What the user writes -/

/-- The live slots may be named in any order. -/
theorem Layout.perm {live' : List ℕ} (hl : Layout h slots fr live top) (hp : live.Perm live') :
    Layout h slots fr live' top :=
  { hl with once := hl.once.trans (hp.append_left fr) }

/-- Only what the user has in a slot is changed. -/
structure Written (h h' : Heap) (x : ℕ) : Prop where
  outside : ∀ e ∈ h.nextSlot x, ∀ k, k < x ∨ e ≤ k + 4 → h'.mem k = h.mem k
  bottom : h'._bottom = h._bottom
  empty : h'._empty = h._empty
  top : h'._top = h._top
  brksize : h'.brksize = h.brksize

/-- What the user has in a slot ends in front of the link to the next one. -/
theorem Layout.nextSlot_written {h' : Heap} (hl : Layout h slots fr live top) (hx : x ∈ slots)
    (hw : Written h h' x) (hp : p ∈ slots ++ [top]) : h'.nextSlot p = h.nextSlot p := by
  obtain ⟨u, v, e, -, he⟩ := hl.exists_end hx
  have hps := hl.isSlot p hp
  refine loadPtr_congr fun k hk hk' => hw.outside e he k ?_
  have hlow := hps.lower
  unfold cellSize PTRSIZE at hk'
  unfold PTRSIZE at hk
  by_cases hpx : p = x
  · omega
  · have := hl.apart hx he hp hpx
    omega

theorem Layout.written {h' : Heap} (hl : Layout h slots fr live top) (hx : x ∈ live)
    (hw : Written h h' x) : Layout h' slots fr live top := by
  have hxs := hl.mem_of_live hx
  obtain ⟨u, v, e, -, he⟩ := hl.exists_end hxs
  refine hl.relink hw.bottom (fun p hp => hl.nextSlot_written hxs hw hp) ?_ hl.sorted hl.once
  rw [hw.empty]
  refine hl.frees.congr fun y hy => ?_
  have hys := hl.mem_of_free hy
  have hyx : y ≠ x := (List.nodup_append.mp hl.nodup).2.2 y hy x hx
  have hap := hl.apart hxs he (List.mem_append_left _ hys) hyx
  refine loadPtr_congr fun k hk hk' => hw.outside e he k ?_
  unfold cellSize at hk'
  omega

/-- The other slots are kept. -/
theorem Layout.kept_written {h' : Heap} (hl : Layout h slots fr live top) (hx : x ∈ slots)
    (hw : Written h h' x) (hp : p ∈ slots) (hpx : p ≠ x) : Kept h h' p := by
  obtain ⟨u, v, e, -, he⟩ := hl.exists_end hx
  refine ⟨hl.nextSlot_written hx hw (List.mem_append_left _ hp), fun e' he' k hpk hke => ?_⟩
  have hap := hl.apart hx he (List.mem_append_left _ hp) hpx
  have hap' := hl.apart hp he' (List.mem_append_left _ hx) hpx.symm
  exact hw.outside e he k (by omega)

theorem Laid.written {h' : Heap} (hl : Laid h live) (hx : x ∈ live) (hw : Written h h' x) :
    Laid h' live ∧ ∀ p ∈ live, p ≠ x → Kept h h' p := by
  obtain ⟨slots, fr, top, hl, ht, hbrk⟩ := hl
  refine ⟨⟨slots, fr, top, hl.written hx hw, hw.top.trans ht, ?_⟩, fun p hp hpx => ?_⟩
  · rw [hw.brksize]
    exact hbrk
  · exact hl.kept_written (hl.mem_of_live hx) hw (hl.mem_of_live hp) hpx

/-- `calloc` comes back, with no slot or with one whose bytes are zero. The number of the bytes is
the product of the two without what overflows. -/
theorem calloc_spec (n size : ℕ) (hl : Held h live) :
    ∃ r h', calloc h n size = some (r, h') ∧ Allocated h h' live r (toUnsigned (n * size)) ∧
      ∀ p ∈ r, ∀ k < toUnsigned (n * size), h'.mem (p + k) = 0 := by
  have hs : toUnsigned (n * size) < 2 ^ 16 := Nat.mod_lt _ (by decide)
  obtain ⟨r, h1, hcode, ha⟩ := malloc_spec hs hl
  unfold calloc
  generalize toUnsigned (n * size) = m at *
  dsimp only
  rw [hcode, Option.bind_eq_bind, Option.bind_some]
  cases r with
  | none => exact ⟨none, h1, rfl, ha, nofun⟩
  | some p =>
    obtain ⟨hlaid, e, he, hpe⟩ := ha.given p rfl
    set h' : Heap := { h1 with mem := fun k => if p ≤ k ∧ k < p + m then 0 else h1.mem k } with hh'
    have hw : Written h1 h' p := by
      refine ⟨fun e' he' k hk => ?_, rfl, rfl, rfl, rfl⟩
      obtain rfl : e' = e := Option.some.inj (he'.symm.trans he)
      exact if_neg (by omega)
    obtain ⟨hlaid', hkept'⟩ := hlaid.written (by simp) hw
    have hpl : p ∉ live := by
      obtain ⟨slots, fr, top, hl1, -, -⟩ := hlaid
      exact (List.nodup_cons.mp (List.nodup_append.mp hl1.nodup).2.1).1
    refine ⟨some p, h', rfl, ⟨fun x hx => ?_, nofun, ?_⟩, ?_⟩
    · refine (ha.kept x hx).trans (hkept' x (by simp [hx]) ?_)
      rintro rfl
      exact hpl hx
    · rintro _ ⟨⟩
      obtain ⟨slots, fr, top, hl1, -, -⟩ := hlaid
      have hps : p ∈ slots := hl1.mem_of_live (by simp)
      exact ⟨hlaid', e, by rwa [hl1.nextSlot_written hps hw (List.mem_append_left _ hps)], hpe⟩
    · rintro _ ⟨⟩ k hk
      exact if_pos (by omega)

end Calls

end Minix.Ansi
