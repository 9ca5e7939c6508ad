import Minix.Ansi.HeapCalls

/-!
# What `realloc` does to the slots

A slot is made longer where it is when the slot behind it is free and that is enough, else what it
holds is copied to another slot. What is copied is as long as the old slot with the link behind it,
which is less than the room in the new one.

A slot that is cut needs eight bytes. `realloc` cuts off four bytes, with no room in them, when it
is asked for no bytes at all: then its slot is `Spared` only if it is not cut.
-/

namespace Minix.Ansi

open Lib

/-- What the user has in a slot is kept, and the slot is as long as it was. -/
structure Holds (h h' : Heap) (p : ℕ) : Prop where
  slot : ∀ e ∈ h.nextSlot p, ∃ e' ∈ h'.nextSlot p, e ≤ e'
  data : ∀ e ∈ h.nextSlot p, ∀ k, p ≤ k → k + 4 < e → h'.mem k = h.mem k

theorem Kept.holds {h h' : Heap} {p : ℕ} (hk : Kept h h' p) : Holds h h' p :=
  ⟨fun e he => ⟨e, by rwa [hk.slot], le_rfl⟩, hk.data⟩

theorem Holds.trans {h h' h'' : Heap} {p : ℕ} (a : Holds h h' p) (b : Holds h' h'' p) :
    Holds h h'' p := by
  constructor
  · intro e he
    obtain ⟨e', he', hle⟩ := a.slot e he
    obtain ⟨e'', he'', hle'⟩ := b.slot e' he'
    exact ⟨e'', he'', hle.trans hle'⟩
  · intro e he k hp hk
    obtain ⟨e', he', hle⟩ := a.slot e he
    rw [b.data e' he' k hp (by omega), a.data e he k hp hk]

section Realloc

variable {h : Heap} {slots fr live : List ℕ} {top old e size : ℕ}

/-- A live slot gets the free slot behind it, if there is one. -/
theorem Layout.extendSlot (hl : Layout h slots fr (old :: live) top) :
    ∃ h' slots' fr', h.extend old = some h' ∧ Layout h' slots' fr' (old :: live) top ∧
      h'._top = h._top ∧ h'.brksize = h.brksize ∧ (∀ x ∈ live, Kept h h' x) ∧ Holds h h' old := by
  have hold : old ∈ slots := hl.mem_of_live (by simp)
  have hos := hl.slot_of_mem hold
  obtain ⟨u, v, e, -, he⟩ := hl.exists_end hold
  obtain ⟨a, b, rfl, -, -, hfind⟩ := hl.findFree fun p => p ≥ e
  have hnext : ofPtr (h.nextSlot old) = e := by rw [he]; rfl
  have hsame : ∃ h' slots' fr', some h = some h' ∧ Layout h' slots' fr' (old :: live) top ∧
      h'._top = h._top ∧ h'.brksize = h.brksize ∧ (∀ x ∈ live, Kept h h' x) ∧ Holds h h' old :=
    ⟨h, slots, a ++ b, rfl, hl, rfl, rfl, fun x _ => Kept.refl h x, (Kept.refl h old).holds⟩
  unfold Heap.extend
  rw [hnext]
  dsimp only
  rw [hfind, Option.bind_eq_bind, Option.bind_some]
  cases b with
  | nil => exact hsame
  | cons p b =>
    by_cases hpe : p = e
    · subst hpe
      have hp : p ∈ slots := hl.mem_of_free (by simp)
      obtain ⟨u, v, hs⟩ := hl.adjacent hold hp he
      have hl' : Layout h (u ++ old :: p :: v) (a ++ p :: b) (old :: live) top := hs ▸ hl
      have hprev : ∀ y ∈ a.getLast?, y ∈ a ++ p :: b := fun y hy =>
        List.mem_append_left _ (List.mem_of_getLast? hy)
      refine ⟨h.absorb old p a.getLast?, _, _, ?_, hl'.absorb, setPrev_top, setPrev_brksize, ?_, ?_⟩
      · rw [List.head?_cons]
        exact if_pos rfl
      · intro x hx
        refine hl.kept_absorb hold hp hprev (by simp [hx]) ?_
        rintro rfl
        exact (List.nodup_cons.mp (List.nodup_append.mp hl.nodup).2.1).1 hx
      · constructor
        · intro e' he'
          obtain rfl : p = e' := Option.some.inj (he.symm.trans he')
          obtain ⟨u', v', e, -, hpe⟩ := hl.exists_end hp
          have hend := hl.end_le hp hpe
          refine ⟨e, ?_, by omega⟩
          rw [Heap.absorb, nextSlot_setPrev ?_ hos,
            nextSlot_setNextSlot ⟨hos.aligned, hos.lower⟩ ⟨hos.aligned, hos.lower⟩
            (hpe ▸ (hl.isSlot e hend.2).fits), if_pos rfl]
          · exact hpe
          · intro y hy
            have hys := hl.mem_of_free (hprev y hy)
            exact ⟨(hl.slot_of_mem hys).aligned,
              hl.add_four_ne (List.mem_append_left _ hys) (List.mem_append_left _ hold)⟩
        · exact fun e' he' k hk hke => hl.mem_absorb hprev (by simp) he' hk hke
    · rw [List.head?_cons]
      dsimp only
      rw [if_neg hpe]
      exact hsame

/-- A slot stays as long as it is when the slot behind it is not free. -/
theorem Layout.extendSlot_same {live : List ℕ} (hl : Layout h slots fr live top)
    (he : h.nextSlot old = some e) (hfr : e ∉ fr) : h.extend old = some h := by
  obtain ⟨a, b, rfl, -, -, hfind⟩ := hl.findFree fun p => p ≥ e
  have hnext : ofPtr (h.nextSlot old) = e := by rw [he]; rfl
  unfold Heap.extend
  rw [hnext]
  dsimp only
  rw [hfind, Option.bind_eq_bind, Option.bind_some]
  cases b with
  | nil => rfl
  | cons p b =>
    have hpe : p ≠ e := by
      rintro rfl
      exact hfr (by simp)
    rw [List.head?_cons]
    dsimp only
    rw [if_neg hpe]

/-- A slot that `realloc` is asked to make has eight bytes, or is not cut: either some bytes are
asked for, or the old slot is no longer than eight bytes with the free space behind it. -/
def Spared (h : Heap) (old size : ℕ) : Prop :=
  size ≠ 0 ∨ ∀ h' ∈ h.extend old, ofPtr (h'.nextSlot old) ≤ old + 8

/-- What comes of `realloc`: the old slot stays, or there is one with the room that was asked for
and what the old one had. -/
structure Reallocated (h h' : Heap) (live : List ℕ) (old : ℕ) (r : Option ℕ) (size : ℕ) : Prop where
  kept : ∀ x ∈ live, Kept h h' x
  refused : r = none → Laid h' (old :: live) ∧ Holds h h' old
  given : ∀ p ∈ r, Laid h' (p :: live) ∧ (∃ e ∈ h'.nextSlot p, p + size + 4 ≤ e) ∧
    ∀ e ∈ h.nextSlot old, ∀ k < size, old + k + 4 < e → h'.mem (p + k) = h.mem (old + k)

theorem Reallocated.of_extended {h1 h' : Heap} {r : Option ℕ} (hk : ∀ x ∈ live, Kept h h1 x)
    (ho : Holds h h1 old) (hr : Reallocated h1 h' live old r size) :
    Reallocated h h' live old r size where
  kept := fun x hx => (hk x hx).trans (hr.kept x hx)
  refused := fun hn => ⟨(hr.refused hn).1, ho.trans (hr.refused hn).2⟩
  given := by
    intro p hp
    obtain ⟨hlaid, hroom, hdata⟩ := hr.given p hp
    refine ⟨hlaid, hroom, fun e he k hk hke => ?_⟩
    obtain ⟨e', he', hle⟩ := ho.slot e he
    rw [hdata e' he' k hk (by omega), ho.data e he (old + k) (by omega) hke]

/-- The slot is cut behind what is asked for, and the rest is freed. -/
theorem Layout.shrink {len : ℕ} (hl : Layout h slots fr (old :: live) top)
    (he : h.nextSlot old = some e) (ht : h._top = some top) (hbrk : top ≤ h.brksize)
    (h4 : len % 4 = 0) (h8 : 8 ≤ len) (hroom : size + 4 ≤ len) (hcut : old + len + 8 ≤ e) :
    ∃ h', Ansi.free ((h.setNextSlot (old + len) (some e)).setNextSlot old (some (old + len)))
        (old + len) = some h' ∧ Reallocated h h' live old (some old) size := by
  have hold : old ∈ slots := hl.mem_of_live (by simp)
  have hos := hl.slot_of_mem hold
  have hnew : (old + len) % 4 = 0 := by
    have := hos.aligned
    omega
  obtain ⟨u, v, hs⟩ := List.append_of_mem hold
  have hl0 : Layout h (u ++ old :: v) fr (old :: live) top := hs ▸ hl
  have hl1 := hl0.cut he (by omega) hcut hnew
  rw [he] at hl1
  obtain ⟨h', slots', fr', hfree, hl2, hm2, -⟩ := hl1.free
  have hns := hl1.slot_of_mem (p := old + len) (by simp)
  have hend1 : ((h.setNextSlot (old + len) (some e)).setNextSlot old (some (old + len))).nextSlot old =
      some (old + len) := by
    rw [nextSlot_setNextSlot ⟨hos.aligned, hos.lower⟩ ⟨hos.aligned, hos.lower⟩ hns.fits,
      if_pos rfl]
  have hend2 : h'.nextSlot old = some (old + len) := by
    rw [(hm2.kept old (by simp)).slot, hend1]
  refine ⟨h', hfree, ⟨fun x hx => ?_, nofun, ?_⟩⟩
  · have hxo : x ≠ old := by
      rintro rfl
      exact (List.nodup_cons.mp (List.nodup_append.mp hl.nodup).2.1).1 hx
    have hcutoff := hl.kept_cut hold he (by omega) hcut hnew (hl.mem_of_live (by simp [hx])) hxo
    rw [he] at hcutoff
    exact hcutoff.trans (hm2.kept x (by simp [hx]))
  · rintro _ ⟨⟩
    refine ⟨⟨slots', fr', top, hl2, hm2.top.trans ht, ?_⟩, ⟨old + len, hend2, by omega⟩, ?_⟩
    · rw [hm2.brksize]
      exact hbrk
    · intro e' he' k hk hke
      rw [(hm2.kept old (by simp)).data (old + len) hend1 (old + k) (by omega) (by omega),
        mem_cut hos.lower (by omega) (by omega) (by omega)]

/-- A slot gets what another one holds, which is freed. -/
theorem Laid.move {new n : ℕ} {e' : ℕ} (hl : Laid h (new :: old :: live))
    (hn : h.nextSlot new = some e') (hroom : new + n + 4 ≤ e') :
    ∃ h', Ansi.free (h.copy new old n) old = some h' ∧ Laid h' (new :: live) ∧
      (∀ x ∈ live, Kept h h' x) ∧ h'.nextSlot new = some e' ∧
      ∀ k < n, h'.mem (new + k) = h.mem (old + k) := by
  have hw : Written h (h.copy new old n) new := by
    refine ⟨fun e he k hk => ?_, rfl, rfl, rfl, rfl⟩
    obtain rfl : e' = e := Option.some.inj (hn.symm.trans he)
    exact if_neg (by omega)
  obtain ⟨slots, fr, top, hl0, ht, hbrk⟩ := hl
  have hnew : new ∈ slots := hl0.mem_of_live (by simp)
  have hl1 := hl0.written (by simp) hw
  have hnd := (List.nodup_append.mp hl0.nodup).2.1
  obtain ⟨h', slots', fr', hfree, hl2, hm2, -⟩ := (hl1.perm (List.Perm.swap old new live)).free
  have hend : (h.copy new old n).nextSlot new = some e' := by
    rw [hl0.nextSlot_written hnew hw (List.mem_append_left _ hnew), hn]
  refine ⟨h', hfree, ⟨slots', fr', top, hl2, hm2.top.trans ht, ?_⟩, fun x hx => ?_, ?_, ?_⟩
  · rw [hm2.brksize]
    exact hbrk
  · refine Kept.trans ?_ (hm2.kept x (by simp [hx]))
    refine hl0.kept_written hnew hw (hl0.mem_of_live (by simp [hx])) ?_
    rintro rfl
    exact (List.nodup_cons.mp hnd).1 (by simp [hx])
  · rw [(hm2.kept new (by simp)).slot, hend]
  · intro k hk
    rw [(hm2.kept new (by simp)).data e' hend (new + k) (by omega) (by omega)]
    have hcopy : (h.copy new old n).mem (new + k) = h.mem (old + (new + k - new)) :=
      if_pos (by omega)
    rw [hcopy, Nat.add_sub_cancel_left]

/-- The slots as they are told apart by what `realloc` tests. -/
theorem Layout.fitsOld {len : ℕ} (hl : Layout h slots fr live top) (hold : old ∈ slots)
    (he : h.nextSlot old = some e) (hlen : len < 2 ^ 16) :
    (toAddr (old + len) ≤ e ∧ toAddr (old + len) ≥ old ↔ old + len ≤ e) ∧
      (old + len ≤ e → toAddr (old + len) = old + len) := by
  have hup := (hl.slot_of_mem hold).upper
  have hes := (hl.isSlot e (hl.end_le hold he).2).upper
  unfold toAddr
  omega

/-- `realloc` comes back, with no slot or with one that has the room that was asked for and what the
old one had. -/
theorem realloc_spec (hs : size < 2 ^ 16) (hspared : Spared h old size)
    (hl : Laid h (old :: live)) :
    ∃ r h', realloc h old size = some (r, h') ∧ Reallocated h h' live old r size := by
  obtain ⟨slots, fr, top, hl, ht, hbrk⟩ := hl
  have hrefuse : Reallocated h h live old none size :=
    ⟨fun x _ => Kept.refl h x, fun _ => ⟨⟨slots, fr, top, hl, ht, hbrk⟩, (Kept.refl h old).holds⟩,
      nofun⟩
  unfold realloc
  by_cases hbig : size > toUnsigned (2 ^ 16 - 2 * PTRSIZE)
  · rw [if_pos hbig]
    exact ⟨none, h, rfl, hrefuse⟩
  rw [if_neg hbig]
  have hsize : size + 8 ≤ 2 ^ 16 := by
    unfold toUnsigned PTRSIZE at hbig
    omega
  obtain ⟨h4, hlen, hroom⟩ := slotLen_spec hs
  obtain ⟨hroom, hmost⟩ := hroom (Or.inl hsize)
  have hzero : size ≠ 0 → 8 ≤ slotLen size := by omega
  generalize slotLen size = len at *
  have hold : old ∈ slots := hl.mem_of_live (by simp)
  obtain ⟨u, v, e, -, he⟩ := hl.exists_end hold
  have hend := hl.end_le hold he
  obtain ⟨h1, slots1, fr1, hext, hl1, ht1, hbrk1, hkept1, hhold1⟩ := hl.extendSlot
  have hold1 : old ∈ slots1 := hl1.mem_of_live (by simp)
  obtain ⟨u1, v1, e1, -, he1⟩ := hl1.exists_end hold1
  have hee1 : e ≤ e1 := by
    obtain ⟨e', he', hle⟩ := hhold1.slot e he
    obtain rfl : e1 = e' := Option.some.inj (he1.symm.trans he')
    exact hle
  obtain ⟨hfit, haddr⟩ := hl1.fitsOld hold1 he1 hlen
  have ht1' : h1._top = some top := ht1.trans ht
  have hbrk1' : top ≤ h1.brksize := by
    rw [hbrk1]
    exact hbrk
  have hlaid1 : Laid h1 (old :: live) := ⟨slots1, fr1, top, hl1, ht1', hbrk1'⟩
  dsimp only
  rw [hext, Option.bind_eq_bind, Option.bind_some, he1, he]
  rw [show ofPtr (some e1) = e1 from rfl, show ofPtr (some e) = e from rfl]
  by_cases hin : old + len ≤ e1
  · rw [if_pos (hfit.mpr hin), haddr hin]
    obtain ⟨hsum, htoo⟩ := hl1.tooBig hold1 he1 hin
    by_cases hcut : old + len + 4 < e1
    · -- Something is asked for, or the slot would not be cut.
      have h8 : 8 ≤ len := by
        rcases hspared with hne | hshort
        · exact hzero hne
        · have hle := hshort h1 hext
          rw [he1] at hle
          have : e1 ≤ old + 8 := hle
          omega
      have hcut8 : old + len + 8 ≤ e1 := by
        have := (hl1.slot_of_mem hold1).aligned
        have := (hl1.isSlot e1 (hl1.end_le hold1 he1).2).aligned
        omega
      obtain ⟨h', hfree, hr⟩ := hl1.shrink he1 ht1' hbrk1' h4 h8 hroom hcut8
      refine ⟨some old, h', ?_, hr.of_extended hkept1 hhold1⟩
      rw [if_pos (htoo.mpr hcut), hsum, if_pos (by omega), hfree]
      rfl
    · rw [if_neg (mt htoo.mp hcut)]
      refine ⟨some old, h1, rfl, hkept1, nofun, ?_⟩
      rintro _ ⟨⟩
      exact ⟨hlaid1, ⟨e1, he1, by omega⟩, fun e' he' k _ hke =>
        hhold1.data e' he' (old + k) (by omega) (by omega)⟩
  · rw [if_neg (mt hfit.mp hin)]
    obtain ⟨r, h2, hmalloc, ha⟩ := malloc_spec hs (Or.inr hlaid1)
    rw [hmalloc, Option.bind_eq_bind, Option.bind_some]
    cases r with
    | none =>
      refine ⟨none, h2, rfl, Reallocated.of_extended hkept1 hhold1 ⟨?_, fun _ => ?_, nofun⟩⟩
      · exact fun x hx => ha.kept x (by simp [hx])
      · rcases ha.refused rfl with ⟨-, hnil⟩ | hlaid2
        · exact absurd hnil (by simp)
        · exact ⟨hlaid2, (ha.kept old (by simp)).holds⟩
    | some new =>
      obtain ⟨hlaid2, e2, he2, hroom2⟩ := ha.given new rfl
      -- What is copied is shorter than the slot that was asked for.
      have hn : toUnsigned (e - old) = e - old := Nat.mod_eq_of_lt (by omega)
      have hcopy : new + (e - old) + 4 ≤ e2 := by
        have ho := (hl.slot_of_mem hold).aligned
        have hea := (hl.isSlot e hend.2).aligned
        obtain ⟨slots2, fr2, top2, hl2, -, -⟩ := hlaid2
        have hnew : new ∈ slots2 := hl2.mem_of_live (by simp)
        have hna := (hl2.slot_of_mem hnew).aligned
        have he2a := (hl2.isSlot e2 (hl2.end_le hnew he2).2).aligned
        omega
      obtain ⟨h3, hfree, hlaid3, hkept3, hend3, hdata3⟩ := hlaid2.move he2 hcopy
      refine ⟨some new, h3, ?_, fun x hx => ?_, nofun, ?_⟩
      · dsimp only
        rw [hn, hfree]
        rfl
      · exact ((hkept1 x hx).trans (ha.kept x (by simp [hx]))).trans (hkept3 x hx)
      · rintro _ ⟨⟩
        refine ⟨hlaid3, ⟨e2, hend3, hroom2⟩, fun e' he' k hk hke => ?_⟩
        obtain rfl : e = e' := Option.some.inj (he.symm.trans he')
        rw [hdata3 k (by omega), (ha.kept old (by simp)).data e1 he1 (old + k) (by omega) (by omega),
          hhold1.data e he (old + k) (by omega) hke]

end Realloc

end Minix.Ansi
