import Mathlib
import Minix.Lib.Indices

/-!
# Sorting by a three-way partition

A range of a sequence is cut into what is less than an element of it, what is equal to that, and
what is more. The equal ones are kept together in the middle and the two scans, from the left and
from the right, move towards them: between the four bounds there is what has not been looked at
(`Cut.Inv`). A sort cuts a range and sorts both sides (`quick_sorts`). The indices that are compared
or moved are recorded, so that it can be said that they lie in the range.
-/

namespace Minix.Lib

variable {α : Type*}

/-! ## Comparison -/

/-- A comparison by the sign of its result. -/
structure TotalPreorder (cmp : α → α → ℤ) : Prop where
  sign : ∀ x y, cmp x y < 0 ↔ 0 < cmp y x
  trans : ∀ x y z, cmp x y ≤ 0 → cmp y z ≤ 0 → cmp x z ≤ 0

variable {cmp : α → α → ℤ} {x y z e v : α}

theorem TotalPreorder.le_iff (h : TotalPreorder cmp) : cmp x y ≤ 0 ↔ 0 ≤ cmp y x := by
  have := h.sign y x
  omega

theorem TotalPreorder.refl (h : TotalPreorder cmp) (x : α) : cmp x x = 0 := by
  have := h.sign x x
  omega

/-- Less than what is at most something is less than that. -/
theorem TotalPreorder.lt_of_lt_of_le (h : TotalPreorder cmp) (hlt : cmp x e < 0)
    (hle : cmp e v ≤ 0) : cmp x v < 0 := by
  by_contra hge
  have hback : cmp v x ≤ 0 := h.le_iff.mpr (by omega)
  have hcycle := h.trans e v x hle hback
  have := (h.sign x e).mp hlt
  omega

/-- What is at most something that is less is less. -/
theorem TotalPreorder.lt_of_le_of_lt (h : TotalPreorder cmp) (hle : cmp x e ≤ 0)
    (hlt : cmp e v < 0) : cmp x v < 0 := by
  by_contra hge
  have hback : cmp v x ≤ 0 := h.le_iff.mpr (by omega)
  have hcycle := h.trans v x e hback hle
  have := (h.sign e v).mp hlt
  omega

/-- Compared with one of two equal elements, an element is as it is compared with the other. -/
theorem TotalPreorder.lt_congr (h : TotalPreorder cmp) (he : cmp e v = 0) :
    cmp x e < 0 ↔ cmp x v < 0 := by
  have hev : cmp v e ≤ 0 := h.le_iff.mpr (by omega)
  exact ⟨fun hx => h.lt_of_lt_of_le hx (by omega), fun hx => h.lt_of_lt_of_le hx hev⟩

theorem TotalPreorder.gt_congr (h : TotalPreorder cmp) (he : cmp e v = 0) :
    0 < cmp x e ↔ 0 < cmp x v := by
  have hev : cmp v e ≤ 0 := h.le_iff.mpr (by omega)
  rw [← h.sign, ← h.sign]
  exact ⟨fun hx => h.lt_of_le_of_lt hev hx, fun hx => h.lt_of_le_of_lt (by omega) hx⟩

/-! ## Rearrangements -/

/-- Two elements are exchanged. -/
def exchange (A : ℤ → α) (i j : ℤ) : ℤ → α := A ∘ Equiv.swap i j

/-- The element at `r` goes to `p`, the one at `q` to `r` and the one at `p` to `q`. -/
def exchange3 (A : ℤ → α) (p q r : ℤ) : ℤ → α := exchange (exchange A p r) r q

/-- Between `lo` and `up` there is the same in another order, and elsewhere there is the same. -/
def Rearranged (lo up : ℤ) (A B : ℤ → α) : Prop :=
  ∃ σ : Equiv.Perm ℤ, (∀ i, ¬(lo ≤ i ∧ i ≤ up) → σ i = i) ∧ B = A ∘ σ

variable {A B C : ℤ → α} {lo up lo' up' i j p q r : ℤ} {P : α → Prop}

theorem exchange_apply (A : ℤ → α) (i j k : ℤ) :
    exchange A i j k = if k = i then A j else if k = j then A i else A k := by
  simp only [exchange, Function.comp_apply, Equiv.swap_apply_def]
  split_ifs <;> rfl

theorem exchange_left (A : ℤ → α) (i j : ℤ) : exchange A i j i = A j := by
  rw [exchange_apply, if_pos rfl]

theorem exchange_right (A : ℤ → α) (i j : ℤ) : exchange A i j j = A i := by
  rw [exchange_apply, if_pos rfl]
  split_ifs with h
  · rw [h]
  · rfl

theorem exchange_of_ne (A : ℤ → α) {i j k : ℤ} (hi : k ≠ i) (hj : k ≠ j) :
    exchange A i j k = A k := by
  rw [exchange_apply, if_neg hi, if_neg hj]

theorem exchange3_first (A : ℤ → α) (hr : p ≠ r) (hq : p ≠ q) : exchange3 A p q r p = A r := by
  rw [exchange3, exchange_of_ne _ hr hq, exchange_left]

theorem exchange3_second (A : ℤ → α) (p q r : ℤ) : exchange3 A p q r q = A p := by
  rw [exchange3, exchange_right, exchange_right]

theorem exchange3_of_ne (A : ℤ → α) {k : ℤ} (hp : k ≠ p) (hq : k ≠ q) (hr : k ≠ r) :
    exchange3 A p q r k = A k := by
  rw [exchange3, exchange_of_ne _ hr hq, exchange_of_ne _ hp hr]

theorem Rearranged.refl (A : ℤ → α) : Rearranged lo up A A := ⟨1, fun _ _ => rfl, rfl⟩

theorem Rearranged.trans (h : Rearranged lo up A B) (h' : Rearranged lo up B C) :
    Rearranged lo up A C := by
  obtain ⟨σ, hσ, rfl⟩ := h
  obtain ⟨τ, hτ, rfl⟩ := h'
  refine ⟨σ * τ, fun i hi => ?_, rfl⟩
  rw [Equiv.Perm.mul_apply, hτ i hi, hσ i hi]

theorem Rearranged.mono (h : Rearranged lo up A B) (hlo : lo' ≤ lo) (hup : up ≤ up') :
    Rearranged lo' up' A B := by
  obtain ⟨σ, hσ, hB⟩ := h
  exact ⟨σ, fun i hi => hσ i (by omega), hB⟩

theorem Rearranged.outside (h : Rearranged lo up A B) (hi : ¬(lo ≤ i ∧ i ≤ up)) : B i = A i := by
  obtain ⟨σ, hσ, rfl⟩ := h
  rw [Function.comp_apply, hσ i hi]

/-- What is elsewhere stays there, and so what is between the bounds does. -/
theorem between_iff {σ : Equiv.Perm ℤ} (hσ : ∀ i, ¬(lo ≤ i ∧ i ≤ up) → σ i = i) (i : ℤ) :
    lo ≤ σ i ∧ σ i ≤ up ↔ lo ≤ i ∧ i ≤ up := by
  by_cases hi : lo ≤ i ∧ i ≤ up
  · refine iff_of_true ?_ hi
    by_contra hout
    have hfix : σ i = i := σ.injective (hσ _ hout)
    rw [hfix] at hout
    exact hout hi
  · rw [hσ i hi]

/-- What holds of all between the bounds holds of all after a rearrangement. -/
theorem Rearranged.all (h : Rearranged lo up A B) (hA : ∀ i, lo ≤ i → i ≤ up → P (A i)) :
    ∀ i, lo ≤ i → i ≤ up → P (B i) := by
  obtain ⟨σ, hσ, rfl⟩ := h
  intro i hlo hup
  obtain ⟨hlo', hup'⟩ := (between_iff hσ i).mpr ⟨hlo, hup⟩
  exact hA _ hlo' hup'

/-- A rearrangement has as many elements of each kind as there were. -/
theorem Rearranged.card [DecidablePred P] (h : Rearranged lo up A B) :
    ((Finset.Icc lo up).filter fun i => P (B i)).card =
      ((Finset.Icc lo up).filter fun i => P (A i)).card := by
  obtain ⟨σ, hσ, rfl⟩ := h
  apply Finset.card_equiv σ
  intro i
  simp only [Finset.mem_filter, Finset.mem_Icc, Function.comp_apply, between_iff hσ i]

theorem exchange_rearranged (A : ℤ → α) (hp : lo ≤ p ∧ p ≤ up) (hq : lo ≤ q ∧ q ≤ up) :
    Rearranged lo up A (exchange A p q) := by
  refine ⟨Equiv.swap p q, fun k hk => ?_, rfl⟩
  apply Equiv.swap_apply_of_ne_of_ne
  · intro hkp
    exact hk (hkp ▸ hp)
  · intro hkq
    exact hk (hkq ▸ hq)

theorem exchange3_rearranged (A : ℤ → α) (hp : lo ≤ p ∧ p ≤ up) (hq : lo ≤ q ∧ q ≤ up)
    (hr : lo ≤ r ∧ r ≤ up) : Rearranged lo up A (exchange3 A p q r) :=
  (exchange_rearranged A hp hr).trans (exchange_rearranged _ hr hq)

/-! ## The partition -/

/-- A sequence with the four bounds, and the indices that have been used. -/
structure Cut (α : Type*) where
  arr : ℤ → α
  used : List ℤ
  left : ℤ
  lefteq : ℤ
  righteq : ℤ
  right : ℤ

/-- Which of the two scans goes on. -/
inductive Side
  | left
  | right
  deriving DecidableEq

/-- Two elements are compared. -/
def Cut.look (c : Cut α) (i j : ℤ) : Cut α := { c with used := i :: j :: c.used }

/-- Two elements are exchanged. -/
def Cut.swap (c : Cut α) (i j : ℤ) : Cut α :=
  { c with arr := exchange c.arr i j, used := i :: j :: c.used }

/-- Three elements change places. -/
def Cut.swap3 (c : Cut α) (p q r : ℤ) : Cut α :=
  { c with arr := exchange3 c.arr p q r, used := p :: q :: r :: c.used }

/-- A step of the partition, if it has not ended. -/
def cutStep (cmp : α → α → ℤ) : Side × Cut α → Option (Side × Cut α)
  | (.left, c) =>
    if c.left < c.lefteq then
      let d := c.look c.left c.lefteq
      if cmp (c.arr c.left) (c.arr c.lefteq) < 0 then some (.left, { d with left := d.left + 1 })
      else if cmp (c.arr c.left) (c.arr c.lefteq) = 0 then
        some (.left, { d with lefteq := d.lefteq - 1 }.swap d.left (d.lefteq - 1))
      else some (.right, d)
    else some (.right, c)
  | (.right, c) =>
    if c.righteq < c.right then
      let d := c.look c.right c.righteq
      if cmp (c.arr c.right) (c.arr c.righteq) < 0 then
        if c.left < c.lefteq then
          some (.left, { d.swap d.left d.right with left := d.left + 1, right := d.right - 1 })
        else
          some (.right, { d.swap3 d.left (d.righteq + 1) d.right with
            righteq := d.righteq + 1, lefteq := d.lefteq + 1, left := d.lefteq + 1 })
      else if cmp (c.arr c.right) (c.arr c.righteq) = 0 then
        some (.right, { d with righteq := d.righteq + 1 }.swap d.right (d.righteq + 1))
      else some (.right, { d with right := d.right - 1 })
    else if c.left < c.lefteq then
      some (.left, { c.swap3 c.right (c.lefteq - 1) c.left with
        lefteq := c.lefteq - 1, righteq := c.righteq - 1, right := c.righteq - 1 })
    else none

/-- The partition, with so much fuel. -/
def cut (cmp : α → α → ℤ) : ℕ → Side × Cut α → Option (Cut α)
  | 0, _ => none
  | n + 1, s => match cutStep cmp s with
    | none => some s.2
    | some s' => cut cmp n s'

/-- Less, equal and more than `v`, as far as the bounds have come. -/
structure Cut.Inv (cmp : α → α → ℤ) (lo up : ℤ) (v : α) (A : ℤ → α) (used : List ℤ) (c : Cut α) :
    Prop where
  lo_left : lo ≤ c.left
  left_le : c.left ≤ c.lefteq
  eq_le : c.lefteq ≤ c.righteq
  right_le : c.righteq ≤ c.right
  right_up : c.right ≤ up
  less : ∀ i, lo ≤ i → i < c.left → cmp (c.arr i) v < 0
  equal : ∀ i, c.lefteq ≤ i → i ≤ c.righteq → cmp (c.arr i) v = 0
  more : ∀ i, c.right < i → i ≤ up → 0 < cmp (c.arr i) v
  perm : Rearranged lo up A c.arr
  touched : ∀ i ∈ c.used, i ∈ used ∨ lo ≤ i ∧ i ≤ up

/-- When the scan from the right goes on, the one from the left has come to what is more. -/
def Waits (cmp : α → α → ℤ) (v : α) : Side × Cut α → Prop
  | (.left, _) => True
  | (.right, c) => c.left < c.lefteq → 0 < cmp (c.arr c.left) v

/-- How many elements have not been looked at, counted twice, and whether the scan from the left is
to be ended. -/
def togo : Side × Cut α → ℤ
  | (.left, c) => 2 * (c.lefteq - c.left + (c.right - c.righteq)) + 1
  | (.right, c) => 2 * (c.lefteq - c.left + (c.right - c.righteq))

variable {A₀ : ℤ → α} {used : List ℤ} {c c' : Cut α} {s s' : Side × Cut α}

/-- Indices that are used between the bounds are so recorded. -/
theorem Cut.Inv.used_two (h : Cut.Inv cmp lo up v A₀ used c) (hi : lo ≤ i ∧ i ≤ up)
    (hj : lo ≤ j ∧ j ≤ up) : ∀ k ∈ i :: j :: c.used, k ∈ used ∨ lo ≤ k ∧ k ≤ up := by
  intro k hk
  rcases List.mem_cons.mp hk with rfl | hk
  · exact .inr hi
  rcases List.mem_cons.mp hk with rfl | hk
  · exact .inr hj
  · exact h.touched k hk

/-- To compare two elements changes nothing. -/
theorem Cut.Inv.look (h : Cut.Inv cmp lo up v A₀ used c) (hi : lo ≤ i ∧ i ≤ up)
    (hj : lo ≤ j ∧ j ≤ up) : (c.look i j).Inv cmp lo up v A₀ used where
  lo_left := h.lo_left
  left_le := h.left_le
  eq_le := h.eq_le
  right_le := h.right_le
  right_up := h.right_up
  less := h.less
  equal := h.equal
  more := h.more
  perm := h.perm
  touched := h.used_two hi hj

/-- A smaller element is left where it is, at the left. -/
theorem Cut.Inv.stay_left (h : Cut.Inv cmp lo up v A₀ used c) (hroom : c.left < c.lefteq)
    (hlt : cmp (c.arr c.left) v < 0) :
    Cut.Inv cmp lo up v A₀ used { c with left := c.left + 1 } where
  lo_left := by have := h.lo_left; show lo ≤ c.left + 1; omega
  left_le := hroom
  eq_le := h.eq_le
  right_le := h.right_le
  right_up := h.right_up
  less := by
    intro i hlo hi
    rcases Int.lt_add_one_iff.mp hi |>.lt_or_eq with hi | rfl
    · exact h.less i hlo hi
    · exact hlt
  equal := h.equal
  more := h.more
  perm := h.perm
  touched := h.touched

/-- A larger element is left where it is, at the right. -/
theorem Cut.Inv.stay_right (h : Cut.Inv cmp lo up v A₀ used c) (hroom : c.righteq < c.right)
    (hgt : 0 < cmp (c.arr c.right) v) :
    Cut.Inv cmp lo up v A₀ used { c with right := c.right - 1 } where
  lo_left := h.lo_left
  left_le := h.left_le
  eq_le := h.eq_le
  right_le := Int.le_sub_one_of_lt hroom
  right_up := by have := h.right_up; show c.right - 1 ≤ up; omega
  less := h.less
  equal := h.equal
  more := by
    intro i hi hup
    rcases Int.sub_one_lt_iff.mp hi |>.lt_or_eq with hi | rfl
    · exact h.more i hi hup
    · exact hgt
  perm := h.perm
  touched := h.touched

/-- An equal element from the left goes to the left end of the equal ones. -/
theorem Cut.Inv.equal_left (h : Cut.Inv cmp lo up v A₀ used c) (hroom : c.left < c.lefteq)
    (he : cmp (c.arr c.left) v = 0) :
    Cut.Inv cmp lo up v A₀ used
      ({ c with lefteq := c.lefteq - 1 }.swap c.left (c.lefteq - 1)) := by
  obtain ⟨hlo, hleft, heq, hright, hup, hless, hequal, hmore, hperm, -⟩ := id h
  have hi : lo ≤ c.left ∧ c.left ≤ up := by omega
  have hj : lo ≤ c.lefteq - 1 ∧ c.lefteq - 1 ≤ up := by omega
  refine ⟨hlo, Int.le_sub_one_of_lt hroom, ?_, hright, hup, ?_, ?_, ?_,
    hperm.trans (exchange_rearranged _ hi hj), h.used_two hi hj⟩
  · show c.lefteq - 1 ≤ c.righteq
    omega
  · intro i hlo' hi'
    have hi' : i < c.left := hi'
    show cmp (exchange c.arr c.left (c.lefteq - 1) i) v < 0
    rw [exchange_of_ne _ (by omega) (by omega)]
    exact hless i hlo' hi'
  · intro i hi' hup'
    show cmp (exchange c.arr c.left (c.lefteq - 1) i) v = 0
    have hi' : c.lefteq - 1 ≤ i := hi'
    rcases hi'.lt_or_eq with hi' | rfl
    · rw [exchange_of_ne _ (by omega) (by omega)]
      exact hequal i (by omega) hup'
    · rw [exchange_right]
      exact he
  · intro i hi' hup'
    have hi' : c.right < i := hi'
    show 0 < cmp (exchange c.arr c.left (c.lefteq - 1) i) v
    rw [exchange_of_ne _ (by omega) (by omega)]
    exact hmore i hi' hup'

/-- An equal element from the right goes to the right end of the equal ones. -/
theorem Cut.Inv.equal_right (h : Cut.Inv cmp lo up v A₀ used c) (hroom : c.righteq < c.right)
    (he : cmp (c.arr c.right) v = 0) :
    Cut.Inv cmp lo up v A₀ used
      ({ c with righteq := c.righteq + 1 }.swap c.right (c.righteq + 1)) := by
  obtain ⟨hlo, hleft, heq, hright, hup, hless, hequal, hmore, hperm, -⟩ := id h
  have hi : lo ≤ c.right ∧ c.right ≤ up := by omega
  have hj : lo ≤ c.righteq + 1 ∧ c.righteq + 1 ≤ up := by omega
  refine ⟨hlo, hleft, ?_, hroom, hup, ?_, ?_, ?_,
    hperm.trans (exchange_rearranged _ hi hj), h.used_two hi hj⟩
  · show c.lefteq ≤ c.righteq + 1
    omega
  · intro i hlo' hi'
    have hi' : i < c.left := hi'
    show cmp (exchange c.arr c.right (c.righteq + 1) i) v < 0
    rw [exchange_of_ne _ (by omega) (by omega)]
    exact hless i hlo' hi'
  · intro i hi' hup'
    have hi' : c.lefteq ≤ i := hi'
    have hup' : i ≤ c.righteq + 1 := hup'
    show cmp (exchange c.arr c.right (c.righteq + 1) i) v = 0
    rcases hup'.lt_or_eq with hup' | rfl
    · rw [exchange_of_ne _ (by omega) (by omega)]
      exact hequal i hi' (by omega)
    · rw [exchange_right]
      exact he
  · intro i hi' hup'
    have hi' : c.right < i := hi'
    show 0 < cmp (exchange c.arr c.right (c.righteq + 1) i) v
    rw [exchange_of_ne _ (by omega) (by omega)]
    exact hmore i hi' hup'

/-- A larger element from the left and a smaller one from the right are exchanged. -/
theorem Cut.Inv.both (h : Cut.Inv cmp lo up v A₀ used c) (hleft : c.left < c.lefteq)
    (hright : c.righteq < c.right) (hgt : 0 < cmp (c.arr c.left) v)
    (hlt : cmp (c.arr c.right) v < 0) :
    Cut.Inv cmp lo up v A₀ used
      { c.swap c.left c.right with left := c.left + 1, right := c.right - 1 } := by
  obtain ⟨hlo, -, heq, -, hup, hless, hequal, hmore, hperm, -⟩ := id h
  have hi : lo ≤ c.left ∧ c.left ≤ up := by omega
  have hj : lo ≤ c.right ∧ c.right ≤ up := by omega
  refine ⟨?_, hleft, heq, Int.le_sub_one_of_lt hright, ?_, ?_, ?_, ?_,
    hperm.trans (exchange_rearranged _ hi hj), h.used_two hi hj⟩
  · show lo ≤ c.left + 1
    omega
  · show c.right - 1 ≤ up
    omega
  · intro i hlo' hi'
    show cmp (exchange c.arr c.left c.right i) v < 0
    rcases Int.lt_add_one_iff.mp hi' |>.lt_or_eq with hi' | rfl
    · rw [exchange_of_ne _ (by omega) (by omega)]
      exact hless i hlo' hi'
    · rw [exchange_left]
      exact hlt
  · intro i hi' hup'
    have hi' : c.lefteq ≤ i := hi'
    have hup' : i ≤ c.righteq := hup'
    show cmp (exchange c.arr c.left c.right i) v = 0
    rw [exchange_of_ne _ (by omega) (by omega)]
    exact hequal i hi' hup'
  · intro i hi' hup'
    show 0 < cmp (exchange c.arr c.left c.right i) v
    rcases Int.sub_one_lt_iff.mp hi' |>.lt_or_eq with hi' | rfl
    · rw [exchange_of_ne _ (by omega) (by omega)]
      exact hmore i hi' hup'
    · rw [exchange_right]
      exact hgt

/-- With no room at the left, the equal elements move to the right and a smaller one in front of
them. -/
theorem Cut.Inv.shift_right (h : Cut.Inv cmp lo up v A₀ used c) (hleft : ¬c.left < c.lefteq)
    (hroom : c.righteq < c.right) (hlt : cmp (c.arr c.right) v < 0) :
    Cut.Inv cmp lo up v A₀ used { c.swap3 c.left (c.righteq + 1) c.right with
      righteq := c.righteq + 1, lefteq := c.lefteq + 1, left := c.lefteq + 1 } := by
  obtain ⟨hlo, hle, heq, hright, hup, hless, hequal, hmore, hperm, -⟩ := id h
  have hp : lo ≤ c.left ∧ c.left ≤ up := by omega
  have hq : lo ≤ c.righteq + 1 ∧ c.righteq + 1 ≤ up := by omega
  have hr : lo ≤ c.right ∧ c.right ≤ up := by omega
  refine ⟨?_, le_rfl, Int.add_le_add_right heq 1, hroom, hup, ?_, ?_, ?_,
    hperm.trans (exchange3_rearranged _ hp hq hr), ?_⟩
  · show lo ≤ c.lefteq + 1
    omega
  · intro i hlo' hi'
    have hi' : i < c.lefteq + 1 := hi'
    show cmp (exchange3 c.arr c.left (c.righteq + 1) c.right i) v < 0
    by_cases hi : i = c.left
    · rw [hi, exchange3_first _ (by omega) (by omega)]
      exact hlt
    · rw [exchange3_of_ne _ hi (by omega) (by omega)]
      exact hless i hlo' (by omega)
  · intro i hi' hup'
    have hi' : c.lefteq + 1 ≤ i := hi'
    have hup' : i ≤ c.righteq + 1 := hup'
    show cmp (exchange3 c.arr c.left (c.righteq + 1) c.right i) v = 0
    rcases hup'.lt_or_eq with hup' | rfl
    · rw [exchange3_of_ne _ (by omega) (by omega) (by omega)]
      exact hequal i (by omega) (by omega)
    · rw [exchange3_second]
      exact hequal c.left (by omega) (by omega)
  · intro i hi' hup'
    have hi' : c.right < i := hi'
    show 0 < cmp (exchange3 c.arr c.left (c.righteq + 1) c.right i) v
    rw [exchange3_of_ne _ (by omega) (by omega) (by omega)]
    exact hmore i hi' hup'
  · intro k hk
    rcases List.mem_cons.mp hk with rfl | hk
    · exact .inr hp
    · exact h.used_two hq hr k hk

/-- With no room at the right, the equal elements move to the left and a larger one behind them. -/
theorem Cut.Inv.shift_left (h : Cut.Inv cmp lo up v A₀ used c) (hroom : c.left < c.lefteq)
    (hright : ¬c.righteq < c.right) (hgt : 0 < cmp (c.arr c.left) v) :
    Cut.Inv cmp lo up v A₀ used { c.swap3 c.right (c.lefteq - 1) c.left with
      lefteq := c.lefteq - 1, righteq := c.righteq - 1, right := c.righteq - 1 } := by
  obtain ⟨hlo, hle, heq, hri, hup, hless, hequal, hmore, hperm, -⟩ := id h
  have hp : lo ≤ c.right ∧ c.right ≤ up := by omega
  have hq : lo ≤ c.lefteq - 1 ∧ c.lefteq - 1 ≤ up := by omega
  have hr : lo ≤ c.left ∧ c.left ≤ up := by omega
  refine ⟨hlo, Int.le_sub_one_of_lt hroom, Int.sub_le_sub_right heq 1, le_rfl, ?_, ?_, ?_, ?_,
    hperm.trans (exchange3_rearranged _ hp hq hr), ?_⟩
  · show c.righteq - 1 ≤ up
    omega
  · intro i hlo' hi'
    have hi' : i < c.left := hi'
    show cmp (exchange3 c.arr c.right (c.lefteq - 1) c.left i) v < 0
    rw [exchange3_of_ne _ (by omega) (by omega) (by omega)]
    exact hless i hlo' hi'
  · intro i hi' hup'
    have hi' : c.lefteq - 1 ≤ i := hi'
    have hup' : i ≤ c.righteq - 1 := hup'
    show cmp (exchange3 c.arr c.right (c.lefteq - 1) c.left i) v = 0
    rcases hi'.lt_or_eq with hi' | rfl
    · rw [exchange3_of_ne _ (by omega) (by omega) (by omega)]
      exact hequal i (by omega) (by omega)
    · rw [exchange3_second]
      exact hequal c.right (by omega) (by omega)
  · intro i hi' hup'
    have hi' : c.righteq - 1 < i := hi'
    show 0 < cmp (exchange3 c.arr c.right (c.lefteq - 1) c.left i) v
    by_cases hi : i = c.right
    · rw [hi, exchange3_first _ (by omega) (by omega)]
      exact hgt
    · rw [exchange3_of_ne _ hi (by omega) (by omega)]
      exact hmore i (by omega) hup'
  · intro k hk
    rcases List.mem_cons.mp hk with rfl | hk
    · exact .inr hp
    · exact h.used_two hq hr k hk

/-- A step keeps the invariant, and leaves less to be looked at. -/
theorem cutStep_some (hcmp : TotalPreorder cmp) (h : s.2.Inv cmp lo up v A₀ used)
    (hw : Waits cmp v s) (hs : cutStep cmp s = some s') :
    s'.2.Inv cmp lo up v A₀ used ∧ Waits cmp v s' ∧ togo s' < togo s := by
  obtain ⟨side, c⟩ := s
  have hbounds := h
  obtain ⟨hlo, hle, heq, hri, hup, -, hequal, -, -, -⟩ := hbounds
  simp only at hlo hle heq hri hup hequal
  cases side with
  | left =>
    have hpivot := hequal c.lefteq le_rfl heq
    have hlook : (c.look c.left c.lefteq).Inv cmp lo up v A₀ used :=
      h.look ⟨hlo, by omega⟩ ⟨by omega, by omega⟩
    simp only [cutStep] at hs
    split_ifs at hs with hroom hlt hz <;> obtain rfl := Option.some.inj hs
    · exact ⟨hlook.stay_left hroom ((hcmp.lt_congr hpivot).mp hlt), trivial, by
        simp only [togo, Cut.look]; omega⟩
    · have hv : cmp (c.arr c.left) v = 0 := by
        have hnlt := (hcmp.lt_congr hpivot).not.mp hlt
        have hngt := (hcmp.gt_congr hpivot).not.mp (by omega : ¬0 < cmp (c.arr c.left) _)
        omega
      exact ⟨hlook.equal_left hroom hv, trivial, by simp only [togo, Cut.look, Cut.swap]; omega⟩
    · have hgt : 0 < cmp (c.arr c.left) v := (hcmp.gt_congr hpivot).mp (by omega)
      exact ⟨hlook, fun _ => hgt, by simp only [togo, Cut.look]; omega⟩
    · exact ⟨h, fun hlt => absurd hlt hroom, by simp only [togo]; omega⟩
  | right =>
    have hpivot := hequal c.righteq heq le_rfl
    have hlook : (c.look c.right c.righteq).Inv cmp lo up v A₀ used :=
      h.look ⟨by omega, hup⟩ ⟨by omega, by omega⟩
    simp only [cutStep] at hs
    split_ifs at hs with hroom hlt hleft hz hleft <;> obtain rfl := Option.some.inj hs
    · have hlt' := (hcmp.lt_congr hpivot).mp hlt
      exact ⟨hlook.both hleft hroom (hw hleft) hlt', trivial, by
        simp only [togo, Cut.look, Cut.swap]; omega⟩
    · have hlt' := (hcmp.lt_congr hpivot).mp hlt
      exact ⟨hlook.shift_right hleft hroom hlt', fun h => absurd h (lt_irrefl _), by
        simp only [togo, Cut.look, Cut.swap3]; omega⟩
    · have hv : cmp (c.arr c.right) v = 0 := by
        have hnlt := (hcmp.lt_congr hpivot).not.mp hlt
        have hngt := (hcmp.gt_congr hpivot).not.mp (by omega : ¬0 < cmp (c.arr c.right) _)
        omega
      refine ⟨hlook.equal_right hroom hv, fun hleft => ?_, by
        simp only [togo, Cut.look, Cut.swap]; omega⟩
      -- The exchange is between the elements at the right.
      have hleft : c.left < c.lefteq := hleft
      show 0 < cmp (exchange c.arr c.right (c.righteq + 1) c.left) v
      rw [exchange_of_ne _ (by omega) (by omega)]
      exact hw hleft
    · have hgt : 0 < cmp (c.arr c.right) v := (hcmp.gt_congr hpivot).mp (by omega)
      exact ⟨hlook.stay_right hroom hgt, hw, by simp only [togo, Cut.look]; omega⟩
    · exact ⟨h.shift_left hleft hroom (hw hleft), trivial, by
        simp only [togo, Cut.swap3]; omega⟩

/-- The partition ends where the two scans have met the equal elements. -/
theorem cutStep_none (hs : cutStep cmp s = none) :
    s.1 = .right ∧ ¬s.2.left < s.2.lefteq ∧ ¬s.2.righteq < s.2.right := by
  obtain ⟨side, c⟩ := s
  cases side with
  | left =>
    simp only [cutStep] at hs
    split_ifs at hs
  | right =>
    simp only [cutStep] at hs
    split_ifs at hs with hright hlt hleft hz hleft
    exact ⟨rfl, hleft, hright⟩

/-- A range that is cut: what is less, equal and more than `v`. -/
structure Cut.Done (cmp : α → α → ℤ) (lo up : ℤ) (v : α) (A : ℤ → α) (used : List ℤ) (c : Cut α) :
    Prop where
  lo_eq : lo ≤ c.lefteq
  eq_le : c.lefteq ≤ c.righteq
  eq_up : c.righteq ≤ up
  less : ∀ i, lo ≤ i → i ≤ c.lefteq - 1 → cmp (c.arr i) v < 0
  equal : ∀ i, c.lefteq ≤ i → i ≤ c.righteq → cmp (c.arr i) v = 0
  more : ∀ i, c.righteq + 1 ≤ i → i ≤ up → 0 < cmp (c.arr i) v
  perm : Rearranged lo up A c.arr
  touched : ∀ i ∈ c.used, i ∈ used ∨ lo ≤ i ∧ i ≤ up

/-- When the partition ends, the range is cut. -/
theorem cut_done (hcmp : TotalPreorder cmp) {n : ℕ} (h : s.2.Inv cmp lo up v A₀ used)
    (hw : Waits cmp v s) (hc : cut cmp n s = some c) : c.Done cmp lo up v A₀ used := by
  induction n generalizing s with
  | zero => cases hc
  | succ n ih =>
    rw [cut] at hc
    cases hs : cutStep cmp s with
    | some s' =>
      rw [hs] at hc
      obtain ⟨h', hw', -⟩ := cutStep_some hcmp h hw hs
      exact ih h' hw' hc
    | none =>
      rw [hs] at hc
      obtain rfl := Option.some.inj hc
      obtain ⟨-, hleft, hright⟩ := cutStep_none hs
      have hl := h.left_le
      have hr := h.right_le
      have heq := h.eq_le
      have hlo := h.lo_left
      have hup := h.right_up
      refine ⟨by omega, heq, by omega, ?_, h.equal, ?_, h.perm, h.touched⟩
      · exact fun i hi hi' => h.less i hi (by omega)
      · exact fun i hi hi' => h.more i (by omega) hi'

/-- With fuel for what there is to be looked at, the partition ends. -/
theorem cut_ends (hcmp : TotalPreorder cmp) {n : ℕ} (h : s.2.Inv cmp lo up v A₀ used)
    (hw : Waits cmp v s) (hn : togo s < n) : ∃ c, cut cmp n s = some c := by
  induction n generalizing s with
  | zero =>
    have hpos : 0 ≤ togo s := by
      obtain ⟨side, c⟩ := s
      have hleft := h.left_le
      have hright := h.right_le
      simp only at hleft hright
      cases side <;> simp only [togo] <;> omega
    omega
  | succ n ih =>
    rw [cut]
    cases hs : cutStep cmp s with
    | some s' =>
      obtain ⟨h', hw', hlt⟩ := cutStep_some hcmp h hw hs
      exact ih h' hw' (by omega)
    | none => exact ⟨s.2, rfl⟩

/-- At the beginning of a partition the equal element is the one that is chosen. -/
theorem Cut.Inv.start (hcmp : TotalPreorder cmp) (A : ℤ → α) (used : List ℤ) (hlo : lo ≤ i)
    (hup : i ≤ up) : Cut.Inv cmp lo up (A i) A used ⟨A, used, lo, i, i, up⟩ where
  lo_left := le_rfl
  left_le := hlo
  eq_le := le_rfl
  right_le := hup
  right_up := le_rfl
  less := fun j hj hj' => absurd hj (not_le.mpr hj')
  equal := by
    intro j hj hj'
    obtain rfl : i = j := le_antisymm hj hj'
    exact hcmp.refl _
  more := fun j hj hj' => absurd hj' (not_le.mpr hj)
  perm := .refl A
  touched := fun j hj => .inl hj

/-! ## The sort -/

/-- A range is cut around the element that `mid` chooses, and both sides are sorted. -/
def quick (cmp : α → α → ℤ) (mid : ℤ → ℤ → Option ℤ) :
    ℕ → ℤ → ℤ → (ℤ → α) × List ℤ → Option ((ℤ → α) × List ℤ)
  | 0, _, _, _ => none
  | n + 1, lo, up, s =>
    if up ≤ lo then some s
    else
      (mid lo up).bind fun m =>
      (cut cmp n (.left, ⟨s.1, s.2, lo, m, m, up⟩)).bind fun c =>
      (quick cmp mid n lo (c.lefteq - 1) (c.arr, c.used)).bind fun s =>
      quick cmp mid n (c.righteq + 1) up s

/-- A range is sorted, and nothing outside it has been used. -/
structure Sorts (cmp : α → α → ℤ) (lo up : ℤ) (s r : (ℤ → α) × List ℤ) : Prop where
  perm : Rearranged lo up s.1 r.1
  sorted : ∀ i, lo ≤ i → i + 1 ≤ up → cmp (r.1 i) (r.1 (i + 1)) ≤ 0
  touched : ∀ i ∈ r.2, i ∈ s.2 ∨ lo ≤ i ∧ i ≤ up

variable {mid : ℤ → ℤ → Option ℤ} {a b r : (ℤ → α) × List ℤ} {n : ℕ}

/-- A range that is cut is sorted when both sides are. -/
theorem Cut.Done.sorts (hcmp : TotalPreorder cmp) (h : c.Done cmp lo up v a.1 a.2)
    (hl : Sorts cmp lo (c.lefteq - 1) (c.arr, c.used) b)
    (hr : Sorts cmp (c.righteq + 1) up b r) : Sorts cmp lo up a r := by
  obtain ⟨hlo, heq, hup, hless, hequal, hmore, hperm, hused⟩ := h
  have hleft : ∀ i, i ≤ c.righteq → r.1 i = b.1 i := fun i hi => hr.perm.outside (by omega)
  have hright : ∀ i, c.lefteq ≤ i → b.1 i = c.arr i := fun i hi => hl.perm.outside (by omega)
  have hlt : ∀ i, lo ≤ i → i < c.lefteq → cmp (r.1 i) v < 0 := by
    intro i hi hi'
    rw [hleft i (by omega)]
    exact hl.perm.all (P := fun x => cmp x v < 0) hless i hi (by omega)
  have hmid : ∀ i, c.lefteq ≤ i → i ≤ c.righteq → cmp (r.1 i) v = 0 := by
    intro i hi hi'
    rw [hleft i hi', hright i hi]
    exact hequal i hi hi'
  have hgt : ∀ i, c.righteq < i → i ≤ up → 0 < cmp (r.1 i) v := by
    have hmore' : ∀ i, c.righteq + 1 ≤ i → i ≤ up → 0 < cmp (b.1 i) v := by
      intro i hi hi'
      rw [hright i (by omega)]
      exact hmore i hi hi'
    exact fun i hi hi' => hr.perm.all (P := fun x => 0 < cmp x v) hmore' i hi hi'
  refine ⟨?_, ?_, ?_⟩
  · exact (hperm.trans (hl.perm.mono le_rfl (by omega))).trans (hr.perm.mono (by omega) le_rfl)
  · intro i hi hi'
    by_cases hin : i + 1 ≤ c.lefteq - 1
    · rw [hleft i (by omega), hleft (i + 1) (by omega)]
      exact hl.sorted i hi hin
    by_cases hout : c.righteq + 1 ≤ i
    · exact hr.sorted i hout hi'
    -- One of the two is equal to `v`, or each is at its side of it.
    have hle : cmp (r.1 i) v ≤ 0 := by
      by_cases hlt' : i < c.lefteq
      · exact (hlt i hi hlt').le
      · exact (hmid i (by omega) (by omega)).le
    have hge : 0 ≤ cmp (r.1 (i + 1)) v := by
      by_cases hgt' : c.righteq < i + 1
      · exact (hgt (i + 1) hgt' hi').le
      · exact (hmid (i + 1) (by omega) (by omega)).ge
    exact hcmp.trans _ v _ hle (hcmp.le_iff.mpr hge)
  · intro i hi
    rcases hr.touched i hi with hi | hi
    · rcases hl.touched i hi with hi | hi
      · exact hused i hi
      · exact .inr ⟨hi.1, by omega⟩
    · exact .inr ⟨by omega, hi.2⟩

/-- Where `mid` chooses an element of every range, the sort ends and sorts. -/
theorem quick_sorts (hcmp : TotalPreorder cmp)
    (hmid : ∀ lo' up', lo ≤ lo' → lo' < up' → up' ≤ up →
      ∃ m, mid lo' up' = some m ∧ lo' ≤ m ∧ m ≤ up')
    (hn : 2 * (up - lo) + 2 < n) (hpos : 0 < n) :
    ∃ r, quick cmp mid n lo up a = some r ∧ Sorts cmp lo up a r := by
  induction n generalizing lo up a with
  | zero => exact absurd hpos (lt_irrefl 0)
  | succ n ih =>
    rw [quick]
    by_cases hle : up ≤ lo
    · exact ⟨a, if_pos hle, .refl _, fun i hi hi' => absurd hle (by omega), fun i hi => .inl hi⟩
    obtain ⟨m, hm, hlo, hup⟩ := hmid lo up le_rfl (by omega) le_rfl
    have hwait : Waits cmp (a.1 m) (.left, ⟨a.1, a.2, lo, m, m, up⟩) := trivial
    have htogo : togo (.left, (⟨a.1, a.2, lo, m, m, up⟩ : Cut α)) < n := by
      simp only [togo]
      omega
    have hstart := Cut.Inv.start hcmp a.1 a.2 hlo hup
    obtain ⟨c, hc⟩ := cut_ends hcmp hstart hwait htogo
    have hdone := cut_done hcmp hstart hwait hc
    have hin := hdone.lo_eq
    have heq := hdone.eq_le
    have hout := hdone.eq_up
    obtain ⟨b, hb, hl⟩ := @ih lo (c.lefteq - 1) (c.arr, c.used)
      (fun lo' up' h1 h2 h3 => hmid lo' up' h1 h2 (by omega)) (by omega) (by omega)
    obtain ⟨r, hr, hsort⟩ := @ih (c.righteq + 1) up b
      (fun lo' up' h1 h2 h3 => hmid lo' up' (by omega) h2 h3) (by omega) (by omega)
    refine ⟨r, ?_, hdone.sorts hcmp hl hsort⟩
    rw [if_neg hle, hm, Option.bind_some, hc, Option.bind_some, hb, Option.bind_some, hr]

end Minix.Lib
