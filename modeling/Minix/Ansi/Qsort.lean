import Mathlib.Data.List.OfFn
import Mathlib.Tactic.Ring
import Minix.Lib.ThreeWay
import Minix.Lib.Words

/-!
# `qsort`

`lib/ansi/qsort.c` on the bytes of an array, with its pointers. An `int` has 16 bits, as the
difference of two pointers has, and so the middle of a large array may be computed as in front of
it: `qsort_sorts` says which arrays are sorted whatever is in them. The partition is that of
`Lib/ThreeWay` on the elements (`Grid`).
-/

namespace Minix.Ansi

open Lib

/-- Bytes at their addresses. -/
abbrev Bytes := ℤ → UInt8

/-- `qexchange`, byte by byte. -/
def qexchange : ℕ → ℤ → ℤ → Bytes → Bytes
  | 0, _, _, m => m
  | n + 1, p, q, m =>
    qexchange n (p + 1) (q + 1) (Function.update (Function.update m p (m q)) q (m p))

/-- `q3exchange`, byte by byte. -/
def q3exchange : ℕ → ℤ → ℤ → ℤ → Bytes → Bytes
  | 0, _, _, _, m => m
  | n + 1, p, q, r, m =>
    let m₁ := Function.update m p (m r)
    let m₂ := Function.update m₁ r (m₁ q)
    q3exchange n (p + 1) (q + 1) (r + 1) (Function.update m₂ q (m p))

/-- The bytes of an element. -/
def element (size : ℕ) (m : Bytes) (p : ℤ) : List UInt8 :=
  (List.range size).map fun k : ℕ => m (p + k)

/-- The memory, and the variables of `qsort1`. The pointers that elements are compared or moved by
are recorded. -/
structure Bounds where
  mem : Bytes
  used : List ℤ
  left : ℤ
  lefteq : ℤ
  righteq : ℤ
  right : ℤ

section Code

variable (compar : List UInt8 → List UInt8 → ℤ) (size : ℕ) (width : ℤ)

def Bounds.look (b : Bounds) (p q : ℤ) : Bounds := { b with used := p :: q :: b.used }

@[simp] theorem Bounds.look_left (b : Bounds) (p q : ℤ) : (b.look p q).left = b.left := rfl

@[simp] theorem Bounds.look_lefteq (b : Bounds) (p q : ℤ) : (b.look p q).lefteq = b.lefteq := rfl

def Bounds.exchange (b : Bounds) (p q : ℤ) : Bounds :=
  { b with mem := qexchange width.toNat p q b.mem, used := p :: q :: b.used }

def Bounds.exchange3 (b : Bounds) (p q r : ℤ) : Bounds :=
  { b with mem := q3exchange width.toNat p q r b.mem, used := p :: q :: r :: b.used }

/-- One round of a loop of the partition, or its end. -/
def partitionStep : Side × Bounds → Option (Side × Bounds)
  | (.left, b) =>
    if b.left < b.lefteq then
      let cmp := compar (element size b.mem b.left) (element size b.mem b.lefteq)
      let b := b.look b.left b.lefteq
      if cmp < 0 then some (.left, { b with left := b.left + width })
      else if cmp = 0 then
        some (.left,
          { b with lefteq := b.lefteq - width }.exchange width b.left (b.lefteq - width))
      else some (.right, b)
    else some (.right, b)
  | (.right, b) =>
    if b.righteq < b.right then
      let cmp := compar (element size b.mem b.right) (element size b.mem b.righteq)
      let b := b.look b.right b.righteq
      if cmp < 0 then
        if b.left < b.lefteq then
          some (.left, { b.exchange width b.left b.right with
            left := b.left + width, right := b.right - width })
        else
          some (.right, { b.exchange3 width b.left (b.righteq + width) b.right with
            righteq := b.righteq + width, lefteq := b.lefteq + width,
            left := b.lefteq + width })
      else if cmp = 0 then
        some (.right,
          { b with righteq := b.righteq + width }.exchange width b.right (b.righteq + width))
      else some (.right, { b with right := b.right - width })
    else if b.left < b.lefteq then
      some (.left, { b.exchange3 width b.right (b.lefteq - width) b.left with
        lefteq := b.lefteq - width, righteq := b.righteq - width, right := b.righteq - width })
    else none

/-- The partition. -/
def partition : ℕ → Side × Bounds → Option Bounds
  | 0, _ => none
  | n + 1, s => match partitionStep compar size width s with
    | none => some s.2
    | some s' => partition n s'

/-- How far from the first element the one in the middle is, where `d` is how far the last one is.
-/
def middle (d : ℤ) : Option ℤ :=
  if int16 (2 * width) = 0 then none
  else some (int16 (width * (int16 (int16 d + width)).tdiv (int16 (2 * width))))

/-- The elements from `a1` to `a2` are sorted. -/
def qsort1 : ℕ → ℤ → ℤ → Bytes × List ℤ → Option (Bytes × List ℤ)
  | 0, _, _, _ => none
  | n + 1, a1, a2, s =>
    if a2 ≤ a1 then some s
    else
      (middle width (a2 - a1)).bind fun d =>
      (partition compar size width n (.left, ⟨s.1, s.2, a1, a1 + d, a1 + d, a2⟩)).bind fun b =>
      (qsort1 n a1 (b.lefteq - width) (b.mem, b.used)).bind fun s =>
      qsort1 n (b.righteq + width) a2 s

end Code

/-- An element has `width` bytes, and `width` is an `int` inside. -/
def qsort (n : ℕ) (base : ℤ) (nel width : ℕ) (compar : List UInt8 → List UInt8 → ℤ) (m : Bytes) :
    Option (Bytes × List ℤ) :=
  if nel > 0 then
    qsort1 compar width (int16 width) n base (base + uint16 ((nel - 1) * width)) (m, [])
  else some (m, [])

/-! ## Elements -/

variable {compar : List UInt8 → List UInt8 → ℤ} {size n : ℕ} {width p q r x : ℤ} {m : Bytes}

/-- What `qexchange` does to a byte, where the two elements are one or do not overlap. -/
theorem qexchange_apply (h : p = q ∨ p + n ≤ q ∨ q + n ≤ p) :
    qexchange n p q m x =
      if p ≤ x ∧ x < p + n then m (x - p + q)
      else if q ≤ x ∧ x < q + n then m (x - q + p) else m x := by
  induction n generalizing p q m with
  | zero =>
    simp only [qexchange]
    rw [if_neg (by omega), if_neg (by omega)]
  | succ n ih =>
    rw [qexchange, ih (by push_cast at h; omega)]
    simp only [Function.update_apply]
    push_cast at h ⊢
    split_ifs <;> first | omega | (congr 1 <;> omega)

/-- What `q3exchange` does to a byte, where the first element does not overlap the others. -/
theorem q3exchange_apply (hq : p + n ≤ q ∨ q + n ≤ p) (hr : p + n ≤ r ∨ r + n ≤ p)
    (h : q = r ∨ q + n ≤ r ∨ r + n ≤ q) :
    q3exchange n p q r m x =
      if p ≤ x ∧ x < p + n then m (x - p + r)
      else if q ≤ x ∧ x < q + n then m (x - q + p)
      else if r ≤ x ∧ x < r + n then m (x - r + q) else m x := by
  induction n generalizing p q r m with
  | zero =>
    simp only [q3exchange]
    rw [if_neg (by omega), if_neg (by omega), if_neg (by omega)]
  | succ n ih =>
    push_cast at hq hr h
    rw [q3exchange, ih (by omega) (by omega) (by omega)]
    simp only [Function.update_apply]
    push_cast
    split_ifs <;> first | omega | (congr 1 <;> omega)

/-- The bytes of an element lie in no other one. -/
theorem block_iff {i k t : ℤ} (h0 : 0 ≤ t) (ht : t < size) (base : ℤ) :
    base + i * size ≤ base + k * size + t ∧ base + k * size + t < base + i * size + size ↔
      k = i := by
  have hmul : ∀ {a b : ℤ}, a < b → a * size + size ≤ b * size := by
    intro a b hab
    have hle := Int.mul_le_mul_of_nonneg_right (Int.add_one_le_of_lt hab) (Int.natCast_nonneg size)
    rwa [add_mul, one_mul] at hle
  constructor
  · intro h
    rcases lt_trichotomy k i with hlt | rfl | hgt
    · have := hmul hlt
      omega
    · rfl
    · have := hmul hgt
      omega
  · rintro rfl
    omega

/-- Two elements are one or do not overlap. -/
theorem blocks_apart {i j : ℤ} (hne : i ≠ j) (base : ℤ) :
    base + i * size + size ≤ base + j * size ∨ base + j * size + size ≤ base + i * size := by
  rcases hne.lt_or_gt with hlt | hgt
  · left
    have hle := Int.mul_le_mul_of_nonneg_right (Int.add_one_le_of_lt hlt) (Int.natCast_nonneg size)
    rw [add_mul, one_mul] at hle
    omega
  · right
    have hle := Int.mul_le_mul_of_nonneg_right (Int.add_one_le_of_lt hgt) (Int.natCast_nonneg size)
    rw [add_mul, one_mul] at hle
    omega

/-- The elements of an array, and of all memory in front of it and behind it. -/
def elements (base : ℤ) (size : ℕ) (m : Bytes) (i : ℤ) : List UInt8 :=
  element size m (base + i * size)

theorem element_congr {m' : Bytes} (h : ∀ t : ℤ, 0 ≤ t → t < size → m (p + t) = m' (q + t)) :
    element size m p = element size m' q := by
  apply List.map_congr_left
  intro t ht
  have ht : t < size := List.mem_range.mp ht
  exact h t (by omega) (by omega)

/-- `qexchange` exchanges two elements. -/
theorem elements_qexchange (base i j : ℤ) (m : Bytes) :
    elements base size (qexchange size (base + i * size) (base + j * size) m) =
      exchange (elements base size m) i j := by
  have hapart : base + i * size = base + j * size ∨ base + i * size + size ≤ base + j * size ∨
      base + j * size + size ≤ base + i * size := by
    by_cases hij : i = j
    · exact .inl (by rw [hij])
    · exact .inr (blocks_apart hij base)
  funext k
  rw [exchange_apply]
  split_ifs with hi hj <;> apply element_congr <;> intro t h0 ht <;> rw [qexchange_apply hapart]
  · rw [if_pos ((block_iff h0 ht base).mpr hi), hi]
    congr 1
    omega
  · rw [if_neg ((block_iff h0 ht base).not.mpr hi), if_pos ((block_iff h0 ht base).mpr hj), hj]
    congr 1
    omega
  · rw [if_neg ((block_iff h0 ht base).not.mpr hi), if_neg ((block_iff h0 ht base).not.mpr hj)]

/-- What becomes of each of three elements, of which the last two may be one. -/
theorem exchange3_apply {α : Type*} {A : ℤ → α} {i j l k : ℤ} (hj : i ≠ j) (hl : i ≠ l) :
    exchange3 A i j l k =
      if k = i then A l else if k = j then A i else if k = l then A j else A k := by
  split_ifs with hi hkj hkl
  · rw [hi, exchange3_first _ hl hj]
  · rw [hkj, exchange3_second]
  · rw [exchange3, hkl, exchange_left, exchange_of_ne _ hj.symm fun h => hkj (hkl.trans h.symm)]
  · exact exchange3_of_ne _ hi hkj hkl

/-- `q3exchange` moves three elements, of which the last two may be one. -/
theorem elements_q3exchange {i j l : ℤ} (hj : i ≠ j) (hl : i ≠ l) (base : ℤ) (m : Bytes) :
    elements base size (q3exchange size (base + i * size) (base + j * size) (base + l * size) m) =
      exchange3 (elements base size m) i j l := by
  have hapart : base + j * size = base + l * size ∨ base + j * size + size ≤ base + l * size ∨
      base + l * size + size ≤ base + j * size := by
    by_cases hjl : j = l
    · exact .inl (by rw [hjl])
    · exact .inr (blocks_apart hjl base)
  funext k
  rw [exchange3_apply hj hl]
  split_ifs with hk hkj hkl <;> apply element_congr <;> intro t h0 ht <;>
    rw [q3exchange_apply (blocks_apart hj base) (blocks_apart hl base) hapart]
  · rw [if_pos ((block_iff h0 ht base).mpr hk), hk]
    congr 1
    omega
  · rw [if_neg ((block_iff h0 ht base).not.mpr hk), if_pos ((block_iff h0 ht base).mpr hkj), hkj]
    congr 1
    omega
  · rw [if_neg ((block_iff h0 ht base).not.mpr hk), if_neg ((block_iff h0 ht base).not.mpr hkj),
      if_pos ((block_iff h0 ht base).mpr hkl), hkl]
    congr 1
    omega
  · rw [if_neg ((block_iff h0 ht base).not.mpr hk), if_neg ((block_iff h0 ht base).not.mpr hkj),
      if_neg ((block_iff h0 ht base).not.mpr hkl)]

/-! ## The partition on elements -/

/-- The address of an element. -/
def place (base : ℤ) (size : ℕ) (i : ℤ) : ℤ := base + i * size

/-- The variables of `qsort1` are those of the partition of the elements. -/
structure Grid (base : ℤ) (size : ℕ) (b : Bounds) (c : Cut (List UInt8)) : Prop where
  arr : elements base size b.mem = c.arr
  used : b.used = c.used.map (place base size)
  left : b.left = place base size c.left
  lefteq : b.lefteq = place base size c.lefteq
  righteq : b.righteq = place base size c.righteq
  right : b.right = place base size c.right

variable {base lo up : ℤ} {b : Bounds} {c : Cut (List UInt8)} {i j l : ℤ} {side : Side}
  {s : Side × Bounds} {v : List UInt8} {A : ℤ → List UInt8} {used : List ℤ}

theorem place_lt (h0 : 0 < size) : place base size i < place base size j ↔ i < j := by
  have hpos : (0 : ℤ) < size := by omega
  rw [place, place, Int.add_lt_add_iff_left, Int.mul_lt_mul_right hpos]

theorem place_succ (base i : ℤ) (size : ℕ) :
    place base size i + size = place base size (i + 1) := by
  rw [place, place]
  ring

theorem place_pred (base i : ℤ) (size : ℕ) :
    place base size i - size = place base size (i - 1) := by
  rw [place, place]
  ring

theorem Grid.element (h : Grid base size b c) (i : ℤ) :
    Ansi.element size b.mem (place base size i) = c.arr i := congrFun h.arr i

theorem Grid.look (h : Grid base size b c) (i j : ℤ) :
    Grid base size (b.look (place base size i) (place base size j)) (c.look i j) :=
  ⟨h.arr, by simp only [Bounds.look, Cut.look, h.used, List.map_cons], h.left, h.lefteq, h.righteq,
    h.right⟩

theorem Grid.exchange (h : Grid base size b c) (i j : ℤ) :
    Grid base size (b.exchange size (place base size i) (place base size j)) (c.swap i j) where
  arr := by
    simp only [Bounds.exchange, Int.toNat_natCast, Cut.swap, ← h.arr]
    exact elements_qexchange base i j b.mem
  used := by simp only [Bounds.exchange, Cut.swap, h.used, List.map_cons]
  left := h.left
  lefteq := h.lefteq
  righteq := h.righteq
  right := h.right

theorem Grid.exchange3 (h : Grid base size b c) (hj : i ≠ j) (hl : i ≠ l) :
    Grid base size (b.exchange3 size (place base size i) (place base size j) (place base size l))
      (c.swap3 i j l) where
  arr := by
    simp only [Bounds.exchange3, Int.toNat_natCast, Cut.swap3, ← h.arr]
    exact elements_q3exchange hj hl base b.mem
  used := by simp only [Bounds.exchange3, Cut.swap3, h.used, List.map_cons]
  left := h.left
  lefteq := h.lefteq
  righteq := h.righteq
  right := h.right

/-- Both sides are at the same place of the program, with the same variables. -/
def SameStep (base : ℤ) (size : ℕ) (s : Side × Bounds) (t : Side × Cut (List UInt8)) : Prop :=
  s.1 = t.1 ∧ Grid base size s.2 t.2

/-- The variables, when the bounds are at elements. -/
def placed (base : ℤ) (size : ℕ) (m : Bytes) (used : List ℤ) (c : Cut (List UInt8)) : Bounds :=
  ⟨m, used, place base size c.left, place base size c.lefteq, place base size c.righteq,
    place base size c.right⟩

theorem Grid.eq_placed (h : Grid base size b c) : b = placed base size b.mem b.used c := by
  obtain ⟨m, used, left, lefteq, righteq, right⟩ := b
  obtain ⟨-, -, rfl, rfl, rfl, rfl⟩ := h
  rfl

/-- A round of a loop of `qsort1` is a step of the partition of the elements. -/
theorem partitionStep_sim (h0 : 0 < size) (h : Grid base size b c) (hle : c.left ≤ c.lefteq)
    (heq : c.lefteq ≤ c.righteq) (hright : c.righteq ≤ c.right) :
    Option.Rel (SameStep base size) (partitionStep compar size size (side, b))
      (cutStep compar (side, c)) := by
  have hb := h.eq_placed
  generalize b.mem = m at hb
  generalize b.used = used at hb
  subst hb
  have helem : ∀ i, element size m (place base size i) = c.arr i := h.element
  cases side with
  | left =>
    have hlook := h.look c.left c.lefteq
    simp only [partitionStep, cutStep, placed, place_lt h0, helem]
    split_ifs
    · exact .some ⟨rfl, hlook.arr, hlook.used, place_succ .., rfl, rfl, rfl⟩
    · have hswap := hlook.exchange c.left (c.lefteq - 1)
      rw [← place_pred] at hswap
      exact .some ⟨rfl, hswap.arr, hswap.used, rfl, place_pred .., rfl, rfl⟩
    · exact .some (And.intro rfl hlook)
    · exact .some (And.intro rfl h)
  | right =>
    have hlook := h.look c.right c.righteq
    simp only [partitionStep, cutStep, placed, Bounds.look_left, Bounds.look_lefteq, place_lt h0,
      helem]
    split_ifs with hroom hlt hleft hz hleft
    · have hswap := hlook.exchange c.left c.right
      exact .some ⟨rfl, hswap.arr, hswap.used, place_succ .., rfl, rfl, place_pred ..⟩
    · have hnext : c.left ≠ c.righteq + 1 := by omega
      have hswap := hlook.exchange3 hnext (by omega : c.left ≠ c.right)
      rw [← place_succ] at hswap
      exact .some ⟨rfl, hswap.arr, hswap.used, place_succ .., place_succ .., place_succ .., rfl⟩
    · have hswap := hlook.exchange c.right (c.righteq + 1)
      rw [← place_succ] at hswap
      exact .some ⟨rfl, hswap.arr, hswap.used, rfl, rfl, place_succ .., rfl⟩
    · exact .some ⟨rfl, hlook.arr, hlook.used, rfl, rfl, rfl, place_pred ..⟩
    · have hswap := h.exchange3 (by omega : c.right ≠ c.lefteq - 1) (by omega : c.right ≠ c.left)
      rw [← place_pred] at hswap
      exact .some ⟨rfl, hswap.arr, hswap.used, rfl, place_pred .., place_pred .., place_pred ..⟩
    · exact .none

/-- The partition of `qsort1` is that of the elements. -/
theorem partition_sim (h0 : 0 < size) (hcmp : TotalPreorder compar) {t : Side × Cut (List UInt8)}
    (h : SameStep base size s t) (hinv : t.2.Inv compar lo up v A used) (hw : Waits compar v t) :
    Option.Rel (Grid base size) (partition compar size size n s) (cut compar n t) := by
  induction n generalizing s t with
  | zero => exact .none
  | succ n ih =>
    obtain ⟨side, b⟩ := s
    obtain ⟨side', c⟩ := t
    obtain ⟨hside, hgrid⟩ := h
    obtain rfl : side = side' := hside
    have hstep : Option.Rel (SameStep base size) (partitionStep compar size size (side, b))
        (cutStep compar (side, c)) :=
      partitionStep_sim h0 hgrid hinv.left_le hinv.eq_le hinv.right_le
    rw [partition, cut]
    cases hs : cutStep compar (side, c) with
    | none =>
      rw [hs] at hstep
      cases hp : partitionStep compar size size (side, b) with
      | none => exact .some hgrid
      | some s' =>
        rw [hp] at hstep
        cases hstep
    | some t' =>
      rw [hs] at hstep
      cases hp : partitionStep compar size size (side, b) with
      | none =>
        rw [hp] at hstep
        cases hstep
      | some s' =>
        rw [hp] at hstep
        obtain ⟨hinv', hw', -⟩ := cutStep_some hcmp hinv hw hs
        cases hstep with
        | some hsame => exact ih hsame hinv' hw'

/-- The element in the middle, if it is one. -/
def middleElement (size : ℕ) (lo up : ℤ) : Option ℤ :=
  (middle size ((up - lo) * size)).bind fun d =>
    if d % size = 0 then some (lo + d / size) else none

/-- The memory and the pointers that have been used, by elements. -/
def SameArray (base : ℤ) (size : ℕ) (s : Bytes × List ℤ) (t : (ℤ → List UInt8) × List ℤ) : Prop :=
  elements base size s.1 = t.1 ∧ s.2 = t.2.map (place base size)

/-- Every range has an element in the middle. -/
def HasMiddle (size : ℕ) (lo up : ℤ) : Prop :=
  ∀ lo' up', lo ≤ lo' → lo' < up' → up' ≤ up →
    ∃ m, middleElement size lo' up' = some m ∧ lo' ≤ m ∧ m ≤ up'

theorem middle_of_element {k : ℤ} (h : middleElement size lo up = some k) :
    middle size ((up - lo) * size) = some ((k - lo) * size) := by
  obtain ⟨d, hd, hk⟩ := Option.bind_eq_some_iff.mp h
  split_ifs at hk with hdvd
  obtain rfl := Option.some.inj hk
  rw [hd, add_sub_cancel_left, Int.ediv_mul_cancel (Int.dvd_of_emod_eq_zero hdvd)]

/-- The elements of a range are sorted as the algorithm sorts them. -/
theorem qsort1_sim (h0 : 0 < size) (hcmp : TotalPreorder compar) (hmid : HasMiddle size lo up)
    {s : Bytes × List ℤ} {t r : (ℤ → List UInt8) × List ℤ} (hst : SameArray base size s t)
    (hq : quick compar (middleElement size) n lo up t = some r) :
    ∃ r', qsort1 compar size size n (place base size lo) (place base size up) s = some r' ∧
      SameArray base size r' r := by
  induction n generalizing lo up s t r with
  | zero => cases hq
  | succ n ih =>
    rw [quick] at hq
    rw [qsort1]
    by_cases hle : up ≤ lo
    · rw [if_pos hle] at hq
      obtain rfl := Option.some.inj hq
      exact ⟨s, if_pos (not_lt.mp ((place_lt h0).not.mpr (not_lt.mpr hle))), hst⟩
    obtain ⟨k, hk, hlo, hup⟩ := hmid lo up le_rfl (not_le.mp hle) le_rfl
    rw [if_neg hle, hk, Option.bind_some] at hq
    obtain ⟨c, hc, hq⟩ := Option.bind_eq_some_iff.mp hq
    obtain ⟨t', ht', hq⟩ := Option.bind_eq_some_iff.mp hq
    have hstart := Cut.Inv.start hcmp t.1 t.2 hlo hup
    have hwait : Waits compar (t.1 k) (.left, ⟨t.1, t.2, lo, k, k, up⟩) := trivial
    have hdone := cut_done hcmp hstart hwait hc
    have hdiff : place base size up - place base size lo = (up - lo) * size := by
      simp only [place]
      ring
    have hplace : place base size lo + (k - lo) * size = place base size k := by
      simp only [place]
      ring
    have hgrid : SameStep base size (.left, ⟨s.1, s.2, place base size lo, place base size k,
        place base size k, place base size up⟩) (.left, ⟨t.1, t.2, lo, k, k, up⟩) :=
      And.intro rfl ⟨hst.1, hst.2, rfl, rfl, rfl, rfl⟩
    have hpart := partition_sim (n := n) h0 hcmp hgrid hstart hwait
    rw [hc] at hpart
    cases hp : partition compar size size n (.left, ⟨s.1, s.2, place base size lo,
        place base size k, place base size k, place base size up⟩) with
    | none =>
      rw [hp] at hpart
      cases hpart
    | some b =>
      rw [hp] at hpart
      cases hpart with
      | some hb =>
        have hin := hdone.lo_eq
        have heq := hdone.eq_le
        have hout := hdone.eq_up
        have hsame : SameArray base size (b.mem, b.used) (c.arr, c.used) := ⟨hb.arr, hb.used⟩
        obtain ⟨s', hs', hst'⟩ :=
          ih (fun l u h1 h2 h3 => hmid l u h1 h2 (by omega)) hsame ht'
        obtain ⟨r', hr', hrr⟩ := ih (fun l u h1 h2 h3 => hmid l u (by omega) h2 h3) hst' hq
        refine ⟨r', ?_, hrr⟩
        rw [if_neg (not_le.mpr ((place_lt h0).mpr (not_le.mp hle))), hdiff, middle_of_element hk,
          Option.bind_some, hplace, hp, Option.bind_some, hb.lefteq, place_pred, hs',
          Option.bind_some, hb.righteq, place_succ, hr']

/-! ## The middle in 16 bits -/

theorem int16_of_upper {z : ℤ} (hlo : 32768 ≤ z) (hup : z < 65536) : int16 z = z - 65536 := by
  rw [int16_eq, Int.emod_eq_of_lt (by omega) hup, if_neg (by omega)]

theorem middle_eq (k : ℤ) (size : ℕ) : middle size ((k - 1) * size) =
    if int16 (2 * size) = 0 then none
    else some (int16 (size * (int16 (k * size)).tdiv (int16 (2 * size)))) := by
  have hsum : (k - 1) * size + size = k * size := by ring
  rw [middle, int16_int16_add, hsum]

/-- In an array that is no larger than an `int` can say, the middle is computed right. -/
theorem middle_small {k : ℤ} (h0 : 0 < size) (hk : 2 ≤ k) (hfit : k * size ≤ 32767) :
    middle size ((k - 1) * size) = some (k / 2 * size) := by
  have hpos : (0 : ℤ) < size := by omega
  have htwo : 2 * (size : ℤ) ≤ k * size := Int.mul_le_mul_of_nonneg_right hk hpos.le
  have hhalf : k / 2 * (size : ℤ) ≤ k * size :=
    Int.mul_le_mul_of_nonneg_right (by omega) hpos.le
  have hnonneg : 0 ≤ k / 2 * (size : ℤ) := Int.mul_nonneg (by omega) hpos.le
  have hnum : int16 (k * size) = k * size := int16_of_range (by omega) (by omega)
  have hden : int16 (2 * size) = 2 * size := int16_of_range (by omega) (by omega)
  have hquot : (k * size).tdiv (2 * size) = k / 2 := by
    rw [Int.tdiv_eq_ediv_of_nonneg (by omega), Int.mul_ediv_mul_of_pos_left _ _ hpos]
  rw [middle_eq, hden, if_neg (by omega), hnum, hquot, mul_comm (size : ℤ),
    int16_of_range (by omega) (by omega)]

/-- Of two large elements the middle is computed right all the same. -/
theorem middle_two (hlo : 16384 ≤ size) (hup : size < 32768) :
    middle size ((2 - 1) * size) = some (1 * (size : ℤ)) := by
  have hden : int16 (2 * size) = 2 * size - 65536 := int16_of_upper (by omega) (by omega)
  rw [middle_eq, hden, if_neg (by omega), Int.tdiv_self (by omega), mul_one, one_mul,
    int16_of_range (by omega) (by omega)]

/-- The first element is taken where the quotient is nothing. -/
theorem middle_zero {k : ℤ} (hnum : (int16 (k * size)).natAbs < (int16 (2 * size)).natAbs) :
    middle size ((k - 1) * size) = some (0 * (size : ℤ)) := by
  have hne : int16 (2 * size) ≠ 0 := by
    intro hz
    rw [hz] at hnum
    omega
  have hquot : (int16 (k * size)).tdiv (int16 (2 * size)) = 0 := by
    rw [← Int.natAbs_eq_zero, Int.natAbs_tdiv]
    exact Nat.div_eq_of_lt hnum
  rw [middle_eq, if_neg hne, hquot, mul_zero, zero_mul]
  rfl

theorem middleElement_eq (h0 : 0 < size) (h : middle size ((up - lo) * size) = some (j * size)) :
    middleElement size lo up = some (lo + j) := by
  have hne : (size : ℤ) ≠ 0 := by omega
  rw [middleElement, h, Option.bind_some, if_pos (Int.mul_emod_left ..), Int.mul_ediv_cancel _ hne]

/-- The arrays whose middle, and that of each part of them, is computed in 16 bits as one of the
elements: those that are no larger than an `int` can say, those of two elements, and those of so
large elements that there are at most four. -/
def Fits (nel size : ℕ) : Prop := nel ≤ 2 ∨ nel * size ≤ 32767 ∨ 13108 ≤ size

instance (nel size : ℕ) : Decidable (Fits nel size) := inferInstanceAs (Decidable (_ ∨ _ ∨ _))

/-- The middle of the array, and of each part of it, is one of the elements. -/
theorem Fits.hasMiddle {nel : ℕ} (h0 : 0 < size) (hobj : nel * size ≤ 65535) (h : Fits nel size) :
    HasMiddle size 0 (nel - 1) := by
  intro lo' up' hlo hlt hup
  obtain ⟨k, hk⟩ : ∃ k, up' - lo' = k - 1 := ⟨up' - lo' + 1, by omega⟩
  have hpos : (0 : ℤ) < size := by omega
  have htwo : 2 * (size : ℤ) ≤ k * size := Int.mul_le_mul_of_nonneg_right (by omega) hpos.le
  have hall : k * (size : ℤ) ≤ nel * size := Int.mul_le_mul_of_nonneg_right (by omega) hpos.le
  have hobj' : (nel : ℤ) * size ≤ 65535 := by exact_mod_cast hobj
  by_cases hsmall : k * (size : ℤ) ≤ 32767
  · have hmid := middle_small h0 (by omega) hsmall
    rw [← hk] at hmid
    exact ⟨lo' + k / 2, middleElement_eq h0 hmid, by omega, by omega⟩
  by_cases hk2 : k = 2
  · rw [hk2] at hsmall
    have hmid := middle_two (by omega : 16384 ≤ size) (by omega)
    rw [← hk2, ← hk] at hmid
    exact ⟨lo' + 1, middleElement_eq h0 hmid, by omega, by omega⟩
  -- More elements than two are as large only if there are few of them.
  have hlarge : 13108 ≤ size := by
    rcases h with h | h | h
    · omega
    · have h' : (nel : ℤ) * size ≤ 32767 := by exact_mod_cast h
      omega
    · exact h
  have hfew : k = 3 ∨ k = 4 := by
    by_contra hmany
    have h5 : 5 * (size : ℤ) ≤ k * size := Int.mul_le_mul_of_nonneg_right (by omega) hpos.le
    omega
  have hnum : (int16 (k * size)).natAbs < (int16 (2 * size)).natAbs := by
    rw [int16_of_upper (by omega) (by omega)]
    by_cases hhalf : size < 16384
    · rw [int16_of_range (by omega) (by omega)]
      rcases hfew with rfl | rfl <;> omega
    · rw [int16_of_upper (by omega) (by omega)]
      rcases hfew with rfl | rfl <;> omega
  have hmid := middle_zero hnum
  rw [← hk] at hmid
  exact ⟨lo' + 0, middleElement_eq h0 hmid, by omega, by omega⟩

/-! ## Sorting -/

/-- The elements are the same in an order in which none is more than the next one, and only elements
have been compared or moved. -/
structure ArraySorted (compar : List UInt8 → List UInt8 → ℤ) (base : ℤ) (nel size : ℕ) (m : Bytes)
    (s : Bytes × List ℤ) : Prop where
  perm : Rearranged 0 (nel - 1) (elements base size m) (elements base size s.1)
  sorted : ∀ i : ℤ, 0 ≤ i → i + 1 < nel →
    compar (elements base size s.1 i) (elements base size s.1 (i + 1)) ≤ 0
  inside : ∀ p ∈ s.2, ∃ i : ℤ, 0 ≤ i ∧ i < nel ∧ p = place base size i

/-- `qsort` returns, and has sorted the array. -/
def QsortSorts (compar : List UInt8 → List UInt8 → ℤ) (base : ℤ) (nel size : ℕ) (m : Bytes) :
    Prop :=
  ∃ N, ∀ n ≥ N, ∃ s, qsort n base nel size compar m = some s ∧
    ArraySorted compar base nel size m s

variable {nel : ℕ}

/-- With at most one element there is nothing to do. -/
theorem sorts_one (h : nel ≤ 1) (m : Bytes) : QsortSorts compar base nel size m := by
  have hsorted : ArraySorted compar base nel size m (m, []) :=
    ⟨.refl _, fun i hi hi' => absurd hi' (by omega), fun p hp => absurd hp List.not_mem_nil⟩
  refine ⟨1, fun n hn => ⟨(m, []), ?_, hsorted⟩⟩
  obtain ⟨n, rfl⟩ : ∃ k, n = k + 1 := ⟨n - 1, by omega⟩
  rcases Nat.le_one_iff_eq_zero_or_eq_one.mp h with rfl | rfl
  · rfl
  · rw [qsort, if_pos Nat.one_pos, qsort1]
    simp [uint16]

/-- Of at least two elements, none is larger than an `int` can say. -/
theorem qsort_eq (h2 : 2 ≤ nel) (hobj : nel * size ≤ 65535) (m : Bytes) :
    qsort n base nel size compar m =
      qsort1 compar size size n (place base size 0) (place base size (nel - 1)) (m, []) := by
  have htwo : 2 * size ≤ nel * size := Nat.mul_le_mul_right size h2
  have hmul : ((nel : ℤ) - 1) * size = (nel * size : ℕ) - size := by
    push_cast
    ring
  have hlast : uint16 (((nel : ℤ) - 1) * size) = (nel - 1) * size := by
    rw [uint16, Int.emod_eq_of_lt (by omega) (by omega)]
  have hfirst : place base size 0 = base := by rw [place, zero_mul, add_zero]
  rw [qsort, if_pos (by omega), hlast, int16_of_range (by omega) (by omega), hfirst, place]

/-- Where the array fits, it is sorted. -/
theorem Fits.sorts (h0 : 0 < size) (hobj : nel * size ≤ 65535) (h : Fits nel size)
    (hcmp : TotalPreorder compar) (base : ℤ) (m : Bytes) : QsortSorts compar base nel size m := by
  by_cases h1 : nel ≤ 1
  · exact sorts_one h1 m
  refine ⟨2 * nel + 1, fun n hn => ?_⟩
  have hmid := h.hasMiddle h0 hobj
  obtain ⟨r, hq, hsort⟩ := quick_sorts (a := (elements base size m, [])) (n := n) hcmp hmid
    (by omega) (by omega)
  have hstart : SameArray base size (m, []) (elements base size m, []) := ⟨rfl, rfl⟩
  obtain ⟨s, hs, hmem, hused⟩ := qsort1_sim h0 hcmp hmid hstart hq
  refine ⟨s, (qsort_eq (by omega) hobj m).trans hs, ?_, ?_, ?_⟩
  · rw [hmem]
    exact hsort.perm
  · intro i hi hi'
    rw [hmem]
    exact hsort.sorted i hi (by omega)
  · intro p hp
    rw [hused] at hp
    obtain ⟨i, hi, rfl⟩ := List.mem_map.mp hp
    rcases hsort.touched i hi with hi | hi
    · exact absurd hi List.not_mem_nil
    · exact ⟨i, hi.1, by omega, rfl⟩

/-! ## Where the middle is computed wrong -/

/-- What has been used is recorded. -/
theorem partitionStep_used {s' : Side × Bounds} (h : partitionStep compar size width s = some s') :
    ∀ p ∈ s.2.used, p ∈ s'.2.used := by
  obtain ⟨side, b⟩ := s
  intro p hp
  cases side <;> simp only [partitionStep] at h <;> split_ifs at h <;>
    obtain rfl := Option.some.inj h <;>
    simp only [Bounds.look, Bounds.exchange, Bounds.exchange3, List.mem_cons, hp, or_true]

theorem partition_used {b' : Bounds} (h : partition compar size width n s = some b') :
    ∀ p ∈ s.2.used, p ∈ b'.used := by
  induction n generalizing s with
  | zero => cases h
  | succ n ih =>
    intro p hp
    rw [partition] at h
    cases hs : partitionStep compar size width s with
    | none =>
      rw [hs] at h
      obtain rfl := Option.some.inj h
      exact hp
    | some s' =>
      rw [hs] at h
      exact ih h p (partitionStep_used hs p hp)

theorem qsort1_used {a1 a2 : ℤ} {s r : Bytes × List ℤ}
    (h : qsort1 compar size width n a1 a2 s = some r) : ∀ p ∈ s.2, p ∈ r.2 := by
  induction n generalizing a1 a2 s r with
  | zero => cases h
  | succ n ih =>
    intro p hp
    rw [qsort1] at h
    split_ifs at h with hle
    · obtain rfl := Option.some.inj h
      exact hp
    · obtain ⟨d, -, h⟩ := Option.bind_eq_some_iff.mp h
      obtain ⟨b, hb, h⟩ := Option.bind_eq_some_iff.mp h
      obtain ⟨s', hs', h⟩ := Option.bind_eq_some_iff.mp h
      exact ih h p (ih hs' p (partition_used hb p hp))

/-- With nothing at the left, the element that has been chosen is compared at once. -/
theorem partition_compares {b' : Bounds} (hleft : ¬b.left < b.lefteq) (hright : b.righteq < b.right)
    (h : partition compar size width n (.left, b) = some b') : b.righteq ∈ b'.used := by
  obtain _ | _ | n := n
  · cases h
  · rw [partition, partitionStep, if_neg hleft] at h
    cases h
  rw [partition, partitionStep, if_neg hleft] at h
  simp only at h
  rw [partition] at h
  cases hs : partitionStep compar size width (.right, b) with
  | none =>
    simp only [partitionStep, if_pos hright] at hs
    split_ifs at hs
  | some s' =>
    rw [hs] at h
    have hlook : b.righteq ∈ s'.2.used := by
      simp only [partitionStep, if_pos hright] at hs
      split_ifs at hs <;> obtain rfl := Option.some.inj hs <;>
        simp only [Bounds.look, Bounds.exchange, Bounds.exchange3, List.mem_cons, true_or, or_true]
    exact partition_used h _ hlook

/-- So many elements that the middle is computed as in front of the first one. -/
def BadMiddle (k : ℤ) (size : ℕ) : Prop :=
  size ≤ 13107 ∧ 32768 ≤ k * size ∧ (k + 2) * size ≤ 65536

theorem BadMiddle.middle_neg {k : ℤ} (h0 : 0 < size) (h : BadMiddle k size) :
    ∃ d < 0, middle size ((k - 1) * size) = some d := by
  obtain ⟨hsmall, hlo, hup⟩ := h
  have hpos : (0 : ℤ) < size := by omega
  have hsplit : (k + 2) * (size : ℤ) = k * size + 2 * size := by ring
  rw [hsplit] at hup
  have hnum : int16 (k * size) = -(65536 - k * size) := by
    rw [int16_of_upper hlo (by omega)]
    ring
  have hden : int16 (2 * size) = 2 * size := int16_of_range (by omega) (by omega)
  obtain ⟨e, he⟩ : ∃ e, (65536 - k * (size : ℤ)) / (2 * size) = e := ⟨_, rfl⟩
  have hquot : (int16 (k * size)).tdiv (2 * size) = -e := by
    rw [hnum, Int.neg_tdiv, Int.tdiv_eq_ediv_of_nonneg (by omega), he]
  have hone : 1 ≤ e := by
    rw [← he]
    exact Int.le_ediv_of_mul_le (by omega) (by omega)
  have hle : e * (2 * size) ≤ 65536 - k * size := by
    rw [← he]
    exact Int.ediv_mul_le _ (by omega)
  have hprod : (size : ℤ) * -e = -(e * size) := by ring
  have hdouble : e * (2 * (size : ℤ)) = 2 * (e * size) := by ring
  have hfirst : 1 * (size : ℤ) ≤ e * size := Int.mul_le_mul_of_nonneg_right hone hpos.le
  rw [hdouble] at hle
  refine ⟨-(e * size), by omega, ?_⟩
  rw [middle_eq, hden, if_neg (by omega), hquot, hprod, int16_of_range (by omega) (by omega)]

/-- An element in front of the first one is compared. -/
theorem BadMiddle.outside {k a1 : ℤ} {s r : Bytes × List ℤ} (h0 : 0 < size) (h : BadMiddle k size)
    (hs : qsort1 compar size size n a1 (a1 + (k - 1) * size) s = some r) : ∃ p ∈ r.2, p < a1 := by
  have hlast : 0 < (k - 1) * (size : ℤ) := by
    obtain ⟨hsmall, hlo, -⟩ := h
    have hsplit : (k - 1) * (size : ℤ) = k * size - size := by ring
    omega
  obtain ⟨d, hd, hmid⟩ := h.middle_neg h0
  cases n with
  | zero => cases hs
  | succ n =>
    rw [qsort1, if_neg (by omega), add_sub_cancel_left, hmid, Option.bind_some] at hs
    obtain ⟨b, hb, hs⟩ := Option.bind_eq_some_iff.mp hs
    obtain ⟨s', hs', hr⟩ := Option.bind_eq_some_iff.mp hs
    have hleft : ¬a1 < a1 + d := by omega
    have hright : a1 + d < a1 + (k - 1) * size := by omega
    have hused : a1 + d ∈ b.used := partition_compares hleft hright hb
    exact ⟨a1 + d, qsort1_used hr _ (qsort1_used hs' _ hused), by omega⟩

/-- The order of the first bytes. -/
def firstByte (x y : List UInt8) : ℤ := (x.headD 0).toNat - (y.headD 0).toNat

theorem firstByte_preorder : TotalPreorder firstByte := by
  refine ⟨fun x y => ?_, fun x y z hxy hyz => ?_⟩
  · simp only [firstByte]
    omega
  · simp only [firstByte] at hxy hyz ⊢
    omega

/-- The first elements have the greater bytes. -/
def descending (j : ℤ) (size : ℕ) : Bytes := fun a => if a < j * size then 1 else 0

theorem firstByte_descending {j : ℤ} (h0 : 0 < size) (hj : 0 < j) (i : ℤ) :
    firstByte (elements 0 size (descending j size) i) (elements 0 size (descending j size) 0) < 0 ↔
      j ≤ i := by
  have hhead : ∀ k, (elements 0 size (descending j size) k).headD 0 = if k < j then 1 else 0 := by
    intro k
    obtain ⟨t, rfl⟩ : ∃ t, size = t + 1 := ⟨size - 1, by omega⟩
    have hlt : k * ((t + 1 : ℕ) : ℤ) < j * ((t + 1 : ℕ) : ℤ) ↔ k < j :=
      Int.mul_lt_mul_right (by omega)
    simp only [elements, element, List.range_succ_eq_map, List.map_cons, List.headD_cons,
      descending, zero_add, Nat.cast_zero, add_zero, hlt]
  rw [firstByte, hhead, hhead, if_pos hj]
  split_ifs with hij
  · simpa using hij
  · simpa using hij

/-- As many elements go to the left as are smaller. -/
theorem lefteq_descending {j : ℤ} (h0 : 0 < size) (hj : 0 < j) (hnel : j ≤ nel)
    (h : c.Done firstByte 0 (nel - 1) (elements 0 size (descending j size) 0)
      (elements 0 size (descending j size)) []) : c.lefteq = nel - j := by
  obtain ⟨hlo, heq, hup, hless, hequal, hmore, hperm, -⟩ := h
  have hcard := hperm.card
    (P := fun x => firstByte x (elements 0 size (descending j size) 0) < 0)
  have hafter : ((Finset.Icc (0 : ℤ) (nel - 1)).filter fun i =>
      firstByte (c.arr i) (elements 0 size (descending j size) 0) < 0) =
      Finset.Icc 0 (c.lefteq - 1) := by
    ext i
    simp only [Finset.mem_filter, Finset.mem_Icc]
    constructor
    · rintro ⟨⟨hi, hi'⟩, hlt⟩
      refine ⟨hi, ?_⟩
      by_contra hge
      by_cases hin : i ≤ c.righteq
      · have := hequal i (by omega) hin
        omega
      · have := hmore i (by omega) hi'
        omega
    · intro hi
      exact ⟨by omega, hless i hi.1 hi.2⟩
  have hbefore : ((Finset.Icc (0 : ℤ) (nel - 1)).filter fun i =>
      firstByte (elements 0 size (descending j size) i)
        (elements 0 size (descending j size) 0) < 0) = Finset.Icc j (nel - 1) := by
    ext i
    simp only [Finset.mem_filter, Finset.mem_Icc, firstByte_descending h0 hj]
    omega
  rw [hafter, hbefore, Int.card_Icc, Int.card_Icc] at hcard
  omega

/-- The smaller elements go to the left, and where the middle of these is computed wrong, an element
in front of the array is compared. -/
theorem descending_outside {j : ℤ} {r : Bytes × List ℤ} (h0 : 0 < size) (hj : 0 < j)
    (hnel : j ≤ nel) (h2 : 2 ≤ nel) (hmid : middle size ((nel - 1) * size) = some (0 * (size : ℤ)))
    (hbad : BadMiddle (nel - j) size)
    (hs : qsort1 firstByte size size n (place 0 size 0) (place 0 size (nel - 1))
      (descending j size, []) = some r) : ∃ p ∈ r.2, p < 0 := by
  cases n with
  | zero => cases hs
  | succ n =>
    have hdiff : place 0 size (nel - 1) - place 0 size 0 = (nel - 1) * (size : ℤ) := by
      simp only [place]
      ring
    have hfirst : place 0 size 0 + 0 * (size : ℤ) = place 0 size 0 := by ring
    have hlt : place 0 size 0 < place 0 size ((nel : ℤ) - 1) := (place_lt h0).mpr (by omega)
    rw [qsort1, if_neg (not_le.mpr hlt), hdiff, hmid, Option.bind_some, hfirst] at hs
    obtain ⟨b, hb, hs⟩ := Option.bind_eq_some_iff.mp hs
    obtain ⟨s', hs', hr⟩ := Option.bind_eq_some_iff.mp hs
    -- The partition is one of the elements around the first.
    have hstart := Cut.Inv.start firstByte_preorder (elements 0 size (descending j size)) []
      (le_refl 0) (by omega : (0 : ℤ) ≤ nel - 1)
    have hgrid : SameStep 0 size (.left, ⟨descending j size, [], place 0 size 0, place 0 size 0,
        place 0 size 0, place 0 size (nel - 1)⟩)
        (.left, ⟨elements 0 size (descending j size), [], 0, 0, 0, nel - 1⟩) :=
      And.intro rfl ⟨rfl, rfl, rfl, rfl, rfl, rfl⟩
    have hwait : Waits firstByte (elements 0 size (descending j size) 0)
        (.left, ⟨elements 0 size (descending j size), [], 0, 0, 0, nel - 1⟩) := trivial
    have hpart := partition_sim (n := n) h0 firstByte_preorder hgrid hstart hwait
    rw [hb] at hpart
    cases hc : cut firstByte n
        (.left, ⟨elements 0 size (descending j size), [], 0, 0, 0, (nel : ℤ) - 1⟩) with
    | none =>
      rw [hc] at hpart
      cases hpart
    | some c =>
      rw [hc] at hpart
      cases hpart with
      | some hbc =>
        have hdone := cut_done firstByte_preorder hstart hwait hc
        have hpoint : b.lefteq - size = place 0 size 0 + (nel - j - 1) * size := by
          rw [hbc.lefteq, lefteq_descending h0 hj hnel hdone]
          simp only [place]
          ring
        rw [hpoint] at hs'
        obtain ⟨p, hp, hp0⟩ := hbad.outside h0 hs'
        have hzero : place 0 size 0 = 0 := by simp only [place, zero_mul, add_zero]
        exact ⟨p, qsort1_used hr p hp, by omega⟩

/-- Where the array does not fit, its middle is computed wrong, or the first element is taken for it
and the middle of as many elements as there may be smaller ones is computed wrong. -/
theorem bad_of_not_fits (hobj : nel * size ≤ 65535) (h : ¬Fits nel size) :
    BadMiddle nel size ∨ (int16 (nel * size)).natAbs < (int16 (2 * size)).natAbs ∧
      ∃ j : ℤ, 0 < j ∧ j ≤ nel ∧ BadMiddle (nel - j) size := by
  obtain ⟨h3, hlarge, hsmall⟩ : 3 ≤ nel ∧ 32768 ≤ nel * size ∧ size ≤ 13107 := by
    simp only [Fits] at h
    omega
  have hobj' : (nel : ℤ) * size ≤ 65535 := by exact_mod_cast hobj
  have hlarge' : 32768 ≤ (nel : ℤ) * size := by exact_mod_cast hlarge
  have hsplit : ((nel : ℤ) + 2) * size = nel * size + 2 * size := by ring
  by_cases hfirst : ((nel : ℤ) + 2) * size ≤ 65536
  · exact .inl ⟨hsmall, hlarge', hfirst⟩
  right
  have hpos : 0 < size := by
    apply Nat.pos_of_ne_zero
    rintro rfl
    omega
  refine ⟨?_, ?_⟩
  · rw [int16_of_upper hlarge' (by omega), int16_of_range (by omega) (by omega)]
    omega
  have hone : ((nel : ℤ) - 1) * size = nel * size - size := by ring
  have hone' : ((nel : ℤ) - 1 + 2) * size = nel * size + size := by ring
  have htwo : ((nel : ℤ) - 2) * size = nel * size - 2 * size := by ring
  have htwo' : ((nel : ℤ) - 2 + 2) * size = nel * size := by ring
  by_cases hsecond : 32768 ≤ ((nel : ℤ) - 2) * size
  · exact ⟨2, by omega, by omega, hsmall, hsecond, by omega⟩
  · -- The elements are large, and so there are four or five of them.
    have hfew : nel = 4 ∨ nel = 5 := by
      have hnot3 : nel ≠ 3 := by
        rintro rfl
        omega
      have hnot6 : ¬6 ≤ nel := by
        intro h6
        have hsix := Nat.mul_le_mul_right size h6
        omega
      omega
    refine ⟨1, by omega, by omega, hsmall, ?_, ?_⟩ <;> rcases hfew with rfl | rfl <;> omega

/-- What has been used lies behind the beginning of the array. -/
theorem ArraySorted.base_le {s : Bytes × List ℤ} (h : ArraySorted compar base nel size m s) :
    ∀ p ∈ s.2, base ≤ p := by
  intro p hp
  obtain ⟨i, hi, -, rfl⟩ := h.inside p hp
  have := Int.mul_nonneg hi (Int.natCast_nonneg size)
  simp only [place]
  omega

/-- No array is sorted whose middle is computed as in front of it. -/
theorem BadMiddle.not_sorts (h0 : 0 < size) (h2 : 2 ≤ nel) (hobj : nel * size ≤ 65535)
    (h : BadMiddle nel size) : ¬QsortSorts compar base nel size m := by
  rintro ⟨N, hN⟩
  obtain ⟨s, hs, hsorted⟩ := hN N le_rfl
  have hfirst : place base size 0 = base := by simp only [place, zero_mul, add_zero]
  have hlast : place base size ((nel : ℤ) - 1) = base + (nel - 1) * size := rfl
  rw [qsort_eq h2 hobj, hfirst, hlast] at hs
  obtain ⟨p, hp, hlt⟩ := h.outside h0 hs
  have := hsorted.base_le p hp
  omega

/-- An array that does not fit may not be sorted. -/
theorem exists_not_sorted (h0 : 0 < size) (hobj : nel * size ≤ 65535) (h : ¬Fits nel size) :
    ∃ m, ¬QsortSorts firstByte 0 nel size m := by
  have h2 : 2 ≤ nel := by
    simp only [Fits] at h
    omega
  rcases bad_of_not_fits hobj h with hbad | ⟨hzero, j, hj, hnel, hbad⟩
  · exact ⟨fun _ => 0, hbad.not_sorts h0 h2 hobj⟩
  · refine ⟨descending j size, fun ⟨N, hN⟩ => ?_⟩
    obtain ⟨s, hs, hsorted⟩ := hN N le_rfl
    rw [qsort_eq h2 hobj] at hs
    obtain ⟨p, hp, hlt⟩ := descending_outside h0 hj hnel h2 (middle_zero hzero) hbad hs
    have := hsorted.base_le p hp
    omega

/-- Whatever the elements are and the order of them is, `qsort` sorts the arrays that fit, and no
others. -/
theorem qsort_sorts (h0 : 0 < size) (hobj : nel * size ≤ 65535) :
    (∀ (compar : List UInt8 → List UInt8 → ℤ), TotalPreorder compar →
      ∀ (base : ℤ) (m : Bytes), QsortSorts compar base nel size m) ↔ Fits nel size := by
  constructor
  · intro h
    by_contra hfits
    obtain ⟨m, hm⟩ := exists_not_sorted h0 hobj hfits
    exact hm (h firstByte firstByte_preorder 0 m)
  · intro h compar hcmp base m
    exact h.sorts h0 hobj hcmp base m

/-- Forty thousand equal bytes are not sorted: a byte in front of them is compared. -/
theorem qsort_fails :
    TotalPreorder firstByte ∧ ¬QsortSorts firstByte 65536 40000 1 (fun _ => 0) :=
  ⟨firstByte_preorder, BadMiddle.not_sorts (by decide) (by decide) (by decide)
    ⟨by decide, by decide, by decide⟩⟩

/-- A thousand elements of ten bytes are sorted. -/
theorem qsort_sorts_thousand : 0 < 10 ∧ 1000 * 10 ≤ 65535 ∧ ∀ m,
    QsortSorts firstByte 4096 1000 10 m :=
  ⟨by decide, by decide, fun m =>
    (qsort_sorts (by decide) (by decide)).mpr (by decide : Fits 1000 10) firstByte
      firstByte_preorder 4096 m⟩

end Minix.Ansi
