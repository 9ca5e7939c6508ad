import Mathlib.Data.List.Basic
import Mathlib.Order.Basic
import Minix.Lib.Indices

/-!
# Insertion by exchanges

An element of a list is moved down, by exchanges with the one before it, to its place among those
before it. `InOrder key l n m` says that the first `n` elements are in the order of `key`, but for
the one at `m`, which may belong before others. It is what each exchange keeps; where the element
does not belong before its neighbour, the first `n` are in order.
-/

namespace Minix.Lib

variable {α β : Type*} [LinearOrder β] {key : α → β} {l : List α} {n m : ℕ} {x y : α}

/-- No element of the first `n` but the one at `m` belongs before another. -/
def InOrder (key : α → β) (l : List α) (n m : ℕ) : Prop :=
  ∀ i k x y, i < k → k < n → k ≠ m → l[i]? = some x → l[k]? = some y → key x ≤ key y

/-- The element behind those that are in order is the one that is out of place. -/
theorem InOrder.next (h : InOrder key l n n) : InOrder key l (n + 1) n :=
  fun i k x y hik hk hne => h i k x y hik (by omega) (by omega)

/-- The first element may be taken to be the one that is out of place. -/
theorem InOrder.first (h : InOrder key l n 0) (m : ℕ) : InOrder key l n m :=
  fun i k x y hik hk _ => h i k x y hik hk (by omega)

/-- One element is in order. -/
theorem InOrder.one (key : α → β) (l : List α) : InOrder key l 1 1 :=
  fun i k _ _ hik hk _ => absurd hik (by omega)

/-- Where the element does not belong before its neighbour, all are in order. -/
theorem InOrder.settled (h : InOrder key l n (m + 1)) (hx : l[m]? = some x)
    (hy : l[m + 1]? = some y) (hle : key x ≤ key y) (k : ℕ) : InOrder key l n k := by
  intro i j u v hij hj _ hu hv
  by_cases hm : j = m + 1
  · subst hm
    obtain rfl : y = v := Option.some.inj (hy.symm.trans hv)
    by_cases him : i = m
    · subst him
      obtain rfl : x = u := Option.some.inj (hx.symm.trans hu)
      exact hle
    · have hux : key u ≤ key x := h i m u x (by omega) (by omega) (by omega) hu hx
      exact hux.trans hle
  · exact h i j u v hij hj hm hu hv

/-- Two elements that are exchanged. -/
theorem getElem?_exchange {i j : ℕ} (hx : l[i]? = some x) (hy : l[j]? = some y) (hne : i ≠ j)
    (k : ℕ) : ((l.set i y).set j x)[k]? =
      if k = j then some x else if k = i then some y else l[k]? := by
  have hi : i < l.length := (List.getElem?_eq_some_iff.mp hx).1
  have hj : j < l.length := (List.getElem?_eq_some_iff.mp hy).1
  by_cases hkj : k = j
  · subst hkj
    rw [if_pos rfl, List.getElem?_set_self (by rwa [List.length_set])]
  · rw [if_neg hkj, List.getElem?_set_ne (Ne.symm hkj)]
    by_cases hki : k = i
    · subst hki
      rw [if_pos rfl, List.getElem?_set_self hi]
    · rw [if_neg hki, List.getElem?_set_ne (Ne.symm hki)]

/-- An exchange with a neighbour that belongs behind it moves the element one down. -/
theorem InOrder.exchange (h : InOrder key l n (m + 1)) (hm : m + 1 < n) (hx : l[m]? = some x)
    (hy : l[m + 1]? = some y) (hlt : key y < key x) :
    InOrder key ((l.set m y).set (m + 1) x) n m := by
  intro i k u v hik hk hkm hu hv
  rw [getElem?_exchange hx hy (by omega)] at hu hv
  rw [if_neg hkm] at hv
  by_cases hk1 : k = m + 1
  · -- The neighbour is where the element was, and nothing before it belongs behind it.
    rw [if_pos hk1] at hv
    rw [if_neg (by omega)] at hu
    obtain rfl : x = v := Option.some.inj hv
    by_cases hi : i = m
    · rw [if_pos hi] at hu
      obtain rfl : y = u := Option.some.inj hu
      exact hlt.le
    · rw [if_neg hi] at hu
      exact h i m u x (by omega) (by omega) (by omega) hu hx
  · rw [if_neg hk1] at hv
    by_cases hi1 : i = m + 1
    · rw [if_pos hi1] at hu
      obtain rfl : x = u := Option.some.inj hu
      exact h m k x v (by omega) hk hk1 hx hv
    rw [if_neg hi1] at hu
    by_cases hi : i = m
    · rw [if_pos hi] at hu
      obtain rfl : y = u := Option.some.inj hu
      exact h (m + 1) k y v (by omega) hk hk1 hy hv
    · rw [if_neg hi] at hu
      exact h i k u v hik hk hk1 hu hv

/-- A list that is in order. -/
theorem InOrder.pairwise (h : InOrder key l l.length l.length) :
    l.Pairwise fun x y => key x ≤ key y := by
  rw [List.pairwise_iff_getElem]
  intro i j hi hj hij
  exact h i j l[i] l[j] hij hj (by omega) (List.getElem?_eq_getElem hi) (List.getElem?_eq_getElem hj)

end Minix.Lib
