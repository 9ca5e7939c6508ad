import Mathlib.Data.Fintype.Card
import Mathlib.Data.List.Nodup
import Mathlib.Logic.Function.Basic
import Minix.Lib.Indices

/-!
# Linked chains over a table

A singly linked list threaded through a table of cells is a successor function `next`, where `none`
is the nil pointer. `Chain next p l q` says that following `next` from the pointer `p` visits the
cells of `l` in order and arrives at the pointer `q`; a whole list is the case `q = none`. The cells
of a list that ends are distinct, since the successor of a cell is determined (`Chain.nodup`), so
that in a finite table such a list is no longer than the table (`Chain.length_le`).

`scan` is the loop that such lists are walked by: it keeps the trailing pointer and stops at the
first cell that passes a test. It has fuel, and returns `none` only when the fuel runs out;
`scan_cases` says that a list shorter than the fuel never does so.
-/

namespace Minix.Lib

variable {α : Type*}

/-- Following `next` from `p` visits exactly the cells of the list, in order, and arrives at `q`. -/
def Chain (next : α → Option α) : Option α → List α → Option α → Prop
  | p, [], q => p = q
  | p, x :: l, q => p = some x ∧ Chain next (next x) l q

section Basic

variable {next next' : α → Option α} {p q r : Option α} {l l' : List α} {x y : α}

@[simp]
theorem chain_nil : Chain next p [] q ↔ p = q := Iff.rfl

@[simp]
theorem chain_cons : Chain next p (x :: l) q ↔ p = some x ∧ Chain next (next x) l q := Iff.rfl

/-- A chain through two stretches is a chain through the first to some pointer, and on from it. -/
theorem chain_append :
    Chain next p (l ++ l') r ↔ ∃ q, Chain next p l q ∧ Chain next q l' r := by
  induction l generalizing p with
  | nil => simp
  | cons x l ih => simp [ih, and_assoc]

/-- A chain reads `next` only at its own cells. -/
theorem Chain.congr (h : Chain next p l q) (hn : ∀ x ∈ l, next' x = next x) :
    Chain next' p l q := by
  induction l generalizing p with
  | nil => exact h
  | cons x l ih =>
    obtain ⟨hp, hc⟩ := h
    refine ⟨hp, ?_⟩
    rw [hn x (by simp)]
    exact ih hc fun y hy => hn y (by simp [hy])

/-- Writing the link of a cell that is not on the chain leaves the chain as it is. -/
theorem Chain.update [DecidableEq α] (h : Chain next p l q) (hx : x ∉ l) (v : Option α) :
    Chain (Function.update next x v) p l q :=
  h.congr fun y hy => Function.update_of_ne (fun e : y = x => hx (e ▸ hy)) _ _

/-- The list that a pointer leads through to nil is determined by the pointer. -/
theorem Chain.unique (h : Chain next p l none) (h' : Chain next p l' none) : l = l' := by
  induction l generalizing p l' with
  | nil =>
    cases l' with
    | nil => rfl
    | cons y l' => rw [chain_nil] at h; rw [chain_cons, h] at h'; simp at h'
  | cons x l ih =>
    obtain ⟨rfl, hc⟩ := h
    cases l' with
    | nil => simp at h'
    | cons y l' =>
      obtain ⟨hxy, hc'⟩ := h'
      obtain rfl : x = y := by simpa using hxy
      rw [ih hc hc']

/-- The pointer to a cell of the chain leads through the rest of the chain. -/
theorem Chain.suffix (h : Chain next p (l ++ x :: l') q) : Chain next (next x) l' q := by
  obtain ⟨r, -, hr⟩ := chain_append.mp h
  exact hr.2

/-- A chain that ends has no cell twice: both occurrences would lead through the same rest. -/
theorem Chain.nodup (h : Chain next p l none) : l.Nodup := by
  induction l generalizing p with
  | nil => exact List.nodup_nil
  | cons x l ih =>
    refine List.nodup_cons.mpr ⟨fun hx => ?_, ih h.2⟩
    obtain ⟨a, b, rfl⟩ := List.append_of_mem hx
    have hlen := congrArg List.length (h.2.unique (Chain.suffix h.2))
    simp at hlen
    omega

/-- In a finite table a chain that ends is no longer than the table. -/
theorem Chain.length_le [Fintype α] (h : Chain next p l none) : l.length ≤ Fintype.card α :=
  h.nodup.length_le_card

/-- A chain that ends starts at nil exactly when it is empty. -/
theorem Chain.eq_nil_iff (h : Chain next p l none) : l = [] ↔ p = none := by
  cases l with
  | nil => simpa using h
  | cons x l => simp [h.1]

/-- The first cell of a chain that ends is the one its pointer names. -/
theorem Chain.head?_eq (h : Chain next p l none) : l.head? = p := by
  cases l with
  | nil => simpa using Eq.symm h
  | cons x l => simp [h.1]

/-- The link of a chain's last cell is the pointer that the chain arrives at. -/
theorem Chain.next_last (h : Chain next p (l ++ [x]) q) : next x = q := by
  simpa using Chain.suffix h

end Basic

/-! ## Changing a chain -/

section Change

variable [DecidableEq α] {next : α → Option α} {p q : Option α} {a b l : List α} {t x : α}

/-- A new cell linked to the old head is a chain with the cell in front. -/
theorem Chain.push_front (h : Chain next p l none) (hx : x ∉ l) :
    Chain (Function.update next x p) (some x) (x :: l) none := by
  refine ⟨rfl, ?_⟩
  rw [Function.update_self]
  exact h.update hx p

/-- Linking the last cell to a new one, whose link is nil, appends it. -/
theorem Chain.push_back (h : Chain next p (l ++ [t]) none) (hx : x ∉ l ++ [t]) :
    Chain (Function.update (Function.update next t (some x)) x none) p (l ++ [t] ++ [x]) none := by
  have ht : t ∉ l := by
    have := h.nodup
    rw [List.nodup_append] at this
    exact fun hl => this.2.2 t hl t (by simp) rfl
  obtain ⟨r, hl, ht'⟩ := chain_append.mp h
  have hxt : t ≠ x := by rintro rfl; simp at hx
  have hxl : x ∉ l := by intro h'; exact hx (by simp [h'])
  refine chain_append.mpr ⟨some x, chain_append.mpr ⟨r, ?_, ?_⟩, ?_⟩
  · exact (hl.update ht _).update hxl _
  · simp [ht'.1, Function.update_of_ne hxt]
  · simp

/-- Linking a cell past its successor takes the successor off the chain. -/
theorem Chain.unlink (h : Chain next p (a ++ t :: x :: b) none) :
    Chain (Function.update next t (next x)) p (a ++ t :: b) none := by
  have hnd := h.nodup
  have hta : t ∉ a := fun ha => by
    rw [List.nodup_append] at hnd
    exact hnd.2.2 t ha t (by simp) rfl
  have htb : t ∉ b := fun hb => by
    rw [List.nodup_append, List.nodup_cons] at hnd
    exact hnd.2.1.1 (by simp [hb])
  obtain ⟨r, ha, hr, -, hb⟩ := chain_append.mp h
  refine chain_append.mpr ⟨r, ha.update hta _, hr, ?_⟩
  rw [Function.update_self]
  exact hb.update htb _

/-- Linking a new cell to a cell's successor, and the cell to the new one, puts it after it. -/
theorem Chain.insert (h : Chain next p (a ++ t :: b) none) (hx : x ∉ a ++ t :: b) :
    Chain (Function.update (Function.update next x (next t)) t (some x)) p (a ++ t :: x :: b)
      none := by
  have hnd := h.nodup
  have hta : t ∉ a := fun ha => by
    rw [List.nodup_append] at hnd
    exact hnd.2.2 t ha t (by simp) rfl
  have htb : t ∉ b := by
    rw [List.nodup_append, List.nodup_cons] at hnd
    exact hnd.2.1.1
  have hxa : x ∉ a := fun ha => hx (by simp [ha])
  have hxb : x ∉ b := fun hb => hx (by simp [hb])
  have hxt : x ≠ t := by rintro rfl; simp at hx
  obtain ⟨r, ha, hr, hb⟩ := chain_append.mp h
  refine chain_append.mpr ⟨r, (ha.update hxa _).update hta _, hr, ?_⟩
  rw [Function.update_self]
  refine ⟨rfl, ?_⟩
  rw [Function.update_of_ne hxt, Function.update_self]
  exact (hb.update hxb _).update htb _

/-- The last of the first cells of a chain, linked to another chain. -/
theorem Chain.splice (h : Chain next p (a ++ [t] ++ b) none) (hl : Chain next q l none)
    (hal : ∀ y ∈ a ++ [t], y ∉ l) :
    Chain (Function.update next t q) p (a ++ [t] ++ l) none := by
  have hnd := h.nodup
  rw [List.append_assoc, List.nodup_append] at hnd
  have hta : t ∉ a := fun ha => hnd.2.2 t ha t (by simp) rfl
  have htl : t ∉ l := hal t (by simp)
  rw [List.append_assoc] at h ⊢
  obtain ⟨r, ha, hr, -⟩ := chain_append.mp h
  refine chain_append.mpr ⟨r, ha.update hta q, hr, ?_⟩
  show Chain (Function.update next t q) (Function.update next t q t) l none
  rw [Function.update_self]
  exact hl.update htl q

end Change

/-! ## Walking a chain -/

/-- `for (p = start; p != nil; prev = p, p = p->next) if (test(p)) break;` as the pair `(prev, p)`
that the loop leaves with, within the given number of turns. -/
def scan (next : α → Option α) (test : α → Bool) :
    ℕ → Option α → Option α → Option (Option α × Option α)
  | 0, _, _ => none
  | _ + 1, prev, none => some (prev, none)
  | n + 1, prev, some x =>
    if test x then some (prev, some x) else scan next test n (some x) (next x)

/-- `while (p->next != nil) p = p->next;` as the cell that the loop stops at. -/
def lastCell (next : α → Option α) : ℕ → α → Option α
  | 0, _ => none
  | n + 1, x =>
    match next x with
    | none => some x
    | some y => lastCell next n y

/-- `while (p->next != x) if ((p = p->next) == nil) return;` as the cell before `x`, or `some none`
when the loop returns without one. -/
def cellBefore [DecidableEq α] (next : α → Option α) (x : α) : ℕ → α → Option (Option α)
  | 0, _ => none
  | n + 1, y =>
    if next y = some x then some (some y) else
      match next y with
      | none => some none
      | some z => cellBefore next x n z

/-- `for (p = start; p != nil; p = p->next) acc = f(acc, p);` within the given number of turns. -/
def walk {β : Type*} (next : α → Option α) (f : β → α → β) : ℕ → β → Option α → Option β
  | 0, _, _ => none
  | _ + 1, acc, none => some acc
  | n + 1, acc, some x => walk next f n (f acc x) (next x)

section Walk

variable {next : α → Option α} {p : Option α} {l a b : List α} {t x y : α} {fuel : ℕ}

/-- A walk over a chain shorter than the fuel stops at the first cell that passes the test, with
the cell before it, or else at the end, with the last cell. -/
theorem scan_cases (test : α → Bool) (prev : Option α) (h : Chain next p l none)
    (hf : l.length < fuel) :
    (∃ a x b, l = a ++ x :: b ∧ (∀ y ∈ a, test y = false) ∧ test x = true ∧
      scan next test fuel prev p = some (a.getLast?.or prev, some x)) ∨
    ((∀ y ∈ l, test y = false) ∧
      scan next test fuel prev p = some (l.getLast?.or prev, none)) := by
  induction l generalizing p prev fuel with
  | nil =>
    obtain ⟨n, rfl⟩ := Nat.exists_eq_add_one.mpr hf
    rw [chain_nil] at h
    exact Or.inr ⟨by simp, by simp [scan, h]⟩
  | cons z l ih =>
    obtain ⟨n, rfl⟩ := Nat.exists_eq_add_one.mpr (Nat.zero_lt_of_lt hf)
    obtain ⟨rfl, hc⟩ := h
    by_cases hz : test z = true
    · exact Or.inl ⟨[], z, l, rfl, by simp, hz, by simp [scan, hz]⟩
    · have hz' : test z = false := by simpa using hz
      have hlen : l.length < n := by simpa using hf
      rcases ih (some z) hc hlen with ⟨a, x, b, rfl, ha, hx, hs⟩ | ⟨hl, hs⟩
      · refine Or.inl ⟨z :: a, x, b, rfl, by simpa [hz'] using ha, hx, ?_⟩
        simp only [scan, hz', Bool.false_eq_true, if_false, hs]
        cases a <;> simp [List.getLast?_cons]
      · refine Or.inr ⟨by simpa [hz'] using hl, ?_⟩
        simp only [scan, hz', Bool.false_eq_true, if_false, hs]
        cases l <;> simp [List.getLast?_cons]

/-- A walk over a chain shorter than the fuel splits it in front of the first cell that passes the
test, if there is one, or else at the end. -/
theorem scan_split (test : α → Bool) (h : Chain next p l none) (hf : l.length < fuel) :
    ∃ a b, l = a ++ b ∧ (∀ y ∈ a, test y = false) ∧ (∀ y ∈ b.head?, test y = true) ∧
      scan next test fuel none p = some (a.getLast?, b.head?) := by
  rcases scan_cases test none h hf with ⟨a, x, b, rfl, ha, hx, hs⟩ | ⟨ha, hs⟩
  · exact ⟨a, x :: b, rfl, ha, by simpa using hx, by simpa using hs⟩
  · exact ⟨l, [], by simp, ha, by simp, by simpa using hs⟩

/-- The cell that a search stops at passes the test. -/
theorem scan_test {test : α → Bool} {prev q : Option α}
    (h : scan next test fuel prev p = some (q, some x)) : test x = true := by
  induction fuel generalizing prev p with
  | zero => cases h
  | succ n ih =>
    cases p with
    | none => cases h
    | some y =>
      unfold scan at h
      split_ifs at h with hy
      · cases h
        exact hy
      · exact ih h

/-- A walk over a chain shorter than the fuel is a fold over its cells. -/
theorem walk_eq {β : Type*} (f : β → α → β) (acc : β) (h : Chain next p l none)
    (hf : l.length < fuel) : walk next f fuel acc p = some (l.foldl f acc) := by
  induction l generalizing p acc fuel with
  | nil =>
    obtain ⟨n, rfl⟩ := Nat.exists_eq_add_one.mpr hf
    rw [chain_nil] at h
    simp [walk, h]
  | cons z l ih =>
    obtain ⟨n, rfl⟩ := Nat.exists_eq_add_one.mpr (Nat.zero_lt_of_lt hf)
    obtain ⟨rfl, hc⟩ := h
    rw [walk]
    exact ih (f acc z) hc (by simpa using hf)

/-- The last cell of a chain no longer than the fuel is found. -/
theorem lastCell_eq (h : Chain next (some x) (l ++ [t]) none) (hf : l.length < fuel) :
    lastCell next fuel x = some t := by
  induction l generalizing x fuel with
  | nil =>
    obtain ⟨n, rfl⟩ := Nat.exists_eq_add_one.mpr hf
    obtain ⟨hx, hn⟩ := h
    obtain rfl : x = t := by simpa using hx
    rw [chain_nil] at hn
    simp [lastCell, hn]
  | cons z l ih =>
    obtain ⟨n, rfl⟩ := Nat.exists_eq_add_one.mpr (Nat.zero_lt_of_lt hf)
    obtain ⟨hx, hn⟩ := h
    obtain rfl : x = z := by simpa using hx
    have hne : next x ≠ none := fun e => by
      have := hn.eq_nil_iff.mpr e
      simp at this
    obtain ⟨y, hy⟩ := Option.ne_none_iff_exists'.mp hne
    have hlen : l.length < n := by simpa using hf
    simp only [lastCell, hy]
    exact ih (hy ▸ hn) hlen

/-- The cell before `x` on a chain no longer than the fuel is found. -/
theorem cellBefore_eq [DecidableEq α] (h : Chain next (some y) (a ++ t :: x :: b) none)
    (hf : a.length < fuel) : cellBefore next x fuel y = some (some t) := by
  induction a generalizing y fuel with
  | nil =>
    obtain ⟨n, rfl⟩ := Nat.exists_eq_add_one.mpr hf
    obtain ⟨hy, hx, -⟩ := h
    obtain rfl : y = t := by simpa using hy
    simp [cellBefore, hx]
  | cons z a ih =>
    obtain ⟨n, rfl⟩ := Nat.exists_eq_add_one.mpr (Nat.zero_lt_of_lt hf)
    have hnd := h.nodup
    obtain ⟨hy, hn⟩ := h
    obtain rfl : y = z := by simpa using hy
    have hne : next y ≠ none := fun e => by
      have := hn.eq_nil_iff.mpr e
      simp at this
    obtain ⟨w, hw⟩ := Option.ne_none_iff_exists'.mp hne
    have hlen : a.length < n := by simpa using hf
    -- `x` comes after `t`, so the successor of an earlier cell is not `x`.
    have hwx : w ≠ x := by
      rintro rfl
      have hhead := hn.head?_eq
      rw [hw] at hhead
      have hnd' := (List.nodup_cons.mp hnd).2
      cases a with
      | nil => obtain rfl : t = w := by simpa using hhead
               simp at hnd'
      | cons v a => obtain rfl : v = w := by simpa using hhead
                    simp at hnd'
    simp only [cellBefore, hw, Option.some.injEq, hwx, if_false]
    exact ih (hw ▸ hn) hlen

/-- On a chain without `x`, and no longer than the fuel, the search for the cell before it ends
with none. -/
theorem cellBefore_eq_none [DecidableEq α] (h : Chain next (some y) l none) (hx : x ∉ l)
    (hf : l.length ≤ fuel) : cellBefore next x fuel y = some none := by
  induction l generalizing y fuel with
  | nil => simp at h
  | cons z l ih =>
    obtain ⟨n, rfl⟩ := Nat.exists_eq_add_one.mpr (Nat.lt_of_lt_of_le (by simp) hf)
    obtain ⟨hy, hn⟩ := h
    obtain rfl : y = z := by simpa using hy
    rcases hw : next y with _ | w
    · simp [cellBefore, hw]
    · have hhead := hn.head?_eq
      rw [hw] at hhead
      have hwx : w ≠ x := by
        rintro rfl
        exact hx (List.mem_cons_of_mem _ (List.mem_of_head? hhead))
      simp only [cellBefore, hw, Option.some.injEq, hwx, if_false]
      exact ih (hw ▸ hn) (fun h => hx (List.mem_cons_of_mem _ h)) (by simpa using hf)

end Walk

/-- The cell of an array with this index, if there is one. -/
def nth (N k : ℕ) : Option (Fin N) := if h : k < N then some ⟨k, h⟩ else none

/-- The cell of an array with an index has that index. -/
@[simp]
theorem nth_eq_some {N k : ℕ} {x : Fin N} : nth N k = some x ↔ k = x := by
  unfold nth
  split_ifs with h
  · simp [Fin.ext_iff]
  · have := x.isLt
    constructor
    · intro e
      exact absurd e (by simp)
    · intro e
      omega

/-- Cells that are linked in the order of the array. -/
theorem chain_finRange {N : ℕ} {next : Fin N → Option (Fin N)} (h : ∀ x, next x = nth N (x + 1)) :
    Chain next (nth N 0) (List.finRange N) none := by
  have hdrop : ∀ n k, k + n = N → Chain next (nth N k) ((List.finRange N).drop k) none := by
    intro n
    induction n with
    | zero =>
      intro k hk
      have hN : ¬ k < N := by omega
      rw [List.drop_eq_nil_of_le (by simp; omega)]
      simp [nth, hN]
    | succ n ih =>
      intro k hk
      have hN : k < N := by omega
      rw [List.drop_eq_getElem_cons (by simpa using hN)]
      have hk' := ih (k + 1) (by omega)
      refine ⟨by simp [nth, hN], ?_⟩
      rw [h]
      simpa using hk'
  exact hdrop N 0 (by omega)

end Minix.Lib
