import Mathlib.Algebra.BigOperators.Group.Finset.Basic
import Mathlib.Algebra.BigOperators.Group.List.Basic
import Mathlib.Algebra.Order.BigOperators.Group.Finset
import Mathlib.Data.List.Pairwise
import Mathlib.Order.Interval.Finset.Nat
import Minix.Lib.Indices

/-!
# Spans of cells

A span `(b, n)` is the `n` cells from `b` on. `cover l c` counts the spans of a list that have the
cell `c`, so that a list of disjoint spans is one whose `cover` is at most 1 everywhere, and moving
cells from one list to another is an equation between covers. `total` is the number of cells, and it
is determined by `cover` (`total_eq_sum`).

`Separated l` says that the spans are not empty, in increasing order, and with a gap between each
and the next. The lemmas say how to build such a list around a span (`Separated.glue`), to take
cells from the front of a span (`Separated.bite`), where a span that is disjoint from the others
goes (`apart_of_cover`), and how many spans there are at most (`Separated.length_le`).
-/

namespace Minix.Lib

/-- The cells `b`, …, `b + n - 1`. -/
abbrev Span := ℕ × ℕ

/-- The cell is one of the span. -/
def Span.has (x : Span) (c : ℕ) : Bool := x.1 ≤ c && c < x.1 + x.2

/-- How many spans have the cell. -/
def cover (l : List Span) (c : ℕ) : ℕ := l.countP (·.has c)

/-- How many cells the spans have. -/
def total (l : List Span) : ℕ := (l.map Prod.snd).sum

/-- The spans have no cell in common. -/
def Span.Apart (x y : Span) : Prop := ∀ c, ¬(x.has c = true ∧ y.has c = true)

/-- Spans that are not empty, in order, with gaps between them. -/
structure Separated (l : List Span) : Prop where
  /-- The spans are not empty. -/
  pos : ∀ x ∈ l, 0 < x.2
  /-- Each ends before the next begins, and not where it begins. -/
  apart : l.Pairwise fun x y => x.1 + x.2 < y.1

variable {l a b : List Span} {x y z : Span} {c n m N : ℕ}

/-- What it means for a span to have a cell. -/
theorem Span.has_iff : x.has c = true ↔ x.1 ≤ c ∧ c < x.1 + x.2 := by
  unfold Span.has
  rw [Bool.and_eq_true, decide_eq_true_iff, decide_eq_true_iff]

/-- Having no cell in common is mutual. -/
theorem Span.Apart.symm (h : x.Apart y) : y.Apart x := fun c hc => h c hc.symm

@[simp]
theorem cover_nil : cover [] c = 0 := rfl

/-- A span covers what it has. -/
theorem cover_cons : cover (x :: l) c = cover l c + if x.has c then 1 else 0 := List.countP_cons

/-- Two lists cover what they cover together. -/
theorem cover_append : cover (a ++ b) c = cover a c + cover b c := List.countP_append

/-- A list covers the cells of its spans. -/
theorem cover_pos_iff : 0 < cover l c ↔ ∃ x ∈ l, x.has c := List.countP_pos_iff

/-- A span in two parts. -/
theorem cover_split : cover [(n, m + N)] c = cover [(n, m)] c + cover [(n + m, N)] c := by
  simp only [cover_cons, cover_nil, Span.has_iff]
  split_ifs <;> omega

/-- An empty span covers nothing. -/
theorem cover_empty : cover [(n, 0)] c = 0 := by
  simp [cover_cons, Span.has_iff]

/-- The number of cells is the sum of the covers. -/
theorem total_eq_sum (h : ∀ x ∈ l, x.1 + x.2 ≤ N) :
    total l = ∑ c ∈ Finset.range N, cover l c := by
  induction l with
  | nil => simp [total]
  | cons x l ih =>
    have hl := ih fun y hy => h y (by simp [hy])
    have hx : (∑ c ∈ Finset.range N, if x.has c then 1 else 0) = x.2 := by
      have hN := h x (by simp)
      have hfilter : (Finset.range N).filter (fun c => x.has c = true) =
          Finset.Ico x.1 (x.1 + x.2) := by
        ext c
        rw [Finset.mem_filter, Finset.mem_range, Span.has_iff, Finset.mem_Ico]
        omega
      rw [← Finset.sum_filter, hfilter]
      simp
    simp only [cover_cons, Finset.sum_add_distrib, hx, ← hl]
    simp [total, add_comm]

/-- Spans that cover nothing twice are disjoint. -/
theorem pairwise_disjoint_of_cover (h : ∀ c, cover l c ≤ 1) :
    l.Pairwise fun x y => ∀ c, ¬(x.has c = true ∧ y.has c = true) := by
  induction l with
  | nil => exact List.Pairwise.nil
  | cons x l ih =>
    refine List.pairwise_cons.mpr ⟨fun y hy c hc => ?_, ih fun c => ?_⟩
    · have hle := h c
      have hpos := cover_pos_iff.mpr ⟨y, hy, hc.2⟩
      rw [cover_cons, if_pos hc.1] at hle
      omega
    · have hle := h c
      rw [cover_cons] at hle
      omega

/-- A span that is disjoint from those of a list is on one side of each. -/
theorem apart_of_cover (h : ∀ c, cover l c + cover [y] c ≤ 1) (hx : x ∈ l) (hxp : 0 < x.2)
    (hyp : 0 < y.2) : x.1 + x.2 ≤ y.1 ∨ y.1 + y.2 ≤ x.1 := by
  by_contra hno
  -- They meet where the later of the two begins.
  have hc : x.has (max x.1 y.1) = true ∧ y.has (max x.1 y.1) = true := by
    rw [Span.has_iff, Span.has_iff]
    omega
  have hle := h (max x.1 y.1)
  have hpos := cover_pos_iff.mpr ⟨x, hx, hc.1⟩
  rw [cover_cons, if_pos hc.2] at hle
  omega

/-- The empty list is separated. -/
theorem separated_nil : Separated [] := ⟨by simp, List.Pairwise.nil⟩

/-- What comes before a place is separated. -/
theorem Separated.left (h : Separated (a ++ b)) : Separated a :=
  ⟨fun x hx => h.pos x (by simp [hx]), (List.pairwise_append.mp h.apart).1⟩

/-- What comes after a place is separated. -/
theorem Separated.right (h : Separated (a ++ b)) : Separated b :=
  ⟨fun x hx => h.pos x (by simp [hx]), (List.pairwise_append.mp h.apart).2.1⟩

/-- A list up to `x`, and one from after it. -/
theorem Separated.glue (ha : Separated (a ++ [x])) (hb : Separated b)
    (hx : ∀ y ∈ b.head?, x.1 + x.2 < y.1) : Separated (a ++ x :: b) := by
  have hax := List.pairwise_append.mp ha.apart
  have hxb : ∀ y ∈ b, x.1 + x.2 < y.1 := by
    cases b with
    | nil => simp
    | cons z b =>
      have hz := hx z rfl
      have hzb := (List.pairwise_cons.mp hb.apart).1
      intro y hy
      rcases List.mem_cons.mp hy with rfl | hy
      · exact hz
      · have := hzb y hy
        omega
  refine ⟨fun y hy => ?_, List.pairwise_append.mpr ⟨hax.1, ?_, fun y hy z hz => ?_⟩⟩
  · rcases List.mem_append.mp hy with hy | hy
    · exact ha.pos y (by simp [hy])
    · rcases List.mem_cons.mp hy with rfl | hy
      · exact ha.pos y (by simp)
      · exact hb.pos y hy
  · exact List.pairwise_cons.mpr ⟨hxb, hb.apart⟩
  · have hyx := hax.2.2 y hy x (by simp)
    rcases List.mem_cons.mp hz with rfl | hz
    · exact hyx
    · have := hxb z hz
      omega

/-- The spans begin no earlier than the first. -/
theorem Separated.head_le (h : Separated l) (hm : ∀ x ∈ l.head?, m ≤ x.1) : ∀ x ∈ l, m ≤ x.1 := by
  cases l with
  | nil => simp
  | cons z l =>
    have hz : m ≤ z.1 := hm z rfl
    intro x hx
    rcases List.mem_cons.mp hx with rfl | hx
    · exact hz
    · have := (List.pairwise_cons.mp h.apart).1 x hx
      omega

/-- The span after `x` begins after a gap. -/
theorem Separated.gap (h : Separated (a ++ x :: b)) : ∀ y ∈ b.head?, x.1 + x.2 < y.1 := by
  intro y hy
  exact (List.pairwise_cons.mp h.right.apart).1 y (List.mem_of_mem_head? hy)

/-- The list up to `x`. -/
theorem Separated.upTo (h : Separated (a ++ x :: b)) : Separated (a ++ [x]) := by
  rw [List.append_cons] at h
  exact h.left

/-- The list from after `x`. -/
theorem Separated.after (h : Separated (a ++ x :: b)) : Separated b := by
  rw [List.append_cons] at h
  exact h.right

/-- A span that begins where `x` does, at the end of a list, in its place. -/
theorem Separated.resize (h : Separated (a ++ [x])) (hy : y.1 = x.1) (hp : 0 < y.2) :
    Separated (a ++ [y]) := by
  have hax := List.pairwise_append.mp h.apart
  refine ⟨fun z hz => ?_, List.pairwise_append.mpr ⟨hax.1, List.pairwise_singleton .., ?_⟩⟩
  · rcases List.mem_append.mp hz with hz | hz
    · exact h.pos z (by simp [hz])
    · rw [List.mem_singleton.mp hz]
      exact hp
  · intro z hz w hw
    rw [List.mem_singleton.mp hw, hy]
    exact hax.2.2 z hz x (by simp)

/-- No span ends where another begins. -/
theorem Separated.not_adjacent (h : Separated l) (hx : x ∈ l) (hy : y ∈ l) : x.1 + x.2 ≠ y.1 := by
  have hsymm : Std.Symm fun x y : Span => x.1 + x.2 ≠ y.1 ∧ y.1 + y.2 ≠ x.1 := ⟨fun _ _ => And.symm⟩
  have hall : x.1 + x.2 ≠ y.1 ∧ y.1 + y.2 ≠ x.1 := by
    refine List.Pairwise.forall_of_forall (R := fun x y => x.1 + x.2 ≠ y.1 ∧ y.1 + y.2 ≠ x.1)
      (fun z hz => ?_) (h.apart.imp fun hzw => by omega) hx hy
    have := h.pos z hz
    omega
  exact hall.1

/-- Taking some cells, but not all, from the front of a span. -/
theorem Separated.bite (h : Separated (a ++ x :: b)) (hn : n < x.2) :
    Separated (a ++ (x.1 + n, x.2 - n) :: b) := by
  refine Separated.glue ?_ h.after fun y hy => ?_
  · have hax := List.pairwise_append.mp h.upTo.apart
    refine ⟨fun z hz => ?_, List.pairwise_append.mpr ⟨hax.1, List.pairwise_singleton .., ?_⟩⟩
    · rcases List.mem_append.mp hz with hz | hz
      · exact h.pos z (by simp [hz])
      · rw [List.mem_singleton.mp hz]
        show 0 < x.2 - n
        omega
    · intro z hz w hw
      rw [List.mem_singleton.mp hw]
      have := hax.2.2 z hz x (by simp)
      show z.1 + z.2 < x.1 + n
      omega
  · have := h.gap y hy
    show x.1 + n + (x.2 - n) < y.1
    omega

/-- Taking all the cells of a span. -/
theorem Separated.remove (h : Separated (a ++ x :: b)) : Separated (a ++ b) := by
  have hax := List.pairwise_append.mp h.apart
  refine ⟨fun z hz => h.pos z ?_, List.pairwise_append.mpr ⟨hax.1, h.after.apart, ?_⟩⟩
  · rcases List.mem_append.mp hz with hz | hz
    · simp [hz]
    · simp [hz]
  · intro y hy z hz
    exact hax.2.2 y hy z (by simp [hz])

/-- Of two spans, one ends before the other begins. -/
theorem Separated.apart_of_ne (h : Separated l) (hx : x ∈ l) (hy : y ∈ l) (hne : x ≠ y) :
    x.1 + x.2 < y.1 ∨ y.1 + y.2 < x.1 := by
  have hsymm : Std.Symm fun x y : Span => x ≠ y → x.1 + x.2 < y.1 ∨ y.1 + y.2 < x.1 :=
    ⟨fun _ _ hxy hne => (hxy hne.symm).symm⟩
  exact List.Pairwise.forall_of_forall
    (R := fun x y => x ≠ y → x.1 + x.2 < y.1 ∨ y.1 + y.2 < x.1)
    (fun _ _ hne => absurd rfl hne) (h.apart.imp fun hxy _ => .inl hxy) hx hy hne

/-- The cell behind a span is in no span. -/
theorem Separated.end_free (h : Separated l) (hx : x ∈ l) : cover l (x.1 + x.2) = 0 := by
  by_contra hpos
  obtain ⟨y, hy, hhas⟩ := cover_pos_iff.mp (Nat.pos_of_ne_zero hpos)
  rw [Span.has_iff] at hhas
  have hne : x ≠ y := by
    rintro rfl
    omega
  rcases h.apart_of_ne hx hy hne with hlt | hlt <;> omega

/-- Where the spans of `l` and those of `a` share out the cells of `b`, each span of `l` ends where
one of `a` begins or one of `b` ends. So there are no more spans in `l` than in `a` and in `b`, not
counting those of `a` that are empty or begin at cell 0. -/
theorem Separated.length_le (h : Separated l) (hcov : ∀ c, cover l c + cover a c = cover b c)
    (hone : ∀ c, cover b c ≤ 1) :
    l.length ≤ a.countP (fun x => x.1 ≠ 0 ∧ 0 < x.2) + b.length := by
  have hends : (l.map fun x => x.1 + x.2).Nodup := by
    refine List.pairwise_map.mpr (h.apart.imp_of_mem fun {x y} _ hy hxy => ?_)
    have := h.pos y hy
    omega
  have hsub : (l.map fun x => x.1 + x.2) ⊆
      (a.filter fun x => x.1 ≠ 0 ∧ 0 < x.2).map Prod.fst ++ b.map fun x => x.1 + x.2 := by
    intro e he
    obtain ⟨x, hx, rfl⟩ := List.mem_map.mp he
    have hpos := h.pos x hx
    -- The last cell of the span is in one span of `b`, and not in `a`.
    have hlast : 0 < cover l (x.1 + x.2 - 1) :=
      cover_pos_iff.mpr ⟨x, hx, Span.has_iff.mpr (by omega)⟩
    have hshare := hcov (x.1 + x.2 - 1)
    have hle := hone (x.1 + x.2 - 1)
    obtain ⟨z, hz, hzlast⟩ := cover_pos_iff.mp (show 0 < cover b (x.1 + x.2 - 1) by omega)
    rw [Span.has_iff] at hzlast
    by_cases hend : z.1 + z.2 = x.1 + x.2
    · exact List.mem_append_right _ (List.mem_map.mpr ⟨z, hz, hend⟩)
    -- The cell behind it is still in `b`, hence in `a`.
    have hbehind : 0 < cover b (x.1 + x.2) :=
      cover_pos_iff.mpr ⟨z, hz, Span.has_iff.mpr (by omega)⟩
    have hshare' := hcov (x.1 + x.2)
    have hfree := h.end_free hx
    obtain ⟨y, hy, hyhas⟩ := cover_pos_iff.mp (show 0 < cover a (x.1 + x.2) by omega)
    rw [Span.has_iff] at hyhas
    have hbegin : y.1 = x.1 + x.2 := by
      by_contra hne
      have hyl : 0 < cover a (x.1 + x.2 - 1) :=
        cover_pos_iff.mpr ⟨y, hy, Span.has_iff.mpr (by omega)⟩
      omega
    have hcounts : decide (y.1 ≠ 0 ∧ 0 < y.2) = true := decide_eq_true (by omega)
    exact List.mem_append_left _ (List.mem_map.mpr ⟨y, List.mem_filter.mpr ⟨hy, hcounts⟩, hbegin⟩)
  have hlen := (hends.subperm hsub).length_le
  simpa only [List.length_append, List.length_map, ← List.countP_eq_length_filter] using hlen

end Minix.Lib
