import Minix.Fs.Scattered
import Minix.Lib.Insertion
import Mathlib.Logic.Relation

/-!
# The sort of `rw_scattered`

The loops of the Shell sort one turn at a time, on 16-bit integers and with each element of the
queue looked up (`sortStep`). The gaps are those of the recurrence `gapOf`, up past the size of the
queue and down again to 1, and so every loop ends (`sort_runs`) with the queue that `sortBufs`
gives. The last pass has gap 1: it is insertion by exchanges, and leaves the queue in order.
-/

namespace Minix.Fs

open Kernel (IoRequest RdwtMess handleRequests doVrdwt)
open Lib

/-! ## The loops, one turn at a time -/

/-- Where the sort is: at the loops that raise and lower `gap`, at those over `j` and over `i`, or
behind them all. -/
inductive SortPoint
  | raise (gap : ℤ)
  | lower (gap : ℤ)
  | pass (gap j : ℤ)
  | sink (gap j i : ℤ)
  | sorted

/-- A sort under way. -/
structure Sorting where
  point : SortPoint
  bufq : List Buf

/-- `bufq[i]`, where there is such an element. -/
def bufAt (bufq : List Buf) (i : ℤ) : Option Buf := if 0 ≤ i then bufq[i.toNat]? else none

/-- One turn of a loop. -/
def sortStep (b_blocknr : Buf → ℕ) (s : Sorting) : Option Sorting :=
  match s.point with
  | .raise gap =>
    if int16 (3 * gap + 1) ≤ s.bufq.length then some { s with point := .raise (int16 (3 * gap + 1)) }
    else some { s with point := .lower (int16 (3 * gap + 1)) }
  | .lower gap =>
    if gap ≠ 1 then some { s with point := .pass (gap.tdiv 3) (gap.tdiv 3) }
    else some { s with point := .sorted }
  | .pass gap j =>
    if j < s.bufq.length then some { s with point := .sink gap j (int16 (j - gap)) }
    else some { s with point := .lower gap }
  | .sink gap j i =>
    if 0 ≤ i then
      match bufAt s.bufq i, bufAt s.bufq (int16 (i + gap)) with
      | some x, some y =>
        if b_blocknr x > b_blocknr y then
          some ⟨.sink gap j (int16 (i - gap)),
            (s.bufq.set i.toNat y).set (int16 (i + gap)).toNat x⟩
        else some { s with point := .pass gap (int16 (j + 1)) }
      | _, _ => none
    else some { s with point := .pass gap (int16 (j + 1)) }
  | .sorted => none

/-- The sort comes from one place to another. -/
def Sorts (b_blocknr : Buf → ℕ) : Sorting → Sorting → Prop :=
  Relation.ReflTransGen fun s t => sortStep b_blocknr s = some t

/-- The sort comes where one turn leads to. -/
theorem Sorts.turn {b_blocknr : Buf → ℕ} {s t u : Sorting} (h : sortStep b_blocknr s = some t)
    (hrun : Sorts b_blocknr t u) : Sorts b_blocknr s u := Relation.ReflTransGen.head h hrun

/-! ## The gaps -/

/-- The gaps: 1, 4, 13, 40 and so on. -/
def gapOf : ℕ → ℕ
  | 0 => 1
  | k + 1 => 3 * gapOf k + 1

theorem lt_gapOf (k : ℕ) : k < gapOf k := by
  induction k with
  | zero => exact Nat.one_pos
  | succ k ih =>
    rw [gapOf]
    omega

/-- The recurrence down undoes the one up. -/
theorem gapOf_div (k : ℕ) : gapOf (k + 1) / 3 = gapOf k := by
  rw [gapOf]
  omega

variable {b_blocknr : Buf → ℕ} {bufq : List Buf} {gap k n m j : ℕ}

/-- The gap is raised past the size of the queue, and stays small. -/
theorem raise_runs (hgap : gapOf k ≤ bufq.length) (hn : bufq.length ≤ k + n)
    (hlen : bufq.length ≤ NR_BUFS) :
    ∃ k', 0 < k' ∧ k' ≤ bufq.length ∧ gapOf k' ≤ 3 * bufq.length + 1 ∧
      firstGap bufq.length n (gapOf k) = gapOf k' ∧
      Sorts b_blocknr ⟨.raise (gapOf k), bufq⟩ ⟨.lower (gapOf k'), bufq⟩ := by
  induction n generalizing k with
  | zero =>
    have := lt_gapOf k
    omega
  | succ n ih =>
    have hk := lt_gapOf k
    have hbufs : NR_BUFS = 30 := rfl
    have hnext : int16 (3 * (gapOf k : ℤ) + 1) = (gapOf (k + 1) : ℕ) := by
      rw [int16_of_range (by omega) (by omega), gapOf]
      push_cast
      rfl
    have hup : gapOf (k + 1) = 3 * gapOf k + 1 := rfl
    rw [firstGap, ← hup]
    by_cases hmore : gapOf (k + 1) ≤ bufq.length
    · obtain ⟨k', hpos, hk', hsmall, hfirst, hrun⟩ := ih hmore (by omega)
      rw [if_pos hmore]
      refine ⟨k', hpos, hk', hsmall, hfirst, .turn ?_ hrun⟩
      simp only [sortStep, hnext]
      rw [if_pos (by exact_mod_cast hmore)]
    · rw [if_neg hmore]
      refine ⟨k + 1, by omega, by omega, by omega, rfl, .single ?_⟩
      simp only [sortStep, hnext]
      rw [if_neg (by exact_mod_cast hmore)]

/-! ## The passes -/

theorem sink_length : (sink b_blocknr gap n m bufq).length = bufq.length :=
  (sink_perm b_blocknr gap n m bufq).length_eq

/-- The innermost loop ends, at the latest where `i` is below 0. -/
theorem sink_runs (hn : m < n) (hm : m < bufq.length) (hlen : bufq.length ≤ NR_BUFS)
    (hpos : 0 < gap) (hgap : gap ≤ 100) (hj : j < bufq.length) :
    Sorts b_blocknr ⟨.sink gap j (m - gap), bufq⟩
      ⟨.pass gap (j + 1 : ℕ), sink b_blocknr gap n m bufq⟩ := by
  have hbufs : NR_BUFS = 30 := rfl
  have hj1 : int16 ((j : ℤ) + 1) = (j + 1 : ℕ) := by
    rw [int16_of_range (by omega) (by omega)]
    rfl
  induction n generalizing m bufq with
  | zero => exact absurd hn (Nat.not_lt_zero m)
  | succ n ih =>
    rw [sink]
    by_cases hge : gap ≤ m
    · have hi : (0 : ℤ) ≤ m - gap := by omega
      have hnat : ((m : ℤ) - gap).toNat = m - gap := by omega
      have hback : int16 ((m : ℤ) - gap + gap) = m := by
        rw [Int.sub_add_cancel, int16_of_range (by omega) (by omega)]
      have hx : bufq[m - gap]? = some bufq[m - gap] := List.getElem?_eq_getElem (by omega)
      have hy : bufq[m]? = some bufq[m] := List.getElem?_eq_getElem hm
      have hxAt : bufAt bufq ((m : ℤ) - gap) = some bufq[m - gap] := by
        rw [bufAt, if_pos hi, hnat, hx]
      have hyAt : bufAt bufq (m : ℤ) = some bufq[m] := by
        rw [bufAt, if_pos (by omega), Int.toNat_natCast, hy]
      by_cases hlt : b_blocknr bufq[m] < b_blocknr bufq[m - gap]
      · have habove : above b_blocknr bufq (m - gap) m = true := by
          simp only [above, hx, hy, hlt, decide_true]
        have hswap : exchange bufq (m - gap) m =
            (bufq.set (m - gap) bufq[m]).set m bufq[m - gap] := by
          simp only [exchange, hx, hy]
        have hnext : int16 ((m : ℤ) - gap - gap) = ((m - gap : ℕ) : ℤ) - gap := by
          rw [int16_of_range (by omega) (by omega)]
          omega
        have hsame : (exchange bufq (m - gap) m).length = bufq.length :=
          (exchange_perm bufq _ _).length_eq
        rw [if_pos ⟨hge, habove⟩]
        refine .turn ?_ (ih (by omega) (by omega) (by omega) (by omega))
        simp only [sortStep, if_pos hi, hback, hxAt, hyAt, if_pos hlt, hnext, hnat,
          Int.toNat_natCast, hswap]
      · have habove : ¬above b_blocknr bufq (m - gap) m = true := by
          simp only [above, hx, hy, hlt, decide_false, Bool.false_eq_true, not_false_eq_true]
        rw [if_neg fun h => habove h.2]
        refine .single ?_
        simp only [sortStep, if_pos hi, hback, hxAt, hyAt, gt_iff_lt, if_neg hlt, hj1]
    · have hi : ¬(0 : ℤ) ≤ m - gap := by omega
      rw [if_neg fun h => hge h.1]
      refine .single ?_
      simp only [sortStep, if_neg hi, hj1]

/-- The loop over `j` goes up to the size of the queue. -/
theorem pass_runs (hlen : bufq.length ≤ NR_BUFS) (hpos : 0 < gap) (hgap : gap ≤ 100)
    (hj : gap ≤ j) (hn : bufq.length - j = n) :
    Sorts b_blocknr ⟨.pass gap j, bufq⟩ ⟨.lower gap,
      (List.range' j n).foldl (fun bufq j => sink b_blocknr gap (j + 1) j bufq) bufq⟩ := by
  have hbufs : NR_BUFS = 30 := rfl
  induction n generalizing j bufq with
  | zero =>
    refine .single ?_
    simp only [sortStep]
    rw [if_neg (by omega)]
    rfl
  | succ n ih =>
    have hlt : j < bufq.length := by omega
    have hi : int16 ((j : ℤ) - gap) = (j : ℤ) - gap := int16_of_range (by omega) (by omega)
    have hsame : (sink b_blocknr gap (j + 1) j bufq).length = bufq.length := sink_length
    rw [List.range'_succ, List.foldl_cons]
    have hone : sortStep b_blocknr ⟨.pass gap j, bufq⟩ = some ⟨.sink gap j (j - gap), bufq⟩ := by
      simp only [sortStep, hi]
      rw [if_pos (by exact_mod_cast hlt)]
    have hsink : Sorts b_blocknr ⟨.sink gap j (j - gap), bufq⟩
        ⟨.pass gap (j + 1 : ℕ), sink b_blocknr gap (j + 1) j bufq⟩ :=
      sink_runs (Nat.lt_succ_self j) hlt hlen hpos hgap hlt
    exact (Sorts.turn hone hsink).trans (ih (by omega) (by omega) (by omega))

/-- The gaps go down to 1, and the queue is what the passes leave. -/
theorem lower_runs (hlen : bufq.length ≤ NR_BUFS) (hgap : gapOf k ≤ 100) (hn : k < n) :
    Sorts b_blocknr ⟨.lower (gapOf k), bufq⟩ ⟨.sorted, passes b_blocknr n (gapOf k) bufq⟩ := by
  induction k generalizing n bufq with
  | zero =>
    obtain ⟨n, rfl⟩ : ∃ i, n = i + 1 := ⟨n - 1, by omega⟩
    exact .single rfl
  | succ k ih =>
    obtain ⟨n, rfl⟩ : ∃ i, n = i + 1 := ⟨n - 1, by omega⟩
    have hk := lt_gapOf k
    have hup : gapOf (k + 1) = 3 * gapOf k + 1 := rfl
    have hdown : ((gapOf (k + 1) : ℕ) : ℤ).tdiv 3 = gapOf k := by
      rw [Int.tdiv_eq_ediv_of_nonneg (by omega)]
      omega
    have hone : sortStep b_blocknr ⟨.lower (gapOf (k + 1)), bufq⟩ =
        some ⟨.pass (gapOf k) (gapOf k), bufq⟩ := by
      simp only [sortStep, hdown]
      rw [if_pos (by omega)]
    have hpass : Sorts b_blocknr ⟨.pass (gapOf k) (gapOf k), bufq⟩
        ⟨.lower (gapOf k), gapPass b_blocknr (gapOf k) bufq⟩ :=
      pass_runs hlen (by omega) (by omega) le_rfl rfl
    have hsame : (gapPass b_blocknr (gapOf k) bufq).length = bufq.length :=
      (gapPass_perm b_blocknr _ bufq).length_eq
    rw [passes, if_neg (by omega), gapOf_div]
    exact (Sorts.turn hone hpass).trans (ih (by omega) (by omega) (by omega))

/-- Every loop of the sort ends. -/
theorem sort_runs (hlen : bufq.length ≤ NR_BUFS) :
    Sorts b_blocknr ⟨.raise 1, bufq⟩ ⟨.sorted, sortBufs b_blocknr bufq⟩ := by
  by_cases h0 : bufq.length = 0
  · obtain rfl := List.length_eq_zero_iff.mp h0
    have hraise : sortStep b_blocknr ⟨.raise 1, []⟩ = some ⟨.lower 4, []⟩ := rfl
    have hlower : sortStep b_blocknr ⟨.lower 4, []⟩ = some ⟨.pass 1 1, []⟩ := rfl
    have hpass : sortStep b_blocknr ⟨.pass 1 1, []⟩ = some ⟨.lower 1, []⟩ := rfl
    exact .turn hraise (.turn hlower (.turn hpass (.single rfl)))
  · have hbufs : NR_BUFS = 30 := rfl
    have hone : gapOf 0 = 1 := rfl
    obtain ⟨k, -, hk, hsmall, hfirst, hrun⟩ := @raise_runs b_blocknr bufq 0 bufq.length (by omega)
      (by omega) hlen
    rw [hone] at hfirst hrun
    rw [sortBufs, hfirst]
    exact hrun.trans (lower_runs hlen (by omega) (by omega))

/-! ## The last pass -/

/-- With gap 1, an element goes to its place among those before it. -/
theorem sink_inOrder (hn : m < n) (hm : m < j) (hj : j ≤ bufq.length)
    (h : InOrder b_blocknr bufq j m) : InOrder b_blocknr (sink b_blocknr 1 n m bufq) j j := by
  induction n generalizing m bufq with
  | zero => exact absurd hn (Nat.not_lt_zero m)
  | succ n ih =>
    rw [sink]
    cases m with
    | zero =>
      rw [if_neg fun hc => absurd hc.1 (by omega)]
      exact h.first j
    | succ m =>
      have hx : bufq[m]? = some bufq[m] := List.getElem?_eq_getElem (by omega)
      have hy : bufq[m + 1]? = some bufq[m + 1] := List.getElem?_eq_getElem (by omega)
      rw [Nat.add_sub_cancel]
      by_cases hlt : b_blocknr bufq[m + 1] < b_blocknr bufq[m]
      · have habove : above b_blocknr bufq m (m + 1) = true := by
          simp only [above, hx, hy, hlt, decide_true]
        have hswap : exchange bufq m (m + 1) = (bufq.set m bufq[m + 1]).set (m + 1) bufq[m] := by
          simp only [exchange, hx, hy]
        have hsame : (exchange bufq m (m + 1)).length = bufq.length :=
          (exchange_perm bufq _ _).length_eq
        rw [if_pos ⟨by omega, habove⟩]
        apply ih (by omega) (by omega) (by omega)
        rw [hswap]
        exact h.exchange hm hx hy hlt
      · have habove : ¬above b_blocknr bufq m (m + 1) = true := by
          simp only [above, hx, hy, hlt, decide_false, Bool.false_eq_true, not_false_eq_true]
        rw [if_neg fun hc => habove hc.2]
        exact h.settled hx hy (not_lt.mp hlt) j

/-- The pass with gap 1 leaves the queue in order. -/
theorem gapPass_inOrder (hn : j + n = bufq.length) (h : InOrder b_blocknr bufq j j) :
    let q := (List.range' j n).foldl (fun bufq j => sink b_blocknr 1 (j + 1) j bufq) bufq
    InOrder b_blocknr q q.length q.length := by
  induction n generalizing j bufq with
  | zero =>
    obtain rfl : j = bufq.length := by omega
    exact h
  | succ n ih =>
    have hsame : (sink b_blocknr 1 (j + 1) j bufq).length = bufq.length := sink_length
    rw [List.range'_succ, List.foldl_cons]
    exact ih (by omega) (sink_inOrder (by omega) (by omega) (by omega) h.next)

/-- The passes end with the one with gap 1. -/
theorem passes_sorted (hk : 0 < k) (hn : k < n) :
    (passes b_blocknr n (gapOf k) bufq).Pairwise fun x y => b_blocknr x ≤ b_blocknr y := by
  induction k generalizing n bufq with
  | zero => exact absurd hk (lt_irrefl 0)
  | succ k ih =>
    obtain ⟨n, rfl⟩ : ∃ i, n = i + 1 := ⟨n - 1, by omega⟩
    have hup : gapOf (k + 1) = 3 * gapOf k + 1 := rfl
    have hpos := lt_gapOf k
    rw [passes, if_neg (by omega), gapOf_div]
    by_cases hlast : k = 0
    · subst hlast
      obtain ⟨n, rfl⟩ : ∃ i, n = i + 1 := ⟨n - 1, by omega⟩
      have hone : gapOf 0 = 1 := rfl
      rw [passes, if_pos hone, hone]
      by_cases h0 : bufq.length = 0
      · obtain rfl := List.length_eq_zero_iff.mp h0
        exact List.Pairwise.nil
      · exact (gapPass_inOrder (by omega) (InOrder.one b_blocknr bufq)).pairwise
    · exact ih (by omega) (by omega)

/-- The sort sorts. -/
theorem sortBufs_sorted (hlen : bufq.length ≤ NR_BUFS) :
    (sortBufs b_blocknr bufq).Pairwise fun x y => b_blocknr x ≤ b_blocknr y := by
  by_cases h0 : bufq.length = 0
  · obtain rfl := List.length_eq_zero_iff.mp h0
    exact List.Pairwise.nil
  · have hone : gapOf 0 = 1 := rfl
    obtain ⟨k, hpos, hk, -, hfirst, -⟩ := @raise_runs b_blocknr bufq 0 bufq.length (by omega)
      (by omega) hlen
    rw [hone] at hfirst
    rw [sortBufs, hfirst]
    exact passes_sorted hpos (by omega)

/-! ## The vector and its harvest -/

/-- The driver leaves the buffer and the position of each element as they are. -/
theorem handleRequests_keeps {σ β : Type*} (do_rdwt : RdwtMess β → σ → ℤ × σ)
    (device proc_nr : ℤ) (iovec : List (IoRequest β)) (s : σ) :
    (handleRequests do_rdwt device proc_nr iovec s).1.map (fun e => (e.io_buf, e.io_position)) =
      iovec.map fun e => (e.io_buf, e.io_position) := by
  induction iovec generalizing s with
  | nil => rfl
  | cons iop iovec ih =>
    simp only [handleRequests]
    split_ifs
    · rfl
    · rfl
    · simp only [List.map_cons, ih]
    · simp only [List.map_cons, ih]

/-- What scattered i/o does with a queue: the sort ends with the buffers in the order of their
blocks, the elements of the vector are theirs, and each result goes to the buffer of its element. -/
structure Harvested (f : Buf → Rdwt) (s : Cache) (dev : ℕ) (bufq : List Buf) (rw_flag : RwFlag)
    (q : List Buf) (iovec : List (IoRequest Buf)) (d : Driven) : Prop where
  ends : Sorts s.b_blocknr ⟨.raise 1, bufq⟩ ⟨.sorted, q⟩
  perm : q.Perm bufq
  order : q.Pairwise fun x y => s.b_blocknr x ≤ s.b_blocknr y
  driver : doVrdwt (doRdwt f) dev FS_PROC_NR (q.map (ioRequest s rw_flag)) ⟨s, []⟩ = some (iovec, d)
  elements : iovec.map (fun e => (e.io_buf, e.io_position)) =
    q.map fun x => (x, (s.b_blocknr x : ℤ) * BLOCK_SIZE)
  harvests : rwScatteredIo f s dev bufq rw_flag = some
    ⟨(iovec.map fun e => (e.io_buf, e.io_nbytes)).foldl (harvest dev rw_flag) d.cache, d.issued⟩

/-- The sort of a queue sorts it, and each result of the vector is harvested into the buffer that
it belongs to. -/
theorem scatter_sort (f : Buf → Rdwt) (s : Cache) (dev : ℕ) (rw_flag : RwFlag)
    (hlen : bufq.length ≤ NR_BUFS) : ∃ q iovec d, Harvested f s dev bufq rw_flag q iovec d := by
  obtain ⟨q, hq⟩ : ∃ q, sortBufs s.b_blocknr bufq = q := ⟨_, rfl⟩
  have hperm : q.Perm bufq := hq ▸ sortBufs_perm s.b_blocknr bufq
  obtain ⟨iovec, d, hr⟩ : ∃ iovec d, handleRequests (doRdwt f) dev FS_PROC_NR
      (q.map (ioRequest s rw_flag)) ⟨s, []⟩ = (iovec, d) := ⟨_, _, rfl⟩
  have hdriver : doVrdwt (doRdwt f) dev FS_PROC_NR (q.map (ioRequest s rw_flag)) ⟨s, []⟩ =
      some (iovec, d) := by
    have hfits : ¬(q.map (ioRequest s rw_flag)).length > Kernel.NR_IOVEC := by
      rw [List.length_map, hperm.length_eq]
      exact not_lt.mpr hlen
    rw [doVrdwt, if_neg hfits, hr]
  have helements : iovec.map (fun e => (e.io_buf, e.io_position)) =
      q.map fun x => (x, (s.b_blocknr x : ℤ) * BLOCK_SIZE) := by
    have hkeeps := handleRequests_keeps (doRdwt f) dev FS_PROC_NR (q.map (ioRequest s rw_flag))
      ⟨s, []⟩
    rw [hr, List.map_map] at hkeeps
    exact hkeeps
  have hzip : q.zip (iovec.map IoRequest.io_nbytes) =
      iovec.map fun e => (e.io_buf, e.io_nbytes) := by
    have hbuf : q = iovec.map IoRequest.io_buf := by
      have hfst := congrArg (List.map Prod.fst) helements
      rw [List.map_map, List.map_map] at hfst
      exact (hfst.trans (List.map_id q)).symm
    rw [hbuf, List.zip_map']
  refine ⟨q, iovec, d, hq ▸ sort_runs hlen, hperm, hq ▸ sortBufs_sorted hlen, hdriver, helements, ?_⟩
  rw [rwScatteredIo]
  by_cases h0 : bufq.length = 0
  · obtain rfl := List.length_eq_zero_iff.mp h0
    obtain rfl : q = [] := hperm.eq_nil
    obtain ⟨rfl, rfl⟩ : [] = iovec ∧ (⟨s, []⟩ : Driven) = d := by simpa [handleRequests] using hr
    rfl
  · rw [if_neg h0, if_neg (not_lt.mpr hlen)]
    simp only [hq, hdriver, Option.map_some, hzip]

/-- Four dirty blocks, queued from the last to the first. -/
theorem scatter_sort_descending :
    ∃ q iovec d, Harvested endFirst allDirty 1 [3, 2, 1, 0] .WRITING q iovec d :=
  scatter_sort endFirst allDirty 1 .WRITING (by decide)

end Minix.Fs
