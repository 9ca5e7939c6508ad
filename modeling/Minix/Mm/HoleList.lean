import Minix.Lib.Spans
import Minix.Mm.Alloc

/-!
# The two lists of the hole table

`Lists t ls` relates the table to the lists of slots that its two heads lead through: the holes and
the unused slots, which between them have every slot. `spans t l` are the spans of memory that the
slots of a list stand for.

Each function of `Alloc.lean` has one specification: what becomes of the lists (`delSlot`,
`absorb`), and from that, what becomes of the spans of the holes (`allocMem`, `merge`, `freeMem`). A
block that is disjoint from the holes goes between two of them, touching neither, one or both, and
`merge` closes the places where it touches.
-/

namespace Minix.Mm

open Lib

/-- The two lists that are linked through `h_next`. -/
inductive ListName
  | holes
  | free
  deriving DecidableEq

/-- The heads of the lists. -/
def heads (t : HoleTable) : ListName → Option HoleSlot
  | .holes => t.hole_head
  | .free => t.free_slots

/-- The heads stand for the lists, and every slot is in one of them. -/
structure Lists (t : HoleTable) (ls : ListName → List HoleSlot) : Prop where
  chains : Chains t.h_next (heads t) ls
  all : ∀ x, ∃ q, x ∈ ls q

/-- The memory that a slot stands for. -/
def span (t : HoleTable) (x : HoleSlot) : Span := (t.h_base x, t.h_len x)

/-- The memory that a list of slots stands for. -/
def spans (t : HoleTable) (l : List HoleSlot) : List Span := l.map (span t)

variable {t t' : HoleTable} {ls : ListName → List HoleSlot} {a b l : List HoleSlot}
  {hp next_ptr x y : HoleSlot} {prev : Option HoleSlot} {base clicks n : ℕ}

/-- Setting the head of the holes. -/
theorem heads_holes (v : Option HoleSlot) :
    heads { t with hole_head := v } = Function.update (heads t) .holes v := by
  funext q
  cases q <;> simp [heads]

/-- Setting the head of the unused slots. -/
theorem heads_free (v : Option HoleSlot) :
    heads { t with free_slots := v } = Function.update (heads t) .free v := by
  funext q
  cases q <;> simp [heads]

/-- A slot of one list is not in the other. -/
theorem Lists.notMem_free (h : Lists t ls) (hx : x ∈ ls .holes) : x ∉ ls .free :=
  h.chains.notMem hx (by simp)

/-- No list is as long as the fuel. -/
theorem Lists.length_lt (h : Lists t ls) (q : ListName) : (ls q).length < holeFuel := by
  have := h.chains.length_le (q := q)
  rw [Fintype.card_fin] at this
  exact Nat.lt_succ_of_le this

/-- The spans of slots depend on the slots' bases and lengths only. -/
theorem spans_congr (h : ∀ x ∈ l, t'.h_base x = t.h_base x ∧ t'.h_len x = t.h_len x) :
    spans t' l = spans t l := by
  refine List.map_congr_left fun x hx => ?_
  unfold span
  rw [(h x hx).1, (h x hx).2]

/-- The spans of two lists of slots. -/
theorem spans_append : spans t (a ++ x :: b) = spans t a ++ span t x :: spans t b := by
  simp [spans]

/-! ## Moving slots between the lists -/

/-- Deleting a slot moves it from the holes to the unused slots. -/
theorem delSlot_spec (h : Lists t ls) (hl : ls .holes = a ++ hp :: b)
    (hprev : ∀ c y, a = c ++ [y] → prev = some y) :
    ∃ t', delSlot t prev hp = some t' ∧ t'.h_base = t.h_base ∧ t'.h_len = t.h_len ∧
      ∃ ls', Lists t' ls' ∧ ls' .holes = a ++ b := by
  have hnd := h.chains.nodup (q := .holes)
  have hhead := h.chains.head?_eq (q := .holes)
  rw [hl] at hnd hhead
  have hhp : hp ∈ ls .holes := by simp [hl]
  have hnab : hp ∉ a ++ b := fun hm => by
    rw [List.nodup_middle] at hnd
    exact (List.nodup_cons.mp hnd).1 hm
  -- Out of the holes, it is in no list, and goes to the front of the other one.
  have hout : ∀ q, hp ∉ Function.update ls .holes (a ++ b) q := by
    intro q
    cases q with
    | holes => simpa using hnab
    | free => simpa using h.notMem_free hhp
  have hall : ∀ x, ∃ q, x ∈ Function.update (Function.update ls .holes (a ++ b)) .free
      (hp :: ls .free) q := by
    intro x
    obtain ⟨q, hq⟩ := h.all x
    cases q with
    | holes =>
      rw [hl] at hq
      by_cases hx : x = hp
      · exact ⟨.free, by simp [hx]⟩
      · exact ⟨.holes, by simpa [hx] using hq⟩
    | free => exact ⟨.free, by simp [hq]⟩
  unfold delSlot
  rcases List.eq_nil_or_concat' a with rfl | ⟨c, y, rfl⟩
  · have hh : t.hole_head = some hp := hhead.symm
    have hc := h.chains.pop hl
    rw [← heads_holes] at hc
    have hc' := hc.push_front (q := .free) hout
    rw [← heads_free] at hc'
    simp only [hh, if_true, Option.bind_eq_bind, Option.bind_some]
    exact ⟨_, rfl, rfl, rfl, _, ⟨hc', hall⟩, by simp⟩
  · have hh : t.hole_head ≠ some hp := by
      intro e
      replace hhead : (c ++ [y] ++ hp :: b).head? = t.hole_head := hhead
      rw [e] at hhead
      refine hnab (List.mem_append_left _ (List.mem_of_head? ?_))
      simpa using hhead
    have hl' : ls .holes = c ++ y :: hp :: b := by simp [hl]
    have hc := h.chains.unlink hl'
    rw [List.append_cons c y b] at hc
    have hc' := hc.push_front (q := .free) hout
    have hhy : hp ≠ y := fun e => hnab (by simp [e])
    have hlink : Function.update (Function.update t.h_next y (t.h_next hp)) hp t.free_slots =
        Function.update (Function.update t.h_next y (t.h_next hp)) hp (heads t .free) := rfl
    simp only [hh, if_false, hprev c y rfl, Option.bind_eq_bind, Option.bind_some]
    refine ⟨_, rfl, rfl, rfl, _, ⟨?_, hall⟩, by simp⟩
    show Chains _ (heads { t with free_slots := some hp }) _
    rw [heads_free]
    exact hc'

/-- An unused slot, out of its list. -/
theorem Lists.pop_free (h : Lists t ls) (hf : ls .free = x :: l) :
    Chains t.h_next (heads { t with free_slots := t.h_next x }) (Function.update ls .free l) ∧
      (∀ q, x ∉ Function.update ls .free l q) ∧
      ∀ y, y = x ∨ ∃ q, y ∈ Function.update ls .free l q := by
  have hc := h.chains.pop hf
  have hnd := h.chains.nodup (q := .free)
  rw [hf, List.nodup_cons] at hnd
  rw [heads_free]
  refine ⟨hc, fun q => ?_, fun y => ?_⟩
  · cases q with
    | holes => simpa using fun hx => h.notMem_free hx (by simp [hf])
    | free => simpa using hnd.1
  · obtain ⟨q, hq⟩ := h.all y
    cases q with
    | holes => exact Or.inr ⟨.holes, by simpa using hq⟩
    | free =>
      rw [hf] at hq
      rcases List.mem_cons.mp hq with rfl | hq
      · exact Or.inl rfl
      · exact Or.inr ⟨.free, by simpa using hq⟩

/-- Putting an unused slot in front of the holes. -/
theorem Lists.push_hole (h : Lists t ls) (hf : ls .free = x :: l) :
    ∃ ls', Lists { t with
      free_slots := t.h_next x
      h_next := Function.update t.h_next x t.hole_head
      hole_head := some x } ls' ∧ ls' .holes = x :: ls .holes := by
  obtain ⟨hc, hout, hall⟩ := h.pop_free hf
  have hc' := hc.push_front (q := .holes) hout
  rw [← heads_holes] at hc'
  refine ⟨_, ⟨hc', fun y => ?_⟩, by simp⟩
  rcases hall y with rfl | ⟨q, hq⟩
  · exact ⟨.holes, by simp⟩
  · cases q with
    | holes =>
      refine ⟨.holes, ?_⟩
      rw [Function.update_self]
      exact List.mem_cons_of_mem _ hq
    | free => exact ⟨.free, by simpa using hq⟩

/-- Putting an unused slot behind a hole. -/
theorem Lists.insert_hole (h : Lists t ls) (hf : ls .free = x :: l) (hl : ls .holes = a ++ y :: b) :
    ∃ ls', Lists { t with
      free_slots := t.h_next x
      h_next := Function.update (Function.update t.h_next x (t.h_next y)) y (some x) } ls' ∧
      ls' .holes = a ++ y :: x :: b := by
  obtain ⟨hc, hout, hall⟩ := h.pop_free hf
  have hl' : Function.update ls .free l .holes = a ++ y :: b := by simpa using hl
  have hc' := hc.insert hout hl'
  refine ⟨_, ⟨hc', fun z => ?_⟩, by simp⟩
  rcases hall z with rfl | ⟨q, hq⟩
  · exact ⟨.holes, by simp⟩
  · cases q with
    | holes =>
      rw [hl'] at hq
      refine ⟨.holes, ?_⟩
      rw [Function.update_self]
      rcases List.mem_append.mp hq with hq | hq
      · simp [hq]
      · rcases List.mem_cons.mp hq with rfl | hq
        · simp
        · simp [hq]
    | free => exact ⟨.free, by simpa using hq⟩

/-! ## The spans of the holes -/

/-- Physical memory ends before this click. -/
abbrev memEnd : ℕ := 2 ^ 16 - 1

/-- The spans end where memory does. -/
def Within (H : List Span) : Prop := ∀ x ∈ H, x.1 + x.2 ≤ memEnd

variable {H H' A B : List Span} {u v w : Span}

/-- A hole ends where memory does. -/
theorem Within.slot (h : Within (spans t l)) (hx : x ∈ l) : t.h_base x + t.h_len x ≤ memEnd :=
  h (span t x) (List.mem_map_of_mem hx)

/-- Setting one entry changes no span of the others. -/
theorem spans_enter (hx : x ∉ l) (hb : t'.h_base = Function.update t.h_base x base)
    (hn : t'.h_len = Function.update t.h_len x clicks) : spans t' l = spans t l := by
  refine spans_congr fun y hy => ?_
  have hne : y ≠ x := fun e => hx (e ▸ hy)
  rw [hb, hn, Function.update_of_ne hne, Function.update_of_ne hne]
  exact ⟨rfl, rfl⟩

/-- The spans of the holes around an entry that is set. -/
theorem spans_update (hnd : (a ++ x :: b).Nodup) (hb : t'.h_base = Function.update t.h_base x base)
    (hn : t'.h_len = Function.update t.h_len x clicks) :
    spans t' a = spans t a ∧ span t' x = (base, clicks) ∧ spans t' b = spans t b := by
  rw [List.nodup_middle, List.nodup_cons] at hnd
  refine ⟨spans_enter (fun hx => hnd.1 (by simp [hx])) hb hn, ?_,
    spans_enter (fun hx => hnd.1 (by simp [hx])) hb hn⟩
  unfold span
  rw [hb, hn, Function.update_self, Function.update_self]

/-- A hole that absorbs its successor has the memory of both. -/
theorem absorb_spec (h : Lists t ls) (hl : ls .holes = a ++ hp :: next_ptr :: b)
    (hn : t.h_len hp + t.h_len next_ptr ≤ memEnd) :
    ∃ t' ls', absorb t hp next_ptr = some t' ∧ Lists t' ls' ∧ ls' .holes = a ++ hp :: b ∧
      spans t' a = spans t a ∧
      span t' hp = (t.h_base hp, t.h_len hp + t.h_len next_ptr) ∧ spans t' b = spans t b := by
  have h₀ : Lists { t with
      h_len := Function.update t.h_len hp (clicks16 (t.h_len hp + t.h_len next_ptr)) } ls :=
    ⟨h.chains, h.all⟩
  have hl' : ls .holes = (a ++ [hp]) ++ next_ptr :: b := by simp [hl]
  have hprev : ∀ c y, a ++ [hp] = c ++ [y] → some hp = some y := by
    intro c y e
    rw [(List.append_inj' e rfl).2 |> List.singleton_injective]
  obtain ⟨t', ht', hb, hlen, ls', hls', hh⟩ := delSlot_spec h₀ hl' hprev
  have hh' : ls' .holes = a ++ hp :: b := by simp [hh]
  have hnd := hls'.chains.nodup (q := .holes)
  rw [hh'] at hnd
  have hb' : t'.h_base = Function.update t.h_base hp (t.h_base hp) := by
    rw [hb, Function.update_eq_self]
  refine ⟨t', ls', ht', hls', hh', spans_update hnd hb' (hlen.trans ?_)⟩
  unfold clicks16
  rw [Nat.mod_eq_of_lt (Nat.lt_of_le_of_lt hn (by decide))]

/-- Spans that are not empty, and cover no more than spans that end where memory does. -/
theorem Within.of_cover (hH : Within H) (h : Separated H') (hc : ∀ c, cover H' c ≤ cover H c) :
    Within H' := by
  intro x hx
  -- The last cell of a span is one of the others'.
  have hpos := h.pos x hx
  have hlast : 0 < cover H' (x.1 + x.2 - 1) :=
    cover_pos_iff.mpr ⟨x, hx, Span.has_iff.mpr ⟨by omega, by omega⟩⟩
  obtain ⟨y, hy, hyc⟩ := cover_pos_iff.mp (Nat.lt_of_lt_of_le hlast (hc _))
  have hyN := hH y hy
  have := (Span.has_iff.mp hyc).2
  omega

/-- A hole in two parts, one behind the other. -/
theorem cover_join (c : ℕ) (hv : v.1 = u.1 + u.2) :
    cover (A ++ (u.1, u.2 + v.2) :: B) c = cover (A ++ u :: v :: B) c := by
  obtain ⟨u₁, u₂⟩ := u
  obtain ⟨v₁, v₂⟩ := v
  have hsplit := cover_split (n := u₁) (m := u₂) (N := v₂) (c := c)
  rw [show u₁ + u₂ = v₁ from hv.symm] at hsplit
  simp only [cover_append, cover_cons, cover_nil] at hsplit ⊢
  omega

/-- `abuts` compares the end of a hole with the beginning of another. -/
theorem abuts_iff (h : t.h_base hp + t.h_len hp ≤ memEnd) :
    abuts t hp next_ptr = true ↔ t.h_base hp + t.h_len hp = t.h_base next_ptr := by
  unfold abuts clicks16
  rw [beq_iff_eq, Nat.mod_eq_of_lt (Nat.lt_of_le_of_lt h (by decide))]

/-- What a function that rearranges the holes returns: a table whose holes are in order, and have
the same memory. -/
def Rearranged (H : List Span) (r : Option HoleTable) : Prop :=
  ∃ t' ls', r = some t' ∧ Lists t' ls' ∧ Separated (spans t' (ls' .holes)) ∧
    ∀ c, cover (spans t' (ls' .holes)) c = cover H c

/-- A table whose holes are in order already. -/
theorem Rearranged.refl (h : Lists t ls) (hs : Separated (spans t (ls .holes))) :
    Rearranged (spans t (ls .holes)) (some t) := ⟨t, ls, rfl, h, hs, fun _ => rfl⟩

/-- The last check of `merge` closes the place where a hole may touch the next one. -/
theorem mergeNext_spec (h : Lists t ls) (hl : ls .holes = a ++ hp :: b)
    (ha : Separated (spans t a ++ [span t hp])) (hb : Separated (spans t b))
    (hgap : ∀ y ∈ (spans t b).head?, t.h_base hp + t.h_len hp ≤ y.1)
    (hN : Within (spans t (ls .holes))) :
    Rearranged (spans t (ls .holes)) (mergeNext t hp) := by
  have hchain := h.chains.chain .holes
  have hsp : spans t (ls .holes) = spans t a ++ span t hp :: spans t b := by
    rw [hl, spans_append]
  rw [hl] at hchain
  unfold mergeNext
  cases b with
  | nil =>
    have hnext := hchain.suffix
    rw [chain_nil] at hnext
    rw [hnext]
    refine Rearranged.refl h ?_
    rw [hsp]
    exact ha
  | cons next_ptr b =>
    have hhp : t.h_base hp + t.h_len hp ≤ memEnd := hN.slot (by simp [hl])
    have hnx : t.h_base next_ptr + t.h_len next_ptr ≤ memEnd :=
      hN.slot (by simp [hl])
    have hle : t.h_base hp + t.h_len hp ≤ t.h_base next_ptr := hgap _ rfl
    rw [hchain.suffix.1]
    dsimp only
    by_cases hab : abuts t hp next_ptr = true
    · have heq := (abuts_iff hhp).mp hab
      obtain ⟨t', ls', ht', hls', hh, ha', hp', hb'⟩ := absorb_spec h hl (by omega)
      rw [if_pos hab]
      refine ⟨t', ls', ht', hls', ?_, fun c => ?_⟩
      · rw [hh, spans_append, ha', hp', hb']
        have hpos := ha.pos (span t hp) (by simp)
        refine Separated.glue (ha.resize rfl (Nat.add_pos_left hpos _))
          (Separated.after (a := []) hb) fun y hy => ?_
        have := Separated.gap (a := []) hb y hy
        unfold span at this
        show t.h_base hp + (t.h_len hp + t.h_len next_ptr) < y.1
        omega
      · rw [hh, hsp, spans_append, ha', hp', hb']
        exact cover_join (u := span t hp) (v := span t next_ptr) c heq.symm
    · have hne : t.h_base hp + t.h_len hp ≠ t.h_base next_ptr := fun e =>
        hab ((abuts_iff hhp).mpr e)
      rw [if_neg hab]
      refine Rearranged.refl h ?_
      rw [hsp]
      refine ha.glue hb fun y hy => ?_
      obtain rfl : span t next_ptr = y := by simpa [spans] using hy
      exact lt_of_le_of_ne hle hne

/-- `merge` closes the place where a hole may touch the next one, and that one the one after it. -/
theorem merge_spec (h : Lists t ls) (hl : ls .holes = a ++ hp :: b)
    (ha : Separated (spans t a ++ [span t hp]))
    (hb : ∀ next_ptr c, b = next_ptr :: c → 0 < t.h_len next_ptr ∧
      t.h_base hp + t.h_len hp ≤ t.h_base next_ptr ∧ Separated (spans t c) ∧
      ∀ y ∈ (spans t c).head?, t.h_base next_ptr + t.h_len next_ptr ≤ y.1)
    (hN : Within (spans t (ls .holes))) :
    Rearranged (spans t (ls .holes)) (merge t hp) := by
  have hchain := h.chains.chain .holes
  have hsp : spans t (ls .holes) = spans t a ++ span t hp :: spans t b := by
    rw [hl, spans_append]
  rw [hl] at hchain
  unfold merge
  cases b with
  | nil =>
    have hnext := hchain.suffix
    rw [chain_nil] at hnext
    rw [hnext]
    refine Rearranged.refl h ?_
    rw [hsp]
    exact ha
  | cons next_ptr b =>
    obtain ⟨hpos, hle, hc, hgap⟩ := hb next_ptr b rfl
    have hhp : t.h_base hp + t.h_len hp ≤ memEnd := hN.slot (by simp [hl])
    have hnx : t.h_base next_ptr + t.h_len next_ptr ≤ memEnd :=
      hN.slot (by simp [hl])
    rw [hchain.suffix.1]
    dsimp only
    by_cases hab : abuts t hp next_ptr = true
    · -- The two are one hole now, which may touch the next.
      have heq := (abuts_iff hhp).mp hab
      obtain ⟨t', ls', ht', hls', hh, ha', hp', hb'⟩ := absorb_spec h hl (by omega)
      have hsp' : spans t' (ls' .holes) = spans t a ++
          (t.h_base hp, t.h_len hp + t.h_len next_ptr) :: spans t b := by
        rw [hh, spans_append, ha', hp', hb']
      have hcov : ∀ c, cover (spans t' (ls' .holes)) c = cover (spans t (ls .holes)) c := by
        intro c
        rw [hsp', hsp]
        exact cover_join (u := span t hp) (v := span t next_ptr) c heq.symm
      have hN' : Within (spans t' (ls' .holes)) := by
        intro x hx
        rw [hsp'] at hx
        rcases List.mem_append.mp hx with hx | hx
        · exact hN x (by simp [hsp, hx])
        · rcases List.mem_cons.mp hx with rfl | hx
          · show t.h_base hp + (t.h_len hp + t.h_len next_ptr) ≤ memEnd
            omega
          · refine hN x ?_
            rw [hsp]
            simp [spans] at hx ⊢
            tauto
      have hbase : t'.h_base hp = t.h_base hp := congrArg Prod.fst hp'
      have hlen : t'.h_len hp = t.h_len hp + t.h_len next_ptr := congrArg Prod.snd hp'
      obtain ⟨t'', ls'', ht'', hls'', hs, hcov'⟩ := mergeNext_spec hls' hh
        (by rw [ha', hp']; exact ha.resize rfl (Nat.add_pos_right _ hpos))
        (by rw [hb']; exact hc)
        (by rw [hb', hbase, hlen]; intro y hy; have := hgap y hy; omega) hN'
      rw [if_pos hab, ht']
      exact ⟨t'', ls'', ht'', hls'', hs, fun c => (hcov' c).trans (hcov c)⟩
    · have hne : t.h_base hp + t.h_len hp ≠ t.h_base next_ptr := fun e =>
        hab ((abuts_iff hhp).mpr e)
      have hlt := lt_of_le_of_ne hle hne
      have hone : Separated [span t next_ptr] := ⟨by simpa [span] using hpos, List.pairwise_singleton ..⟩
      have ha' : Separated (spans t (a ++ [hp]) ++ [span t next_ptr]) := by
        rw [spans_append, List.append_assoc]
        refine ha.glue hone fun y hy => ?_
        obtain rfl : span t next_ptr = y := by simpa [spans] using hy
        exact hlt
      rw [if_neg hab]
      exact mergeNext_spec h (a := a ++ [hp]) (by rw [hl]; simp) ha' hc hgap hN

/-! ## Returning a block -/

/-- A block between the holes `a` and `b`, which it does not meet, is put between them. -/
theorem enter_spec (h : Lists t ls) (hl : ls .holes = a ++ x :: b) (hx : span t x = (base, clicks))
    (hs : Separated (spans t a ++ spans t b)) (hpos : 0 < clicks) (hN : Within (spans t (ls .holes)))
    (ha : ∀ y ∈ spans t a, y.1 + y.2 ≤ base) (hb : ∀ y ∈ spans t b, base + clicks ≤ y.1) :
    (a = [] → Rearranged (spans t (ls .holes)) (merge t x)) ∧
    ∀ c y, a = c ++ [y] → Rearranged (spans t (ls .holes)) (merge t y) := by
  have hbase : t.h_base x = base := congrArg Prod.fst hx
  have hlen : t.h_len x = clicks := congrArg Prod.snd hx
  constructor
  · rintro rfl
    refine merge_spec h hl ⟨by simpa [spans, hx] using hpos, List.pairwise_singleton ..⟩ ?_ hN
    rintro y c rfl
    have hy : Separated (span t y :: spans t c) := hs
    exact ⟨hy.pos (span t y) (by simp), by
      rw [hbase, hlen]; exact hb (span t y) (by simp [spans]), Separated.after (a := []) hy,
      fun z hz => (Separated.gap (a := []) hy z hz).le⟩
  · rintro c y rfl
    have hsc : Separated (spans t c ++ span t y :: spans t b) := by
      simpa [spans] using hs
    refine merge_spec h (a := c) (by simpa using hl) hsc.upTo ?_ hN
    intro z d e
    obtain ⟨rfl, rfl⟩ := List.cons.inj e
    refine ⟨hlen ▸ hpos, ?_, hsc.after, fun w hw => ?_⟩
    · rw [hbase]
      exact ha (span t y) (by simp [spans])
    · rw [hbase, hlen]
      exact hb w (List.mem_of_mem_head? hw)

/-- What becomes of the lists when an unused slot is entered among the holes. -/
theorem freeMem_cases (h : Lists t ls) (hf : ls .free = x :: l) (base clicks : ℕ) :
    ∃ a b t' ls', ls .holes = a ++ b ∧ (∀ y ∈ a, t.h_base y < base) ∧
      (∀ y ∈ b.head?, base ≤ t.h_base y) ∧ Lists t' ls' ∧ ls' .holes = a ++ x :: b ∧
      t'.h_base = Function.update t.h_base x base ∧
      t'.h_len = Function.update t.h_len x clicks ∧
      (a = [] → freeMem t base clicks = merge t' x) ∧
      ∀ c y, a = c ++ [y] → freeMem t base clicks = merge t' y := by
  have hfree : t.free_slots = some x := by
    have := h.chains.head?_eq (q := .free)
    rw [hf] at this
    exact this.symm
  have hhead : (ls .holes).head? = t.hole_head := h.chains.head?_eq (q := .holes)
  -- The loop reads the bases with that of the new entry set, which is not among the holes.
  have hbase : ∀ y ∈ ls .holes, Function.update t.h_base x base y = t.h_base y := fun y hy =>
    Function.update_of_ne (fun e => h.notMem_free hy (by simp [hf, e])) ..
  obtain ⟨a, b, hab, ha, hb, hscan⟩ := scan_split
    (fun hp => decide (base ≤ Function.update t.h_base x base hp)) (h.chains.chain .holes)
    (h.length_lt .holes)
  have ha' : ∀ y ∈ a, t.h_base y < base := by
    intro y hy
    have := ha y hy
    rw [decide_eq_false_iff_not, hbase y (by simp [hab, hy])] at this
    omega
  have hb' : ∀ y ∈ b.head?, base ≤ t.h_base y := by
    intro y hy
    have := hb y hy
    rw [decide_eq_true_iff, hbase y (by simp [hab, List.mem_of_mem_head? hy])] at this
    exact this
  rcases List.eq_nil_or_concat' a with rfl | ⟨c, y, rfl⟩
  · obtain ⟨ls', hls', hl'⟩ := h.push_hole hf
    have hls'' : Lists { t with
        h_base := Function.update t.h_base x base
        h_len := Function.update t.h_len x clicks
        free_slots := t.h_next x
        h_next := Function.update t.h_next x t.hole_head
        hole_head := some x } ls' := ⟨hls'.chains, hls'.all⟩
    refine ⟨[], b, _, ls', hab, ha', hb', hls'', by rw [hl', hab]; rfl, rfl, rfl, fun _ => ?_,
      fun c y e => by simp at e⟩
    unfold freeMem
    rw [hab] at hhead
    rw [hfree]
    cases b with
    | nil =>
      have hh : t.hole_head = none := hhead.symm
      simp [hh]
    | cons z b =>
      have hh : t.hole_head = some z := hhead.symm
      have hz := hb z rfl
      rw [decide_eq_true_iff] at hz
      simp [hh, hz]
  · have hl : ls .holes = c ++ y :: b := by simp [hab]
    obtain ⟨ls', hls', hl'⟩ := h.insert_hole hf hl
    have hls'' : Lists { t with
        h_base := Function.update t.h_base x base
        h_len := Function.update t.h_len x clicks
        free_slots := t.h_next x
        h_next := Function.update (Function.update t.h_next x (t.h_next y)) y (some x) } ls' :=
      ⟨hls'.chains, hls'.all⟩
    refine ⟨c ++ [y], b, _, ls', hab, ha', hb', hls'', by rw [hl']; simp, rfl, rfl,
      fun e => by simp at e, fun c' y' e => ?_⟩
    obtain rfl : y = y' := by simpa using (List.append_inj' e rfl).2
    -- The first hole is one of those that begin before the block.
    have hfirst : ∃ z ∈ c ++ [y], t.hole_head = some z := by
      rw [hab] at hhead
      cases c with
      | nil => exact ⟨y, by simp, hhead.symm⟩
      | cons w c => exact ⟨w, by simp, hhead.symm⟩
    obtain ⟨z, hz, hh⟩ := hfirst
    have hzf := ha z hz
    rw [decide_eq_false_iff_not] at hzf
    unfold freeMem
    rw [hfree]
    simp only [hh, hzf, decide_false, Bool.false_eq_true, if_false]
    rw [show heads t .holes = some z from hh, List.getLast?_concat] at hscan
    rw [hscan]
    rfl

/-- A block that is disjoint from the holes is returned to them. -/
theorem freeMem_spec (h : Lists t ls) (hs : Separated (spans t (ls .holes)))
    (hN : Within (spans t (ls .holes))) (hfree : ls .free ≠ []) (hpos : 0 < clicks)
    (hend : base + clicks ≤ memEnd)
    (hc : ∀ c, cover (spans t (ls .holes)) c + cover [(base, clicks)] c ≤ 1) :
    Rearranged ((base, clicks) :: spans t (ls .holes)) (freeMem t base clicks) := by
  obtain ⟨x, l, hf⟩ := List.exists_cons_of_ne_nil hfree
  obtain ⟨a, b, t', ls', hab, ha, hb, hls', hl', hbase, hlen, hfront, hback⟩ :=
    freeMem_cases h hf base clicks
  have hnd := hls'.chains.nodup (q := .holes)
  rw [hl'] at hnd
  obtain ⟨hsa, hsx, hsb⟩ := spans_update hnd hbase hlen
  have hold : spans t (ls .holes) = spans t a ++ spans t b := by simp [hab, spans]
  have hnew : spans t' (ls' .holes) = spans t a ++ (base, clicks) :: spans t b := by
    rw [hl', spans_append, hsa, hsb, hsx]
  have hcov : ∀ c, cover (spans t' (ls' .holes)) c =
      cover ((base, clicks) :: spans t (ls .holes)) c := by
    intro c
    rw [hnew, hold]
    simp only [cover_append, cover_cons]
    omega
  rw [hold] at hs hc
  have hN' : Within (spans t' (ls' .holes)) := by
    intro y hy
    rw [hnew, List.mem_append, List.mem_cons, or_left_comm, ← List.mem_append, ← hold] at hy
    rcases hy with rfl | hy
    · exact hend
    · exact hN y hy
  -- The holes before the block end before it, and those after it begin after it.
  have hbefore : ∀ y ∈ spans t' a, y.1 + y.2 ≤ base := by
    intro y hy
    rw [hsa] at hy
    obtain ⟨z, hz, rfl⟩ := List.mem_map.mp hy
    have hlt : (span t z).1 < base := ha z hz
    have := apart_of_cover hc (List.mem_append_left _ hy)
      (hs.pos _ (List.mem_append_left _ hy)) hpos
    dsimp only at this
    omega
  have hafter : ∀ y ∈ spans t' b, base + clicks ≤ y.1 := by
    intro y hy
    rw [hsb] at hy
    have hle : base ≤ y.1 := by
      refine hs.right.head_le (fun z hz => ?_) y hy
      cases b with
      | nil => simp [spans] at hz
      | cons w b =>
        obtain rfl : span t w = z := by simpa [spans] using hz
        exact hb w rfl
    have hyp := hs.pos _ (List.mem_append_right _ hy)
    have := apart_of_cover hc (List.mem_append_right _ hy) hyp hpos
    dsimp only at this
    omega
  have hmerge := enter_spec hls' hl' hsx (by rw [hsa, hsb]; exact hs) hpos hN' hbefore hafter
  have hre : Rearranged (spans t' (ls' .holes)) (freeMem t base clicks) := by
    rcases List.eq_nil_or_concat' a with rfl | ⟨c, y, rfl⟩
    · rw [hfront rfl]
      exact hmerge.1 rfl
    · rw [hback c y rfl]
      exact hmerge.2 c y rfl
  obtain ⟨t'', ls'', h₁, h₂, h₃, h₄⟩ := hre
  exact ⟨t'', ls'', h₁, h₂, h₃, fun c => (h₄ c).trans (hcov c)⟩

end Minix.Mm
