import Minix.Ansi.Realloc
import Minix.Lib.Run

/-!
# Runs of a program that uses its heap

A program calls the functions of `lib/ansi/malloc.c` and writes into what it has got. `HeapOk` says
what the heap is in between, and `CallOk` what a call does: `heap_safe` proves both of every run of
calls that are `Careful`. Two kinds of calls are not (`heap_broken`): `realloc` that makes a slot
with no room in it, so that the link behind it is lost when the slot is freed, and `calloc` of a
product that is not an unsigned number.
-/

namespace Minix.Ansi

open Lib

/-- What a program has got, with the number of bytes that it asked for. -/
structure Block where
  ptr : ℕ
  size : ℕ
deriving DecidableEq

/-- A program with its heap. -/
structure Program where
  heap : Heap
  live : List Block

/-- What a program does. -/
inductive Act
  | malloc (size : ℕ)
  | calloc (n size : ℕ)
  | realloc (old size : ℕ)
  | free (p : ℕ)
  | store (p i : ℕ) (v : UInt8)

/-- A program has nothing at first. -/
structure Program.Init (s : Program) : Prop where
  fresh : Fresh s.heap
  none : s.live = []

/-- The sizes are unsigned numbers, and the pointers those that the program has got. -/
def Program.Valid (s : Program) : Act → Prop
  | .malloc size => size < 2 ^ 16
  | .calloc n size => n < 2 ^ 16 ∧ size < 2 ^ 16
  | .realloc old size => size < 2 ^ 16 ∧ ∃ b ∈ s.live, b.ptr = old
  | .free p => ∃ b ∈ s.live, b.ptr = p
  | .store p i _ => ∃ b ∈ s.live, b.ptr = p ∧ i < b.size

/-- What a call returns, with the heap afterwards. -/
def Program.call (s : Program) : Act → Option (Option ℕ × Heap)
  | .malloc size => Ansi.malloc s.heap size
  | .calloc n size => Ansi.calloc s.heap n size
  | .realloc old size => Ansi.realloc s.heap old size
  | .free p => (Ansi.free s.heap p).map fun h => (none, h)
  | .store p i v => some (none, { s.heap with mem := Function.update s.heap.mem (p + i) v })

/-- The other blocks. -/
def Program.others (s : Program) (p : ℕ) : List Block := s.live.filter fun b => b.ptr ≠ p

/-- What a program has got after a call. -/
def Program.keeps (s : Program) (r : Option ℕ) : Act → List Block
  | .malloc size => r.elim s.live fun p => ⟨p, size⟩ :: s.live
  | .calloc n size => r.elim s.live fun p => ⟨p, n * size⟩ :: s.live
  | .realloc old size => r.elim s.live fun p => ⟨p, size⟩ :: s.others old
  | .free p => s.others p
  | .store _ _ _ => s.live

/-- A program makes a call that is valid, which returns. -/
structure HeapStep (s : Program) (a : Act) (s' : Program) : Prop where
  valid : s.Valid a
  call : ∃ r h, s.call a = some (r, h) ∧ s' = ⟨h, s.keeps r a⟩

/-- Bytes are asked for, and not more than an unsigned number of them: `realloc` of no bytes finds a
slot that it need not cut, with the next one live or the last one behind it, and the product of
`calloc` does not overflow. -/
def Program.Careful (s : Program) : Act → Prop
  | .realloc old size => size ≠ 0 ∨ s.heap.nextSlot old = some (old + 8) ∧
      (s.heap._top = some (old + 8) ∨ ∃ b ∈ s.live, b.ptr = old + 8)
  | .calloc n size => n * size < 2 ^ 16
  | _ => True

structure CarefulStep (s : Program) (a : Act) (s' : Program) : Prop extends HeapStep s a s' where
  careful : s.Careful a

/-! ## What holds of the heap -/

/-- Number of bytes from a slot to the next one. -/
def Heap.slotSize (h : Heap) (p : ℕ) : ℕ := ofPtr (h.nextSlot p) - p

/-- A block has no byte in this range. -/
def Block.Off (b : Block) (lo hi : ℕ) : Prop := b.ptr + b.size ≤ lo ∨ hi ≤ b.ptr

/-- The slots of the heap of a program, from the first one to the last one. -/
structure Arranged (s : Program) (slots fr : List ℕ) (top : ℕ) : Prop where
  chain : Chain s.heap.nextSlot s.heap._bottom (slots ++ [top]) none
  last : s.heap._top = some top
  granted : top ≤ s.heap.brksize
  increasing : (slots ++ [top]).Pairwise (· < ·)
  frees : Chain s.heap.nextFree s.heap._empty fr none
  /-- Every slot is either live or on the free list, once. -/
  once : slots.Perm (fr ++ s.live.map Block.ptr)
  /-- Every byte from the first slot to the last one is of a slot. -/
  whole : (slots.map s.heap.slotSize).sum + ofPtr s.heap._bottom = top
  room : ∀ b ∈ s.live, ∃ e ∈ s.heap.nextSlot b.ptr, b.ptr + b.size + PTRSIZE ≤ e
  disjoint : s.live.Pairwise fun b c => b.Off c.ptr (c.ptr + c.size)
  offSlotLinks : ∀ b ∈ s.live, ∀ p ∈ slots ++ [top], b.Off (p - PTRSIZE) p
  offFreeLinks : ∀ b ∈ s.live, ∀ p ∈ fr, b.Off p (p + PTRSIZE)

/-- The heap has not been used, or its slots are as they should be. -/
def HeapOk (s : Program) : Prop :=
  Fresh s.heap ∧ s.live = [] ∨ ∃ slots fr top, Arranged s slots fr top

/-- What a block holds is kept. -/
def Block.Same (b : Block) (h h' : Heap) : Prop := ∀ k < b.size, h'.mem (b.ptr + k) = h.mem (b.ptr + k)

/-- What a call does to what the blocks hold. -/
def Program.CallOk (s : Program) (r : Option ℕ) (h : Heap) : Act → Prop
  | .malloc _ => ∀ b ∈ s.live, b.Same s.heap h
  | .calloc n size => (∀ b ∈ s.live, b.Same s.heap h) ∧ ∀ p ∈ r, ∀ k < n * size, h.mem (p + k) = 0
  | .realloc old size => (∀ b ∈ s.live, b.ptr ≠ old ∨ r = none → b.Same s.heap h) ∧
      ∀ p ∈ r, ∀ b ∈ s.live, b.ptr = old → ∀ k < min b.size size,
        h.mem (p + k) = s.heap.mem (old + k)
  | .free p => ∀ b ∈ s.live, b.ptr ≠ p → b.Same s.heap h
  | .store p i v => h.mem (p + i) = v ∧ ∀ b ∈ s.live, b.ptr ≠ p → b.Same s.heap h

/-- The room of the blocks, over slots that are laid out. -/
structure HeapInv (s : Program) : Prop where
  held : Held s.heap (s.live.map Block.ptr)
  room : ∀ b ∈ s.live, ∃ e ∈ s.heap.nextSlot b.ptr, b.ptr + b.size + 4 ≤ e

section HeapInv

variable {s : Program} {slots fr : List ℕ} {top p : ℕ} {h : Heap}

/-- The slots lie between the first one and the last one without gaps. -/
theorem Layout.whole {live : List ℕ} (hl : Layout h slots fr live top) :
    (slots.map h.slotSize).sum + ofPtr h._bottom = top := by
  have hall : ∀ l r, Chain h.nextSlot r (l ++ [top]) none → (∀ p ∈ l, p ∈ slots) →
      (l.map h.slotSize).sum + ofPtr r = top := by
    intro l
    induction l with
    | nil =>
      intro r hc _
      rw [hc.1]
      exact Nat.zero_add top
    | cons p l ih =>
      intro r hc hmem
      have hp := hmem p (by simp)
      obtain ⟨u, v, e, -, he⟩ := hl.exists_end hp
      have hlen := (hl.end_le hp he).1
      have hrest := ih (h.nextSlot p) hc.2 fun q hq => hmem q (by simp [hq])
      rw [List.map_cons, List.sum_cons, hc.1]
      rw [he] at hrest
      unfold Heap.slotSize
      rw [he]
      have hofe : ofPtr (some e) = e := rfl
      have hofp : ofPtr (some p) = p := rfl
      unfold Heap.slotSize at hrest
      rw [hofe] at hrest ⊢
      rw [hofp]
      omega
  exact hall slots h._bottom hl.chain fun p hp => hp

/-- The links are in front of the blocks and behind them. -/
theorem HeapInv.off (hi : HeapInv s) (hl : Layout s.heap slots fr (s.live.map Block.ptr) top)
    {b : Block} (hb : b ∈ s.live) (hp : p ∈ slots ++ [top]) (hne : p ≠ b.ptr) :
    p + 8 ≤ b.ptr ∨ b.ptr + b.size + 4 ≤ p := by
  obtain ⟨e, he, hroom⟩ := hi.room b hb
  have hbs : b.ptr ∈ slots := hl.mem_of_live (List.mem_map_of_mem hb)
  have := hl.apart hbs he hp hne
  omega

/-- What the invariant says of the heap. -/
theorem HeapInv.ok (hi : HeapInv s) : HeapOk s := by
  rcases hi.held with ⟨hf, hnil⟩ | ⟨slots, fr, top, hl, ht, hbrk⟩
  · exact Or.inl ⟨hf, List.map_eq_nil_iff.mp hnil⟩
  · have hnd := (List.nodup_append.mp hl.nodup)
    have hmem : ∀ b ∈ s.live, b.ptr ∈ slots := fun b hb =>
      hl.mem_of_live (List.mem_map_of_mem hb)
    refine Or.inr ⟨slots, fr, top, hl.chain, ht, hbrk, ?_, hl.frees, hl.once, hl.whole, hi.room,
      ?_, ?_, ?_⟩
    · exact hl.gap.imp fun hpq => by omega
    · have hptr : s.live.Pairwise fun b c => b.ptr ≠ c.ptr := List.pairwise_map.mp hnd.2.1
      refine hptr.imp_of_mem fun {b c} hb hc hbc => ?_
      have hboff := hi.off hl hb (List.mem_append_left _ (hmem c hc)) hbc.symm
      have hcoff := hi.off hl hc (List.mem_append_left _ (hmem b hb)) hbc
      unfold Block.Off
      omega
    · intro b hb p hp
      unfold Block.Off PTRSIZE
      by_cases hpb : p = b.ptr
      · omega
      · have := hi.off hl hb hp hpb
        omega
    · intro b hb p hp
      have hpb : p ≠ b.ptr := hnd.2.2 p hp b.ptr (List.mem_map_of_mem hb)
      have := hi.off hl hb (List.mem_append_left _ (hl.mem_of_free hp)) hpb
      unfold Block.Off PTRSIZE
      omega

/-! ## What a call does -/

theorem HeapInv.same (hi : HeapInv s) {b : Block} (hb : b ∈ s.live) (hk : Kept s.heap h b.ptr) :
    b.Same s.heap h := by
  obtain ⟨e, he, hroom⟩ := hi.room b hb
  exact fun k hk' => hk.data e he (b.ptr + k) (by omega) (by omega)

/-- The blocks that are kept have the room that they had. -/
theorem HeapInv.room_kept (hi : HeapInv s) {b : Block} (hb : b ∈ s.live)
    (hk : Kept s.heap h b.ptr) : ∃ e ∈ h.nextSlot b.ptr, b.ptr + b.size + 4 ≤ e := by
  rw [hk.slot]
  exact hi.room b hb

theorem HeapInv.allocated {r : Option ℕ} {size : ℕ} (hi : HeapInv s)
    (ha : Allocated s.heap h (s.live.map Block.ptr) r size) :
    (∀ b ∈ s.live, b.Same s.heap h) ∧
      HeapInv ⟨h, r.elim s.live fun p => ⟨p, size⟩ :: s.live⟩ := by
  have hkept : ∀ b ∈ s.live, Kept s.heap h b.ptr := fun b hb =>
    ha.kept b.ptr (List.mem_map_of_mem hb)
  refine ⟨fun b hb => hi.same hb (hkept b hb), ?_⟩
  cases r with
  | none => exact ⟨ha.refused rfl, fun b hb => hi.room_kept hb (hkept b hb)⟩
  | some p =>
    obtain ⟨hlaid, e, he, hroom⟩ := ha.given p rfl
    refine ⟨Or.inr hlaid, fun b hb => ?_⟩
    rcases List.mem_cons.mp hb with rfl | hb
    · exact ⟨e, he, hroom⟩
    · exact hi.room_kept hb (hkept b hb)

/-- The pointers of the blocks are distinct. -/
theorem HeapInv.nodup (hi : HeapInv s) : (s.live.map Block.ptr).Nodup := by
  rcases hi.held with ⟨-, hnil⟩ | ⟨slots, fr, top, hl, -, -⟩
  · rw [hnil]
    exact List.nodup_nil
  · exact (List.nodup_append.mp hl.nodup).2.1

/-- The pointers of the blocks are that of one of them and those of the others. -/
theorem HeapInv.perm_others (hi : HeapInv s) {b : Block} (hb : b ∈ s.live) :
    (s.live.map Block.ptr).Perm (b.ptr :: (s.others b.ptr).map Block.ptr) := by
  have hnd := hi.nodup
  have hothers : ((s.others b.ptr).map Block.ptr).Nodup :=
    hnd.sublist (List.filter_sublist.map Block.ptr)
  refine (List.perm_ext_iff_of_nodup hnd (List.nodup_cons.mpr ⟨?_, hothers⟩)).mpr fun p => ?_
  · simp [Program.others]
  · simp only [Program.others, List.mem_map, List.mem_cons, List.mem_filter, decide_eq_true_eq]
    constructor
    · rintro ⟨c, hc, rfl⟩
      by_cases hcb : c.ptr = b.ptr
      · exact Or.inl hcb
      · exact Or.inr ⟨c, ⟨hc, by simpa using hcb⟩, rfl⟩
    · rintro (rfl | ⟨c, ⟨hc, -⟩, rfl⟩)
      · exact ⟨b, hb, rfl⟩
      · exact ⟨c, hc, rfl⟩

theorem HeapInv.laid (hi : HeapInv s) {b : Block} (hb : b ∈ s.live) :
    Laid s.heap (b.ptr :: (s.others b.ptr).map Block.ptr) := by
  rcases hi.held with ⟨-, hnil⟩ | ⟨slots, fr, top, hl, ht, hbrk⟩
  · exact absurd (List.mem_map_of_mem hb) (by rw [hnil]; exact List.not_mem_nil)
  · exact ⟨slots, fr, top, hl.perm (hi.perm_others hb), ht, hbrk⟩

theorem mem_others {b c : Block} : c ∈ s.others b.ptr ↔ c ∈ s.live ∧ c.ptr ≠ b.ptr := by
  simp [Program.others]

/-- A slot with a live slot or the last one behind it is not made longer. -/
theorem HeapInv.spared (hi : HeapInv s) {b : Block} {size : ℕ} (hb : b ∈ s.live)
    (hc : s.Careful (.realloc b.ptr size)) : Spared s.heap b.ptr size := by
  rcases hc with hne | ⟨hend, hbehind⟩
  · exact Or.inl hne
  · refine Or.inr fun h' hh' => ?_
    rcases hi.held with ⟨-, hnil⟩ | ⟨slots, fr, top, hl, ht, -⟩
    · exact absurd (List.mem_map_of_mem hb) (by rw [hnil]; exact List.not_mem_nil)
    · have hfr : b.ptr + 8 ∉ fr := by
        intro hmem
        rcases hbehind with htop | ⟨c, hc, hcb⟩
        · have htop' : top = b.ptr + 8 := Option.some.inj (ht.symm.trans htop)
          have := hl.lt_top (hl.mem_of_free hmem)
          omega
        · exact (List.nodup_append.mp hl.nodup).2.2 _ hmem _ (List.mem_map_of_mem hc) hcb.symm
      obtain rfl : s.heap = h' := Option.some.inj ((hl.extendSlot_same hend hfr).symm.trans hh')
      rw [hend]
      exact le_rfl

theorem HeapInv.realloc (hi : HeapInv s) {b : Block} {size : ℕ} (hb : b ∈ s.live)
    (hs : size < 2 ^ 16) (hcare : s.Careful (.realloc b.ptr size)) :
    ∃ r h, Ansi.realloc s.heap b.ptr size = some (r, h) ∧ s.CallOk r h (.realloc b.ptr size) ∧
      HeapInv ⟨h, s.keeps r (.realloc b.ptr size)⟩ := by
  obtain ⟨r, h, hcode, hr⟩ := realloc_spec hs (hi.spared hb hcare) (hi.laid hb)
  have hother : ∀ c ∈ s.live, c.ptr ≠ b.ptr → Kept s.heap h c.ptr := fun c hc hcb =>
    hr.kept c.ptr (List.mem_map_of_mem (mem_others.mpr ⟨hc, hcb⟩))
  have hsame : ∀ c ∈ s.live, c.ptr = b.ptr → c = b := fun c hc hcb =>
    List.inj_on_of_nodup_map hi.nodup hc hb hcb
  refine ⟨r, h, hcode, ⟨fun c hc hor => ?_, fun p hp c hc hcb k hk => ?_⟩, ?_⟩
  · rcases hor with hcb | hnone
    · exact hi.same hc (hother c hc hcb)
    · by_cases hcb : c.ptr = b.ptr
      · obtain rfl := hsame c hc hcb
        obtain ⟨e, he, hroom⟩ := hi.room c hc
        exact fun k hk => (hr.refused hnone).2.data e he (c.ptr + k) (by omega) (by omega)
      · exact hi.same hc (hother c hc hcb)
  · obtain rfl := hsame c hc hcb
    obtain ⟨e, he, hroom⟩ := hi.room c hc
    exact (hr.given p hp).2.2 e he k (by omega) (by omega)
  · cases r with
    | none =>
      obtain ⟨⟨slots, fr, top, hl, ht, hbrk⟩, hold⟩ := hr.refused rfl
      refine ⟨Or.inr ⟨slots, fr, top, hl.perm (hi.perm_others hb).symm, ht, hbrk⟩, fun c hc => ?_⟩
      by_cases hcb : c.ptr = b.ptr
      · obtain rfl := hsame c hc hcb
        obtain ⟨e, he, hroom⟩ := hi.room c hc
        obtain ⟨e', he', hle⟩ := hold.slot e he
        exact ⟨e', he', by omega⟩
      · exact hi.room_kept hc (hother c hc hcb)
    | some p =>
      obtain ⟨hlaid, ⟨e, he, hroom⟩, -⟩ := hr.given p rfl
      refine ⟨Or.inr hlaid, fun c hc => ?_⟩
      rcases List.mem_cons.mp hc with rfl | hc
      · exact ⟨e, he, hroom⟩
      · obtain ⟨hc, hcb⟩ := mem_others.mp hc
        exact hi.room_kept hc (hother c hc hcb)

theorem HeapInv.free (hi : HeapInv s) {b : Block} (hb : b ∈ s.live) :
    ∃ h, Ansi.free s.heap b.ptr = some h ∧ s.CallOk none h (.free b.ptr) ∧
      HeapInv ⟨h, s.others b.ptr⟩ := by
  obtain ⟨slots, fr, top, hl, ht, hbrk⟩ := hi.laid hb
  obtain ⟨h, slots', fr', hcode, hl', hm, -⟩ := hl.free
  have hkept : ∀ c ∈ s.live, c.ptr ≠ b.ptr → Kept s.heap h c.ptr := fun c hc hcb =>
    hm.kept c.ptr (List.mem_map_of_mem (mem_others.mpr ⟨hc, hcb⟩))
  refine ⟨h, hcode, fun c hc hcb => hi.same hc (hkept c hc hcb),
    Or.inr ⟨slots', fr', top, hl', hm.top.trans ht, ?_⟩, fun c hc => ?_⟩
  · rw [hm.brksize]
    exact hbrk
  · obtain ⟨hc, hcb⟩ := mem_others.mp hc
    exact hi.room_kept hc (hkept c hc hcb)

theorem HeapInv.store (hi : HeapInv s) {b : Block} {i : ℕ} {v : UInt8} (hb : b ∈ s.live)
    (hib : i < b.size) :
    s.CallOk none { s.heap with mem := Function.update s.heap.mem (b.ptr + i) v }
        (.store b.ptr i v) ∧
      HeapInv ⟨{ s.heap with mem := Function.update s.heap.mem (b.ptr + i) v }, s.live⟩ := by
  obtain ⟨e, he, hroom⟩ := hi.room b hb
  have hw : Written s.heap { s.heap with mem := Function.update s.heap.mem (b.ptr + i) v }
      b.ptr := by
    refine ⟨fun e' he' k hk => ?_, rfl, rfl, rfl, rfl⟩
    obtain rfl : e = e' := Option.some.inj (he.symm.trans he')
    exact Function.update_of_ne (by omega) _ _
  have hlaid : Laid s.heap (s.live.map Block.ptr) := by
    rcases hi.held with ⟨-, hnil⟩ | hlaid
    · exact absurd (List.mem_map_of_mem hb) (by rw [hnil]; exact List.not_mem_nil)
    · exact hlaid
  obtain ⟨hlaid', hkept⟩ := hlaid.written (List.mem_map_of_mem hb) hw
  have hkept' : ∀ c ∈ s.live, c.ptr ≠ b.ptr → Kept s.heap _ c.ptr := fun c hc hcb =>
    hkept c.ptr (List.mem_map_of_mem hc) hcb
  refine ⟨⟨Function.update_self _ _ _, fun c hc hcb => hi.same hc (hkept' c hc hcb)⟩,
    Or.inr hlaid', fun c hc => ?_⟩
  obtain ⟨slots, fr, top, hl, -, -⟩ := hlaid
  have hcs : c.ptr ∈ slots := hl.mem_of_live (List.mem_map_of_mem hc)
  have hbs : b.ptr ∈ slots := hl.mem_of_live (List.mem_map_of_mem hb)
  obtain ⟨e', he', hroom'⟩ := hi.room c hc
  refine ⟨e', ?_, hroom'⟩
  rw [hl.nextSlot_written hbs hw (List.mem_append_left _ hcs)]
  exact he'

/-- A careful call returns, does what it should, and leaves the heap as it should be. -/
theorem HeapInv.call {a : Act} (hi : HeapInv s) (hv : s.Valid a) (hc : s.Careful a) :
    ∃ r h, s.call a = some (r, h) ∧ s.CallOk r h a ∧ HeapInv ⟨h, s.keeps r a⟩ := by
  cases a with
  | malloc size =>
    obtain ⟨r, h, hcode, ha⟩ := malloc_spec hv hi.held
    obtain ⟨hsame, hi'⟩ := hi.allocated ha
    exact ⟨r, h, hcode, hsame, hi'⟩
  | calloc n size =>
    obtain ⟨r, h, hcode, ha, hzero⟩ := calloc_spec n size hi.held
    have hprod : toUnsigned (n * size) = n * size := Nat.mod_eq_of_lt hc
    rw [hprod] at ha hzero
    obtain ⟨hsame, hi'⟩ := hi.allocated ha
    exact ⟨r, h, hcode, ⟨hsame, hzero⟩, hi'⟩
  | realloc old size =>
    obtain ⟨hs, b, hb, rfl⟩ := hv
    exact hi.realloc hb hs hc
  | free p =>
    obtain ⟨b, hb, rfl⟩ := hv
    obtain ⟨h, hcode, hok, hi'⟩ := hi.free hb
    exact ⟨none, h, by simp [Program.call, hcode], hok, hi'⟩
  | store p i v =>
    obtain ⟨b, hb, rfl, hib⟩ := hv
    obtain ⟨hok, hi'⟩ := hi.store (v := v) hb hib
    exact ⟨none, _, rfl, hok, hi'⟩

end HeapInv

/-! ## Runs -/

variable {s : Program}

theorem Program.Init.inv (hs : s.Init) : HeapInv s := by
  refine ⟨Or.inl ⟨hs.fresh, by rw [hs.none]; rfl⟩, fun b hb => ?_⟩
  rw [hs.none] at hb
  exact absurd hb List.not_mem_nil

/-- In every run of careful calls the heap is as it should be, and every careful call returns and
does what it should. -/
theorem heap_safe (h : Reachable Program.Init CarefulStep s) :
    HeapOk s ∧ ∀ a, s.Valid a → s.Careful a →
      ∃ r h, s.call a = some (r, h) ∧ s.CallOk r h a ∧ HeapOk ⟨h, s.keeps r a⟩ := by
  have hi : HeapInv s := by
    refine h.invariant (P := HeapInv) (fun s hs => hs.inv) ?_
    rintro s a s' hi ⟨⟨hv, r, h, hcall, rfl⟩, hc⟩
    obtain ⟨r', h', hcall', -, hi'⟩ := hi.call hv hc
    obtain ⟨rfl, rfl⟩ := Prod.mk.inj (Option.some.inj (hcall.symm.trans hcall'))
    exact hi'
  refine ⟨hi.ok, fun a hv hc => ?_⟩
  obtain ⟨r, h, hcall, hok, hi'⟩ := hi.call hv hc
  exact ⟨r, h, hcall, hok, hi'.ok⟩

/-! ## Calls that are not careful -/

/-- A program that has not used its heap, of which the memory manager grants all. -/
def freshProgram : Program where
  heap := {
    mem := fun _ => 0
    _bottom := none
    _top := none
    _empty := none
    brksize := 1020
    grants := fun _ => true }
  live := []

instance (s : Program) : (a : Act) → Decidable (s.Valid a)
  | .malloc size => inferInstanceAs (Decidable (size < 2 ^ 16))
  | .calloc n size => inferInstanceAs (Decidable (n < 2 ^ 16 ∧ size < 2 ^ 16))
  | .realloc old size => inferInstanceAs (Decidable (size < 2 ^ 16 ∧ ∃ b ∈ s.live, b.ptr = old))
  | .free p => inferInstanceAs (Decidable (∃ b ∈ s.live, b.ptr = p))
  | .store p i _ => inferInstanceAs (Decidable (∃ b ∈ s.live, b.ptr = p ∧ i < b.size))

/-- The program after some calls, if they are valid and return. -/
def Program.after (s : Program) : List Act → Option Program
  | [] => some s
  | a :: as =>
    if s.Valid a then (s.call a).bind fun (r, h) => Program.after ⟨h, s.keeps r a⟩ as else none

theorem Program.run_after {s' : Program} {as : List Act} (h : s.after as = some s') :
    Run HeapStep s as s' := by
  induction as generalizing s with
  | nil =>
    obtain rfl := Option.some.inj h
    exact .nil
  | cons a as ih =>
    rw [Program.after] at h
    split_ifs at h with hv
    obtain ⟨⟨r, h1⟩, hcall, h⟩ := Option.bind_eq_some_iff.mp h
    have hst : HeapStep s a ⟨h1, s.keeps r a⟩ := ⟨hv, r, h1, hcall, rfl⟩
    exact (Run.single hst).append (ih h)

/-- Slots are cut, joined and used again. -/
example : (freshProgram.after [.malloc 100, .calloc 3 5, .realloc 1024 200, .free 1128, .malloc 0]).map
    (fun s => (s.live.map fun b => (b.ptr, b.size), s.heap._empty)) =
      some ([(1024, 0), (1148, 200)], some 1032) := by
  decide +kernel

/-- A program that has got 100 bytes. -/
theorem heap_safe_first : ∃ h : Heap, HeapOk ⟨h, [⟨1024, 100⟩]⟩ ∧ h.nextSlot 1024 = some 1128 := by
  have hcall : (freshProgram.call (.malloc 100)).map (fun (r, h) => (r, h.nextSlot 1024)) =
      some (some 1024, some 1128) := by
    decide +kernel
  obtain ⟨⟨r, h⟩, hcall, heq⟩ := Option.map_eq_some_iff.mp hcall
  obtain ⟨rfl, hnext⟩ := Prod.mk.inj heq
  have hvalid : freshProgram.Valid (.malloc 100) := by decide
  have hstep : CarefulStep freshProgram (.malloc 100) ⟨h, [⟨1024, 100⟩]⟩ :=
    ⟨⟨hvalid, some 1024, h, hcall, rfl⟩, trivial⟩
  have hinit : freshProgram.Init := ⟨⟨rfl, rfl⟩, rfl⟩
  exact ⟨h, (heap_safe ((Reachable.of_init hinit).of_step hstep)).1, hnext⟩

/-- The slot with no room has its link where a free slot has its own. -/
theorem heap_broken :
    (∃ s, Run HeapStep freshProgram [.malloc 100, .realloc 1024 0, .free 1024] s ∧ ¬HeapOk s) ∧
      ∃ s, Run HeapStep freshProgram [.calloc 256 256] s ∧ ¬HeapOk s := by
  constructor
  · have hrun : (freshProgram.after [.malloc 100, .realloc 1024 0, .free 1024]).map (fun s =>
        (s.heap._bottom, s.heap._top, s.heap.nextSlot 1024, s.heap.nextSlot 1028)) =
          some (some 1024, some 2048, some 1028, none) := by
      decide +kernel
    obtain ⟨s, hs, heq⟩ := Option.map_eq_some_iff.mp hrun
    simp only [Prod.mk.injEq] at heq
    obtain ⟨hbottom, htop, h1024, h1028⟩ := heq
    refine ⟨s, Program.run_after hs, ?_⟩
    rintro (⟨hf, -⟩ | ⟨slots, fr, top, ha⟩)
    · rw [hf.bottom] at hbottom
      exact absurd hbottom (by decide)
    · -- The row of slots ends before the last one.
      have hchain : Chain s.heap.nextSlot s.heap._bottom ([1024] ++ [1028]) none :=
        ⟨hbottom, h1024, h1028⟩
      have heq := List.append_inj_right' (ha.chain.unique hchain) rfl
      have hlast := ha.last
      rw [List.singleton_inj.mp heq, htop] at hlast
      exact absurd hlast (by decide)
  · have hrun : (freshProgram.after [.calloc 256 256]).map (fun s =>
        (s.heap.nextSlot 1024, s.live)) = some (some 1032, [⟨1024, 65536⟩]) := by
      decide +kernel
    obtain ⟨s, hs, heq⟩ := Option.map_eq_some_iff.mp hrun
    obtain ⟨hnext, hlive⟩ := Prod.mk.inj heq
    refine ⟨s, Program.run_after hs, ?_⟩
    rintro (⟨-, hnil⟩ | ⟨slots, fr, top, ha⟩)
    · rw [hnil] at hlive
      exact absurd hlive (by decide)
    · obtain ⟨e, he, hroom⟩ := ha.room ⟨1024, 65536⟩ (by rw [hlive]; exact List.mem_singleton_self _)
      obtain rfl : 1032 = e := Option.some.inj (hnext.symm.trans he)
      exact absurd hroom (by decide)

end Minix.Ansi
