import Minix.Fs.ZoneMap

/-!
# Allocating bits

`alloc_bit` starts in the middle of a block, goes round all the blocks of the map and comes back to
the words in front of the start. Its loops are described by what they have passed: words all of
whose bits of the map are on (`allocWord_none`, `allocBlock_cases`). So a bit that is off is found
if there is one (`bit_allocation`).
-/

namespace Minix.Fs

/-- The most blocks that a bit map may have. -/
def ZMAP_SLOTS : ℕ := 8

/-- A bit map has its blocks in buffers of their own, for which there are so many slots. -/
structure IsBitMap (map_ptr : List Buf) : Prop where
  distinct : map_ptr.Nodup
  slots : map_ptr.length ≤ ZMAP_SLOTS

/-- The bit of that number. -/
def bitOf (s : Cache) (map_ptr : List Buf) (a : ℕ) : Bool :=
  match map_ptr[a / 8192]? with
  | some bp => (bInd (s.b_data bp) (a % 8192 / 16)).testBit (a % 16)
  | none => false

variable {s c : Cache} {map_ptr : List Buf} {map_bits origin a b i j n v w x : ℕ} {bp : Buf}
  {block : Block} {sp : SuperBlock}

/-! ## Words -/

/-- A bit, as the code looks at it. -/
theorem testBit_iff_shift {k : ℕ} : k.testBit j = true ↔ k >>> j &&& 1 ≠ 0 := by
  rw [Nat.testBit_eq_decide_div_mod_eq, Nat.shiftRight_eq_div_pow, Nat.and_one_is_mod]
  simp

/-- The bits below the lowest one that is off are on. -/
theorem freeBitOf_least {k : ℕ} (h : freeBitOf k = some i) (hj : j < i) : k.testBit j = true := by
  have hon := (List.find?_range_eq_some.mp h).2.2 j hj
  exact testBit_iff_shift.mpr (by simpa using hon)

/-- All the bits of a word are on. -/
theorem freeBitOf_none {k : ℕ} (h : freeBitOf k = none) (hj : j < INT_BITS) : k.testBit j = true := by
  have hon := List.find?_eq_none.mp h j (List.mem_range.mpr hj)
  exact testBit_iff_shift.mpr (by simpa using hon)

/-- The number of a bit of block `b` fits in a word. -/
theorem bitNumber (hb : b < 8) (hw : w < 512) (hi : i < 16) :
    unshort (i + w * INT_BITS + b <<< BIT_MAP_SHIFT) = i + w * 16 + b * 8192 := by
  have hsum : i + w * 16 + b * 2 ^ 13 < 2 ^ 16 := by omega
  rw [Nat.shiftLeft_eq]
  exact Nat.mod_eq_of_lt hsum

/-- If the loop on the words of a block finds nothing, then all bits of the map are on in the words
that it is to pass. -/
theorem allocWord_none (hb : b < 8) (hn : w + n ≤ 512) (h : allocWord map_bits b block n w = none)
    (hw : w ≤ v) (hv : v < w + n) (hi : i < 16) (hin : i + v * 16 + b * 8192 < map_bits) :
    (bInd block v).testBit i = true := by
  induction n generalizing w with
  | zero => omega
  | succ n ih =>
    unfold allocWord at h
    cases hfree : freeBitOf (bInd block w) with
    | none =>
      rw [hfree] at h
      rcases Nat.eq_or_lt_of_le hw with rfl | hlt
      · exact freeBitOf_none hfree hi
      · exact ih (by omega) h hlt (by omega)
    | some k =>
      have hk : k < 16 := (freeBitOf_spec hfree).1
      rw [hfree] at h
      dsimp only at h
      rw [bitNumber hb (by omega) hk] at h
      -- The loop breaks off: the first bit that is off is beyond the map.
      have hbeyond : map_bits ≤ k + w * 16 + b * 8192 := by
        by_contra hno
        rw [if_neg (by omega)] at h
        exact absurd h (by simp)
      have hvw : v = w := by omega
      subst hvw
      exact freeBitOf_least hfree (by omega)

/-! ## Blocks -/

/-- What `alloc_bit` does when it finds a bit: it is turned on. -/
structure Turned (s : Cache) (map_ptr : List Buf) (map_bits a : ℕ) (c : Cache) : Prop where
  inside : a < map_bits
  off : bitOf s map_ptr a = false
  cache : ∃ bp, map_ptr[a / 8192]? = some bp ∧ c = writeBuf s bp
    (setInd (s.b_data bp) (a % 8192 / 16) (bInd (s.b_data bp) (a % 8192 / 16) ||| 1 <<< (a % 16)))

/-- All the bits of the map are on in the words of a block from one on. -/
def FullFrom (s : Cache) (map_ptr : List Buf) (map_bits b w : ℕ) : Prop :=
  ∀ v i, w ≤ v → v < 512 → i < 16 → i + v * 16 + b * 8192 < map_bits →
    bitOf s map_ptr (i + v * 16 + b * 8192) = true

/-- A bit by its block, its word and its place in the word. -/
theorem bitOf_parts (hbp : map_ptr[b]? = some bp) (hv : v < 512) (hi : i < 16) :
    bitOf s map_ptr (i + v * 16 + b * 8192) = (bInd (s.b_data bp) v).testBit i := by
  have h₁ : (i + v * 16 + b * 8192) / 8192 = b := by omega
  have h₂ : (i + v * 16 + b * 8192) % 8192 / 16 = v := by omega
  have h₃ : (i + v * 16 + b * 8192) % 16 = i := by omega
  unfold bitOf
  rw [h₁, h₂, h₃, hbp]

/-- The block in which the loop is after so many turns. -/
def turnBlock (map_ptr : List Buf) (b j : ℕ) : ℕ := (b + j) % map_ptr.length

/-- The loop of `alloc_bit` on the blocks of a map: it turns on a bit that was off, or has found the
words full that it passed. -/
theorem allocBlock_cases (hmap : IsBitMap map_ptr) (hb : b < map_ptr.length) (hw : w < 512) :
    ∃ a c, allocBlock s map_ptr map_bits n b w = some (a, c) ∧
      (Turned s map_ptr map_bits a c ∨
        a = NO_BIT ∧ c = s ∧
          ∀ j < n, FullFrom s map_ptr map_bits (turnBlock map_ptr b j) (if j = 0 then w else 0)) := by
  have hslots : map_ptr.length ≤ 8 := hmap.slots
  induction n generalizing b w with
  | zero => exact ⟨_, _, rfl, Or.inr ⟨rfl, rfl, fun j hj => absurd hj (Nat.not_lt_zero j)⟩⟩
  | succ n ih =>
    obtain ⟨bp, hbp⟩ : ∃ bp, map_ptr[b]? = some bp := ⟨_, List.getElem?_eq_getElem hb⟩
    have hstart : turnBlock map_ptr b 0 = b := Nat.mod_eq_of_lt hb
    unfold allocBlock
    rw [hbp]
    dsimp only
    cases hfound : allocWord map_bits b (s.b_data bp) (INTS_PER_BLOCK - w) w with
    | some r =>
      obtain ⟨a, v, i⟩ := r
      dsimp only
      obtain ⟨-, hlt, hi, hbit, hin, ha⟩ := allocWord_spec hfound
      have hv : v < 512 := by
        have : v < w + (512 - w) := hlt
        omega
      have hi : i < 16 := hi
      rw [bitNumber (by omega) hv hi] at ha
      subst ha
      have h₁ : (i + v * 16 + b * 8192) / 8192 = b := by omega
      have h₂ : (i + v * 16 + b * 8192) % 8192 / 16 = v := by omega
      have h₃ : (i + v * 16 + b * 8192) % 16 = i := by omega
      refine ⟨_, _, rfl, Or.inl ⟨hin, ?_, bp, ?_, ?_⟩⟩
      · rw [bitOf_parts hbp hv hi, hbit]
      · rw [h₁, hbp]
      · rw [h₂, h₃]
    | none =>
      dsimp only
      have hfull : FullFrom s map_ptr map_bits b w := by
        intro v i hwv hv hi hin
        rw [bitOf_parts hbp hv hi]
        refine allocWord_none (by omega) ?_ hfound hwv ?_ hi hin
        · show w + (512 - w) ≤ 512
          omega
        · show v < w + (512 - w)
          omega
      have hnext : (if b + 1 = map_ptr.length then 0 else b + 1) = turnBlock map_ptr b 1 := by
        unfold turnBlock
        split_ifs with hlast
        · rw [hlast, Nat.mod_self]
        · rw [Nat.mod_eq_of_lt (by omega)]
      rw [hnext]
      obtain ⟨a, c, he, hcase⟩ := ih (b := turnBlock map_ptr b 1) (w := 0)
        (Nat.mod_lt _ (by omega)) (by decide)
      refine ⟨a, c, he, hcase.imp id fun h => ?_⟩
      obtain ⟨ha, hc, hrest⟩ := h
      refine ⟨ha, hc, fun j hj => ?_⟩
      cases j with
      | zero =>
        rw [hstart]
        exact hfull
      | succ j =>
        have hshift : turnBlock map_ptr (turnBlock map_ptr b 1) j = turnBlock map_ptr b (j + 1) := by
          unfold turnBlock
          rw [Nat.mod_add_mod]
          congr 1
          omega
        have := hrest j (by omega)
        rw [hshift] at this
        rw [if_neg (Nat.succ_ne_zero j)]
        refine fun v i _ hv hi hin => this v i ?_ hv hi hin
        split_ifs <;> omega

/-- Every block is passed from its first word on. -/
theorem FullFrom.all (hb : b < map_ptr.length)
    (h : ∀ j < (if w = 0 then map_ptr.length else map_ptr.length + 1),
      FullFrom s map_ptr map_bits (turnBlock map_ptr b j) (if j = 0 then w else 0))
    (hx : x / 8192 < map_ptr.length) (hin : x < map_bits) : bitOf s map_ptr x = true := by
  obtain ⟨j, hj, hfirst, hblock⟩ : ∃ j, j < (if w = 0 then map_ptr.length else map_ptr.length + 1) ∧
      (if j = 0 then w else 0) = 0 ∧ turnBlock map_ptr b j = x / 8192 := by
    by_cases hsame : x / 8192 = b
    · by_cases hw : w = 0
      · exact ⟨0, by rw [if_pos hw]; omega, by rw [if_pos rfl, hw], by
          rw [hsame]
          exact Nat.mod_eq_of_lt hb⟩
      · -- The block of the start is passed a second time.
        refine ⟨map_ptr.length, by rw [if_neg hw]; omega, by rw [if_neg (by omega)], ?_⟩
        rw [hsame]
        unfold turnBlock
        rw [Nat.add_mod_right, Nat.mod_eq_of_lt hb]
    · refine ⟨(x / 8192 + map_ptr.length - b) % map_ptr.length, ?_, ?_, ?_⟩
      · have := Nat.mod_lt (x / 8192 + map_ptr.length - b) (show 0 < map_ptr.length by omega)
        split_ifs <;> omega
      · rw [if_neg]
        intro hzero
        rcases Nat.lt_or_ge (x / 8192) b with hlt | hge
        · rw [Nat.mod_eq_of_lt (by omega)] at hzero
          omega
        · rw [show x / 8192 + map_ptr.length - b = x / 8192 - b + map_ptr.length by omega,
            Nat.add_mod_right, Nat.mod_eq_of_lt (by omega)] at hzero
          omega
      · unfold turnBlock
        rw [Nat.add_mod_mod, show b + (x / 8192 + map_ptr.length - b) = x / 8192 + map_ptr.length by omega,
          Nat.add_mod_right, Nat.mod_eq_of_lt hx]
  have hfull := h j hj
  rw [hfirst, hblock] at hfull
  have hparts : x % 16 + x % 8192 / 16 * 16 + x / 8192 * 8192 = x := by omega
  have := hfull (x % 8192 / 16) (x % 16) (Nat.zero_le _) (by omega) (by omega) (by omega)
  rwa [hparts] at this

/-- `alloc_bit` turns on a bit that was off, or all bits of the map are on. -/
theorem allocBit_cases (hmap : IsBitMap map_ptr) (hpos : 0 < map_bits)
    (hbits : map_bits ≤ 8192 * map_ptr.length) (s : Cache) (origin : ℕ) :
    ∃ a c, allocBit s map_ptr map_bits origin = some (a, c) ∧
      (Turned s map_ptr map_bits a c ∨
        a = NO_BIT ∧ c = s ∧ ∀ x < map_bits, bitOf s map_ptr x = true) := by
  unfold allocBit
  dsimp only
  generalize horigin : (if origin ≥ map_bits then 0 else origin) = o
  have ho : o < map_bits := by
    rw [← horigin]
    split_ifs <;> omega
  have hdiv : o >>> BIT_MAP_SHIFT = o / 8192 := Nat.shiftRight_eq_div_pow ..
  have hrem : (o - (o / 8192) <<< BIT_MAP_SHIFT) / INT_BITS = o % 8192 / 16 := by
    rw [Nat.shiftLeft_eq]
    show (o - o / 8192 * 8192) / 16 = _
    omega
  rw [hdiv, hrem]
  have hb : o / 8192 < map_ptr.length := by omega
  generalize hcount : (if o % 8192 / 16 = 0 then map_ptr.length else map_ptr.length + 1) = block_count
  obtain ⟨a, c, he, hcase⟩ := @allocBlock_cases s map_ptr map_bits _ block_count _ hmap hb
    (show o % 8192 / 16 < 512 by omega)
  rw [← hcount] at hcase
  refine ⟨a, c, he, hcase.imp id fun ⟨ha, hc, hfull⟩ => ⟨ha, hc, fun x hx => ?_⟩⟩
  exact FullFrom.all hb hfull (by omega) hx

/-! ## Turning bits on and off -/

/-- The bits of a map after a word of one of its blocks has been set. -/
theorem bitOf_write (hmap : IsBitMap map_ptr) (hbp : map_ptr[b]? = some bp) (hw : w < 512)
    (hv : v < 65536) (x : ℕ) : bitOf (writeBuf s bp (setInd (s.b_data bp) w v)) map_ptr x =
      if x / 8192 = b ∧ x % 8192 / 16 = w then v.testBit (x % 16) else bitOf s map_ptr x := by
  unfold bitOf
  cases hx : map_ptr[x / 8192]? with
  | none =>
    rw [if_neg]
    rintro ⟨rfl, -⟩
    rw [hbp] at hx
    exact absurd hx (by simp)
  | some bx =>
    by_cases hxb : x / 8192 = b
    · have hsame : bx = bp := by
        rw [hxb, hbp] at hx
        exact (Option.some.inj hx).symm
      subst hsame
      dsimp only [writeBuf]
      rw [Function.update_self, bInd_setInd hw]
      by_cases hxw : x % 8192 / 16 = w
      · rw [if_pos hxw, if_pos ⟨hxb, hxw⟩, Nat.mod_eq_of_lt hv]
      · rw [if_neg hxw, if_neg fun e => hxw e.2]
    · have hne : bx ≠ bp := by
        rintro rfl
        exact hxb ((List.getElem?_inj (List.getElem?_eq_some_iff.mp hx).1 hmap.distinct).mp
          (hx.trans hbp.symm))
      dsimp only [writeBuf]
      rw [Function.update_of_ne hne, if_neg fun e => hxb e.1]

/-- The first of two values that a word is set to is gone. -/
theorem setInd_setInd (d : Block) (w v v' : ℕ) : setInd (setInd d w v) w v' = setInd d w v' := by
  funext k
  unfold setInd
  split_ifs <;> rfl

/-- A bit that was off is turned on and off again. -/
theorem word_restored {k : ℕ} (hk : k < 65536) (hi : i < 16) (hoff : k.testBit i = false) :
    (k ||| 1 <<< i) &&& (65535 ^^^ 1 <<< i) = k := by
  refine Nat.eq_of_testBit_eq fun j => ?_
  by_cases hj : j < 16
  · rw [testBit_and_not hj, testBit_or_one]
    by_cases hij : i = j
    · subst hij
      simp [hoff]
    · simp [hij]
  · have hbig : k.testBit j = false :=
      Nat.testBit_lt_two_pow (lt_of_lt_of_le (show k < 2 ^ 16 from hk)
        (Nat.pow_le_pow_right (show 0 < 2 by decide) (not_lt.mp hj)))
    have hmask : (65535 ^^^ 1 <<< i).testBit j = false := by
      have h16 : (65535 : ℕ).testBit j = false :=
        Nat.testBit_lt_two_pow (lt_of_lt_of_le (show 65535 < 2 ^ 16 by decide)
          (Nat.pow_le_pow_right (show 0 < 2 by decide) (not_lt.mp hj)))
      have hne : i ≠ j := fun e => hj (e ▸ hi)
      rw [Nat.testBit_xor, h16, Nat.shiftLeft_eq, Nat.one_mul, Nat.testBit_two_pow]
      simp [hne]
    rw [Nat.testBit_and, hbig, hmask, Bool.and_false]

section Turning

variable (hmap : IsBitMap map_ptr) (h : Turned s map_ptr map_bits a c)
include hmap h

/-- Exactly that bit is turned on. -/
theorem Turned.bits (x : ℕ) : bitOf c map_ptr x = if x = a then true else bitOf s map_ptr x := by
  obtain ⟨bp, hbp, rfl⟩ := h.cache
  have hv : bInd (s.b_data bp) (a % 8192 / 16) ||| 1 <<< (a % 16) < 65536 := by
    have h1 : 1 <<< (a % 16) < 2 ^ 16 := by
      rw [Nat.shiftLeft_eq, Nat.one_mul]
      exact Nat.pow_lt_pow_right (by decide) (Nat.mod_lt _ (by decide))
    exact Nat.or_lt_two_pow (n := 16) (bInd_lt _ _) h1
  rw [bitOf_write hmap hbp (by omega) hv, testBit_or_one]
  by_cases hx : x = a
  · subst hx
    rw [if_pos ⟨rfl, rfl⟩, if_pos rfl]
    simp
  · rw [if_neg hx]
    split_ifs with hp
    · obtain ⟨h₁, h₂⟩ := hp
      have hne : ¬a % 16 = x % 16 := by omega
      unfold bitOf
      rw [h₁, hbp, h₂]
      simp [hne]
    · rfl

omit hmap in
/-- Only the block of the bit becomes dirty. -/
theorem Turned.dirt (x : Buf) :
    c.b_dirt x = if map_ptr[a / 8192]? = some x then true else s.b_dirt x := by
  obtain ⟨bp, hbp, rfl⟩ := h.cache
  rw [hbp]
  dsimp only [writeBuf]
  by_cases hx : x = bp
  · subst hx
    rw [Function.update_self, if_pos rfl]
  · rw [Function.update_of_ne hx, if_neg fun e => hx (Option.some.inj e).symm]

omit hmap in
/-- `free_bit` of its number restores all the data. -/
theorem Turned.freed : (freeBit c map_ptr a).b_data = s.b_data := by
  obtain ⟨bp, hbp, rfl⟩ := h.cache
  have hoff := h.off
  have hdiv : a >>> BIT_MAP_SHIFT = a / 8192 := Nat.shiftRight_eq_div_pow ..
  have hrem : a - (a / 8192) <<< BIT_MAP_SHIFT = a % 8192 := by
    rw [Nat.shiftLeft_eq]
    show a - a / 8192 * 8192 = _
    omega
  have hlow : a % 8192 % INT_BITS = a % 16 := by
    show a % 8192 % 16 = _
    omega
  have hw : a % 8192 / 16 < 512 := by omega
  unfold bitOf at hoff
  rw [hbp] at hoff
  dsimp only at hoff
  unfold freeBit
  dsimp only
  rw [hdiv, hrem, hbp, hlow]
  dsimp only [writeBuf]
  rw [Function.update_self, Function.update_idem, bInd_setInd hw, if_pos rfl, setInd_setInd]
  have hv : bInd (s.b_data bp) (a % 8192 / 16) ||| 1 <<< (a % 16) < 65536 := by
    have h1 : 1 <<< (a % 16) < 2 ^ 16 := by
      rw [Nat.shiftLeft_eq, Nat.one_mul]
      exact Nat.pow_lt_pow_right (by decide) (Nat.mod_lt _ (by decide))
    exact Nat.or_lt_two_pow (n := 16) (bInd_lt _ _) h1
  rw [Nat.mod_eq_of_lt hv,
    word_restored (bInd_lt _ _) (Nat.mod_lt _ (by decide)) hoff, setInd_same _ hw,
    Function.update_eq_self]

end Turning

/-- Exactly that bit is turned off. -/
theorem bitOf_freeBit (hmap : IsBitMap map_ptr) (ha : a / 8192 < map_ptr.length) (x : ℕ) :
    bitOf (freeBit s map_ptr a) map_ptr x = if x = a then false else bitOf s map_ptr x := by
  obtain ⟨bp, hbp⟩ : ∃ bp, map_ptr[a / 8192]? = some bp := ⟨_, List.getElem?_eq_getElem ha⟩
  have hdiv : a >>> BIT_MAP_SHIFT = a / 8192 := Nat.shiftRight_eq_div_pow ..
  have hrem : a - (a / 8192) <<< BIT_MAP_SHIFT = a % 8192 := by
    rw [Nat.shiftLeft_eq]
    show a - a / 8192 * 8192 = _
    omega
  have hlow : a % 8192 % INT_BITS = a % 16 := by
    show a % 8192 % 16 = _
    omega
  have hv : bInd (s.b_data bp) (a % 8192 / 16) &&& (65535 ^^^ 1 <<< (a % 16)) < 65536 :=
    lt_of_le_of_lt Nat.and_le_left (bInd_lt _ _)
  unfold freeBit
  dsimp only
  rw [hdiv, hrem, hbp, hlow]
  dsimp only
  rw [show a % 8192 / INT_BITS = a % 8192 / 16 from rfl, bitOf_write hmap hbp (by omega) hv,
    testBit_and_not (Nat.mod_lt _ (by decide))]
  by_cases hx : x = a
  · subst hx
    rw [if_pos ⟨rfl, rfl⟩, if_pos rfl]
    simp
  · rw [if_neg hx]
    split_ifs with hp
    · obtain ⟨h₁, h₂⟩ := hp
      have hne : ¬a % 16 = x % 16 := by omega
      unfold bitOf
      rw [h₁, hbp, h₂]
      simp [hne]
    · rfl

/-! ## Zones -/

/-- The zone map of a device: it has a bit for each zone of the data area, and the bit of no zone is
on. -/
structure HasZoneMap (sp : SuperBlock) (s : Cache) : Prop where
  map : IsBitMap sp.s_zmap
  first : 1 ≤ sp.s_firstdatazone
  zones : sp.s_firstdatazone < sp.s_nzones
  small : sp.s_nzones < 65536
  bits : sp.s_nzones - sp.s_firstdatazone + 1 ≤ 8192 * sp.s_zmap.length
  busy : bitOf s sp.s_zmap 0 = true

/-- The bit of a zone of the data area. -/
def zoneTaken (sp : SuperBlock) (s : Cache) (z : ℕ) : Bool :=
  bitOf s sp.s_zmap (z + 1 - sp.s_firstdatazone)

/-- `alloc_zone` takes a zone of the data area that was free, or there is none. -/
theorem HasZoneMap.allocZone (h : HasZoneMap sp s) (near : ℕ) :
    ∃ z c, allocZone s sp near = some (z, c) ∧
      (z = NO_ZONE ∧ c = s ∧ (∀ x, sp.HasZone x → zoneTaken sp s x = true) ∨
        sp.HasZone z ∧ zoneTaken sp s z = false ∧
          ∀ x, sp.HasZone x → zoneTaken sp c x = if x = z then true else zoneTaken sp s x) := by
  have hfirst := h.first
  have hzones := h.zones
  obtain ⟨a, c, he, hcase⟩ := allocBit_cases h.map (Nat.succ_pos _) h.bits s (zoneBit sp near)
  refine ⟨if a = NO_BIT then NO_ZONE else sp.s_firstdatazone - 1 + a, c, ?_, ?_⟩
  · unfold Fs.allocZone
    rw [he]
    rfl
  · rcases hcase with ht | ⟨rfl, rfl, hfull⟩
    · have ha : a ≠ 0 := by
        rintro rfl
        have := h.busy
        rw [ht.off] at this
        exact absurd this (by decide)
      have hin := ht.inside
      rw [if_neg (show ¬a = NO_BIT from ha)]
      have hbit : sp.s_firstdatazone - 1 + a + 1 - sp.s_firstdatazone = a := by omega
      refine Or.inr ⟨⟨by omega, by omega⟩, ?_, fun x hx => ?_⟩
      · unfold zoneTaken
        rw [hbit, ht.off]
      · have hx' := hx.1
        unfold zoneTaken
        rw [ht.bits h.map]
        by_cases hxa : x = sp.s_firstdatazone - 1 + a
        · rw [if_pos hxa, if_pos (by omega)]
        · rw [if_neg hxa, if_neg (by omega)]
    · refine Or.inl ⟨if_pos rfl, rfl, fun x hx => ?_⟩
      obtain ⟨h₁, h₂⟩ := hx
      exact hfull _ (by omega)

/-- `free_zone` gives back any zone of the data area. -/
theorem HasZoneMap.freeZone (h : HasZoneMap sp s) {z : ℕ} (hz : sp.HasZone z) (x : ℕ)
    (hx : sp.HasZone x) :
    zoneTaken sp (freeZone s sp z) x = if x = z then false else zoneTaken sp s x := by
  have hfirst := h.first
  have hsmall := h.small
  have hbits := h.bits
  obtain ⟨hz₁, hz₂⟩ := hz
  obtain ⟨hx₁, hx₂⟩ := hx
  have hne : ¬z = NO_ZONE := by
    unfold NO_ZONE
    omega
  have hbit : zoneBit sp z = z + 1 - sp.s_firstdatazone := by
    unfold zoneBit unshort
    omega
  unfold Fs.freeZone zoneTaken
  rw [if_neg hne, hbit, bitOf_freeBit h.map (by omega)]
  by_cases hxz : x = z
  · rw [if_pos hxz, if_pos (by omega)]
  · rw [if_neg hxz, if_neg (by omega)]

/-- `alloc_bit` finds a bit that is off whenever the map has one, wherever it starts, and turns on
exactly that; `free_bit` turns it off again. The zones of a device are taken and given back by their
bits, whatever zone is to be near. -/
theorem bit_allocation (hmap : IsBitMap map_ptr) (hpos : 1 < map_bits)
    (hbits : map_bits ≤ 8192 * map_ptr.length) (hbusy : bitOf s map_ptr 0 = true) (origin : ℕ) :
    (∃ a c, allocBit s map_ptr map_bits origin = some (a, c) ∧
      (a = NO_BIT ↔ ∀ x < map_bits, bitOf s map_ptr x = true) ∧ (a = NO_BIT → c = s) ∧
      (a ≠ NO_BIT → a < map_bits ∧ bitOf s map_ptr a = false ∧
        (∀ x, bitOf c map_ptr x = if x = a then true else bitOf s map_ptr x) ∧
        (∀ bp, c.b_dirt bp = if map_ptr[a / 8192]? = some bp then true else s.b_dirt bp) ∧
        (∃ bp data, c = writeBuf s bp data) ∧ (freeBit c map_ptr a).b_data = s.b_data)) ∧
    ∀ sp near, HasZoneMap sp s →
      (∃ z c, allocZone s sp near = some (z, c) ∧
        (z = NO_ZONE ∧ c = s ∧ (∀ x, sp.HasZone x → zoneTaken sp s x = true) ∨
          sp.HasZone z ∧ zoneTaken sp s z = false ∧
            ∀ x, sp.HasZone x → zoneTaken sp c x = if x = z then true else zoneTaken sp s x)) ∧
      ∀ z, sp.HasZone z → ∀ x, sp.HasZone x →
        zoneTaken sp (freeZone s sp z) x = if x = z then false else zoneTaken sp s x := by
  refine ⟨?_, fun sp near h => ⟨h.allocZone near, fun z hz x hx => h.freeZone hz x hx⟩⟩
  obtain ⟨a, c, he, hcase⟩ := allocBit_cases hmap (by omega) hbits s origin
  refine ⟨a, c, he, ?_⟩
  rcases hcase with ht | ⟨rfl, rfl, hfull⟩
  · have ha : a ≠ NO_BIT := by
      rintro rfl
      have hoff : bitOf s map_ptr 0 = false := ht.off
      rw [hbusy] at hoff
      exact absurd hoff (by decide)
    refine ⟨⟨fun e => absurd e ha, fun hall => ?_⟩, fun e => absurd e ha, fun _ => ?_⟩
    · have := hall a ht.inside
      rw [ht.off] at this
      exact absurd this (by decide)
    · obtain ⟨bp, -, hc⟩ := ht.cache
      exact ⟨ht.inside, ht.off, ht.bits hmap, ht.dirt, ⟨bp, _, hc⟩, ht.freed⟩
  · exact ⟨⟨fun _ => hfull, fun _ => rfl⟩, fun _ => rfl, fun e => absurd rfl e⟩

/-- A bit map of one block, with three bits on. -/
def oneMap : Cache := { staticCache with b_data := fun _ i => if i.val = 1 then 7 else 0 }

/-- The search starts at bit 17, in the second word, which is free from its first bit on. -/
theorem bit_allocation_one : ∃ c, allocBit oneMap [0] 20 17 = some (16, c) ∧
    bitOf c [0] 16 = true ∧ (freeBit c [0] 16).b_data = oneMap.b_data := by
  have hmap : IsBitMap [(0 : Buf)] := ⟨by decide, by decide⟩
  obtain ⟨⟨a, c, he, -, -, htaken⟩, -⟩ := bit_allocation hmap (show 1 < 20 by decide)
    (show 20 ≤ 8192 * 1 by decide) (show bitOf oneMap [0] 0 = true by decide +kernel) 17
  have hfirst : (allocBit oneMap [0] 20 17).map Prod.fst = some 16 := by decide +kernel
  rw [he, Option.map_some, Option.some.injEq] at hfirst
  obtain rfl : a = 16 := hfirst
  obtain ⟨-, -, hbits, -, -, hfreed⟩ := htaken (by decide)
  exact ⟨c, he, by rw [hbits, if_pos rfl], hfreed⟩

end Minix.Fs
