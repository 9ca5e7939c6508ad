import Minix.Fs.Mounted

/-!
# The zone map

Whether a zone is in use is a bit of the zone map, as the contents of its blocks have it (`used`).
`alloc_zone` turns on the bit of a zone that was not in use, and `free_zone` turns one off. Both
leave the data area alone.
-/

namespace Minix.Fs

/-- A bit of the zone map. -/
def mapBit (sp : SuperBlock) (L : Contents) (a : ℕ) : Bool :=
  (bInd (L sp.s_dev (sp.zmapBlock (a / 8192))) (a % 8192 / 16)).testBit (a % 16)

/-- Whether a zone of the data area is in use. -/
def used (sp : SuperBlock) (L : Contents) (z : ℕ) : Bool := mapBit sp L (z + 1 - sp.s_firstdatazone)

/-- Only the blocks of the zone map are changed, and which zones are in use is given by a function.
-/
structure ZoneMapped (sp : SuperBlock) (L L' : Contents) (use : ℕ → Bool) : Prop where
  blocks : ∀ dev b, dev ≠ sp.s_dev ∨ (∀ j < sp.s_zmap.length, b ≠ sp.zmapBlock j) →
    L' dev b = L dev b
  used : ∀ z, sp.HasZone z → used sp L' z = use z

variable {sp : SuperBlock} {s : Session} {L L' L'' : Contents} {b : Block} {i j v a z n w : ℕ}
  {use : ℕ → Bool} {c : Cache} {dev block : ℕ}

/-! ## Words of a block -/

theorem bInd_lt (b : Block) (i : ℕ) : bInd b i < 65536 := by
  unfold bInd
  split_ifs with h
  · have h₁ := (b ⟨2 * i, Nat.lt_of_succ_lt h⟩).toNat_lt
    have h₂ := (b ⟨2 * i + 1, h⟩).toNat_lt
    omega
  · omega

/-- A word that has been set is read back, and the others are as they were. -/
theorem bInd_setInd (hi : i < NR_INDIRECTS) :
    bInd (setInd b i v) j = if j = i then v % 65536 else bInd b j := by
  have hi : 2 * i + 1 < BLOCK_SIZE := by
    have : i < 512 := hi
    unfold BLOCK_SIZE
    omega
  unfold bInd setInd
  by_cases hj : j = i
  · subst hj
    have hne : ¬2 * j + 1 = 2 * j := by omega
    simp only [dif_pos hi, hne, if_true, if_false, UInt8.toNat_ofNat']
    omega
  · rw [if_neg hj]
    by_cases h : 2 * j + 1 < BLOCK_SIZE
    · rw [dif_pos h, dif_pos h, if_neg (show ¬2 * j = 2 * i by omega),
        if_neg (show ¬2 * j = 2 * i + 1 by omega), if_neg (show ¬2 * j + 1 = 2 * i by omega),
        if_neg (show ¬2 * j + 1 = 2 * i + 1 by omega)]
    · rw [dif_neg h, dif_neg h]

/-- A word is set to what it has. -/
theorem setInd_same (b : Block) (hi : i < NR_INDIRECTS) : setInd b i (bInd b i) = b := by
  have hi' : 2 * i + 1 < BLOCK_SIZE := by
    have : i < 512 := hi
    unfold BLOCK_SIZE
    omega
  funext k
  unfold setInd bInd
  rw [dif_pos hi']
  have h₁ := (b ⟨2 * i + 1, hi'⟩).toNat_lt
  by_cases hk : k.val = 2 * i
  · rw [if_pos hk, Nat.mul_comm, Nat.mul_add_div (by decide), Nat.div_eq_of_lt h₁, Nat.add_zero,
      UInt8.ofNat_toNat]
    exact congrArg b (Fin.ext hk.symm)
  · rw [if_neg hk]
    by_cases hk' : k.val = 2 * i + 1
    · rw [if_pos hk']
      refine UInt8.toNat.inj ?_
      rw [UInt8.toNat_ofNat', Nat.mul_comm, Nat.mul_add_mod, Nat.mod_eq_of_lt h₁]
      exact congrArg (fun k => (b k).toNat) (Fin.ext hk'.symm)
    · rw [if_neg hk']

/-- A block of zeros. -/
theorem bInd_zero : bInd (fun _ => 0) i = 0 := by
  simp [bInd]

/-! ## Bits -/

/-- A zone of the data area has a bit of the map. -/
theorem SuperBlock.Ok.bit_lt (h : sp.Ok) (hz : sp.HasZone z) :
    z + 1 - sp.s_firstdatazone < 65536 ∧ (z + 1 - sp.s_firstdatazone) / 8192 < sp.s_zmap.length := by
  obtain ⟨hf, hn⟩ := hz
  have hmap := h.map
  have := h.slots
  have hsmall : sp.s_nzones < 65536 :=
    lt_of_le_of_lt (Nat.le_mul_of_pos_right _ (Nat.two_pow_pos _)) h.small
  constructor
  · omega
  · rw [Nat.div_lt_iff_lt_mul (by decide)]
    omega

/-- The bit number of a zone of the data area. -/
theorem SuperBlock.Ok.zoneBit_eq (h : sp.Ok) (hz : sp.HasZone z) :
    zoneBit sp z = z + 1 - sp.s_firstdatazone := by
  have hlt := (h.bit_lt hz).1
  have hf := hz.1
  have hsmall : sp.s_nzones < 65536 :=
    lt_of_le_of_lt (Nat.le_mul_of_pos_right _ (Nat.two_pow_pos _)) h.small
  have hn := hz.2
  unfold zoneBit unshort
  omega

/-- The bits of a map in which one word is set. -/
theorem mapBit_set (hdev : sp.s_dev ≠ NO_DEV) (hw : w < INTS_PER_BLOCK) (hv : v < 65536) (a : ℕ) :
    mapBit sp (L.set sp.s_dev (sp.zmapBlock j) (setInd (L sp.s_dev (sp.zmapBlock j)) w v)) a =
      if a / 8192 = j ∧ a % 8192 / 16 = w then v.testBit (a % 16) else mapBit sp L a := by
  unfold mapBit
  by_cases hj : a / 8192 = j
  · subst hj
    rw [Contents.set_self hdev, bInd_setInd hw]
    by_cases hwa : a % 8192 / 16 = w
    · rw [if_pos hwa, if_pos ⟨rfl, hwa⟩, Nat.mod_eq_of_lt hv]
    · rw [if_neg hwa, if_neg fun e => hwa e.2]
  · have hne : ¬(sp.s_dev = sp.s_dev ∧ sp.zmapBlock (a / 8192) = sp.zmapBlock j) := fun e => by
      have := e.2
      unfold SuperBlock.zmapBlock at this
      omega
    rw [Contents.set_of_ne hne, if_neg fun e => hj e.1]

/-- The blocks of the map are in front of the data area. -/
theorem SuperBlock.Ok.zmap_lt (h : sp.Ok) (hj : j < sp.s_zmap.length) :
    sp.zmapBlock j < sp.firstBlock := by
  have := h.area
  unfold SuperBlock.zmapBlock
  omega

/-- A block of the zone map is set. -/
theorem ZoneMapped.of_set (hj : j < sp.s_zmap.length) {data : Block}
    (hu : ∀ z, sp.HasZone z → Fs.used sp (L.set sp.s_dev (sp.zmapBlock j) data) z = use z) :
    ZoneMapped sp L (L.set sp.s_dev (sp.zmapBlock j) data) use where
  blocks dev b hb := by
    refine Contents.set_of_ne fun e => ?_
    rcases hb with hd | hb
    · exact hd e.1
    · exact hb j hj e.2
  used := hu

/-- The data area is left alone. -/
theorem ZoneMapped.area (h : ZoneMapped sp L L' use) (hsp : sp.Ok) (hb : sp.firstBlock ≤ block) :
    L' dev block = L dev block :=
  h.blocks dev block (Or.inr fun j hj e => by
    have := hsp.zmap_lt hj
    omega)

theorem ZoneMapped.refl (sp : SuperBlock) (L : Contents) : ZoneMapped sp L L (Fs.used sp L) :=
  ⟨fun _ _ _ => rfl, fun _ _ => rfl⟩

/-! ## The buffers of the map -/

/-- A buffer of the zone map has a block of the map. -/
theorem Mounted.zmap_data (h : Mounted sp s L) (hsp : sp.Ok) {bp : Buf} (hbp : sp.s_zmap[j]? = some bp) :
    s.cache.b_data bp = L sp.s_dev (sp.zmapBlock j) := by
  obtain ⟨hdev, hb⟩ := h.zmap j bp hbp
  have := (h.faithful.block bp (by rw [hdev]; exact hsp.dev) (Set.notMem_empty _)).1
  rwa [hdev, hb] at this

/-- A buffer of the zone map is written. -/
theorem Mounted.write_zmap (h : Mounted sp s L) {bp : Buf} (hbp : sp.s_zmap[j]? = some bp)
    (data : Block) : Mounted sp ⟨writeBuf s.cache bp data, s.held⟩
      (L.set sp.s_dev (sp.zmapBlock j) data) := by
  obtain ⟨hdev, hb⟩ := h.zmap j bp hbp
  have := h.write bp data
  rwa [hdev, hb] at this

/-! ## Allocating a bit -/

/-- The lowest bit that is off is one of the word. -/
theorem freeBitOf_spec {k i : ℕ} (h : freeBitOf k = some i) : i < INT_BITS ∧ k.testBit i = false := by
  unfold freeBitOf at h
  have hmem := List.mem_of_find?_eq_some h
  have hbit := List.find?_some h
  refine ⟨List.mem_range.mp hmem, ?_⟩
  rw [decide_eq_true_eq, Nat.and_one_is_mod] at hbit
  rw [Nat.testBit_eq_decide_div_mod_eq, ← Nat.shiftRight_eq_div_pow, hbit]
  rfl

/-- What the loop on the words of a block finds. -/
theorem allocWord_spec {map_bits : ℕ} (h : allocWord map_bits j b n w = some (a, v, i)) :
    w ≤ v ∧ v < w + n ∧ i < INT_BITS ∧ (bInd b v).testBit i = false ∧ a < map_bits ∧
      a = unshort (i + v * INT_BITS + j <<< BIT_MAP_SHIFT) := by
  induction n generalizing w with
  | zero => exact absurd h (by simp [allocWord])
  | succ n ih =>
    unfold allocWord at h
    split at h
    · obtain ⟨hle, hlt, hrest⟩ := ih h
      exact ⟨by omega, by omega, hrest⟩
    · next k hk =>
      dsimp only at h
      split_ifs at h with ha
      obtain ⟨rfl, rfl, rfl⟩ : _ = a ∧ w = v ∧ k = i := by simpa using h
      obtain ⟨hi, hbit⟩ := freeBitOf_spec hk
      exact ⟨le_refl _, by omega, hi, hbit, not_le.mp ha, rfl⟩

/-- The bit number, its block, its word and its place in the word. -/
theorem bit_parts (hj : j < 8) (hw : w < INTS_PER_BLOCK) (hi : i < INT_BITS)
    (ha : a = unshort (i + w * INT_BITS + j <<< BIT_MAP_SHIFT)) :
    a / 8192 = j ∧ a % 8192 / 16 = w ∧ a % 16 = i := by
  have hw : w < 512 := hw
  have hi : i < 16 := hi
  rw [Nat.shiftLeft_eq] at ha
  unfold unshort INT_BITS BIT_MAP_SHIFT at ha
  have hsum : i + w * 16 + j * 2 ^ 13 < 2 ^ 16 := by omega
  rw [Nat.mod_eq_of_lt hsum] at ha
  omega

/-- A word with one bit turned on. -/
theorem testBit_or_one (k : ℕ) : (k ||| 1 <<< i).testBit j = (k.testBit j || decide (i = j)) := by
  rw [Nat.testBit_or, Nat.shiftLeft_eq, Nat.one_mul, Nat.testBit_two_pow]

/-- A word with one bit turned off. -/
theorem testBit_and_not {k : ℕ} (hj : j < INT_BITS) :
    (k &&& (65535 ^^^ 1 <<< i)).testBit j = (k.testBit j && !decide (i = j)) := by
  have h : (65535 : ℕ).testBit j = true := by
    rw [show (65535 : ℕ) = 2 ^ 16 - 1 from rfl, Nat.testBit_two_pow_sub_one]
    exact decide_eq_true hj
  rw [Nat.testBit_and, Nat.testBit_xor, h, Nat.shiftLeft_eq, Nat.one_mul, Nat.testBit_two_pow]
  simp

/-- What `alloc_bit` does to the contents: a bit that was off is turned on, or there is none. -/
inductive BitTaken (sp : SuperBlock) (map_bits : ℕ) (L : Contents) : ℕ → Contents → Prop
  | full : BitTaken sp map_bits L NO_BIT L
  | taken {j w i a : ℕ} (hj : j < sp.s_zmap.length) (hw : w < INTS_PER_BLOCK) (hi : i < INT_BITS)
      (hbit : (bInd (L sp.s_dev (sp.zmapBlock j)) w).testBit i = false) (hlt : a < map_bits)
      (ha : a = unshort (i + w * INT_BITS + j <<< BIT_MAP_SHIFT)) :
      BitTaken sp map_bits L a (L.set sp.s_dev (sp.zmapBlock j)
        (setInd (L sp.s_dev (sp.zmapBlock j)) w (bInd (L sp.s_dev (sp.zmapBlock j)) w ||| 1 <<< i)))

/-- The loop of `alloc_bit` on the blocks of the zone map. -/
theorem Mounted.allocBlock (h : Mounted sp s L) (hsp : sp.Ok) (map_bits : ℕ)
    (hj : j < sp.s_zmap.length) :
    ∃ a c L', Fs.allocBlock s.cache sp.s_zmap map_bits n j w = some (a, c) ∧
      (c.toLinks = s.cache.toLinks ∧ c.b_dev = s.cache.b_dev) ∧
      Mounted sp ⟨c, s.held⟩ L' ∧ BitTaken sp map_bits L a L' := by
  induction n generalizing j w with
  | zero => exact ⟨_, _, L, rfl, ⟨rfl, rfl⟩, h, .full⟩
  | succ n ih =>
    obtain ⟨bp, hbp⟩ : ∃ bp, sp.s_zmap[j]? = some bp := ⟨_, List.getElem?_eq_getElem hj⟩
    have hdata := h.zmap_data hsp hbp
    unfold Fs.allocBlock
    rw [hbp]
    dsimp only
    cases hw : allocWord map_bits j (s.cache.b_data bp) (INTS_PER_BLOCK - w) w with
    | none =>
      dsimp only
      refine ih ?_
      split_ifs <;> omega
    | some r =>
      obtain ⟨a, v, i⟩ := r
      dsimp only
      obtain ⟨hle, hlt, hi, hbit, ha, hval⟩ := allocWord_spec hw
      rw [hdata] at hbit
      refine ⟨a, _, _, rfl, ⟨rfl, rfl⟩, h.write_zmap hbp _, ?_⟩
      rw [hdata]
      exact .taken hj (by omega) hi hbit ha hval

/-- A bit of the map after one has been taken. -/
theorem mapBit_taken (hsp : sp.Ok) (hw : w < INTS_PER_BLOCK) (hi : i < INT_BITS) (hj : j < 8)
    (ha : a = unshort (i + w * INT_BITS + j <<< BIT_MAP_SHIFT)) (x : ℕ) :
    mapBit sp (L.set sp.s_dev (sp.zmapBlock j)
        (setInd (L sp.s_dev (sp.zmapBlock j)) w (bInd (L sp.s_dev (sp.zmapBlock j)) w ||| 1 <<< i))) x =
      if x = a then true else mapBit sp L x := by
  obtain ⟨h₁, h₂, h₃⟩ := bit_parts hj hw hi ha
  have hi : i < 16 := hi
  have hv : bInd (L sp.s_dev (sp.zmapBlock j)) w ||| 1 <<< i < 65536 := by
    have h1 : 1 <<< i < 2 ^ 16 := by
      rw [Nat.shiftLeft_eq, Nat.one_mul]
      exact Nat.pow_lt_pow_right (by decide) hi
    exact Nat.or_lt_two_pow (n := 16) (bInd_lt _ _) h1
  rw [mapBit_set hsp.dev hw hv, testBit_or_one]
  by_cases hx : x = a
  · subst hx
    rw [if_pos ⟨h₁, h₂⟩, if_pos rfl, h₃]
    simp
  · rw [if_neg hx]
    split_ifs with hp
    · obtain ⟨rfl, rfl⟩ := hp
      have hne : i ≠ x % 16 := by omega
      unfold mapBit
      simp [hne]
    · rfl

/-- A bit of the map after one has been turned off. -/
theorem mapBit_freed (hsp : sp.Ok) (a x : ℕ) :
    mapBit sp (L.set sp.s_dev (sp.zmapBlock (a / 8192))
        (setInd (L sp.s_dev (sp.zmapBlock (a / 8192))) (a % 8192 / 16)
          (bInd (L sp.s_dev (sp.zmapBlock (a / 8192))) (a % 8192 / 16) &&&
            (65535 ^^^ 1 <<< (a % 16))))) x =
      if x = a then false else mapBit sp L x := by
  have hw : a % 8192 / 16 < INTS_PER_BLOCK := by
    have : a % 8192 < 8192 := Nat.mod_lt _ (by decide)
    unfold INTS_PER_BLOCK BLOCK_SIZE
    omega
  have hv : bInd (L sp.s_dev (sp.zmapBlock (a / 8192))) (a % 8192 / 16) &&&
      (65535 ^^^ 1 <<< (a % 16)) < 65536 := lt_of_le_of_lt Nat.and_le_left (bInd_lt _ _)
  rw [mapBit_set hsp.dev hw hv, testBit_and_not (Nat.mod_lt _ (by decide))]
  by_cases hx : x = a
  · subst hx
    rw [if_pos ⟨rfl, rfl⟩, if_pos rfl]
    simp
  · rw [if_neg hx]
    split_ifs with hp
    · obtain ⟨h₁, h₂⟩ := hp
      have hne : a % 16 ≠ x % 16 := by omega
      unfold mapBit
      rw [h₁, h₂]
      simp [hne]
    · rfl

/-- `alloc_zone` finds a zone that was not in use, and puts it in use; or there is none. -/
theorem Mounted.allocZone (h : Mounted sp s L) (hsp : sp.Ok) (near : ℕ) :
    ∃ z c L', Fs.allocZone s.cache sp near = some (z, c) ∧
      (c.toLinks = s.cache.toLinks ∧ c.b_dev = s.cache.b_dev) ∧ Mounted sp ⟨c, s.held⟩ L' ∧
      (z = NO_ZONE ∧ ZoneMapped sp L L' (used sp L) ∨
        sp.HasZone z ∧ used sp L z = false ∧
          ZoneMapped sp L L' fun x => if x = z then true else used sp L x) := by
  have hslots := hsp.slots
  have hmap := hsp.map
  have hfirst := hsp.first
  have horigin : ∀ o, (if o ≥ sp.s_nzones - sp.s_firstdatazone + 1 then 0 else o) >>>
      BIT_MAP_SHIFT < sp.s_zmap.length := fun o => by
    rw [Nat.shiftRight_eq_div_pow, Nat.div_lt_iff_lt_mul (by decide)]
    unfold BIT_MAP_SHIFT
    split_ifs <;> omega
  obtain ⟨a, c, L', he, hc, hm, ht⟩ := h.allocBlock hsp (sp.s_nzones - sp.s_firstdatazone + 1)
    (horigin (zoneBit sp near))
  refine ⟨if a = NO_BIT then NO_ZONE else sp.s_firstdatazone - 1 + a, c, L', ?_, hc, hm, ?_⟩
  · unfold Fs.allocZone allocBit
    dsimp only
    rw [he]
    rfl
  · cases ht with
    | full => exact Or.inl ⟨rfl, ZoneMapped.refl sp L⟩
    | @taken j w i a hj hw hi hbit hlt ha =>
      have hj8 : j < 8 := lt_of_lt_of_le hj hslots
      have hbits := mapBit_taken (L := L) hsp hw hi hj8 ha
      split_ifs with h0
      · -- The bit is of no zone of the data area.
        refine Or.inl ⟨rfl, .of_set hj fun x hx => ?_⟩
        have := hx.1
        have h0 : a = 0 := h0
        unfold used
        rw [hbits, if_neg (by omega)]
      · have h0 : a ≠ 0 := h0
        refine Or.inr ⟨⟨by omega, by omega⟩, ?_, .of_set hj fun x hx => ?_⟩
        · obtain ⟨h₁, h₂, h₃⟩ := bit_parts hj8 hw hi ha
          have hz : sp.s_firstdatazone - 1 + a + 1 - sp.s_firstdatazone = a := by omega
          unfold used mapBit
          rw [hz, h₁, h₂, h₃]
          exact hbit
        · have := hx.1
          unfold used
          rw [hbits]
          by_cases hxa : x = sp.s_firstdatazone - 1 + a
          · rw [if_pos hxa, if_pos (by omega)]
          · rw [if_neg hxa, if_neg (by omega)]

/-- `free_zone` puts a zone out of use. -/
theorem Mounted.freeZone (h : Mounted sp s L) (hsp : sp.Ok) (hz : sp.HasZone z) :
    ∃ L', Mounted sp ⟨Fs.freeZone s.cache sp z, s.held⟩ L' ∧
      ZoneMapped sp L L' fun x => if x = z then false else used sp L x := by
  obtain ⟨-, hj⟩ := hsp.bit_lt hz
  have hne : z ≠ NO_ZONE := by
    have := hz.1
    have := hsp.first
    unfold NO_ZONE
    omega
  obtain ⟨bp, hbp⟩ : ∃ bp, sp.s_zmap[(z + 1 - sp.s_firstdatazone) / 8192]? = some bp :=
    ⟨_, List.getElem?_eq_getElem hj⟩
  unfold Fs.freeZone Fs.freeBit
  rw [if_neg hne, hsp.zoneBit_eq hz]
  generalize ha : z + 1 - sp.s_firstdatazone = a at hj hbp
  have hdiv : a >>> BIT_MAP_SHIFT = a / 8192 := Nat.shiftRight_eq_div_pow ..
  have hrem : a - (a / 8192) <<< BIT_MAP_SHIFT = a % 8192 := by
    rw [Nat.shiftLeft_eq]
    unfold BIT_MAP_SHIFT
    omega
  have hlow : a % 8192 % INT_BITS = a % 16 := by
    unfold INT_BITS
    omega
  dsimp only
  rw [hdiv, hrem, hbp, hlow]
  dsimp only
  rw [h.zmap_data hsp hbp]
  refine ⟨_, h.write_zmap hbp _, .of_set hj fun x hx => ?_⟩
  have := hx.1
  have := hz.1
  unfold used
  rw [mapBit_freed hsp]
  by_cases hxz : x = z
  · rw [if_pos hxz, if_pos (by omega)]
  · rw [if_neg hxz, if_neg (by omega)]

end Minix.Fs
