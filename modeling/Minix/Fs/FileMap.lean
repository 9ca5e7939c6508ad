import Minix.Fs.ZoneMap

/-!
# The map of a file

The zone numbers of a file are in its inode, in its single and double indirect blocks, and in the
single indirect blocks that the double one names. A `Ref` is the place of one of them, and `zoneRef`
the number in it, as the contents of the blocks have it. `FileOk` says that the zones of a file are
distinct zones of the data area that are in use. `read_map` computes `blockAt`.
-/

namespace Minix.Fs

/-- The place of a zone number of a file. -/
inductive Ref
  /-- A zone of the file itself. -/
  | data (k : ℕ)
  /-- The single indirect block. -/
  | single
  /-- The double indirect block. -/
  | double
  /-- A single indirect block that the double one names. -/
  | leaf (i : ℕ)
  deriving DecidableEq

/-- Whether a zone has an indirect block. -/
def Ref.indirect : Ref → Bool
  | .data _ => false
  | _ => true

/-- The indirect block that a zone number is in, and its index there. -/
def Ref.parent : Ref → Option (Ref × ℕ)
  | .data k =>
    if k < NR_DZONE_NUM then none
    else if k - NR_DZONE_NUM < NR_INDIRECTS then some (.single, k - NR_DZONE_NUM)
    else some (.leaf ((k - NR_DZONE_NUM - NR_INDIRECTS) / NR_INDIRECTS),
      (k - NR_DZONE_NUM - NR_INDIRECTS) % NR_INDIRECTS)
  | .single => none
  | .double => none
  | .leaf i => some (.double, i)

/-- The place in the inode of a zone number that is not in an indirect block. -/
def Ref.slot : Ref → Fin NR_ZONE_NUMS
  | .data k => if h : k < NR_DZONE_NUM then ⟨k, h.trans (by decide)⟩ else 0
  | .single => 7
  | .double => 8
  | .leaf _ => 0

/-- A zone number in the indirect block of a zone. -/
def entry (sp : SuperBlock) (L : Contents) (dev z i : ℕ) : ℕ :=
  if z = NO_ZONE then NO_ZONE else bInd (L dev (zoneBlock z sp.s_log_zone_size 0)) i

/-- The zone number at a place. -/
def zoneRef (sp : SuperBlock) (L : Contents) (rip : Inode) : Ref → ℕ
  | .single => rip.i_zone 7
  | .double => rip.i_zone 8
  | .leaf i => entry sp L rip.i_dev (rip.i_zone 8) i
  | .data k =>
    if h : k < NR_DZONE_NUM then rip.i_zone ⟨k, h.trans (by decide)⟩
    else if k - NR_DZONE_NUM < NR_INDIRECTS then
      entry sp L rip.i_dev (rip.i_zone 7) (k - NR_DZONE_NUM)
    else
      entry sp L rip.i_dev (entry sp L rip.i_dev (rip.i_zone 8)
        ((k - NR_DZONE_NUM - NR_INDIRECTS) / NR_INDIRECTS))
        ((k - NR_DZONE_NUM - NR_INDIRECTS) % NR_INDIRECTS)

/-- The zones of a file are distinct zones of the data area that are in use. -/
structure FileOk (sp : SuperBlock) (L : Contents) (rip : Inode) : Prop where
  dev : rip.i_dev = sp.s_dev
  zone : ∀ r, zoneRef sp L rip r ≠ NO_ZONE →
    sp.HasZone (zoneRef sp L rip r) ∧ used sp L (zoneRef sp L rip r) = true
  inj : ∀ r r', zoneRef sp L rip r ≠ NO_ZONE → zoneRef sp L rip r = zoneRef sp L rip r' → r = r'

/-- The relative zone of a position. -/
def SuperBlock.zoneOf (sp : SuperBlock) (position : ℕ) : ℕ :=
  (position / BLOCK_SIZE) >>> sp.s_log_zone_size

/-- The block of a position within its zone. -/
def SuperBlock.boff (sp : SuperBlock) (position : ℕ) : ℕ :=
  position / BLOCK_SIZE - sp.zoneOf position <<< sp.s_log_zone_size

/-- The block of a position. -/
def blockAt (sp : SuperBlock) (L : Contents) (rip : Inode) (position : ℕ) : ℕ :=
  if zoneRef sp L rip (.data (sp.zoneOf position)) = NO_ZONE then NO_BLOCK
  else zoneBlock (zoneRef sp L rip (.data (sp.zoneOf position))) sp.s_log_zone_size (sp.boff position)

variable {sp : SuperBlock} {s : Session} {L L' : Contents} {rip rip' : Inode} {r r' p q : Ref}
  {e e' i j k z z' : ℕ} {m : Ref → ℕ}

/-! ## Places -/

/-- The indirect block of a zone of the file itself. -/
theorem Ref.parent_data (k : ℕ) : (Ref.data k).parent =
    if k < NR_DZONE_NUM then none
    else if k - NR_DZONE_NUM < NR_INDIRECTS then some (.single, k - NR_DZONE_NUM)
    else some (.leaf ((k - NR_DZONE_NUM - NR_INDIRECTS) / NR_INDIRECTS),
      (k - NR_DZONE_NUM - NR_INDIRECTS) % NR_INDIRECTS) := rfl

/-- What is not in an indirect block is in the inode. -/
theorem zoneRef_of_root (h : r.parent = none) : zoneRef sp L rip r = rip.i_zone r.slot := by
  cases r with
  | single => rfl
  | double => rfl
  | leaf i => exact absurd h (by simp [Ref.parent])
  | data k =>
    rw [Ref.parent_data] at h
    unfold zoneRef Ref.slot
    dsimp only
    split_ifs at h ⊢
    rfl

/-- What is in an indirect block. -/
theorem zoneRef_of_parent (h : r.parent = some (p, e)) :
    zoneRef sp L rip r = entry sp L rip.i_dev (zoneRef sp L rip p) e := by
  cases r with
  | single => exact absurd h (by simp [Ref.parent])
  | double => exact absurd h (by simp [Ref.parent])
  | leaf i =>
    obtain ⟨rfl, rfl⟩ := Prod.mk.inj (Option.some.inj h)
    rfl
  | data k =>
    rw [Ref.parent_data] at h
    unfold zoneRef
    dsimp only
    split_ifs at h ⊢
    · obtain ⟨rfl, rfl⟩ := Prod.mk.inj (Option.some.inj h)
      rfl
    · obtain ⟨rfl, rfl⟩ := Prod.mk.inj (Option.some.inj h)
      rfl

/-- The places that an indirect block has. -/
theorem Ref.parent_cases (h : r.parent = some (p, e)) :
    p = .double ∧ r = .leaf e ∨ p = .single ∧ e < NR_INDIRECTS ∧ r = .data (NR_DZONE_NUM + e) ∨
      ∃ i, p = .leaf i ∧ e < NR_INDIRECTS ∧
        r = .data (NR_DZONE_NUM + NR_INDIRECTS + NR_INDIRECTS * i + e) := by
  cases r with
  | single => exact absurd h (by simp [Ref.parent])
  | double => exact absurd h (by simp [Ref.parent])
  | leaf i =>
    obtain ⟨rfl, rfl⟩ := Prod.mk.inj (Option.some.inj h)
    exact Or.inl ⟨rfl, rfl⟩
  | data k =>
    rw [Ref.parent_data] at h
    split_ifs at h with hk hi
    · obtain ⟨rfl, rfl⟩ := Prod.mk.inj (Option.some.inj h)
      have hk : ¬k < 7 := hk
      exact Or.inr (Or.inl ⟨rfl, hi, congrArg Ref.data (show k = 7 + (k - 7) by omega)⟩)
    · obtain ⟨rfl, rfl⟩ := Prod.mk.inj (Option.some.inj h)
      refine Or.inr (Or.inr ⟨_, rfl, Nat.mod_lt _ (by decide), ?_⟩)
      have hk : ¬k < 7 := hk
      have hi : ¬k - 7 < 512 := hi
      refine congrArg Ref.data ?_
      show k = 7 + 512 + 512 * ((k - 7 - 512) / 512) + (k - 7 - 512) % 512
      omega

/-- Two places in one indirect block have different indices. -/
theorem Ref.parent_inj (h : r.parent = some (p, e)) (h' : r'.parent = some (p, e)) : r = r' := by
  rcases Ref.parent_cases h with ⟨rfl, rfl⟩ | ⟨rfl, -, rfl⟩ | ⟨i, rfl, -, rfl⟩
  · rcases Ref.parent_cases h' with ⟨-, rfl⟩ | ⟨e, -⟩ | ⟨i, e, -⟩
    · rfl
    · exact Ref.noConfusion e
    · exact Ref.noConfusion e
  · rcases Ref.parent_cases h' with ⟨e, -⟩ | ⟨-, -, rfl⟩ | ⟨i, e, -⟩
    · exact Ref.noConfusion e
    · rfl
    · exact Ref.noConfusion e
  · rcases Ref.parent_cases h' with ⟨e, -⟩ | ⟨e, -⟩ | ⟨j, e, -, rfl⟩
    · exact Ref.noConfusion e
    · exact Ref.noConfusion e
    · rw [Ref.leaf.inj e]

/-- Places of the inode itself are different. -/
theorem Ref.slot_inj (h : r.parent = none) (h' : r'.parent = none) (hs : r.slot = r'.slot) :
    r = r' := by
  have hdata : ∀ k, (Ref.data k).parent = none → ∃ h : k < NR_DZONE_NUM,
      (Ref.data k).slot = ⟨k, h.trans (by decide)⟩ := by
    intro k hk
    rw [Ref.parent_data] at hk
    split_ifs at hk with hlt
    exact ⟨hlt, dif_pos hlt⟩
  cases r with
  | leaf i => exact absurd h (by simp [Ref.parent])
  | single =>
    cases r' with
    | leaf i => exact absurd h' (by simp [Ref.parent])
    | single => rfl
    | double => exact absurd hs (by decide)
    | data k =>
      obtain ⟨hk, e⟩ := hdata k h'
      rw [e, Fin.ext_iff] at hs
      exact absurd hs.symm hk.ne
  | double =>
    cases r' with
    | leaf i => exact absurd h' (by simp [Ref.parent])
    | single => exact absurd hs (by decide)
    | double => rfl
    | data k =>
      obtain ⟨hk, e⟩ := hdata k h'
      rw [e, Fin.ext_iff] at hs
      exact absurd hs.symm (hk.trans (by decide)).ne
  | data j =>
    obtain ⟨hj, e⟩ := hdata j h
    rw [e] at hs
    cases r' with
    | leaf i => exact absurd h' (by simp [Ref.parent])
    | single => exact absurd (Fin.ext_iff.mp hs) hj.ne
    | double => exact absurd (Fin.ext_iff.mp hs) (hj.trans (by decide)).ne
    | data k =>
      obtain ⟨hk, e'⟩ := hdata k h'
      rw [e', Fin.ext_iff] at hs
      exact congrArg Ref.data hs

/-- An indirect block is not a zone of the file itself. -/
theorem Ref.parent_indirect (h : r.parent = some (p, e)) : p.indirect = true := by
  rcases Ref.parent_cases h with ⟨rfl, -⟩ | ⟨rfl, -⟩ | ⟨i, rfl, -⟩ <;> rfl

/-- The indirect blocks of a place are a single one, or a single one in the double one. -/
theorem Ref.parent_induction {P : Ref → Prop}
    (h : ∀ r, (∀ p e, r.parent = some (p, e) → P p) → P r) (r : Ref) : P r := by
  have hs : P .single := h _ fun p e he => absurd he (by simp [Ref.parent])
  have hd : P .double := h _ fun p e he => absurd he (by simp [Ref.parent])
  have hl : ∀ i, P (.leaf i) := fun i => h _ fun p e he => by
    obtain ⟨rfl, -⟩ := Prod.mk.inj (Option.some.inj he)
    exact hd
  cases r with
  | single => exact hs
  | double => exact hd
  | leaf i => exact hl i
  | data k =>
    refine h _ fun p e he => ?_
    cases p with
    | single => exact hs
    | double => exact hd
    | leaf i => exact hl i
    | data j => exact absurd (Ref.parent_indirect he) (by simp [Ref.indirect])

/-- The zone numbers of a file are known by what its inode and its indirect blocks have. -/
theorem zoneRef_eq (hroot : ∀ r, r.parent = none → rip.i_zone r.slot = m r)
    (hchild : ∀ r p e, r.parent = some (p, e) → entry sp L rip.i_dev (m p) e = m r) :
    zoneRef sp L rip = m := by
  funext r
  induction r using Ref.parent_induction with
  | h r ih =>
    cases hr : r.parent with
    | none => rw [zoneRef_of_root hr, hroot r hr]
    | some q =>
      obtain ⟨p, e⟩ := q
      rw [zoneRef_of_parent hr, ih p e hr, hchild r p e hr]

/-! ## Blocks of zones -/

/-- The blocks of a zone of the data area. -/
theorem SuperBlock.Ok.zoneBlock_eq (hsp : sp.Ok) (hz : sp.HasZone z)
    (hi : i < 2 ^ sp.s_log_zone_size) :
    zoneBlock z sp.s_log_zone_size i = z * 2 ^ sp.s_log_zone_size + i := by
  unfold zoneBlock unshort
  rw [Nat.shiftLeft_eq, Nat.mod_eq_of_lt]
  calc z * 2 ^ sp.s_log_zone_size + i < (z + 1) * 2 ^ sp.s_log_zone_size := by
        rw [Nat.add_mul, Nat.one_mul]
        exact Nat.add_lt_add_left hi _
    _ ≤ sp.s_nzones * 2 ^ sp.s_log_zone_size := Nat.mul_le_mul_right _ hz.2
    _ < 2 ^ 16 := hsp.small

/-- Different zones have different blocks. -/
theorem SuperBlock.Ok.zoneBlock_inj (hsp : sp.Ok) (hz : sp.HasZone z) (hz' : sp.HasZone z')
    (hi : i < 2 ^ sp.s_log_zone_size) (hj : j < 2 ^ sp.s_log_zone_size)
    (he : zoneBlock z sp.s_log_zone_size i = zoneBlock z' sp.s_log_zone_size j) :
    z = z' ∧ i = j := by
  rw [hsp.zoneBlock_eq hz hi, hsp.zoneBlock_eq hz' hj] at he
  have hpos := Nat.two_pow_pos sp.s_log_zone_size
  have hdiv : ∀ x y, y < 2 ^ sp.s_log_zone_size →
      (x * 2 ^ sp.s_log_zone_size + y) / 2 ^ sp.s_log_zone_size = x := fun x y hy => by
    rw [Nat.mul_comm, Nat.mul_add_div hpos, Nat.div_eq_of_lt hy, Nat.add_zero]
  have hzz : z = z' := by rw [← hdiv z i hi, he, hdiv z' j hj]
  subst hzz
  exact ⟨rfl, Nat.add_left_cancel he⟩

/-- The blocks of zones are in the data area. -/
theorem SuperBlock.Ok.firstBlock_le (hsp : sp.Ok) (hz : sp.HasZone z)
    (hi : i < 2 ^ sp.s_log_zone_size) : sp.firstBlock ≤ zoneBlock z sp.s_log_zone_size i := by
  rw [hsp.zoneBlock_eq hz hi]
  unfold SuperBlock.firstBlock
  exact (Nat.mul_le_mul_right _ hz.1).trans (Nat.le_add_right _ _)

theorem SuperBlock.Ok.zone_ne (hsp : sp.Ok) (hz : sp.HasZone z) : z ≠ NO_ZONE := by
  have := hz.1
  have := hsp.first
  unfold NO_ZONE
  omega

/-- A block of the data area is not `NO_BLOCK`. -/
theorem SuperBlock.Ok.block_ne (hsp : sp.Ok) (hz : sp.HasZone z)
    (hi : i < 2 ^ sp.s_log_zone_size) : zoneBlock z sp.s_log_zone_size i ≠ NO_BLOCK := by
  have hpos : 0 < sp.firstBlock := Nat.mul_pos hsp.first (Nat.two_pow_pos _)
  have := hsp.firstBlock_le hz hi
  unfold NO_BLOCK
  omega

/-- The blocks of other zones than those of a change are as they were. -/
theorem set_zoneBlock (hsp : sp.Ok) (hz : sp.HasZone z) (hz' : sp.HasZone z')
    (hi : i < 2 ^ sp.s_log_zone_size) (hj : j < 2 ^ sp.s_log_zone_size) (hne : z ≠ z' ∨ i ≠ j)
    (dev : ℕ) (data : Block) :
    L.set dev (zoneBlock z' sp.s_log_zone_size j) data dev (zoneBlock z sp.s_log_zone_size i) =
      L dev (zoneBlock z sp.s_log_zone_size i) :=
  Contents.set_of_ne fun e => by
    obtain ⟨hzz, hij⟩ := hsp.zoneBlock_inj hz hz' hi hj e.2
    exact hne.elim (fun h => h hzz) fun h => h hij

/-! ## Changes of the map -/

theorem entry_zero : entry sp L k NO_ZONE e = NO_ZONE := if_pos rfl

theorem entry_of_ne (hz : z ≠ NO_ZONE) :
    entry sp L k z e = bInd (L k (zoneBlock z sp.s_log_zone_size 0)) e := if_neg hz

/-- The entries of a zone are those of its first block. -/
theorem entry_congr {dev : ℕ} (h : z ≠ NO_ZONE → L' dev (zoneBlock z sp.s_log_zone_size 0) =
    L dev (zoneBlock z sp.s_log_zone_size 0)) : entry sp L' dev z e = entry sp L dev z e := by
  unfold entry
  split_ifs with hz
  · rfl
  · rw [h hz]

/-- The map of a file is as it was if its indirect blocks are. -/
theorem zoneRef_congr (hrip : rip'.i_zone = rip.i_zone) (hdev : rip'.i_dev = rip.i_dev)
    (hL : ∀ r, r.indirect = true → zoneRef sp L rip r ≠ NO_ZONE →
      L' rip.i_dev (zoneBlock (zoneRef sp L rip r) sp.s_log_zone_size 0) =
        L rip.i_dev (zoneBlock (zoneRef sp L rip r) sp.s_log_zone_size 0)) :
    zoneRef sp L' rip' = zoneRef sp L rip := by
  refine zoneRef_eq (fun r hr => ?_) fun r p e hr => ?_
  · rw [hrip, zoneRef_of_root hr]
  · rw [hdev, zoneRef_of_parent hr]
    exact entry_congr (hL p (Ref.parent_indirect hr))

/-- A zone number in the inode changes. -/
theorem zoneRef_root {r₀ : Ref} (hr₀ : r₀.parent = none) (hdata : r₀.indirect = false) :
    zoneRef sp L (rip.setZone r₀.slot z) = Function.update (zoneRef sp L rip) r₀ z := by
  refine zoneRef_eq (fun r hr => ?_) fun r p e hr => ?_
  · show Function.update rip.i_zone r₀.slot z r.slot = _
    by_cases hrr : r = r₀
    · rw [hrr, Function.update_self, Function.update_self]
    · rw [Function.update_of_ne fun e => hrr (Ref.slot_inj hr hr₀ e), Function.update_of_ne hrr,
        zoneRef_of_root hr]
  · have hp : p ≠ r₀ := fun e => by
      have := Ref.parent_indirect hr
      rw [e, hdata] at this
      exact absurd this (by decide)
    have hrr : r ≠ r₀ := fun e => by
      rw [e, hr₀] at hr
      exact absurd hr (by simp)
    rw [Function.update_of_ne hp, Function.update_of_ne hrr, zoneRef_of_parent hr]
    rfl

/-- The zone number in an indirect block changes, of a zone of the file itself. -/
theorem FileOk.zoneRef_entry (h : FileOk sp L rip) (hsp : sp.Ok) {r₀ : Ref}
    (hr₀ : r₀.parent = some (p, e)) (hdata : r₀.indirect = false)
    (hp : zoneRef sp L rip p ≠ NO_ZONE) (hz : z < 65536) (he : e < NR_INDIRECTS) :
    zoneRef sp (L.set rip.i_dev (zoneBlock (zoneRef sp L rip p) sp.s_log_zone_size 0)
        (setInd (L rip.i_dev (zoneBlock (zoneRef sp L rip p) sp.s_log_zone_size 0)) e z)) rip =
      Function.update (zoneRef sp L rip) r₀ z := by
  have hd : rip.i_dev ≠ NO_DEV := by
    rw [h.dev]
    exact hsp.dev
  have hpos := Nat.two_pow_pos sp.s_log_zone_size
  refine zoneRef_eq (fun r hr => ?_) fun r q e' hr => ?_
  · rw [Function.update_of_ne fun e => by rw [e, hr₀] at hr; exact absurd hr (by simp),
      zoneRef_of_root hr]
  · have hq : q ≠ r₀ := fun e => by
      have := Ref.parent_indirect hr
      rw [e, hdata] at this
      exact absurd this (by decide)
    rw [Function.update_of_ne hq]
    by_cases hqz : zoneRef sp L rip q = NO_ZONE
    · have hrr : r ≠ r₀ := fun e => by
        obtain ⟨rfl, -⟩ := Prod.mk.inj (Option.some.inj (hr₀.symm.trans (e ▸ hr)))
        exact hp hqz
      rw [hqz, entry_zero, Function.update_of_ne hrr, zoneRef_of_parent hr, hqz, entry_zero]
    · rw [entry_of_ne hqz]
      by_cases hqp : q = p
      · subst hqp
        rw [Contents.set_self hd, bInd_setInd he]
        by_cases hee : e' = e
        · subst hee
          rw [if_pos rfl, Ref.parent_inj hr hr₀, Function.update_self, Nat.mod_eq_of_lt hz]
        · have hrr : r ≠ r₀ := fun e => by
            obtain ⟨-, e⟩ := Prod.mk.inj (Option.some.inj (hr₀.symm.trans (e ▸ hr)))
            exact hee e.symm
          rw [if_neg hee, Function.update_of_ne hrr, zoneRef_of_parent hr, entry_of_ne hqz]
      · have hrr : r ≠ r₀ := fun e => by
          obtain ⟨e, -⟩ := Prod.mk.inj (Option.some.inj (hr₀.symm.trans (e ▸ hr)))
          exact hqp e.symm
        rw [set_zoneBlock hsp (h.zone q hqz).1 (h.zone p hp).1 hpos hpos
          (Or.inl fun e => hqp (h.inj q p hqz e)), Function.update_of_ne hrr, zoneRef_of_parent hr,
          entry_of_ne hqz]

/-- A clear indirect block is entered in the inode. -/
theorem FileOk.zoneRef_new_root (h : FileOk sp L rip) (hsp : sp.Ok) {r₀ : Ref}
    (hr₀ : r₀.parent = none) (h0 : zoneRef sp L rip r₀ = NO_ZONE) (hz : sp.HasZone z)
    (hnew : ∀ r, zoneRef sp L rip r ≠ z) :
    zoneRef sp (L.set rip.i_dev (zoneBlock z sp.s_log_zone_size 0) fun _ => 0)
      (rip.setZone r₀.slot z) = Function.update (zoneRef sp L rip) r₀ z := by
  have hd : rip.i_dev ≠ NO_DEV := by
    rw [h.dev]
    exact hsp.dev
  have hpos := Nat.two_pow_pos sp.s_log_zone_size
  refine zoneRef_eq (fun r hr => ?_) fun r q e hr => ?_
  · show Function.update rip.i_zone r₀.slot z r.slot = _
    by_cases hrr : r = r₀
    · rw [hrr, Function.update_self, Function.update_self]
    · rw [Function.update_of_ne fun e => hrr (Ref.slot_inj hr hr₀ e), Function.update_of_ne hrr,
        zoneRef_of_root hr]
  · have hrr : r ≠ r₀ := fun e => by
      rw [e, hr₀] at hr
      exact absurd hr (by simp)
    rw [Function.update_of_ne hrr, zoneRef_of_parent hr]
    show entry sp _ rip.i_dev _ e = _
    by_cases hq : q = r₀
    · rw [hq, Function.update_self, h0, entry_zero, entry_of_ne (hsp.zone_ne hz),
        Contents.set_self hd, bInd_zero]
      rfl
    · rw [Function.update_of_ne hq]
      exact entry_congr fun hqz => set_zoneBlock hsp (h.zone q hqz).1 hz hpos hpos
        (Or.inl (hnew q)) _ _

/-- A clear indirect block is entered in the double indirect block. -/
theorem FileOk.zoneRef_new_leaf (h : FileOk sp L rip) (hsp : sp.Ok) (hi : i < NR_INDIRECTS)
    (h0 : zoneRef sp L rip (.leaf i) = NO_ZONE) (hd : zoneRef sp L rip .double ≠ NO_ZONE)
    (hz : sp.HasZone z) (hnew : ∀ r, zoneRef sp L rip r ≠ z) :
    zoneRef sp ((L.set rip.i_dev (zoneBlock (zoneRef sp L rip .double) sp.s_log_zone_size 0)
        (setInd (L rip.i_dev (zoneBlock (zoneRef sp L rip .double) sp.s_log_zone_size 0)) i z)).set
        rip.i_dev (zoneBlock z sp.s_log_zone_size 0) fun _ => 0) rip =
      Function.update (zoneRef sp L rip) (.leaf i) z := by
  have hdev : rip.i_dev ≠ NO_DEV := by
    rw [h.dev]
    exact hsp.dev
  have hpos := Nat.two_pow_pos sp.s_log_zone_size
  have hdz := (h.zone _ hd).1
  have hz16 : z < 65536 := lt_of_lt_of_le hz.2
    ((Nat.le_mul_of_pos_right _ hpos).trans hsp.small.le)
  refine zoneRef_eq (fun r hr => ?_) fun r q e hr => ?_
  · rw [Function.update_of_ne fun e => by rw [e] at hr; exact absurd hr (by simp [Ref.parent]),
      zoneRef_of_root hr]
  · by_cases hq : q = .leaf i
    · have hrr : r ≠ .leaf i := fun e => by
        subst hq e
        exact absurd hr (by simp [Ref.parent])
      rw [hq, Function.update_self, Function.update_of_ne hrr, zoneRef_of_parent hr, hq, h0,
        entry_zero, entry_of_ne (hsp.zone_ne hz), Contents.set_self hdev, bInd_zero]
      rfl
    · rw [Function.update_of_ne hq]
      by_cases hqd : q = .double
      · subst hqd
        rw [entry_of_ne hd, set_zoneBlock hsp hdz hz hpos hpos (Or.inl (hnew _)),
          Contents.set_self hdev, bInd_setInd hi]
        by_cases hei : e = i
        · subst hei
          rw [if_pos rfl, Ref.parent_inj hr (show (Ref.leaf e).parent = _ from rfl), Function.update_self,
            Nat.mod_eq_of_lt hz16]
        · have hrr : r ≠ .leaf i := fun e' => by
            rw [e'] at hr
            exact hei (Prod.mk.inj (Option.some.inj hr)).2.symm
          rw [if_neg hei, Function.update_of_ne hrr, zoneRef_of_parent hr, entry_of_ne hd]
      · have hrr : r ≠ .leaf i := fun e' => by
          rw [e'] at hr
          exact hqd (Prod.mk.inj (Option.some.inj hr)).1.symm
        rw [Function.update_of_ne hrr, zoneRef_of_parent hr]
        refine entry_congr fun hqz => ?_
        rw [set_zoneBlock hsp (h.zone q hqz).1 hz hpos hpos (Or.inl (hnew q)),
          set_zoneBlock hsp (h.zone q hqz).1 hdz hpos hpos
            (Or.inl fun e' => hqd (h.inj q _ hqz e'))]

/-! ## Exclusive zones -/

/-- The zones of a file with one more zone. -/
theorem FileOk.update (h : FileOk sp L rip) {r₀ : Ref} (hdev : rip'.i_dev = rip.i_dev)
    (hm : zoneRef sp L' rip' = Function.update (zoneRef sp L rip) r₀ z) (hz : sp.HasZone z)
    (hnew : ∀ r, zoneRef sp L rip r ≠ z) (hused : used sp L' z = true)
    (hold : ∀ x, sp.HasZone x → used sp L x = true → used sp L' x = true) : FileOk sp L' rip' where
  dev := hdev.trans h.dev
  zone r hr := by
    rw [hm] at hr ⊢
    by_cases hrr : r = r₀
    · rw [hrr, Function.update_self]
      exact ⟨hz, hused⟩
    · rw [Function.update_of_ne hrr] at hr ⊢
      obtain ⟨hhas, hu⟩ := h.zone r hr
      exact ⟨hhas, hold _ hhas hu⟩
  inj r r' hr he := by
    rw [hm] at hr he
    by_cases hrr : r = r₀
    · by_cases hrr' : r' = r₀
      · rw [hrr, hrr']
      · rw [hrr, Function.update_self, Function.update_of_ne hrr'] at he
        exact absurd he.symm (hnew r')
    · rw [Function.update_of_ne hrr] at hr he
      by_cases hrr' : r' = r₀
      · rw [hrr', Function.update_self] at he
        exact absurd he (hnew r)
      · rw [Function.update_of_ne hrr'] at he
        exact h.inj r r' hr he

/-- The zones of a file whose map is as it was. -/
theorem FileOk.congr (h : FileOk sp L rip) (hdev : rip'.i_dev = rip.i_dev)
    (hm : zoneRef sp L' rip' = zoneRef sp L rip)
    (hold : ∀ r, zoneRef sp L rip r ≠ NO_ZONE → used sp L' (zoneRef sp L rip r) = true) :
    FileOk sp L' rip' where
  dev := hdev.trans h.dev
  zone r hr := by
    rw [hm] at hr ⊢
    exact ⟨(h.zone r hr).1, hold r hr⟩
  inj r r' hr he := by
    rw [hm] at hr he
    exact h.inj r r' hr he

/-! ## `read_map` -/

/-- The last part of `read_map`. -/
theorem Mounted.readSingle (h : Mounted sp s L) (hh : Holds sp s.held) (hdev : rip.i_dev ≠ NO_DEV)
    (z excess boff : ℕ) :
    ∃ c, Fs.readSingle s.cache rip.i_dev sp.s_log_zone_size z excess boff =
      some (if entry sp L rip.i_dev z excess = NO_ZONE then NO_BLOCK
        else zoneBlock (entry sp L rip.i_dev z excess) sp.s_log_zone_size boff, c) ∧
      Mounted sp ⟨c, s.held⟩ L := by
  unfold Fs.readSingle
  by_cases hz : z = NO_ZONE
  · rw [if_pos hz, hz, entry_zero, if_pos rfl]
    exact ⟨_, rfl, h⟩
  · obtain ⟨c, he, hm⟩ := h.indirEntry hh hdev (zoneBlock z sp.s_log_zone_size 0) excess
    rw [if_neg hz, he, entry_of_ne hz]
    exact ⟨c, rfl, hm⟩

/-- `read_map` finds the block of a position. -/
theorem Mounted.readMap (h : Mounted sp s L) (hh : Holds sp s.held) (hdev : rip.i_dev ≠ NO_DEV)
    (position : ℕ) :
    ∃ c, Fs.readMap s.cache rip sp.s_log_zone_size position = some (blockAt sp L rip position, c) ∧
      Mounted sp ⟨c, s.held⟩ L := by
  unfold Fs.readMap blockAt
  dsimp only
  show ∃ c, (if h : sp.zoneOf position < NR_DZONE_NUM then _ else _) = _ ∧ _
  by_cases hk : sp.zoneOf position < NR_DZONE_NUM
  · rw [dif_pos hk]
    refine ⟨s.cache, ?_, h⟩
    have : zoneRef sp L rip (.data (sp.zoneOf position)) =
        rip.i_zone ⟨sp.zoneOf position, hk.trans (by decide)⟩ := dif_pos hk
    rw [this]
    rfl
  · rw [dif_neg hk]
    by_cases hi : sp.zoneOf position - NR_DZONE_NUM < NR_INDIRECTS
    · obtain ⟨c, he, hm⟩ := h.readSingle hh hdev (rip.i_zone 7) (sp.zoneOf position - NR_DZONE_NUM)
        (sp.boff position)
      refine ⟨c, ?_, hm⟩
      have : zoneRef sp L rip (.data (sp.zoneOf position)) =
          entry sp L rip.i_dev (rip.i_zone 7) (sp.zoneOf position - NR_DZONE_NUM) :=
        zoneRef_of_parent (p := .single) (by rw [Ref.parent_data, if_neg hk, if_pos hi])
      rw [this, ← he]
      exact if_pos hi
    · have : zoneRef sp L rip (.data (sp.zoneOf position)) =
          entry sp L rip.i_dev (entry sp L rip.i_dev (rip.i_zone 8)
            ((sp.zoneOf position - NR_DZONE_NUM - NR_INDIRECTS) / NR_INDIRECTS))
            ((sp.zoneOf position - NR_DZONE_NUM - NR_INDIRECTS) % NR_INDIRECTS) :=
        zoneRef_of_parent (p := .leaf _) (by rw [Ref.parent_data, if_neg hk, if_neg hi])
      rw [this]
      show ∃ c, (if sp.zoneOf position - NR_DZONE_NUM < NR_INDIRECTS then _ else _) = _ ∧ _
      rw [if_neg hi]
      by_cases h8 : rip.i_zone 8 = NO_ZONE
      · rw [if_pos h8, h8, entry_zero, entry_zero, if_pos rfl]
        exact ⟨_, rfl, h⟩
      · obtain ⟨c, he, hm⟩ := h.indirEntry hh hdev (zoneBlock (rip.i_zone 8) sp.s_log_zone_size 0)
          ((sp.zoneOf position - NR_DZONE_NUM - NR_INDIRECTS) / NR_INDIRECTS)
        obtain ⟨c', he', hm'⟩ := hm.readSingle hh hdev (entry sp L rip.i_dev (rip.i_zone 8)
          ((sp.zoneOf position - NR_DZONE_NUM - NR_INDIRECTS) / NR_INDIRECTS))
          ((sp.zoneOf position - NR_DZONE_NUM - NR_INDIRECTS) % NR_INDIRECTS) (sp.boff position)
        refine ⟨c', ?_, hm'⟩
        rw [if_neg h8]
        show (Fs.indirEntry s.cache rip.i_dev (zoneBlock (rip.i_zone 8) sp.s_log_zone_size 0)
          ((sp.zoneOf position - NR_DZONE_NUM - NR_INDIRECTS) / NR_INDIRECTS)).bind _ = _
        rw [he, Option.bind_some, ← entry_of_ne h8]
        exact he'

end Minix.Fs
